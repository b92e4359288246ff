import MiniOs32.Kernel.Touched
import MiniOs32.Lib.Run

/-!
# User pointers and the page tables

The checks on user pointers work on bands of the address space; the page tables have holes in those bands. Along every
sequence of mode changes, driver mappings and program starts the present pages of the user window are the arena without its
guard page and an initial part of each band behind it. A call touches present pages only exactly when each range it touches
avoids the four holes.
-/

namespace MiniOs32

/-! ## The table walk -/

/-- One more page present. -/
theorem PageTables.present_mapPage (t : PageTables) (v u : Nat) :
    (t.mapPage v).present u = (decide (u / pageSize = v / pageSize) || t.present u) := by
  have hdiv : ∀ n, n / 2 ^ 21 = n / pageSize / 512 := fun n => by rw [Nat.div_div_eq_div_mul]; rfl
  unfold PageTables.present PageTables.mapPage
  by_cases hd : u / 2 ^ 21 = v / 2 ^ 21
  · rw [if_pos hd]
    have hpage : u / pageSize % 512 = v / pageSize % 512 ↔ u / pageSize = v / pageSize := by
      rw [hdiv, hdiv] at hd
      omega
    simp only [hpage]
    cases t (u / 2 ^ 21) <;> simp
  · rw [if_neg hd]
    have hpage : u / pageSize ≠ v / pageSize := fun h => hd (by rw [hdiv, hdiv, h])
    simp [hpage]

theorem pageSize_eq : pageSize = 4096 := rfl
theorem userBase_eq : userBase = 4194304 := rfl
theorem userSpaceSize_eq : userSpaceSize = 100663296 := rfl
theorem userFbOffset_eq : userFbOffset = 25165824 := rfl
theorem userFbSize_eq : userFbSize = 16777216 := rfl
theorem userStackGuardOff_eq : userStackGuardOff = 24113152 := rfl
theorem userMmioOffset_eq : userMmioOffset = 41943040 := rfl
theorem userMmioSize_eq : userMmioSize = 16777216 := rfl
theorem userDmaOffset_eq : userDmaOffset = 58720256 := rfl
theorem userDmaSize_eq : userDmaSize = 16777216 := rfl

/-- A run of pages more. -/
theorem PageTables.present_mapPages (n : Nat) : ∀ (t : PageTables) (v u : Nat),
    (t.mapPages v n).present u = true ↔
      t.present u = true ∨ (v / pageSize ≤ u / pageSize ∧ u / pageSize < v / pageSize + n) := by
  induction n with
  | zero => intro t v u; simp only [PageTables.mapPages]; exact ⟨Or.inl, fun h => h.resolve_right (by omega)⟩
  | succ n ih =>
    intro t v u
    have hnext : (v + pageSize) / pageSize = v / pageSize + 1 := Nat.add_div_right v (by decide)
    rw [PageTables.mapPages, ih, PageTables.present_mapPage, hnext, Bool.or_eq_true, decide_eq_true_eq]
    generalize u / pageSize = a
    generalize v / pageSize = b
    constructor
    · rintro ((h | h) | h)
      · exact Or.inr ⟨by omega, by omega⟩
      · exact Or.inl h
      · exact Or.inr ⟨by omega, by omega⟩
    · rintro (h | h)
      · exact Or.inl (Or.inr h)
      · rcases Nat.eq_or_lt_of_le h.1 with h4 | h4
        · exact Or.inl (Or.inl h4.symm)
        · exact Or.inr ⟨by omega, by omega⟩

/-- The pages of the arena but for the guard. -/
theorem PageTables.present_mapArena (n : Nat) : ∀ (t : PageTables) (off u : Nat), off % pageSize = 0 →
    ((t.mapArena off n).present u = true ↔ t.present u = true ∨
      ((userBase + off) / pageSize ≤ u / pageSize ∧ u / pageSize < (userBase + off) / pageSize + n ∧
        u / pageSize ≠ (userBase + userStackGuardOff) / pageSize)) := by
  induction n with
  | zero => intro t off u _; simp only [PageTables.mapArena]; exact ⟨Or.inl, fun h => h.resolve_right (by omega)⟩
  | succ n ih =>
    intro t off u hoff
    have hnext : (userBase + (off + pageSize)) / pageSize = (userBase + off) / pageSize + 1 := by
      rw [← Nat.add_assoc]; exact Nat.add_div_right _ (by decide)
    rw [PageTables.mapArena, ih _ _ _ (by rw [Nat.add_mod_right]; exact hoff), hnext]
    split
    · rename_i hguard
      rw [hguard]
      generalize (userBase + userStackGuardOff) / pageSize = g
      generalize u / pageSize = a
      exact or_congr_right ⟨fun h => ⟨by omega, by omega, h.2.2⟩, fun h => ⟨by omega, by omega, h.2.2⟩⟩
    · rename_i hguard
      have hne : (userBase + off) / pageSize ≠ (userBase + userStackGuardOff) / pageSize := by
        rw [pageSize_eq] at hoff ⊢
        rw [userStackGuardOff_eq] at hguard ⊢
        rw [userBase_eq]
        omega
      rw [PageTables.present_mapPage, Bool.or_eq_true, decide_eq_true_eq]
      revert hne
      generalize (userBase + userStackGuardOff) / pageSize = g
      generalize (userBase + off) / pageSize = b
      generalize u / pageSize = a
      intro hne
      constructor
      · rintro ((h | h) | h)
        · exact Or.inr ⟨by omega, by omega, by omega⟩
        · exact Or.inl h
        · exact Or.inr ⟨by omega, by omega, h.2.2⟩
      · rintro (h | ⟨h1, h2, h3⟩)
        · exact Or.inl (Or.inr h)
        · rcases Nat.eq_or_lt_of_le h1 with h4 | h4
          · exact Or.inl (Or.inl h4.symm)
          · exact Or.inr ⟨by omega, by omega, h3⟩

/-! ## What is mapped -/

/-- The offsets of the user window that are mapped: the arena without its guard page, and each band as far as its top. -/
def Paging.Mapped (s : Paging) (x : Nat) : Prop :=
  (x < userFbOffset ∧ ¬(userStackGuardOff ≤ x ∧ x < userStackGuardOff + pageSize)) ∨
  (userFbOffset ≤ x ∧ x < userFbOffset + s.fbTop) ∨
  (userMmioOffset ≤ x ∧ x < userMmioOffset + s.mmioTop) ∨
  (userDmaOffset ≤ x ∧ x < userDmaOffset + s.dmaTop)

/-- The page tables map what the tops say, the tops are whole pages inside their bands, and the kernel's counters are behind
them. -/
structure PagingInv (s : Paging) : Prop where
  tables : ∀ x < userSpaceSize, s.tables.present (userBase + x) = true ↔ s.Mapped x
  fb : s.fbTop ≤ userFbSize ∧ s.fbTop % pageSize = 0
  mmio : s.mmioTop ≤ userMmioSize ∧ s.mmioTop % pageSize = 0 ∧ s.mmioUsed ≤ s.mmioTop ∧ s.mmioUsed % pageSize = 0
  dma : s.dmaTop ≤ userDmaSize ∧ s.dmaTop % pageSize = 0 ∧ s.dmaUsed ≤ s.dmaTop ∧ s.dmaUsed % pageSize = 0

/-- The directory entries of the window are cleared first. -/
theorem present_cleared (t : PageTables) {x : Nat} (hx : x < userSpaceSize) :
    PageTables.present (fun i => if userBase / 2 ^ 21 ≤ i ∧ i < userBase / 2 ^ 21 + userSpaceSize / 2 ^ 21 then none else t i)
      (userBase + x) = false := by
  have hin : userBase / 2 ^ 21 ≤ (userBase + x) / 2 ^ 21 ∧
      (userBase + x) / 2 ^ 21 < userBase / 2 ^ 21 + userSpaceSize / 2 ^ 21 := by
    rw [userSpaceSize_eq] at hx ⊢
    rw [userBase_eq]
    omega
  simp only [PageTables.present, hin, and_self, if_true]

/-- Right after `map_user_space` the arena is mapped, but for the guard page, and nothing else. -/
theorem present_mapUserSpace (t : PageTables) {x : Nat} (hx : x < userSpaceSize) :
    t.mapUserSpace.present (userBase + x) = true ↔
      x < userFbOffset ∧ ¬(userStackGuardOff ≤ x ∧ x < userStackGuardOff + pageSize) := by
  unfold PageTables.mapUserSpace
  rw [PageTables.present_mapArena _ _ _ _ (Nat.zero_mod _), present_cleared t hx, or_iff_right Bool.false_ne_true, Nat.add_zero,
    pageSize_eq, userBase_eq, userFbOffset_eq, userStackGuardOff_eq]
  omega

theorem pagingInv_mapUserSpace (t : PageTables) : PagingInv ⟨t.mapUserSpace, 0, 0, 0, 0, 0⟩ := by
  refine ⟨fun x hx => ?_, ⟨Nat.zero_le _, Nat.zero_mod _⟩,
    ⟨Nat.zero_le _, Nat.zero_mod _, Nat.le_refl _, Nat.zero_mod _⟩, ⟨Nat.zero_le _, Nat.zero_mod _, Nat.le_refl _, Nat.zero_mod _⟩⟩
  rw [present_mapUserSpace t hx]
  unfold Paging.Mapped
  dsimp only
  omega

/-- Mapping more pages of a band, from a point already reached on. -/
theorem present_band (t : PageTables) (base used n x : Nat) {p : Prop} (hbase : base % pageSize = 0)
    (hused : used % pageSize = 0) (hx : t.present (userBase + x) = true ↔ p) :
    (t.mapPages (userBase + base + used) n).present (userBase + x) = true ↔
      p ∨ (base + used ≤ x ∧ x < base + used + n * pageSize) := by
  rw [PageTables.present_mapPages, hx]
  rw [pageSize_eq] at hbase hused ⊢
  rw [userBase_eq]
  exact or_congr_right (by omega)

/-- The band of a resource together with what is mapped next of it. -/
theorem band_union {base used top n x : Nat} (h : used ≤ top) :
    base ≤ x ∧ x < base + max top (used + n) ↔ (base ≤ x ∧ x < base + top) ∨ (base + used ≤ x ∧ x < base + used + n) := by
  omega

theorem pagesOf_mul_le {n b : Nat} (h : n ≤ b) (hb : b % pageSize = 0) : pagesOf n * pageSize ≤ b := by
  unfold pagesOf
  rw [pageSize_eq] at hb ⊢
  omega

/-- Mapping a framebuffer keeps the invariant. -/
theorem PagingInv.mapUserFramebuffer {s : Paging} (h : PagingInv s) (m : FbMode) : PagingInv (s.mapUserFramebuffer m) := by
  unfold Paging.mapUserFramebuffer
  split
  · rename_i hm
    simp only [FbMode.mappable, Bool.and_eq_true, decide_eq_true_eq] at hm
    have hle := pagesOf_mul_le hm.2 rfl
    have hmod : pagesOf m.bytes.toNat * pageSize % pageSize = 0 := Nat.mul_mod_left _ _
    obtain ⟨hfb, hfbm⟩ := h.fb
    refine ⟨fun x hx => ?_, ⟨max_le hfb hle, ?_⟩, h.mmio, h.dma⟩
    · have hband := present_band s.tables userFbOffset 0 (pagesOf m.bytes.toNat) x rfl rfl (h.tables x hx)
      rw [Nat.add_zero] at hband
      refine hband.trans ?_
      have hunion := @band_union userFbOffset 0 s.fbTop (pagesOf m.bytes.toNat * pageSize) x (Nat.zero_le _)
      rw [Nat.add_zero, Nat.zero_add] at hunion
      simp only [Paging.Mapped]
      rw [hunion]
      exact or_assoc.trans (or_congr_right or_right_comm)
    · rcases max_choice s.fbTop (pagesOf m.bytes.toNat * pageSize) with heq | heq <;> simp only [heq]
      · exact hfbm
      · exact hmod
  · exact h

/-- A band's top after more of it has been mapped. -/
theorem band_top {top used n size : Nat} (h : top ≤ size ∧ top % pageSize = 0 ∧ used ≤ top ∧ used % pageSize = 0)
    (hn : n ≤ size - used) (hm : n % pageSize = 0) :
    max top (used + n) ≤ size ∧ max top (used + n) % pageSize = 0 ∧ used + n ≤ max top (used + n) ∧ (used + n) % pageSize = 0 := by
  rw [pageSize_eq] at *
  omega

/-- `SYS_MAP_PHYS` keeps the invariant. -/
theorem PagingInv.sysMapPhys {s : Paging} (h : PagingInv s) (phys : U64) (size : U32) : PagingInv (s.sysMapPhys phys size) := by
  unfold Paging.sysMapPhys
  split
  · exact h
  · split
    · exact h
    · rename_i hspan
      have hmmio := h.mmio
      have hmod : physSpan phys size % pageSize = 0 := Nat.mul_mod_left _ _
      refine ⟨fun x hx => ?_, h.fb, band_top hmmio (Nat.not_lt.1 hspan) hmod, h.dma⟩
      refine (present_band s.tables userMmioOffset s.mmioUsed (pagesOf (phys.toNat % pageSize + size.toNat)) x rfl
        hmmio.2.2.2 (h.tables x hx)).trans ?_
      change s.Mapped x ∨ (userMmioOffset + s.mmioUsed ≤ x ∧ x < userMmioOffset + s.mmioUsed + physSpan phys size) ↔ _
      simp only [Paging.Mapped]
      rw [band_union hmmio.2.2.1]
      exact or_assoc.trans (or_congr_right (or_assoc.trans (or_congr_right or_right_comm)))

/-- The size `SYS_DMA_ALLOC` rounds to is whole pages. -/
theorem dmaSize_mod (ebx : U32) : (dmaSize ebx).toNat % pageSize = 0 := by
  rw [dmaSize, BitVec.toNat_and, show pageSize = 2 ^ 12 from rfl, Nat.and_mod_two_pow,
    show (~~~0xFFF#32).toNat % 2 ^ 12 = 0 from rfl, Nat.and_zero]

/-- `SYS_DMA_ALLOC` keeps the invariant. -/
theorem PagingInv.sysDmaAlloc {s : Paging} (h : PagingInv s) (ebx out : U32) : PagingInv (s.sysDmaAlloc ebx out) := by
  unfold Paging.sysDmaAlloc
  split
  · rename_i hg
    simp only [Paging.dmaGranted, Bool.and_eq_true, decide_eq_true_eq] at hg
    have hdma := h.dma
    have hmod := dmaSize_mod ebx
    refine ⟨fun x hx => ?_, h.fb, h.mmio, band_top hdma hg.1.2.2 hmod⟩
    refine (present_band s.tables userDmaOffset s.dmaUsed ((dmaSize ebx).toNat / pageSize) x rfl hdma.2.2.2
      (h.tables x hx)).trans ?_
    rw [Nat.div_mul_cancel (Nat.dvd_of_mod_eq_zero hmod)]
    simp only [Paging.Mapped]
    rw [band_union hdma.2.2.1]
    exact or_assoc.trans (or_congr_right (or_assoc.trans (or_congr_right or_assoc)))
  · exact h

/-- Every change of the memory map keeps the invariant. -/
theorem pagingInv_step (s : Paging) (op : MapOp) (h : PagingInv s) : PagingInv (s.step op) := by
  cases op with
  | framebuffer m => exact h.mapUserFramebuffer m
  | mapPhys phys size => exact h.sysMapPhys phys size
  | dmaAlloc ebx out => exact h.sysDmaAlloc ebx out
  | exec => exact ⟨h.tables, h.fb, ⟨h.mmio.1, h.mmio.2.1, Nat.zero_le _, rfl⟩, ⟨h.dma.1, h.dma.2.1, Nat.zero_le _, rfl⟩⟩

/-- The memory map after boot and any changes satisfies the invariant. -/
theorem pagingInv_run (t : PageTables) (m : FbMode) (ops : List MapOp) :
    PagingInv (runFrom Paging.step (Paging.init t m) ops) := by
  exact inv_runFrom_all PagingInv pagingInv_step ((pagingInv_mapUserSpace t).mapUserFramebuffer m) ops

/-! ## Ranges -/

/-- The page of a user offset is present. -/
def Paging.Present (s : Paging) (x : Nat) : Prop := x < userSpaceSize ∧ s.tables.present (userBase + x) = true

/-- Every byte of a range is on a present page. -/
def Paging.RangePresent (s : Paging) (r : UserRange) : Prop := ∀ j < r.len, s.Present ((r.off.toNat + j) % 2 ^ 32)

/-- A range stays clear of a hole, or the hole is empty. -/
def UserRange.Avoids (r : UserRange) (lo hi : Nat) : Prop := r.off.toNat + r.len ≤ lo ∨ hi ≤ r.off.toNat ∨ hi ≤ lo

/-- A range is empty, or ends where the last band does and avoids the guard page and what is left of the other two bands. -/
def Paging.Clear (s : Paging) (r : UserRange) : Prop :=
  0 < r.len → r.off.toNat + r.len ≤ userDmaOffset + s.dmaTop ∧
    r.Avoids userStackGuardOff (userStackGuardOff + pageSize) ∧
    r.Avoids (userFbOffset + s.fbTop) userMmioOffset ∧
    r.Avoids (userMmioOffset + s.mmioTop) userDmaOffset

/-- A range is on present pages exactly when it avoids the holes. -/
theorem PagingInv.rangePresent_iff {s : Paging} (h : PagingInv s) (r : UserRange) : s.RangePresent r ↔ s.Clear r := by
  have ho := r.off.isLt
  obtain ⟨hfb, -⟩ := h.fb
  obtain ⟨hmmio, -⟩ := h.mmio
  obtain ⟨hdma, -⟩ := h.dma
  rw [userFbSize_eq] at hfb
  rw [userMmioSize_eq] at hmmio
  rw [userDmaSize_eq] at hdma
  have hpresent : ∀ x, s.Present x ↔ x < userSpaceSize ∧ s.Mapped x := fun x => and_congr_right (fun hx => h.tables x hx)
  simp only [Paging.RangePresent, hpresent, Paging.Mapped, Paging.Clear, UserRange.Avoids, userSpaceSize_eq, userFbOffset_eq,
    userStackGuardOff_eq, pageSize_eq, userMmioOffset_eq, userDmaOffset_eq]
  constructor
  · intro hall hlen
    have hnowrap : r.off.toNat + r.len ≤ 2 ^ 32 := by
      by_contra hw
      have := (hall (2 ^ 32 - 1 - r.off.toNat) (by lia)).1
      rw [show r.off.toNat + (2 ^ 32 - 1 - r.off.toNat) = 2 ^ 32 - 1 by lia] at this
      lia
    -- any offset of the range is mapped
    have hat : ∀ x, r.off.toNat ≤ x → x < r.off.toNat + r.len → x < 100663296 ∧
        (x < 25165824 ∧ ¬(24113152 ≤ x ∧ x < 24113152 + 4096) ∨ 25165824 ≤ x ∧ x < 25165824 + s.fbTop ∨
          41943040 ≤ x ∧ x < 41943040 + s.mmioTop ∨ 58720256 ≤ x ∧ x < 58720256 + s.dmaTop) := by
      intro x h1 h2
      have := hall (x - r.off.toNat) (by lia)
      rwa [show (r.off.toNat + (x - r.off.toNat)) % 2 ^ 32 = x by lia] at this
    refine ⟨?_, ?_, ?_, ?_⟩
    · by_contra hc
      have := hat (max r.off.toNat (58720256 + s.dmaTop)) (by lia) (by lia)
      lia
    · by_contra hc
      have := hat (max r.off.toNat 24113152) (by lia) (by lia)
      lia
    · by_contra hc
      have := hat (max r.off.toNat (25165824 + s.fbTop)) (by lia) (by lia)
      lia
    · by_contra hc
      have := hat (max r.off.toNat (41943040 + s.mmioTop)) (by lia) (by lia)
      lia
  · intro hc j hj
    have := hc (by lia)
    rw [Nat.mod_eq_of_lt (by lia)]
    lia

/-! ## Calls -/

/-- Every user byte a call touches is on a present page, so the call does not fault in ring 0. -/
def NoFault (m : Machine) (um : UserMem) (c : UserCall) : Prop := ∀ r ∈ m.touched um c, (m.pagingAt c).RangePresent r

theorem pagingInv_pagingAt {m : Machine} (h : PagingInv m.paging) (c : UserCall) : PagingInv (m.pagingAt c) := by
  cases c with
  | dmaAlloc ebx out => exact h.sysDmaAlloc ebx out
  | gfxFbinfo off max =>
    simp only [Machine.pagingAt]
    split
    · exact h
    · exact h.mapUserFramebuffer m.mode
  | _ => exact h

/-- A call does not fault exactly when every range it touches avoids the holes. -/
theorem noFault_iff_clear {m : Machine} (h : PagingInv m.paging) (um : UserMem) (c : UserCall) :
    NoFault m um c ↔ ∀ r ∈ m.touched um c, (m.pagingAt c).Clear r :=
  forall_congr' (fun r => imp_congr_right (fun _ => (pagingInv_pagingAt h c).rangePresent_iff r))

/-- After boot in any mode and any mode changes, driver mappings and program starts, with any filesystem and any user memory:
a call does not fault in ring 0 exactly when every range it touches avoids the guard page and the unmapped ends of the three
bands. -/
theorem user_pointers_never_fault_iff_clear (t : PageTables) (mode : FbMode) (ops : List MapOp) (m : Machine)
    (hm : m.paging = runFrom Paging.step (Paging.init t mode) ops) (um : UserMem) (c : UserCall) :
    NoFault m um c ↔ ∀ r ∈ m.touched um c, (m.pagingAt c).Clear r :=
  noFault_iff_clear (hm ▸ pagingInv_run t mode ops) um c

/-- An 8-bit mode of 1024 by 768. -/
def bootMode : FbMode := ⟨1024#32, 768#32, 1024#32, 8#32, 0xE0000000#64⟩

/-- A machine after boot in that mode, with an empty disk. -/
def bootMachine : Machine :=
  { kernel := Kernel.fresh Dir.empty (Disk.blank 100#32 hundred_sectors)
    mode := bootMode
    cwd := []
    vbeCount := 0
    paging := runFrom Paging.step (Paging.init (fun _ => none) bootMode) [] }

/-- The rule at work: writing 16 bytes from the start of the arena to the screen does not fault. -/
theorem user_pointers_never_fault_iff_clear_write :
    NoFault bootMachine (fun _ => 0#8) (.write 1#32 0#32 16#32) := by
  refine (user_pointers_never_fault_iff_clear (fun _ => none) bootMode [] bootMachine rfl _ _).2 (fun r hr => ?_)
  obtain rfl : r = ⟨0#32, 16⟩ := by simpa [Machine.touched, checkedRange, userRangeOk, userFbOffset] using hr
  intro _
  refine ⟨?_, Or.inl ?_, Or.inl ?_, Or.inl ?_⟩ <;> simp [userDmaOffset, userMmioOffset, userStackGuardOff, userStackBottomOff,
    userFbOffset, userFbSize, userMmioSize, userStackSize, pageSize] <;> omega

/-- `SYS_WRITE` of one byte at the guard page passes the check and faults. -/
theorem user_pointers_never_fault_false :
    ¬∀ (t : PageTables) (mode : FbMode) (ops : List MapOp) (m : Machine),
      m.paging = runFrom Paging.step (Paging.init t mode) ops → ∀ (um : UserMem) (c : UserCall), NoFault m um c := by
  intro h
  have hno := h (fun _ => none) bootMode [] bootMachine rfl (fun _ => 0#8) (.write 1#32 24113152#32 1#32)
  have hinv : PagingInv bootMachine.paging := pagingInv_run (fun _ => none) bootMode []
  have hmem : (⟨24113152#32, 1⟩ : UserRange) ∈ bootMachine.touched (fun _ => 0#8) (.write 1#32 24113152#32 1#32) := by
    simp [Machine.touched, checkedRange, userRangeOk, userFbOffset]
  have hclear := ((noFault_iff_clear hinv _ _).1 hno _ hmem Nat.one_pos).2.1
  have hoff : (24113152#32).toNat = 24113152 := rfl
  simp only [UserRange.Avoids, userStackGuardOff_eq, pageSize_eq, hoff] at hclear
  omega

end MiniOs32
