import MiniOs32.Kernel.Frames
import MiniOs32.Theorems.UserPages

/-!
# Memory for devices arrives zeroed

`SYS_DMA_ALLOC` clears a block through the address that equals its frames'. That works where the tables of the process map the block
one to one, and the user window they do not: for every kernel that leaves its tables below the window, the arena of the blocks lies
in it (`dma_zeroed_false`), and the call clears the program's own memory. Where the arena lies above the window, and no frame of the
framebuffer in it, every call clears its block and nothing else (`dma_zeroed`).
-/

namespace MiniOs32

/-- A frame is in a block that starts at a physical address. -/
def inBlock (phys size : U32) (x : Nat) : Prop := phys.toNat ≤ x ∧ x < phys.toNat + size.toNat

/-- The physical bytes of the result of a call. -/
def resultBytes (m : FrameMap) (out : U32) : Set Nat :=
  {x | ∃ i < 8, m.translate (BitVec.ofNat 32 userBase + out + BitVec.ofNat 32 i) = some x}

/-- The pages that became tables. -/
def newTables (m m' : FrameMap) : Set Nat := {x | m.physFree.toNat ≤ x ∧ x < m'.physFree.toNat}

/-- The memory of the program: what its tables map from the start of its address space to the end of its stack. -/
def programBytes (m : FrameMap) : Set Nat := {x | ∃ off < userFbOffset, m.translate (BitVec.ofNat 32 (userBase + off)) = some x}

/-- A call that returned 0 cleared what it reports, and changed nothing else but its result and new tables. -/
structure Zeroed (s s' : ProcSpace) (c : DmaCall) (mem' : Frames) : Prop where
  block : ∀ x, inBlock s.dmaPhys (dmaSize c.ebx) x → mem' x = 0#8
  rest : ∀ x, mem' x ≠ c.mem x → inBlock s.dmaPhys (dmaSize c.ebx) x ∨ x ∈ resultBytes s'.map c.out ∨ x ∈ newTables s.map s'.map
  program : ∀ x ∈ programBytes s'.map, mem' x ≠ c.mem x → x ∈ resultBytes s'.map c.out

/-- Every call that returns 0, of calls in a row, with any memory between them. -/
def AllZeroed (s : ProcSpace) : List DmaCall → Prop
  | [] => True
  | c :: cs => ∀ s' mem' granted, s.sysDmaAlloc c.mem c.ebx c.out = some (s', mem', granted) →
      (granted = true → Zeroed s s' c mem') ∧ AllZeroed s' cs

namespace FrameMap

section Walk

variable {m : FrameMap} {page frame q : Nat} {frames : Nat → Nat} {n : Nat}

/-- One more page. -/
theorem frame_mapPage : (m.mapPage page frame).frame q = if q = page then some frame else m.frame q := by
  have hdirs : (m.mapPage page frame).dirs (q / 512) =
      if q / 512 = page / 512 then some fun j => if j = page % 512 then some frame else (m.dirs (q / 512)).bind fun pt => pt j
      else m.dirs (q / 512) := rfl
  rw [FrameMap.frame, FrameMap.frame, hdirs]
  by_cases hd : q / 512 = page / 512
  · rw [if_pos hd, Option.bind_some]
    beta_reduce
    by_cases hq : q % 512 = page % 512
    · rw [if_pos hq, if_pos (by omega)]
    · rw [if_neg hq, if_neg (by rintro rfl; exact hq rfl)]
  · rw [if_neg hd, if_neg (by rintro rfl; exact hd rfl)]

/-- A run of pages more. -/
theorem frame_mapPages :
    (m.mapPages page frames n).frame q = if page ≤ q ∧ q < page + n then some (frames (q - page)) else m.frame q := by
  induction n with
  | zero => rw [mapPages, if_neg (by omega)]
  | succ n ih =>
    rw [mapPages, frame_mapPage, ih]
    by_cases hq : q = page + n
    · rw [if_pos hq, if_pos (by omega), hq, Nat.add_sub_cancel_left]
    · rw [if_neg hq]
      by_cases hin : page ≤ q ∧ q < page + n
      · rw [if_pos hin, if_pos (by omega)]
      · rw [if_neg hin, if_neg (by omega)]

/-- The arena, but for the guard page. -/
theorem frame_mapArena {base : U32} : (m.mapArena base n).frame q =
    if userBase / pageSize ≤ q ∧ q < userBase / pageSize + n ∧ (q - userBase / pageSize) * pageSize ≠ userStackGuardOff then
      some (arenaFrame base (q - userBase / pageSize))
    else m.frame q := by
  induction n with
  | zero => rw [mapArena, if_neg (by lia)]
  | succ n ih =>
    rw [mapArena]
    by_cases hguard : n * pageSize = userStackGuardOff
    · rw [if_pos hguard, ih]
      by_cases hq : q = userBase / pageSize + n
      · rw [if_neg (by lia), if_neg]
        rintro ⟨-, -, h⟩
        rw [hq, Nat.add_sub_cancel_left] at h
        exact h hguard
      · by_cases hin : userBase / pageSize ≤ q ∧ q < userBase / pageSize + n ∧
            (q - userBase / pageSize) * pageSize ≠ userStackGuardOff
        · rw [if_pos hin, if_pos ⟨hin.1, by lia, hin.2.2⟩]
        · rw [if_neg hin, if_neg fun h => hin ⟨h.1, by lia, h.2.2⟩]
    · rw [if_neg hguard, frame_mapPage, ih]
      by_cases hq : q = userBase / pageSize + n
      · rw [if_pos hq, hq, Nat.add_sub_cancel_left, if_pos ⟨by lia, by lia, hguard⟩]
      · rw [if_neg hq]
        by_cases hin : userBase / pageSize ≤ q ∧ q < userBase / pageSize + n ∧
            (q - userBase / pageSize) * pageSize ≠ userStackGuardOff
        · rw [if_pos hin, if_pos ⟨hin.1, by lia, hin.2.2⟩]
        · rw [if_neg hin, if_neg fun h => hin ⟨h.1, by lia, h.2.2⟩]

/-- The window without its entries. -/
theorem frame_clearWindow : m.clearWindow.frame q = if 1024 ≤ q ∧ q < 25600 then none else m.frame q := by
  have hdirs : m.clearWindow.dirs (q / 512) = if 2 ≤ q / 512 ∧ q / 512 < 50 then none else m.dirs (q / 512) := rfl
  rw [FrameMap.frame, FrameMap.frame, hdirs]
  by_cases hq : 1024 ≤ q ∧ q < 25600
  · rw [if_pos (by omega), if_pos hq, Option.bind_none]
  · rw [if_neg (by omega), if_neg hq]

end Walk

section Growth

variable {m m' m'' : FrameMap} {page frame : Nat}

/-- The directory entries without a table. -/
def missing (m : FrameMap) : Nat := ((Finset.range 2048).filter fun i => (m.dirs i).isNone).card

/-- What mapping takes of `phys_free`: a page for each table that was missing. -/
structure Grows (m m' : FrameMap) : Prop where
  missing : m'.missing ≤ m.missing
  physFree : m'.physFree = m.physFree + BitVec.ofNat 32 ((m.missing - m'.missing) * pageSize)

theorem missing_le : m.missing ≤ 2048 := (Finset.card_filter_le _ _).trans (by simp)

theorem Grows.refl (m : FrameMap) : Grows m m := ⟨le_rfl, by simp⟩

theorem Grows.trans (h : Grows m m') (h' : Grows m' m'') : Grows m m'' := by
  refine ⟨h'.missing.trans h.missing, ?_⟩
  have hle := h.missing
  have hle' := h'.missing
  have hsum : m.missing - m''.missing = (m.missing - m'.missing) + (m'.missing - m''.missing) := by omega
  rw [h'.physFree, h.physFree, hsum, Nat.add_mul, BitVec.ofNat_add, BitVec.add_assoc]

/-- Far from the end of the address space, `phys_free` goes up by the size of the tables. -/
theorem Grows.toNat (h : Grows m m') (hm : m.physFree.toNat + 2048 * pageSize < 2 ^ 32) :
    m'.physFree.toNat = m.physFree.toNat + (m.missing - m'.missing) * pageSize := by
  have hpage : pageSize = 4096 := rfl
  have hle := missing_le (m := m)
  rw [h.physFree, BitVec.toNat_add, BitVec.toNat_ofNat, hpage]
  rw [hpage] at hm
  omega

/-- One page takes a table or none. -/
theorem grows_mapPage (hp : page < 2 ^ 20) : Grows m (m.mapPage page frame) := by
  have hdirs : ∀ i, (m.mapPage page frame).dirs i =
      if i = page / 512 then some fun j => if j = page % 512 then some frame else (m.dirs i).bind fun pt => pt j
      else m.dirs i := fun _ => rfl
  have hfilter : ((Finset.range 2048).filter fun i => ((m.mapPage page frame).dirs i).isNone) =
      ((Finset.range 2048).filter fun i => (m.dirs i).isNone).erase (page / 512) := by
    ext i
    rw [Finset.mem_erase, Finset.mem_filter, Finset.mem_filter, hdirs]
    by_cases hi : i = page / 512
    · simp [hi]
    · simp [hi]
  have hmissing : (m.mapPage page frame).missing =
      (((Finset.range 2048).filter fun i => (m.dirs i).isNone).erase (page / 512)).card := congrArg Finset.card hfilter
  cases htab : m.dirs (page / 512) with
  | none =>
    have hmem : page / 512 ∈ (Finset.range 2048).filter fun i => (m.dirs i).isNone := by
      rw [Finset.mem_filter, Finset.mem_range, htab]
      exact ⟨by omega, rfl⟩
    rw [Finset.card_erase_of_mem hmem] at hmissing
    have hpos : 0 < m.missing := Finset.card_pos.mpr ⟨_, hmem⟩
    have hone : m.missing - (m.mapPage page frame).missing = 1 := by
      rw [hmissing]
      exact Nat.sub_sub_self hpos
    refine ⟨hmissing.trans_le (Nat.sub_le _ _), ?_⟩
    rw [hone, mapPage, htab, Nat.one_mul]
    rfl
  | some pt =>
    have hmem : page / 512 ∉ (Finset.range 2048).filter fun i => (m.dirs i).isNone := by
      rw [Finset.mem_filter, htab]
      exact fun h => Bool.noConfusion h.2
    rw [Finset.erase_eq_of_notMem hmem] at hmissing
    refine ⟨hmissing.le, ?_⟩
    rw [hmissing, FrameMap.missing, Nat.sub_self, Nat.zero_mul, BitVec.add_zero, mapPage, htab]
    rfl

theorem grows_mapPages {frames : Nat → Nat} {n : Nat} (hp : page + n ≤ 2 ^ 20) : Grows m (m.mapPages page frames n) := by
  induction n with
  | zero => exact .refl m
  | succ n ih => exact (ih (by omega)).trans (grows_mapPage (by omega))

/-- Tables beyond the pages that are mapped stay as they are. -/
theorem dirs_mapPages {frames : Nat → Nat} {n i : Nat} (hi : page + n ≤ i * 512) : (m.mapPages page frames n).dirs i = m.dirs i := by
  induction n with
  | zero => rfl
  | succ n ih =>
    have hstep : (m.mapPages page frames (n + 1)).dirs i = (m.mapPages page frames n).dirs i := if_neg (by omega)
    rw [hstep, ih (by omega)]

theorem grows_mapArena {base : U32} {n : Nat} (hn : userBase / pageSize + n ≤ 2 ^ 20) : Grows m (m.mapArena base n) := by
  induction n with
  | zero => exact .refl m
  | succ n ih =>
    rw [mapArena]
    split
    · exact ih (by omega)
    · exact (ih (by omega)).trans (grows_mapPage (by omega))

end Growth

section Store

variable {m : FrameMap} {mem mem' : Frames} {a : U32} {bs : List Byte} {x n : Nat}

/-- A store returns where every address is mapped. -/
theorem store_isSome (h : ∀ i < bs.length, (m.translate (a + BitVec.ofNat 32 i)).isSome) : (m.store mem a bs).isSome := by
  induction bs generalizing mem a with
  | nil => rfl
  | cons b bs ih =>
    have h0 := h 0 (Nat.zero_lt_succ _)
    rw [BitVec.add_zero] at h0
    obtain ⟨y, hy⟩ := Option.isSome_iff_exists.mp h0
    rw [store_cons, hy, Option.bind_some]
    refine ih fun i hi => ?_
    have hi' := h (i + 1) (Nat.succ_lt_succ hi)
    rwa [Nat.add_comm, BitVec.ofNat_add, ← BitVec.add_assoc] at hi'

/-- And only there. -/
theorem isSome_of_store (h : m.store mem a bs = some mem') : ∀ i < bs.length, (m.translate (a + BitVec.ofNat 32 i)).isSome := by
  induction bs generalizing mem a with
  | nil => nofun
  | cons b bs ih =>
    rw [store_cons] at h
    obtain ⟨y, hy, hrest⟩ := Option.bind_eq_some_iff.mp h
    rintro (- | i) hi
    · rw [BitVec.add_zero, hy]
      rfl
    · have hi' := ih hrest i (Nat.lt_of_succ_lt_succ hi)
      rwa [BitVec.add_assoc, ← BitVec.ofNat_add, Nat.add_comm] at hi'

/-- A store leaves what none of its addresses is mapped to. -/
theorem store_frame (h : m.store mem a bs = some mem') (hx : ∀ i < bs.length, m.translate (a + BitVec.ofNat 32 i) ≠ some x) :
    mem' x = mem x := by
  induction bs generalizing mem a with
  | nil =>
    rw [store_nil, Option.some.injEq] at h
    rw [h]
  | cons b bs ih =>
    rw [store_cons] at h
    obtain ⟨y, hy, hrest⟩ := Option.bind_eq_some_iff.mp h
    have hne : x ≠ y := by
      rintro rfl
      refine hx 0 (Nat.zero_lt_succ _) ?_
      rw [BitVec.add_zero, hy]
    rw [ih hrest fun i hi => ?_, Function.update_of_ne hne]
    have hi' := hx (i + 1) (Nat.succ_lt_succ hi)
    rwa [Nat.add_comm, BitVec.ofNat_add, ← BitVec.add_assoc] at hi'

/-- Zeros stay zeros as more of them are stored. -/
theorem zero_keeps (h : m.zero mem a n = some mem') (hx : mem x = 0#8) : mem' x = 0#8 := by
  induction n generalizing mem a with
  | zero =>
    rw [zero, List.replicate_zero, store_nil, Option.some.injEq] at h
    rw [← h, hx]
  | succ n ih =>
    rw [zero, List.replicate_succ, store_cons] at h
    obtain ⟨y, hy, hrest⟩ := Option.bind_eq_some_iff.mp h
    refine ih hrest ?_
    by_cases hxy : x = y
    · rw [hxy, Function.update_self]
    · rw [Function.update_of_ne hxy, hx]

/-- What is cleared is zero. -/
theorem zero_at (h : m.zero mem a n = some mem') {i : Nat} (hi : i < n) (hx : m.translate (a + BitVec.ofNat 32 i) = some x) :
    mem' x = 0#8 := by
  induction n generalizing mem a i with
  | zero => omega
  | succ n ih =>
    rw [zero, List.replicate_succ, store_cons] at h
    obtain ⟨y, hy, hrest⟩ := Option.bind_eq_some_iff.mp h
    cases i with
    | zero =>
      rw [BitVec.add_zero, hy, Option.some.injEq] at hx
      refine zero_keeps hrest ?_
      rw [hx, Function.update_self]
    | succ i =>
      refine ih hrest (Nat.lt_of_succ_lt_succ hi) ?_
      rwa [BitVec.add_assoc, ← BitVec.ofNat_add, Nat.add_comm]

/-- An address in a page that is mapped to itself, if at all, is its own frame. -/
theorem translate_self (hself : ∀ f, m.frame (a.toNat / pageSize) = some f → f = a.toNat / pageSize) (h : m.translate a = some x) :
    x = a.toNat := by
  obtain ⟨f, hf, rfl⟩ := Option.map_eq_some_iff.mp h
  rw [hself f hf]
  exact Nat.div_add_mod' _ _

end Store

section Live

variable {m m' : FrameMap} {mem mem' : Frames} {page : Nat} {frames : Nat → Nat} {n x : Nat}

/-- The maps that `paging_init` leaves: above the user window every page is mapped to itself, if at all, and `phys_free` is there. -/
structure Above (m : FrameMap) : Prop where
  self : ∀ q f, 25600 ≤ q → q < 65536 → m.frame q = some f → f = q
  low : 25600 * pageSize ≤ m.physFree.toNat
  high : m.physFree.toNat + m.missing * pageSize < 65536 * pageSize

theorem Above.room (h : Above m) : m.physFree.toNat + 2048 * pageSize < 2 ^ 32 := by
  have hpage : pageSize = 4096 := rfl
  have hhigh := h.high
  have hroom : 2048 * pageSize = 8388608 := rfl
  rw [hpage] at hhigh
  omega

/-- Mapping below the end of the window keeps it so. -/
theorem Above.mapPages (h : Above m) (hp : page + n ≤ 25600) : Above (m.mapPages page frames n) := by
  have hpage : pageSize = 4096 := rfl
  have hle := missing_le (m := m)
  have hlow := h.low
  have hhigh := h.high
  have hgrows : Grows m (m.mapPages page frames n) := grows_mapPages (by omega)
  have hfree := hgrows.toNat h.room
  have hmissing := hgrows.missing
  rw [hpage] at hlow hhigh hfree
  refine ⟨fun q f hq hq' hf => ?_, ?_, ?_⟩
  · rw [frame_mapPages, if_neg (by omega)] at hf
    exact h.self q f hq hq' hf
  · rw [hpage]
    omega
  · rw [hpage]
    omega

/-- Mapping pages while paging is on writes to the new tables only. -/
theorem mapPagesLive_eq (h : Above m) (hp : page + n ≤ 25600) (hlive : m.mapPagesLive mem page frames n = some (m', mem')) :
    m' = m.mapPages page frames n ∧ ∀ x, mem' x ≠ mem x → x ∈ newTables m m' := by
  have hpage : pageSize = 4096 := rfl
  induction n generalizing m' mem' with
  | zero =>
    rw [mapPagesLive, Option.some.injEq, Prod.mk.injEq] at hlive
    obtain ⟨rfl, rfl⟩ := hlive
    exact ⟨rfl, fun x hx => absurd rfl hx⟩
  | succ n ih =>
    rw [mapPagesLive] at hlive
    obtain ⟨⟨m₁, mem₁⟩, h₁, hstep⟩ := Option.bind_eq_some_iff.mp hlive
    obtain ⟨rfl, hnew⟩ := ih (by lia) h₁
    have habove : Above (m.mapPages page frames n) := h.mapPages (by lia)
    have hlow := habove.low
    have hhigh := habove.high
    have hle := missing_le (m := m.mapPages page frames n)
    have hgrows : Grows (m.mapPages page frames n) (m.mapPages page frames (n + 1)) := grows_mapPage (by lia)
    have hfree := hgrows.toNat habove.room
    simp only [mapPageLive] at hstep
    rw [hpage] at hlow hhigh hfree
    split at hstep
    · rw [Option.some.injEq, Prod.mk.injEq] at hstep
      obtain ⟨rfl, rfl⟩ := hstep
      refine ⟨rfl, fun x hx => ⟨(hnew x hx).1, ?_⟩⟩
      have hlt := (hnew x hx).2
      rw [← FrameMap.mapPages, hfree]
      lia
    · rename_i htable
      obtain ⟨mem₂, hzero, heq⟩ := Option.map_eq_some_iff.mp hstep
      rw [Prod.mk.injEq] at heq
      obtain ⟨rfl, rfl⟩ := heq
      have hone : (m.mapPages page frames (n + 1)).physFree =
          (m.mapPages page frames n).physFree + BitVec.ofNat 32 pageSize := if_neg htable
      have htop : (m.mapPages page frames (n + 1)).physFree.toNat = (m.mapPages page frames n).physFree.toNat + 4096 := by
        rw [hone, hpage, BitVec.toNat_add, show (BitVec.ofNat 32 4096).toNat = 4096 from rfl]
        lia
      have hbefore := (show FrameMap.Grows m (m.mapPages page frames n) from grows_mapPages (by lia)).toNat h.room
      rw [hpage] at hbefore
      refine ⟨rfl, fun x hx => ?_⟩
      by_cases hx₁ : mem₁ x = mem x
      · have hcleared : ∃ i < pageSize, (m.mapPages page frames n).translate
            ((m.mapPages page frames n).physFree + BitVec.ofNat 32 i) = some x := by
          by_contra hno
          push Not at hno
          refine hx ((store_frame hzero fun i hi => hno i ?_).trans hx₁)
          rwa [List.length_replicate] at hi
        obtain ⟨i, hi, hi'⟩ := hcleared
        have haddr : ((m.mapPages page frames n).physFree + BitVec.ofNat 32 i).toNat =
            (m.mapPages page frames n).physFree.toNat + i := by
          rw [BitVec.toNat_add, BitVec.toNat_ofNat]
          lia
        have hself := translate_self (fun f hf => habove.self _ f (by rw [haddr, hpage]; lia) (by rw [haddr, hpage]; lia) hf) hi'
        change x ∈ newTables m (m.mapPages page frames (n + 1))
        exact ⟨by lia, by lia⟩
      · have hlt := (hnew x hx₁).2
        change x ∈ newTables m (m.mapPages page frames (n + 1))
        exact ⟨(hnew x hx₁).1, by lia⟩

end Live

end FrameMap

section Boot

variable {kernelEnd : U32} {fbEnabled : Bool} {fb : FbMode} {v : U32} {q : Nat}

/-- `align_up` clears the low bits of the next address but one page. -/
theorem pageUp_toNat (v : U32) : (pageUp v).toNat = (v.toNat + 4095) % 2 ^ 32 / 4096 * 4096 := by
  have hmask : ∀ x : U32, x &&& ~~~0xFFF#32 = (x >>> 12) <<< 12 := by
    intro x
    ext i hi
    interval_cases i <;> simp
  rw [pageUp, hmask, BitVec.toNat_shiftLeft, BitVec.toNat_ushiftRight, BitVec.toNat_add, Nat.shiftRight_eq_div_pow, Nat.shiftLeft_eq]
  rw [show (0xFFF#32).toNat = 4095 from rfl]
  omega

theorem physLimit_cases (base : U32) : (physLimit base).toNat = base.toNat + userArenaSize ∨
    physLimit base = base ∧ 2 ^ 32 ≤ base.toNat + userArenaSize := by
  have harena : (BitVec.ofNat 32 userArenaSize).toNat = userArenaSize := rfl
  have hlt : userArenaSize < 2 ^ 32 := by decide
  have hbase := base.isLt
  have hsum : (base + BitVec.ofNat 32 userArenaSize).toNat = (base.toNat + userArenaSize) % 2 ^ 32 := by
    rw [BitVec.toNat_add, harena]
  unfold physLimit
  split
  · rename_i h
    exact .inr ⟨rfl, by omega⟩
  · rename_i h
    exact .inl (by omega)

/-- With both arenas taken, `phys_free` is behind them, or at the end of the user window. -/
theorem physBehind_toNat {base : U32} (h : ArenaFits (pageUp (physLimit base))) :
    (physBehind base).toNat = max (((pageUp (physLimit base)).toNat + 16777216) % 2 ^ 32) 104857600 := by
  have hwindow : userBase + userSpaceSize = 104857600 := rfl
  have hfree : (pageUp (physLimit base) + BitVec.ofNat 32 userDmaSize).toNat =
      ((pageUp (physLimit base)).toNat + 16777216) % 2 ^ 32 := by
    rw [BitVec.toNat_add, show (BitVec.ofNat 32 userDmaSize).toNat = 16777216 from rfl]
  unfold physBehind
  rw [if_pos h]
  dsimp only
  by_cases hlt : (pageUp (physLimit base) + BitVec.ofNat 32 userDmaSize).toNat < userBase + userSpaceSize
  · rw [if_pos hlt, BitVec.toNat_ofNat]
    omega
  · rw [if_neg hlt]
    omega

/-- Where the arena of the blocks fits, it lies behind the arena of the program and ends in low memory, or it wraps. -/
theorem arena_of_fits {base : U32} (hmod : base.toNat % 4096 = 0) (h : ArenaFits (pageUp (physLimit base))) :
    (pageUp (physLimit base)).toNat % 4096 = 0 ∧ 104857600 ≤ (physBehind base).toNat ∧ (physBehind base).toNat ≤ 134217728 ∧
    ((pageUp (physLimit base)).toNat = base.toNat + 25165824 ∧ (pageUp (physLimit base)).toNat + 16777216 ≤ 134217728 ∧
      (pageUp (physLimit base)).toNat + 16777216 ≤ (physBehind base).toNat ∧
      ((pageUp (physLimit base)).toNat + 16777216 ≤ 104857600 → (physBehind base).toNat = 104857600) ∨
      2 ^ 32 ≤ (pageUp (physLimit base)).toNat + 16777216) := by
  have harena : userArenaSize = 25165824 := rfl
  have hdma : (BitVec.ofNat 32 userDmaSize).toNat = 16777216 := rfl
  have hlimit : kernelIdentityLimit = 134217728 := rfl
  have hup := pageUp_toNat (physLimit base)
  have hlow := base.isLt
  have hcases := physLimit_cases base
  have hbehind := physBehind_toNat h
  have hnowrap : (pageUp (physLimit base)).toNat + 16777216 < 2 ^ 32 →
      (pageUp (physLimit base)).toNat + 16777216 ≤ (physBehind base).toNat ∧
      ((pageUp (physLimit base)).toNat + 16777216 ≤ 104857600 → (physBehind base).toNat = 104857600) := by
    intro hlt
    rw [hbehind, Nat.mod_eq_of_lt hlt]
    exact ⟨le_max_left _ _, fun hle => max_eq_right hle⟩
  rw [ArenaFits, BitVec.toNat_add, hdma, hlimit] at h
  rw [harena] at hcases
  have hlim := (physLimit base).isLt
  have haligned : (physLimit base).toNat % 4096 = 0 := by
    rcases hcases with h' | ⟨h', -⟩
    · lia
    · rw [h', hmod]
  have hsame : (pageUp (physLimit base)).toNat = (physLimit base).toNat := by lia
  refine ⟨by lia, hbehind ▸ le_max_right _ _, hbehind ▸ max_le h (by decide), ?_⟩
  clear hbehind
  rcases hcases with h' | ⟨h', h''⟩
  · by_cases hwrap : 2 ^ 32 ≤ (pageUp (physLimit base)).toNat + 16777216
    · exact .inr hwrap
    · exact .inl ⟨by lia, by lia, hnowrap (by lia)⟩
  · have hbase := congrArg BitVec.toNat h'
    exact .inr (by lia)

/-- The number of a frame does not depend on `phys_free`. -/
theorem frame_physFree (m : FrameMap) (free : U32) (q : Nat) : FrameMap.frame { m with physFree := free } q = m.frame q := rfl

theorem frame_kernelTables : (kernelTables kernelEnd).frame q = if q < 32768 then some q else none := by
  have hpages : kernelIdentityLimit / pageSize = 32768 := rfl
  rw [kernelTables, FrameMap.frame_mapPages, hpages]
  by_cases hq : q < 32768
  · rw [if_pos ⟨Nat.zero_le _, by omega⟩, if_pos hq]
    rfl
  · rw [if_neg (by omega), if_neg hq]
    rfl

/-- The framebuffer window of the kernel leaves the pages below it, and those far above it. -/
theorem frame_gfxMapLfb {kernel proc : FrameMap} (hq : q < 65536 ∨ 81921 ≤ q) :
    (kernel.gfxMapLfb proc fb).frame q = proc.frame q := by
  have hbase : fbVirtBase / pageSize = 65536 := rfl
  have hsize : fbVirtSize = 67108864 := rfl
  unfold FrameMap.gfxMapLfb
  split
  · rfl
  · rename_i h
    have hbytes : fb.bytes.toNat ≤ 67108864 := by
      by_contra hbytes
      exact h (.inr (.inr (by omega)))
    rw [FrameMap.mapPhysAt, FrameMap.frame_mapPages, hbase, if_neg]
    · rfl
    · have hpage : pageSize = 4096 := rfl
      rw [pagesOf, hpage]
      omega

theorem frame_procTables (hq : q < 65536 ∨ 81921 ≤ q) :
    (procTables kernelEnd fbEnabled fb).frame q = if q < 32768 then some q else none := by
  unfold procTables
  split
  · rw [frame_gfxMapLfb hq, frame_physFree, frame_kernelTables]
  · rw [frame_physFree, frame_kernelTables]

theorem pagesOf_fb (h : fb.mappable = true) : pagesOf fb.bytes.toNat ≤ 4096 := by
  have hsize : userFbSize = 16777216 := rfl
  have hpage : pageSize = 4096 := rfl
  simp only [FbMode.mappable, Bool.and_eq_true, decide_eq_true_eq] at h
  rw [pagesOf, hpage]
  omega

/-- The pages of the process once paging is on: the framebuffer, the arena without its guard page, nothing else in the window, and
what the tables held outside it. -/
theorem frame_boot : (pagingInit kernelEnd fbEnabled fb).map.frame q =
    if fb.mappable = true ∧ 7168 ≤ q ∧ q < 7168 + pagesOf fb.bytes.toNat then some (FrameMap.lfbFrame fb.lfbPhys (q - 7168))
    else if 1024 ≤ q ∧ q < 7168 ∧ (q - 1024) * pageSize ≠ userStackGuardOff then
      some (FrameMap.arenaFrame (pagingInit kernelEnd fbEnabled fb).physBase (q - 1024))
    else if 1024 ≤ q ∧ q < 25600 then none
    else (procTables kernelEnd fbEnabled fb).frame q := by
  have hfb : (userBase + userFbOffset) / pageSize = 7168 := rfl
  have hbase : userBase / pageSize = 1024 := rfl
  have hpages : userFbOffset / pageSize = 6144 := rfl
  have harena : ∀ (m : FrameMap) (base : U32), (m.mapUserSpace base).frame q =
      if 1024 ≤ q ∧ q < 7168 ∧ (q - 1024) * pageSize ≠ userStackGuardOff then some (FrameMap.arenaFrame base (q - 1024))
      else if 1024 ≤ q ∧ q < 25600 then none else m.frame q := by
    intro m base
    rw [FrameMap.mapUserSpace, FrameMap.frame_mapArena, hbase, hpages, FrameMap.frame_clearWindow]
  rw [map_pagingInit, FrameMap.mapUserFramebuffer]
  by_cases hm : fb.mappable = true
  · rw [if_pos hm, FrameMap.frame_mapPages, hfb, harena, frame_physFree]
    simp only [hm, true_and]
  · rw [if_neg hm, harena, frame_physFree]
    simp only [hm, Bool.false_eq_true, false_and, if_false]

/-- The tables that the process's own pages take come behind both arenas. -/
theorem grows_boot : ∃ m : FrameMap, m.physFree = physBehind (pagingInit kernelEnd fbEnabled fb).physBase ∧
    FrameMap.Grows m (pagingInit kernelEnd fbEnabled fb).map := by
  have hfb : (userBase + userFbOffset) / pageSize = 7168 := rfl
  have hbase : userBase / pageSize = 1024 := rfl
  have hpages : userFbOffset / pageSize = 6144 := rfl
  rw [map_pagingInit, FrameMap.mapUserFramebuffer, FrameMap.mapUserSpace]
  generalize procTables kernelEnd fbEnabled fb = proc
  generalize physBehind (pagingInit kernelEnd fbEnabled fb).physBase = free
  generalize (pagingInit kernelEnd fbEnabled fb).physBase = base
  refine ⟨FrameMap.clearWindow { proc with physFree := free }, rfl, ?_⟩
  have harena : FrameMap.Grows (FrameMap.clearWindow { proc with physFree := free })
      ((FrameMap.clearWindow { proc with physFree := free }).mapArena base (userFbOffset / pageSize)) :=
    FrameMap.grows_mapArena (by rw [hbase, hpages]; decide)
  by_cases hm : fb.mappable = true
  · have hle := pagesOf_fb hm
    rw [if_pos hm]
    exact harena.trans (FrameMap.grows_mapPages (by rw [hfb]; omega))
  · rw [if_neg hm]
    exact harena

end Boot

section Calls

variable {kernelEnd : U32} {fbEnabled : Bool} {fb : FbMode} {s s' : ProcSpace} {mem mem' : Frames} {ebx out : U32}

/-- What calls in a row keep, from `paging_init` on. -/
structure Handed (b s : ProcSpace) : Prop where
  base : s.arenaBase = b.arenaBase
  above : FrameMap.Above s.map
  below : ∀ q < 15360, s.map.frame q = b.map.frame q
  top : ∀ q, 81921 ≤ q → s.map.frame q = none
  used : s.dmaUsed.toNat ≤ 16777216 ∧ s.dmaUsed.toNat % 4096 = 0
  fits : s.dmaUsed = 0#32 ∨ b.arenaBase.toNat + 16777216 ≤ 134217728
  behind : b.arenaBase.toNat + 16777216 ≤ 134217728 → b.arenaBase.toNat + 16777216 ≤ s.map.physFree.toNat

/-- A granted call maps the block, clears it, and stores the result. -/
theorem sysDmaAlloc_granted (h : s.sysDmaAlloc mem ebx out = some (s', mem', true)) :
    s.dmaGranted ebx out = true ∧ s' = { s with map := s'.map, dmaUsed := s.dmaUsed + dmaSize ebx } ∧ ∃ mem₁ mem₂,
      s.map.mapPagesLive mem ((userBase + s.dmaUser.toNat) / pageSize) s.dmaFrame ((dmaSize ebx).toNat / pageSize) = some (s'.map, mem₁) ∧
      s'.map.zero mem₁ s.dmaPhys (dmaSize ebx).toNat = some mem₂ ∧
      s'.map.store mem₂ (BitVec.ofNat 32 userBase + out) (le32 s.dmaUser ++ le32 s.dmaPhys) = some mem' := by
  unfold ProcSpace.sysDmaAlloc at h
  split at h
  · rename_i hg
    obtain ⟨⟨m₁, mem₁⟩, h₁, h⟩ := Option.bind_eq_some_iff.mp h
    obtain ⟨mem₂, h₂, h⟩ := Option.bind_eq_some_iff.mp h
    obtain ⟨mem₃, h₃, h⟩ := Option.map_eq_some_iff.mp h
    simp only [Prod.mk.injEq, and_true] at h
    obtain ⟨rfl, rfl⟩ := h
    exact ⟨hg, rfl, mem₁, mem₂, h₁, h₂, h₃⟩
  · simp at h

/-- The sizes of a granted call. -/
theorem granted_sizes (hg : s.dmaGranted ebx out = true) (hused : s.dmaUsed.toNat ≤ 16777216) :
    0 < (dmaSize ebx).toNat ∧ (dmaSize ebx).toNat % 4096 = 0 ∧ s.dmaUsed.toNat + (dmaSize ebx).toNat ≤ 16777216 ∧
    (userBase + s.dmaUser.toNat) / pageSize = 15360 + s.dmaUsed.toNat / 4096 ∧ userRangeOk out 8#32 = true := by
  have hdma : userDmaSize = 16777216 := rfl
  have hoff : (BitVec.ofNat 32 userDmaOffset).toNat = 58720256 := rfl
  have hbase : userBase = 4194304 := rfl
  have hpage : pageSize = 4096 := rfl
  have hmod := dmaSize_mod ebx
  have huser : s.dmaUser.toNat = 58720256 + s.dmaUsed.toNat := by
    rw [ProcSpace.dmaUser, BitVec.toNat_add, hoff, Nat.mod_eq_of_lt (by lia)]
  simp only [ProcSpace.dmaGranted, Bool.and_eq_true, decide_eq_true_eq] at hg
  obtain ⟨⟨hpos, -, hfit⟩, hrange⟩ := hg
  rw [hpage] at hmod
  rw [hdma] at hfit
  refine ⟨Nat.pos_of_ne_zero hpos, hmod, by lia, ?_, hrange⟩
  rw [huser, hbase, hpage]
  clear hfit hdma hoff hbase hpage hmod
  lia

/-- What `paging_init` decides about the arena of the blocks. -/
theorem arenaBase_where (h : (pagingInit kernelEnd fbEnabled fb).arenaBase ≠ 0#32) :
    (pagingInit kernelEnd fbEnabled fb).arenaBase.toNat % 4096 = 0 ∧
    104857600 ≤ (physBehind (pagingInit kernelEnd fbEnabled fb).physBase).toNat ∧
    (physBehind (pagingInit kernelEnd fbEnabled fb).physBase).toNat ≤ 134217728 ∧
    ((pagingInit kernelEnd fbEnabled fb).arenaBase.toNat = (pagingInit kernelEnd fbEnabled fb).physBase.toNat + 25165824 ∧
      (pagingInit kernelEnd fbEnabled fb).arenaBase.toNat + 16777216 ≤ 134217728 ∧
      (pagingInit kernelEnd fbEnabled fb).arenaBase.toNat + 16777216 ≤ (physBehind (pagingInit kernelEnd fbEnabled fb).physBase).toNat ∧
      ((pagingInit kernelEnd fbEnabled fb).arenaBase.toNat + 16777216 ≤ 104857600 →
        (physBehind (pagingInit kernelEnd fbEnabled fb).physBase).toNat = 104857600) ∨
      2 ^ 32 ≤ (pagingInit kernelEnd fbEnabled fb).arenaBase.toNat + 16777216) := by
  have hmod : (pagingInit kernelEnd fbEnabled fb).physBase.toNat % 4096 = 0 := by
    rw [physBase_pagingInit, pageUp_toNat]
    exact Nat.mul_mod_left _ _
  have hbase := arenaBase_pagingInit kernelEnd fbEnabled fb
  have hfits : ArenaFits (pageUp (physLimit (pagingInit kernelEnd fbEnabled fb).physBase)) := by
    by_contra hno
    rw [hbase, if_neg hno] at h
    exact h rfl
  rw [if_pos hfits] at hbase
  have hwhere := arena_of_fits hmod hfits
  rwa [← hbase] at hwhere

/-- The tables behind both arenas have room below the framebuffer window of the kernel. -/
theorem handed_boot (h : (pagingInit kernelEnd fbEnabled fb).arenaBase ≠ 0#32) :
    Handed (pagingInit kernelEnd fbEnabled fb) (pagingInit kernelEnd fbEnabled fb) := by
  have hpage : pageSize = 4096 := rfl
  obtain ⟨hal, hlow, hhigh, hwhere⟩ := arenaBase_where h
  obtain ⟨m, hm, hgrows⟩ := @grows_boot kernelEnd fbEnabled fb
  have hmissing := hgrows.missing
  have hle := FrameMap.missing_le (m := m)
  have hroom : 2048 * pageSize = 8388608 := rfl
  have hfree := hgrows.toNat (by rw [hm]; omega)
  rw [hm, hpage] at hfree
  have hlater : ∀ q, 25600 ≤ q → (pagingInit kernelEnd fbEnabled fb).map.frame q = (procTables kernelEnd fbEnabled fb).frame q := by
    intro q hq
    rw [frame_boot, if_neg, if_neg (by omega), if_neg (by omega)]
    rintro ⟨hm, hle, hlt⟩
    have hpages := pagesOf_fb hm
    omega
  refine ⟨rfl, ⟨fun q f hq hq' hf => ?_, ?_, ?_⟩, fun _ _ => rfl, fun q hq => ?_, ⟨by simp [dmaUsed_pagingInit], by simp [dmaUsed_pagingInit]⟩,
    .inl (dmaUsed_pagingInit ..), ?_⟩
  · rw [hlater q hq, frame_procTables (.inl hq')] at hf
    split at hf
    · exact (Option.some.inj hf).symm
    · cases hf
  · rw [hpage]
    omega
  · rw [hpage]
    omega
  · rw [hlater q (by omega), frame_procTables (.inr hq), if_neg (by omega)]
  · intro hend
    omega

/-- The frames of the arena are in a row. -/
theorem arenaFrame_eq {base : U32} {k : Nat} (hmod : base.toNat % 4096 = 0) (h : base.toNat + k * 4096 < 2 ^ 32) :
    FrameMap.arenaFrame base k = base.toNat / 4096 + k := by
  have hpage : pageSize = 4096 := rfl
  have hk : (BitVec.ofNat 32 (k * 4096)).toNat = k * 4096 := by
    rw [BitVec.toNat_ofNat, Nat.mod_eq_of_lt (by omega)]
  rw [FrameMap.arenaFrame, hpage, BitVec.toNat_add, hk, Nat.mod_eq_of_lt h]
  omega

/-- Where a user address in the bands a pointer may name is in physical memory: in the arena of the program, or in the framebuffer. -/
theorem translate_user {b : ProcSpace} (hb : b = pagingInit kernelEnd fbEnabled fb) (hbase : b.physBase.toNat + 25165824 < 2 ^ 32)
    (hbelow : ∀ q < 15360, s.map.frame q = b.map.frame q) {a : U32} {x : Nat} (hlow : 4194304 ≤ a.toNat) (hhigh : a.toNat < 46137344)
    (h : s.map.translate a = some x) :
    a.toNat < 29360128 ∧ b.physBase.toNat ≤ x ∧ x < b.physBase.toNat + 25165824 ∨
    29360128 ≤ a.toNat ∧ fb.mappable = true ∧ ∃ k < pagesOf fb.bytes.toNat, x / 4096 = FrameMap.lfbFrame fb.lfbPhys k := by
  have hpage : pageSize = 4096 := rfl
  have hmod : b.physBase.toNat % 4096 = 0 := by
    rw [hb, physBase_pagingInit, pageUp_toNat]
    exact Nat.mul_mod_left _ _
  obtain ⟨f, hf, rfl⟩ := Option.map_eq_some_iff.mp h
  rw [hpage] at hf ⊢
  rw [hbelow _ (by omega), hb, frame_boot, ← hb] at hf
  split at hf
  · rename_i hfb
    right
    rw [Option.some.injEq] at hf
    exact ⟨by omega, hfb.1, a.toNat / 4096 - 7168, by omega, by omega⟩
  · split at hf
    · rename_i harena
      rw [Option.some.injEq, arenaFrame_eq hmod (by omega)] at hf
      left
      omega
    · split at hf
      · cases hf
      · omega

/-- What a granted call finds: the block in low memory, where it is mapped to itself, and the tables as mapped by the call. -/
theorem Handed.granted {b : ProcSpace} (hb : Handed b s)
    (hwhere : b.arenaBase.toNat + 16777216 ≤ 134217728 ∨ 2 ^ 32 ≤ b.arenaBase.toNat + 16777216)
    (hcall : s.sysDmaAlloc mem ebx out = some (s', mem', true)) :
    b.arenaBase.toNat + 16777216 ≤ 134217728 ∧ Handed b s' ∧ s.dmaPhys.toNat = b.arenaBase.toNat + s.dmaUsed.toNat := by
  have hpage : pageSize = 4096 := rfl
  obtain ⟨hg, hs', mem₁, mem₂, hlive, hzero, -⟩ := sysDmaAlloc_granted hcall
  obtain ⟨hpos, hmod, hfit, hvirt, -⟩ := granted_sizes hg hb.used.1
  have hused := hb.used.2
  rw [hvirt, hpage] at hlive
  obtain ⟨hmap, -⟩ := FrameMap.mapPagesLive_eq hb.above (by lia) hlive
  have htop : ∀ q, 81921 ≤ q → s'.map.frame q = none := by
    intro q hq
    rw [hmap, FrameMap.frame_mapPages, if_neg (by lia)]
    exact hb.top q hq
  have hend : b.arenaBase.toNat + 16777216 ≤ 134217728 := by
    rcases hb.fits with hzero' | hend
    · rcases hwhere with hend | hwrap
      · exact hend
      · -- A first block at the end of the address space is not mapped.
        have hfirst := FrameMap.isSome_of_store hzero 0 (by rw [List.length_replicate]; exact hpos)
        have hphys : s.dmaPhys = b.arenaBase := by rw [ProcSpace.dmaPhys, hzero', hb.base, BitVec.add_zero]
        have hlt := b.arenaBase.isLt
        rw [BitVec.add_zero, hphys, FrameMap.translate, hpage, htop _ (by lia)] at hfirst
        cases hfirst
    · exact hend
  have hphys : s.dmaPhys.toNat = b.arenaBase.toNat + s.dmaUsed.toNat := by
    rw [ProcSpace.dmaPhys, BitVec.toNat_add, hb.base]
    lia
  have hgrows : FrameMap.Grows s.map s'.map := by
    rw [hmap]
    exact FrameMap.grows_mapPages (by lia)
  have hfree := hgrows.toNat hb.above.room
  have hbehind := hb.behind hend
  rw [hpage] at hfree
  have hused' : s'.dmaUsed.toNat = s.dmaUsed.toNat + (dmaSize ebx).toNat := by
    rw [hs', BitVec.toNat_add]
    lia
  refine ⟨hend, ⟨?_, ?_, fun q hq => ?_, htop, ⟨by lia, by lia⟩, .inr hend, fun _ => by lia⟩, hphys⟩
  · rw [hs']
    exact hb.base
  · rw [hmap]
    exact hb.above.mapPages (by lia)
  · rw [hmap, FrameMap.frame_mapPages, if_neg (by lia)]
    exact hb.below q hq

/-- The condition: the arena of the blocks lies above the user window, and no frame of the framebuffer in it. -/
def ArenaAbove (b : ProcSpace) (fb : FbMode) : Prop :=
  userBase + userSpaceSize ≤ b.arenaBase.toNat ∧ (fb.mappable = true → ∀ k < pagesOf fb.bytes.toNat,
    FrameMap.lfbFrame fb.lfbPhys k < b.arenaBase.toNat / pageSize ∨
      (b.arenaBase.toNat + userDmaSize) / pageSize ≤ FrameMap.lfbFrame fb.lfbPhys k)

/-- The bytes of the result lie outside the arena of the blocks. -/
theorem resultBytes_outside {b : ProcSpace} (hb : b = pagingInit kernelEnd fbEnabled fb)
    (hbase : b.arenaBase.toNat = b.physBase.toNat + 25165824) (hend : b.arenaBase.toNat + 16777216 ≤ 134217728)
    (hal : b.arenaBase.toNat % 4096 = 0) (habove : ArenaAbove b fb) (hbelow : ∀ q < 15360, s.map.frame q = b.map.frame q)
    (hrange : userRangeOk out 8#32 = true) {x : Nat} (hx : x ∈ resultBytes s.map out) :
    x < b.arenaBase.toNat ∨ b.arenaBase.toNat + 16777216 ≤ x := by
  have hpage : pageSize = 4096 := rfl
  have hdma : userDmaSize = 16777216 := rfl
  have hoff : userFbOffset = 25165824 := rfl
  have hsize : userFbSize = 16777216 := rfl
  have huser : (BitVec.ofNat 32 userBase).toNat = 4194304 := rfl
  have height : (8#32 : U32).toNat = 8 := rfl
  have hlt : out.toNat + 8 ≤ 41943040 := by
    unfold userRangeOk at hrange
    rw [hoff, hsize, height] at hrange
    split at hrange
    · rw [decide_eq_true_eq] at hrange
      lia
    · split at hrange
      · cases hrange
      · rw [decide_eq_true_eq] at hrange
        omega
  obtain ⟨i, hi, htr⟩ := hx
  have haddr : (BitVec.ofNat 32 userBase + out + BitVec.ofNat 32 i).toNat = 4194304 + out.toNat + i := by
    rw [BitVec.toNat_add, BitVec.toNat_add, huser, BitVec.toNat_ofNat]
    lia
  rcases translate_user hb (by lia) hbelow (by lia) (by lia) htr with ⟨-, -, hlow⟩ | ⟨-, hm, k, hk, hframe⟩
  · lia
  · have hout := habove.2 hm k hk
    rw [hpage, hdma] at hout
    lia

/-- A granted call clears its block and nothing else. -/
theorem Handed.zeroed {b : ProcSpace} (hb : b = pagingInit kernelEnd fbEnabled fb) (h : Handed b s) (habove : ArenaAbove b fb)
    (hne : b.arenaBase ≠ 0#32) (hcall : s.sysDmaAlloc mem ebx out = some (s', mem', true)) : Zeroed s s' ⟨mem, ebx, out⟩ mem' := by
  have hpage : pageSize = 4096 := rfl
  obtain ⟨hal, -, -, hwhere⟩ := arenaBase_where (hb ▸ hne)
  rw [← hb] at hal hwhere
  obtain ⟨hend, hnext, hphys⟩ := h.granted (by lia) hcall
  obtain ⟨hbase, -⟩ := hwhere.resolve_right (by lia)
  obtain ⟨hg, -, mem₁, mem₂, hlive, hzero, hstore⟩ := sysDmaAlloc_granted hcall
  obtain ⟨hpos, hmod, hfit, hvirt, hrange⟩ := granted_sizes hg h.used.1
  rw [hvirt, hpage] at hlive
  obtain ⟨-, hnew⟩ := FrameMap.mapPagesLive_eq h.above (by lia) hlive
  have hwindow : userBase + userSpaceSize = 104857600 := rfl
  have hlow := habove.1
  rw [hwindow] at hlow
  have haddr : ∀ i < (dmaSize ebx).toNat, (s.dmaPhys + BitVec.ofNat 32 i).toNat = s.dmaPhys.toNat + i := by
    intro i hi
    rw [BitVec.toNat_add, BitVec.toNat_ofNat]
    lia
  have hself : ∀ i < (dmaSize ebx).toNat, ∀ x, s'.map.translate (s.dmaPhys + BitVec.ofNat 32 i) = some x → x = s.dmaPhys.toNat + i := by
    intro i hi x hx
    rw [← haddr i hi]
    refine FrameMap.translate_self (fun f hf => hnext.above.self _ f ?_ ?_ hf) hx
    · rw [haddr i hi, hpage]
      lia
    · rw [haddr i hi, hpage]
      lia
  have hresult : ∀ x, x ∉ resultBytes s'.map out → mem' x = mem₂ x := by
    intro x hx
    refine FrameMap.store_frame hstore fun i hi htr => hx ⟨i, ?_, htr⟩
    rwa [List.length_append, le32_length, le32_length] at hi
  have hcleared : ∀ x, ¬inBlock s.dmaPhys (dmaSize ebx) x → mem₂ x = mem₁ x := by
    intro x hx
    refine FrameMap.store_frame hzero fun i hi htr => hx ?_
    rw [List.length_replicate] at hi
    have hxi := hself i hi x htr
    exact ⟨by lia, by lia⟩
  have houtside : ∀ x ∈ resultBytes s'.map out, ¬inBlock s.dmaPhys (dmaSize ebx) x := by
    rintro x hx ⟨h₁, h₂⟩
    have := resultBytes_outside hb hbase hend hal habove hnext.below hrange hx
    lia
  have hrest : ∀ x, mem' x ≠ mem x → inBlock s.dmaPhys (dmaSize ebx) x ∨ x ∈ resultBytes s'.map out ∨ x ∈ newTables s.map s'.map := by
    intro x hx
    by_cases hr : x ∈ resultBytes s'.map out
    · exact .inr (.inl hr)
    · by_cases hblock : inBlock s.dmaPhys (dmaSize ebx) x
      · exact .inl hblock
      · refine .inr (.inr (hnew x fun heq => hx ?_))
        rw [hresult x hr, hcleared x hblock, heq]
  refine ⟨fun x hx => ?_, hrest, fun x hx hchanged => ?_⟩
  · rw [hresult x fun hr => houtside x hr hx]
    obtain ⟨i, rfl⟩ := Nat.exists_eq_add_of_le hx.1
    have hi : i < (dmaSize ebx).toNat := by
      have hlt : s.dmaPhys.toNat + i < s.dmaPhys.toNat + (dmaSize ebx).toNat := hx.2
      lia
    obtain ⟨y, hy⟩ := Option.isSome_iff_exists.mp (FrameMap.isSome_of_store hzero i (by rwa [List.length_replicate]))
    refine FrameMap.zero_at hzero hi ?_
    rw [hy, hself i hi y hy]
  · obtain ⟨off, hoff, htr⟩ := hx
    have hsize : userFbOffset = 25165824 := rfl
    have hbase' : userBase = 4194304 := rfl
    rw [hsize] at hoff
    have hoffset : (BitVec.ofNat 32 (userBase + off)).toNat = 4194304 + off := by
      rw [BitVec.toNat_ofNat, hbase', Nat.mod_eq_of_lt (by lia)]
    have harena := translate_user hb (by lia) hnext.below (by lia) (by lia) htr
    have hfree := h.behind hend
    rcases hrest x hchanged with hblock | hr | htable
    · have := hblock.1
      lia
    · exact hr
    · have := htable.1
      lia

/-- And so does every one of calls in a row. -/
theorem Handed.allZeroed {b : ProcSpace} (hb : b = pagingInit kernelEnd fbEnabled fb) (h : Handed b s) (habove : ArenaAbove b fb)
    (hne : b.arenaBase ≠ 0#32) (calls : List DmaCall) : AllZeroed s calls := by
  induction calls generalizing s with
  | nil => trivial
  | cons c cs ih =>
    intro s' mem' granted hcall
    cases granted with
    | true =>
      obtain ⟨-, -, -, hwhere⟩ := arenaBase_where (hb ▸ hne)
      rw [← hb] at hwhere
      exact ⟨fun _ => h.zeroed hb habove hne hcall, ih (h.granted (by omega) hcall).2.1⟩
    | false =>
      unfold ProcSpace.sysDmaAlloc at hcall
      split at hcall
      · obtain ⟨_, -, hcall⟩ := Option.bind_eq_some_iff.mp hcall
        obtain ⟨_, -, hcall⟩ := Option.bind_eq_some_iff.mp hcall
        obtain ⟨_, -, hcall⟩ := Option.map_eq_some_iff.mp hcall
        simp at hcall
      · simp only [Option.some.injEq, Prod.mk.injEq, and_true] at hcall
        rw [← hcall.1]
        exact ⟨fun hno => Bool.noConfusion hno, ih h⟩

end Calls

section Covered

variable {kernelEnd : U32} {fbEnabled : Bool} {fb : FbMode} {b : ProcSpace}

/-- The frame of an address of the arena of the program, but for the guard page. -/
theorem translate_arena (hb : b = pagingInit kernelEnd fbEnabled fb) (hbase : b.physBase.toNat + 25165824 < 2 ^ 32) {m : FrameMap}
    (hbelow : ∀ q < 15360, m.frame q = b.map.frame q) {a : U32} (hlow : 4194304 ≤ a.toNat) (hhigh : a.toNat < 29360128)
    (hguard : a.toNat / 4096 ≠ 6911) : m.translate a = some (b.physBase.toNat + (a.toNat - 4194304)) := by
  have hpage : pageSize = 4096 := rfl
  have hstack : userStackGuardOff = 24113152 := rfl
  have hmod : b.physBase.toNat % 4096 = 0 := by
    rw [hb, physBase_pagingInit, pageUp_toNat]
    exact Nat.mul_mod_left _ _
  have hframe : m.frame (a.toNat / 4096) = some (b.physBase.toNat / 4096 + (a.toNat / 4096 - 1024)) := by
    rw [hbelow _ (by lia), hb, frame_boot, ← hb, if_neg (by lia), if_pos, arenaFrame_eq hmod (by lia)]
    rw [hpage, hstack]
    lia
  rw [FrameMap.translate, hpage, hframe, Option.map_some, Option.some.injEq]
  lia

/-- The first page of a block is mapped, the table for it made in memory that is mapped to itself. -/
theorem mapPagesLive_one (mem : Frames) (frames : Nat → Nat) (hb : b = pagingInit kernelEnd fbEnabled fb)
    (hbehind : b.arenaBase.toNat + 16777216 ≤ 104857600 → (physBehind b.physBase).toNat = 104857600)
    (hlow : b.arenaBase.toNat + 16777216 ≤ 104857600) :
    ∃ mem', b.map.mapPagesLive mem 15360 frames 1 = some (b.map.mapPages 15360 frames 1, mem') := by
  have hpage : pageSize = 4096 := rfl
  have hone : b.map.mapPagesLive mem 15360 frames 1 = b.map.mapPageLive mem 15360 (frames 0) := rfl
  have hone' : b.map.mapPages 15360 frames 1 = b.map.mapPage 15360 (frames 0) := rfl
  rw [hone, hone', FrameMap.mapPageLive]
  by_cases htable : (b.map.dirs (15360 / 512)).isSome = true
  · exact ⟨mem, if_pos htable⟩
  · obtain ⟨m, hm, hgrows⟩ := @grows_boot kernelEnd fbEnabled fb
    rw [← hb] at hm hgrows
    have hle := FrameMap.missing_le (m := m)
    have hroom : 2048 * pageSize = 8388608 := rfl
    have hbehind' := hbehind hlow
    have hfree := hgrows.toNat (by rw [hm]; omega)
    rw [hm, hpage] at hfree
    have hzero : (b.map.zero mem b.map.physFree pageSize).isSome := by
      refine FrameMap.store_isSome fun i hi => ?_
      rw [List.length_replicate, hpage] at hi
      have haddr : (b.map.physFree + BitVec.ofNat 32 i).toNat = b.map.physFree.toNat + i := by
        rw [BitVec.toNat_add, BitVec.toNat_ofNat]
        omega
      have hframe : b.map.frame ((b.map.physFree.toNat + i) / 4096) = some ((b.map.physFree.toNat + i) / 4096) := by
        rw [hb, frame_boot, ← hb, if_neg, if_neg (by omega), if_neg (by omega), frame_procTables (by omega), if_pos (by omega)]
        rintro ⟨hmap, h₁, h₂⟩
        have hpages := pagesOf_fb hmap
        omega
      rw [FrameMap.translate, haddr, hpage, hframe]
      rfl
    obtain ⟨mem', hmem⟩ := Option.isSome_iff_exists.mp hzero
    exact ⟨mem', by rw [if_neg htable, hmem, Option.map_some]⟩

/-- Where the arena of the blocks lies in the arena of the program, a call that asks for a page returns 0 and does not clear it. -/
theorem not_zeroed_of_covered (hb : b = pagingInit kernelEnd fbEnabled fb) (hlow : 4194304 ≤ b.arenaBase.toNat)
    (hhigh : b.arenaBase.toNat < 29360128) (hguard : b.arenaBase.toNat ≠ 28307456) :
    ∃ s' mem', b.sysDmaAlloc (fun _ => 255#8) 4096#32 0#32 = some (s', mem', true) ∧
      ¬Zeroed b s' ⟨fun _ => 255#8, 4096#32, 0#32⟩ mem' := by
  have hpage : pageSize = 4096 := rfl
  have hne : b.arenaBase ≠ 0#32 := by
    rintro heq
    rw [heq] at hlow
    exact absurd hlow (by decide)
  obtain ⟨hal, hfree₁, hfree₂, hwhere⟩ := arenaBase_where (hb ▸ hne)
  rw [← hb] at hal hwhere
  obtain ⟨hbase, hend, -, hbehind⟩ := hwhere.resolve_right (by lia)
  have hhanded : Handed b b := hb ▸ handed_boot (hb ▸ hne)
  have hused : b.dmaUsed = 0#32 := by rw [hb, dmaUsed_pagingInit]
  have hsize : dmaSize 4096#32 = 4096#32 := by decide
  have hphys : b.dmaPhys = b.arenaBase := by rw [ProcSpace.dmaPhys, hused, BitVec.add_zero]
  have hvirt : (userBase + b.dmaUser.toNat) / pageSize = 15360 := by
    rw [ProcSpace.dmaUser, hused]
    rfl
  obtain ⟨mem₁, hlive⟩ := mapPagesLive_one (fun _ => 255#8) b.dmaFrame hb hbehind (by lia)
  obtain ⟨hm₁, hnew⟩ := FrameMap.mapPagesLive_eq hhanded.above (by lia) hlive
  generalize hm : b.map.mapPages 15360 b.dmaFrame 1 = m at hm₁
  have hbelow : ∀ q < 15360, m.frame q = b.map.frame q := by
    intro q hq
    rw [← hm, FrameMap.frame_mapPages, if_neg (by lia)]
  have haddr : ∀ i < 4096, (b.arenaBase + BitVec.ofNat 32 i).toNat = b.arenaBase.toNat + i := by
    intro i hi
    rw [BitVec.toNat_add, BitVec.toNat_ofNat]
    lia
  have hblock : ∀ i < 4096, m.translate (b.arenaBase + BitVec.ofNat 32 i) =
      some (b.physBase.toNat + (b.arenaBase.toNat + i - 4194304)) := by
    intro i hi
    have hi' := haddr i hi
    rw [translate_arena hb (by lia) hbelow (by lia) (by lia) (by lia), hi']
  have hresult : ∀ i < 8, m.translate (BitVec.ofNat 32 userBase + 0#32 + BitVec.ofNat 32 i) = some (b.physBase.toNat + i) := by
    intro i hi
    have huser : (BitVec.ofNat 32 userBase + 0#32 + BitVec.ofNat 32 i).toNat = 4194304 + i := by
      rw [BitVec.add_zero, BitVec.toNat_add, BitVec.toNat_ofNat, BitVec.toNat_ofNat, show userBase = 4194304 from rfl]
      lia
    rw [translate_arena hb (by lia) hbelow (by lia) (by lia) (by lia), huser, Nat.add_sub_cancel_left]
  have hzero : (m.zero mem₁ b.arenaBase 4096).isSome := by
    refine FrameMap.store_isSome fun i hi => ?_
    rw [List.length_replicate] at hi
    rw [hblock i hi]
    rfl
  obtain ⟨mem₂, hzero⟩ := Option.isSome_iff_exists.mp hzero
  have hstore : (m.store mem₂ (BitVec.ofNat 32 userBase + 0#32) (le32 b.dmaUser ++ le32 b.dmaPhys)).isSome := by
    refine FrameMap.store_isSome fun i hi => ?_
    rw [List.length_append, le32_length, le32_length] at hi
    rw [hresult i hi]
    rfl
  obtain ⟨mem₃, hstore⟩ := Option.isSome_iff_exists.mp hstore
  have hgranted : b.dmaGranted 4096#32 0#32 = true := by
    rw [ProcSpace.dmaGranted, hused, hsize]
    decide
  have hcall : b.sysDmaAlloc (fun _ => 255#8) 4096#32 0#32 =
      some ({ b with map := m, dmaUsed := b.dmaUsed + 4096#32 }, mem₃, true) := by
    have hpages : (4096#32 : U32).toNat / pageSize = 1 := rfl
    have hbytes : (4096#32 : U32).toNat = 4096 := rfl
    rw [ProcSpace.sysDmaAlloc, if_pos hgranted, hsize, hpages, hvirt, hlive, Option.bind_some, hm]
    dsimp only
    rw [hphys, hbytes, hzero, Option.bind_some, ← hphys, hstore, Option.map_some]
  refine ⟨_, mem₃, hcall, fun hzeroed => ?_⟩
  -- The ninth byte of the block: behind the result, below the tables, and not where the block is mapped to.
  have hin : inBlock b.dmaPhys (dmaSize 4096#32) (b.arenaBase.toNat + 8) := by
    rw [hphys, hsize]
    exact ⟨by lia, Nat.add_lt_add_left (by decide) _⟩
  have h₃ : mem₃ (b.arenaBase.toNat + 8) = mem₂ (b.arenaBase.toNat + 8) := by
    refine FrameMap.store_frame hstore fun i hi htr => ?_
    rw [List.length_append, le32_length, le32_length] at hi
    rw [hresult i hi, Option.some.injEq] at htr
    lia
  have h₂ : mem₂ (b.arenaBase.toNat + 8) = mem₁ (b.arenaBase.toNat + 8) := by
    refine FrameMap.store_frame hzero fun i hi htr => ?_
    rw [List.length_replicate] at hi
    rw [hblock i hi, Option.some.injEq] at htr
    lia
  have h₁ : mem₁ (b.arenaBase.toNat + 8) = 255#8 := by
    by_contra hno
    have hlow := hhanded.above.low
    have htable := (hnew _ hno).1
    rw [hpage] at hlow
    lia
  have h₀ := hzeroed.block _ hin
  rw [h₃, h₂, h₁] at h₀
  exact absurd h₀ (by decide)

/-- A kernel that leaves its tables below the user window has the arena of the blocks 24MB behind them. -/
theorem arenaBase_of_low (hlow : (pagingInit kernelEnd fbEnabled fb).physBase.toNat ≤ 4194304) :
    (pagingInit kernelEnd fbEnabled fb).arenaBase.toNat = (pagingInit kernelEnd fbEnabled fb).physBase.toNat + 25165824 := by
  have harena : userArenaSize = 25165824 := rfl
  have hdma : (BitVec.ofNat 32 userDmaSize).toNat = 16777216 := rfl
  have hlimit : kernelIdentityLimit = 134217728 := rfl
  have hbase := arenaBase_pagingInit kernelEnd fbEnabled fb
  have hmod : (pagingInit kernelEnd fbEnabled fb).physBase.toNat % 4096 = 0 := by
    rw [physBase_pagingInit, pageUp_toNat]
    exact Nat.mul_mod_left _ _
  generalize (pagingInit kernelEnd fbEnabled fb).physBase = base at *
  have hlim := (physLimit_cases base).resolve_right fun h => by lia
  have hup := pageUp_toNat (physLimit base)
  rw [harena] at hlim
  have hup' : (pageUp (physLimit base)).toNat = base.toNat + 25165824 := by lia
  have hfits : ArenaFits (pageUp (physLimit base)) := by
    rw [ArenaFits, BitVec.toNat_add, hdma, hlimit, hup']
    lia
  rw [hbase, if_pos hfits, hup']

/-- The tables of the kernel are 64 at most. -/
theorem physFree_kernelTables (h : kernelEnd.toNat < 2 ^ 31) :
    (pageUp kernelEnd).toNat + 5 * 4096 ≤ (kernelTables kernelEnd).physFree.toNat ∧
      (kernelTables kernelEnd).physFree.toNat ≤ (pageUp kernelEnd).toNat + 69 * 4096 := by
  have hpage : pageSize = 4096 := rfl
  have hpages : kernelIdentityLimit / pageSize = 32768 := rfl
  have hup := pageUp_toNat kernelEnd
  have hgrows : FrameMap.Grows ⟨fun _ => none, pageUp kernelEnd + BitVec.ofNat 32 (5 * pageSize)⟩ (kernelTables kernelEnd) :=
    FrameMap.grows_mapPages (by rw [hpages]; decide)
  have hstart : (pageUp kernelEnd + BitVec.ofNat 32 (5 * pageSize)).toNat = (pageUp kernelEnd).toNat + 5 * 4096 := by
    rw [BitVec.toNat_add, show (BitVec.ofNat 32 (5 * pageSize)).toNat = 20480 from rfl]
    omega
  have hroom : 2048 * pageSize = 8388608 := rfl
  have hfree := hgrows.toNat (by rw [hstart]; omega)
  rw [hstart, hpage] at hfree
  have hle := FrameMap.missing_le (m := ⟨fun _ => none, pageUp kernelEnd + BitVec.ofNat 32 (5 * pageSize)⟩)
  rw [hpage] at hle
  have hsub : Finset.Ico 64 2048 ⊆ (Finset.range 2048).filter fun i => ((kernelTables kernelEnd).dirs i).isNone := by
    intro i hi
    rw [Finset.mem_Ico] at hi
    rw [Finset.mem_filter, Finset.mem_range, kernelTables, FrameMap.dirs_mapPages (by rw [hpages]; omega)]
    exact ⟨hi.2, rfl⟩
  have hcard : 1984 ≤ (kernelTables kernelEnd).missing := by
    have hcard := Finset.card_le_card hsub
    rwa [Nat.card_Ico] at hcard
  omega

/-- Every call clears its block and nothing else where the arena of the blocks lies above the user window, with no frame of the
framebuffer in it. Where it lies in the window over the arena of the program, but for the guard page, not every call does. -/
theorem dma_zeroed (kernelEnd : U32) (fbEnabled : Bool) (fb : FbMode) :
    (ArenaAbove (pagingInit kernelEnd fbEnabled fb) fb → ∀ calls, AllZeroed (pagingInit kernelEnd fbEnabled fb) calls) ∧
    (userBase ≤ (pagingInit kernelEnd fbEnabled fb).arenaBase.toNat →
      (pagingInit kernelEnd fbEnabled fb).arenaBase.toNat < userBase + userFbOffset →
      (pagingInit kernelEnd fbEnabled fb).arenaBase.toNat ≠ userBase + userStackGuardOff →
      ¬∀ calls, AllZeroed (pagingInit kernelEnd fbEnabled fb) calls) := by
  refine ⟨fun habove calls => ?_, fun hlow hhigh hguard hall => ?_⟩
  · have hne : (pagingInit kernelEnd fbEnabled fb).arenaBase ≠ 0#32 := by
      intro heq
      have hle := habove.1
      rw [heq] at hle
      exact absurd hle (by decide)
    exact (handed_boot hne).allZeroed rfl habove hne calls
  · obtain ⟨s', mem', hcall, hnot⟩ := not_zeroed_of_covered (b := pagingInit kernelEnd fbEnabled fb) rfl hlow hhigh hguard
    exact hnot ((hall [⟨fun _ => 255#8, 4096#32, 0#32⟩] s' mem' true hcall).1 rfl)

/-- A kernel that ends at 2MB, in text mode, has the arena of the blocks between 26MB and 27MB. -/
theorem arenaBase_text (hend : (pageUp kernelEnd).toNat = 2097152) (hlow : kernelEnd.toNat < 2 ^ 31) :
    27303936 ≤ (pagingInit kernelEnd false fb).arenaBase.toNat ∧ (pagingInit kernelEnd false fb).arenaBase.toNat < 27574272 := by
  obtain ⟨h₁, h₂⟩ := physFree_kernelTables hlow
  have hproc : (procTables kernelEnd false fb).physFree = (kernelTables kernelEnd).physFree + 20480#32 := by
    rw [procTables]
    rfl
  have hbase := congrArg BitVec.toNat (physBase_pagingInit kernelEnd false fb)
  rw [hproc, pageUp_toNat, BitVec.toNat_add, show (20480#32 : U32).toNat = 20480 from rfl] at hbase
  have harena := @arenaBase_of_low kernelEnd false fb (by omega)
  omega

/-- With that kernel, the first page handed out clears a page of the program. -/
theorem dma_zeroed_false : ¬∀ (kernelEnd : U32) (fbEnabled : Bool) (fb : FbMode) (calls : List DmaCall),
    AllZeroed (pagingInit kernelEnd fbEnabled fb) calls := by
  intro h
  have hwhere := @arenaBase_text 0x200000#32 ⟨0#32, 0#32, 0#32, 0#32, 0#64⟩ (by decide) (by decide)
  have hall := h 0x200000#32 false ⟨0#32, 0#32, 0#32, 0#32, 0#64⟩
  generalize hb : pagingInit 0x200000#32 false ⟨0#32, 0#32, 0#32, 0#32, 0#64⟩ = b at hwhere hall
  obtain ⟨s', mem', hcall, hnot⟩ := not_zeroed_of_covered hb.symm (by omega) (by omega) (by omega)
  exact hnot ((hall [⟨fun _ => 255#8, 4096#32, 0#32⟩] s' mem' true hcall).1 rfl)

end Covered

end MiniOs32
