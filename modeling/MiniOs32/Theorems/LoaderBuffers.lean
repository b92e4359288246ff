import MiniOs32.Boot.Uefi
import MiniOs32.Theorems.DmaZeroed

/-!
# The loader's buffers and the kernel's memory

The kernel lays out its tables, the arena of the program and the arena of the blocks one behind the other, and the tables of its
process's own pages behind the user window. The loader takes every buffer from 16MB on, where the window still is: the arenas may be
there, and what is there is not mapped to itself any more.
-/

namespace MiniOs32

/-- The address the kernel is linked to run at. -/
def kernelBase : Nat := 0x200000

/-- A byte of a buffer. -/
def inBuffer (addr bytes : U64) (x : Nat) : Prop := addr.toNat ≤ x ∧ x < addr.toNat + bytes.toNat

/-- A buffer that collides with nothing that `paging_init` lays out, and that the tables the kernel runs on map to itself. -/
structure LoadedApart (kernelEnd : U32) (fbEnabled : Bool) (fb : FbMode) (addr bytes : U64) : Prop where
  image : ∀ x, inBuffer addr bytes x → ¬(kernelBase ≤ x ∧ x < kernelEnd.toNat)
  tables : ∀ x, inBuffer addr bytes x → ¬((pageUp kernelEnd).toNat ≤ x ∧ x < (procTables kernelEnd fbEnabled fb).physFree.toNat)
  processTables : ∀ x, inBuffer addr bytes x → ¬((physBehind (pagingInit kernelEnd fbEnabled fb).physBase).toNat ≤ x ∧
    x < (pagingInit kernelEnd fbEnabled fb).map.physFree.toNat)
  arena : ∀ x, inBuffer addr bytes x → ¬((pagingInit kernelEnd fbEnabled fb).physBase.toNat ≤ x ∧
    x < (physLimit (pagingInit kernelEnd fbEnabled fb).physBase).toNat)
  blocks : ∀ x, inBuffer addr bytes x → (pagingInit kernelEnd fbEnabled fb).arenaBase ≠ 0#32 →
    ¬((pagingInit kernelEnd fbEnabled fb).arenaBase.toNat ≤ x ∧ x < (pagingInit kernelEnd fbEnabled fb).arenaBase.toNat + userDmaSize)
  mapped : ∀ x, inBuffer addr bytes x → x < 2 ^ 32 ∧ (pagingInit kernelEnd fbEnabled fb).map.translate (BitVec.ofNat 32 x) = some x

/-! ## The layout in numbers -/

/-- The tables that hold a number of pages, from the start of a table on. -/
def tablesFor (n : Nat) : Nat := (n + 511) / 512

/-- The tables of the framebuffer window, in one address space. -/
def lfbTables (fbEnabled : Bool) (fb : FbMode) : Nat :=
  if fbEnabled = true ∧ ¬(fb.lfbPhys = 0#64 ∨ fb.bytes = 0#32 ∨ fbVirtSize < fb.bytes.toNat) then
    tablesFor (pagesOf (fb.lfbPhys.toNat % pageSize + fb.bytes.toNat))
  else 0

/-- Where the arena of the program starts: behind the kernel, 74 pages of directories and tables, and the framebuffer window. -/
def arenaStart (kernelEnd : U32) (fbEnabled : Bool) (fb : FbMode) : Nat :=
  (kernelEnd.toNat + 4095) / 4096 * 4096 + (74 + 2 * lfbTables fbEnabled fb) * 4096

/-- Where the tables of the user window start: behind both arenas, of which the second must end below 128MB, and behind the window. -/
def behindArenas (start : Nat) : Nat :=
  max (if start + 41943040 ≤ 134217728 then start + 41943040 else start + 25165824) 104857600

/-- Where they end: 12 for the arena, and those of the framebuffer of the user. -/
def layoutEnd (kernelEnd : U32) (fbEnabled : Bool) (fb : FbMode) : Nat :=
  behindArenas (arenaStart kernelEnd fbEnabled fb) +
    (12 + if fb.mappable then tablesFor (pagesOf fb.bytes.toNat) else 0) * 4096

/-- One more page is in the last table, or it is the first of the next. -/
theorem tablesFor_succ (n : Nat) : tablesFor (n + 1) = tablesFor n ∧ n / 512 < tablesFor n ∨
    tablesFor (n + 1) = tablesFor n + 1 ∧ n / 512 = tablesFor n ∧ n % 512 = 0 := by
  unfold tablesFor
  lia

namespace FrameMap

section Filled

variable {m m' m'' : FrameMap} {page frame first count n : Nat}

/-- Tables made one behind the other where there were none. -/
structure Filled (m m' : FrameMap) (first count : Nat) : Prop where
  inside : ∀ i, first ≤ i → i < first + count → (m'.dirs i).isSome
  outside : ∀ i, i < first ∨ first + count ≤ i → m'.dirs i = m.dirs i
  physFree : m'.physFree = m.physFree + BitVec.ofNat 32 (count * pageSize)

theorem Filled.refl (m : FrameMap) (first : Nat) : Filled m m first 0 :=
  ⟨fun _ h h' => by omega, fun _ _ => rfl, by rw [Nat.zero_mul]; exact (BitVec.add_zero _).symm⟩

theorem dirs_mapPage (m : FrameMap) (page frame i : Nat) (hi : i ≠ page / 512) : (m.mapPage page frame).dirs i = m.dirs i :=
  if_neg hi

theorem dirs_mapPage_self (m : FrameMap) (page frame : Nat) : ((m.mapPage page frame).dirs (page / 512)).isSome := by
  have hdirs : (m.mapPage page frame).dirs (page / 512) =
      some fun j => if j = page % 512 then some frame else (m.dirs (page / 512)).bind fun pt => pt j := if_pos rfl
  rw [hdirs]
  rfl

/-- A page of the last table that was made. -/
theorem Filled.same (h : Filled m m' first count) (hlow : first ≤ page / 512) (hhigh : page / 512 < first + count) :
    Filled m (m'.mapPage page frame) first count := by
  refine ⟨fun i hi hi' => ?_, fun i hi => ?_, ?_⟩
  · by_cases hp : i = page / 512
    · rw [hp]
      exact dirs_mapPage_self m' page frame
    · rw [dirs_mapPage m' page frame i hp]
      exact h.inside i hi hi'
  · rw [dirs_mapPage m' page frame i (by omega)]
    exact h.outside i hi
  · have hfree : (m'.mapPage page frame).physFree = m'.physFree := if_pos (h.inside _ hlow hhigh)
    rw [hfree, h.physFree]

/-- The first page of the next table. -/
theorem Filled.next (h : Filled m m' first count) (hpage : page / 512 = first + count) (hfresh : m.dirs (page / 512) = none) :
    Filled m (m'.mapPage page frame) first (count + 1) := by
  refine ⟨fun i hi hi' => ?_, fun i hi => ?_, ?_⟩
  · by_cases hp : i = page / 512
    · rw [hp]
      exact dirs_mapPage_self m' page frame
    · rw [dirs_mapPage m' page frame i hp]
      exact h.inside i hi (by omega)
  · rw [dirs_mapPage m' page frame i (by omega)]
    exact h.outside i (by omega)
  · have hnone : ¬(m'.dirs (page / 512)).isSome := by
      rw [h.outside _ (by omega), hfresh]
      exact Bool.false_ne_true
    have hfree : (m'.mapPage page frame).physFree = m'.physFree + BitVec.ofNat 32 pageSize := if_neg hnone
    rw [hfree, h.physFree, Nat.add_mul, Nat.one_mul, BitVec.ofNat_add, BitVec.add_assoc]

/-- Pages one behind the other, from the start of a table on, where there were no tables. -/
theorem filled_mapPages {frames : Nat → Nat} (halign : page % 512 = 0)
    (hfresh : ∀ i, page / 512 ≤ i → i < page / 512 + tablesFor n → m.dirs i = none) :
    Filled m (m.mapPages page frames n) (page / 512) (tablesFor n) := by
  induction n with
  | zero => exact .refl m _
  | succ n ih =>
    have hn := ih fun i hi hi' => hfresh i hi (by have := tablesFor_succ n; omega)
    rw [mapPages]
    rcases tablesFor_succ n with ⟨hsame, hlt⟩ | ⟨hone, heq, -⟩
    · rw [hsame]
      exact hn.same (by omega) (by omega)
    · rw [hone]
      exact hn.next (by omega) (hfresh _ (by omega) (by omega))

/-- The arena, alike; its guard page is not the first of a table. -/
theorem filled_mapArena {base : U32} (hfresh : ∀ i, 2 ≤ i → i < 2 + tablesFor n → m.dirs i = none) :
    Filled m (m.mapArena base n) 2 (tablesFor n) := by
  have hpage : pageSize = 4096 := rfl
  have hbase : userBase / pageSize = 1024 := rfl
  have hguard : userStackGuardOff = 24113152 := rfl
  induction n with
  | zero => exact .refl m _
  | succ n ih =>
    have hn := ih fun i hi hi' => hfresh i hi (by have := tablesFor_succ n; omega)
    rw [mapArena, hbase]
    rcases tablesFor_succ n with ⟨hsame, hlt⟩ | ⟨hone, heq, hfirst⟩
    · rw [hsame]
      split
      · exact hn
      · exact hn.same (by omega) (by omega)
    · rw [hone, if_neg (by rw [hpage, hguard]; omega)]
      exact hn.next (by omega) (hfresh _ (by omega) (by omega))

end Filled

end FrameMap

section Layout

variable {kernelEnd : U32} {fbEnabled : Bool} {fb : FbMode}

theorem filled_kernelTables : FrameMap.Filled ⟨fun _ => none, pageUp kernelEnd + BitVec.ofNat 32 (5 * pageSize)⟩
    (kernelTables kernelEnd) 0 64 :=
  FrameMap.filled_mapPages (n := kernelIdentityLimit / pageSize) rfl fun _ _ _ => rfl

/-- The framebuffer window, in one address space. -/
theorem filled_lfb (fb : FbMode) (m : FrameMap) (hfresh : ∀ i, 64 ≤ i → m.dirs i = none) :
    FrameMap.Filled m (m.mapPhysAt fbVirtBase fb.lfbPhys fb.bytes) 128 (tablesFor (pagesOf (fb.lfbPhys.toNat % pageSize + fb.bytes.toNat))) :=
  FrameMap.filled_mapPages rfl fun i hi _ => hfresh i (le_trans (by decide) hi)

/-- What `paging_init` has taken of `phys_free` for tables before it takes the arenas. -/
theorem physFree_procTables :
    (procTables kernelEnd fbEnabled fb).physFree = pageUp kernelEnd + BitVec.ofNat 32 ((74 + 2 * lfbTables fbEnabled fb) * pageSize) := by
  have hkernel := @filled_kernelTables kernelEnd
  have hfresh : ∀ i, 64 ≤ i → (kernelTables kernelEnd).dirs i = none := fun i hi => hkernel.outside i (.inr (by omega))
  have hlow : (kernelTables kernelEnd).physFree + BitVec.ofNat 32 (5 * pageSize) = pageUp kernelEnd + BitVec.ofNat 32 (74 * pageSize) := by
    rw [hkernel.physFree, BitVec.add_assoc, BitVec.add_assoc]
    rfl
  have hnone : pageUp kernelEnd + BitVec.ofNat 32 (74 * pageSize) = pageUp kernelEnd + BitVec.ofNat 32 ((74 + 2 * 0) * pageSize) := rfl
  cases fbEnabled with
  | false =>
    have hno : lfbTables false fb = 0 := if_neg fun h => Bool.false_ne_true h.1
    rw [procTables, hno, if_neg Bool.false_ne_true, hlow]
  | true =>
    rw [procTables, if_pos rfl, FrameMap.gfxMapLfb]
    dsimp only
    split
    · rename_i h
      have hno : lfbTables true fb = 0 := if_neg fun h' => h'.2 h
      rw [hno, hlow]
    · rename_i h
      have hyes : lfbTables true fb = tablesFor (pagesOf (fb.lfbPhys.toNat % pageSize + fb.bytes.toNat)) := if_pos ⟨rfl, h⟩
      have hlfb := fun free => (filled_lfb fb { kernelTables kernelEnd with physFree := free } hfresh).physFree
      generalize tablesFor (pagesOf (fb.lfbPhys.toNat % pageSize + fb.bytes.toNat)) = t at hyes hlfb
      have hsum : (74 + 2 * t) * pageSize = 74 * pageSize + (t * pageSize + t * pageSize) := by ring
      rw [hyes, hlfb, hlfb, hlow, hsum, BitVec.ofNat_add, BitVec.ofNat_add, BitVec.add_assoc, BitVec.add_assoc]

theorem lfbTables_le (fbEnabled : Bool) (fb : FbMode) : lfbTables fbEnabled fb ≤ 33 := by
  have hpage : pageSize = 4096 := rfl
  have hsize : fbVirtSize = 67108864 := rfl
  unfold lfbTables
  split
  · rename_i h
    have hbytes : fb.bytes.toNat ≤ 67108864 := by
      by_contra hbytes
      exact h.2 (.inr (.inr (by omega)))
    rw [tablesFor, pagesOf, hpage]
    omega
  · exact Nat.zero_le _

/-- The arena of the program starts where the numbers say. -/
theorem physBase_toNat (h : kernelEnd.toNat ≤ 134217728) :
    (procTables kernelEnd fbEnabled fb).physFree.toNat = arenaStart kernelEnd fbEnabled fb ∧
      (pagingInit kernelEnd fbEnabled fb).physBase.toNat = arenaStart kernelEnd fbEnabled fb := by
  have hpage : pageSize = 4096 := rfl
  have hup := pageUp_toNat kernelEnd
  have hle := lfbTables_le fbEnabled fb
  have hfree : (procTables kernelEnd fbEnabled fb).physFree.toNat = arenaStart kernelEnd fbEnabled fb := by
    rw [physFree_procTables, arenaStart, BitVec.toNat_add, BitVec.toNat_ofNat, hpage]
    lia
  refine ⟨hfree, ?_⟩
  rw [physBase_pagingInit, pageUp_toNat, hfree, arenaStart]
  lia

/-- Without room for the arena of the blocks, `phys_free` is behind the other, or at the end of the user window. -/
theorem physBehind_full {base : U32} (h : ¬ArenaFits (pageUp (physLimit base))) :
    (physBehind base).toNat = max (physLimit base).toNat 104857600 := by
  have hwindow : userBase + userSpaceSize = 104857600 := rfl
  unfold physBehind
  rw [if_neg h]
  dsimp only
  by_cases hlt : (physLimit base).toNat < userBase + userSpaceSize
  · rw [if_pos hlt, BitVec.toNat_ofNat]
    omega
  · rw [if_neg hlt]
    omega

/-- The arena of the blocks, and the tables behind both arenas. -/
theorem arenas_toNat (h : kernelEnd.toNat ≤ 134217728) :
    (physLimit (pagingInit kernelEnd fbEnabled fb).physBase).toNat = arenaStart kernelEnd fbEnabled fb + 25165824 ∧
    (pagingInit kernelEnd fbEnabled fb).arenaBase.toNat =
      (if arenaStart kernelEnd fbEnabled fb + 41943040 ≤ 134217728 then arenaStart kernelEnd fbEnabled fb + 25165824 else 0) ∧
    (physBehind (pagingInit kernelEnd fbEnabled fb).physBase).toNat = behindArenas (arenaStart kernelEnd fbEnabled fb) := by
  have harena : userArenaSize = 25165824 := rfl
  have hdma : (BitVec.ofNat 32 userDmaSize).toNat = 16777216 := rfl
  have hlimit : kernelIdentityLimit = 134217728 := rfl
  have hwindow : userBase + userSpaceSize = 104857600 := rfl
  have hle := lfbTables_le fbEnabled fb
  have hbase := (@physBase_toNat kernelEnd fbEnabled fb h).2
  have hmod : arenaStart kernelEnd fbEnabled fb % 4096 = 0 := by
    rw [arenaStart]
    lia
  have hsmall : arenaStart kernelEnd fbEnabled fb ≤ 134791168 := by
    rw [arenaStart]
    lia
  rw [arenaBase_pagingInit]
  generalize (pagingInit kernelEnd fbEnabled fb).physBase = base at hbase ⊢
  generalize arenaStart kernelEnd fbEnabled fb = start at hbase hmod hsmall ⊢
  have hlim : (physLimit base).toNat = start + 25165824 := by
    have := physLimit_cases base
    lia
  have hup : (pageUp (physLimit base)).toNat = start + 25165824 := by
    rw [pageUp_toNat, hlim]
    lia
  have hend : (pageUp (physLimit base) + BitVec.ofNat 32 userDmaSize).toNat = start + 41943040 := by
    rw [BitVec.toNat_add, hdma, hup]
    lia
  have hfits : ArenaFits (pageUp (physLimit base)) ↔ start + 41943040 ≤ 134217728 := by
    rw [ArenaFits, hend, hlimit]
  refine ⟨hlim, ?_, ?_⟩
  · by_cases hf : ArenaFits (pageUp (physLimit base))
    · rw [if_pos hf, if_pos (hfits.mp hf), hup]
    · rw [if_neg hf, if_neg (mt hfits.mpr hf)]
      rfl
  · rw [behindArenas]
    by_cases hf : ArenaFits (pageUp (physLimit base))
    · have hsum : (start + 25165824 + 16777216) % 2 ^ 32 = start + 41943040 := by lia
      rw [if_pos (hfits.mp hf), physBehind_toNat hf, hup, hsum]
    · rw [if_neg (mt hfits.mpr hf), physBehind_full hf, hlim]

/-- The window has no table left. -/
theorem dirs_clearWindow (m : FrameMap) {i : Nat} (hlow : 2 ≤ i) (hhigh : i < 50) : m.clearWindow.dirs i = none := by
  have hdirs : m.clearWindow.dirs i = if 2 ≤ i ∧ i < 50 then none else m.dirs i := rfl
  rw [hdirs, if_pos ⟨hlow, hhigh⟩]

/-- The tables of the user window end where the numbers say. -/
theorem physFree_boot (h : kernelEnd.toNat ≤ 134217728) :
    (pagingInit kernelEnd fbEnabled fb).map.physFree.toNat = layoutEnd kernelEnd fbEnabled fb := by
  have hpage : pageSize = 4096 := rfl
  have hfb : (userBase + userFbOffset) / pageSize = 7168 := rfl
  have hpages : userFbOffset / pageSize = 6144 := rfl
  have hbehind := (@arenas_toNat kernelEnd fbEnabled fb h).2.2
  have hle := lfbTables_le fbEnabled fb
  have hsmall : behindArenas (arenaStart kernelEnd fbEnabled fb) ≤ 159956992 := by
    rw [behindArenas, arenaStart]
    split <;> lia
  rw [map_pagingInit, FrameMap.mapUserFramebuffer, FrameMap.mapUserSpace, layoutEnd, hpages]
  generalize behindArenas (arenaStart kernelEnd fbEnabled fb) = behind at hbehind hsmall ⊢
  generalize hm : FrameMap.clearWindow { procTables kernelEnd fbEnabled fb with
    physFree := physBehind (pagingInit kernelEnd fbEnabled fb).physBase } = m
  have hfree : m.physFree = physBehind (pagingInit kernelEnd fbEnabled fb).physBase := by
    rw [← hm, FrameMap.clearWindow]
  have hcleared : ∀ i, 2 ≤ i → i < 50 → m.dirs i = none := fun i hi hi' => by rw [← hm, dirs_clearWindow _ hi hi']
  have htwelve : tablesFor 6144 = 12 := rfl
  have harena : FrameMap.Filled m (m.mapArena (pagingInit kernelEnd fbEnabled fb).physBase 6144) 2 12 := by
    rw [← htwelve]
    exact FrameMap.filled_mapArena fun i hi hi' => hcleared i hi (by lia)
  by_cases hmap : fb.mappable = true
  · have hle := pagesOf_fb hmap
    have hfill : FrameMap.Filled (m.mapArena (pagingInit kernelEnd fbEnabled fb).physBase 6144)
        ((m.mapArena (pagingInit kernelEnd fbEnabled fb).physBase 6144).mapPages 7168 (FrameMap.lfbFrame fb.lfbPhys)
          (pagesOf fb.bytes.toNat)) 14 (tablesFor (pagesOf fb.bytes.toNat)) := by
      refine FrameMap.filled_mapPages rfl fun i hi hi' => ?_
      rw [tablesFor] at hi'
      rw [harena.outside i (by lia)]
      exact hcleared i (by lia) (by lia)
    have htables : tablesFor (pagesOf fb.bytes.toNat) ≤ 8 := by
      rw [tablesFor]
      lia
    rw [if_pos hmap, if_pos hmap, hfb, hfill.physFree, harena.physFree, hfree, BitVec.add_assoc, ← BitVec.ofNat_add, BitVec.toNat_add,
      BitVec.toNat_ofNat, hpage, hbehind]
    lia
  · rw [if_neg hmap, if_neg hmap, harena.physFree, hfree, BitVec.toNat_add, BitVec.toNat_ofNat, hpage, hbehind]
    lia

end Layout

section Apart

variable {kernelEnd : U32} {fbEnabled : Bool} {fb : FbMode} {fw : Firmware} {addr bytes : U64}

/-- What the loader knows of a buffer that `alloc_mapped` returns. -/
theorem allocMapped_eq (h : allocMapped fw bytes = some addr) :
    fw ((bytes + 0xFFF#64) / 0x1000#64) (kernelMapLimit - 1#64) = some addr ∧ 16777216 ≤ addr.toNat := by
  obtain ⟨x, hx, hif⟩ := Option.bind_eq_some_iff.mp h
  split at hif
  · exact nomatch hif
  · rename_i hlow
    rw [Option.some.injEq] at hif
    rw [hif] at hx hlow
    have harena : kernelArenaEnd.toNat = 16777216 := rfl
    rw [BitVec.lt_def, harena] at hlow
    exact ⟨hx, by omega⟩

/-- The pages that are asked for, where their number does not wrap. -/
theorem pages_toNat (h : bytes.toNat + 0xFFF < 2 ^ 64) : ((bytes + 0xFFF#64) / 0x1000#64).toNat = (bytes.toNat + 4095) / 4096 := by
  rw [BitVec.toNat_udiv, BitVec.toNat_add, show (0xFFF#64 : U64).toNat = 4095 from rfl, show (0x1000#64 : U64).toNat = 4096 from rfl,
    Nat.mod_eq_of_lt (by omega)]

/-- A page above the user window and in low memory is mapped to itself. -/
theorem frame_above {q : Nat} (hlow : 25600 ≤ q) (hhigh : q < 32768) : (pagingInit kernelEnd fbEnabled fb).map.frame q = some q := by
  rw [frame_boot, if_neg, if_neg (by omega), if_neg (by omega), frame_procTables (by omega), if_pos hhigh]
  rintro ⟨hmap, -, hlt⟩
  have hle := pagesOf_fb hmap
  omega

/-- A page from 16MB on that is mapped to itself, and is none of the framebuffer, is above the user window or where the program's own
pages are. -/
theorem above_of_self {q : Nat} (hlow : 4096 ≤ q) (hfb : ∀ j < pagesOf fb.bytes.toNat, q ≠ FrameMap.lfbFrame fb.lfbPhys j)
    (h : (pagingInit kernelEnd fbEnabled fb).map.frame q = some q) : 25600 ≤ q ∨ q < 7168 := by
  rw [frame_boot] at h
  split at h
  · rename_i hwin
    rw [Option.some.injEq] at h
    exact absurd h.symm (hfb _ (by omega))
  split at h
  · rename_i harena
    exact .inr harena.2.1
  split at h
  · exact nomatch h
  · exact .inl (by omega)

/-- The tables translate an address by its page. -/
theorem translate_eq_self_iff {m : FrameMap} {a : U32} : m.translate a = some a.toNat ↔ m.frame (a.toNat / 4096) = some (a.toNat / 4096) := by
  have hpage : pageSize = 4096 := rfl
  rw [FrameMap.translate, hpage]
  constructor
  · intro h
    obtain ⟨f, hf, heq⟩ := Option.map_eq_some_iff.mp h
    rw [hf, Option.some.injEq]
    omega
  · intro h
    rw [h, Option.map_some, Nat.div_add_mod']

/-- A buffer behind the whole layout, in low memory, collides with nothing. -/
theorem apart_of_layoutEnd (hend : layoutEnd kernelEnd fbEnabled fb ≤ addr.toNat) (htop : addr.toNat + bytes.toNat ≤ 134217728) :
    LoadedApart kernelEnd fbEnabled fb addr bytes := by
  have hdma : userDmaSize = 16777216 := rfl
  have hup : kernelEnd.toNat ≤ arenaStart kernelEnd fbEnabled fb := by
    rw [arenaStart]
    lia
  have hbehind : arenaStart kernelEnd fbEnabled fb + 25165824 ≤ behindArenas (arenaStart kernelEnd fbEnabled fb) ∧
      104857600 ≤ behindArenas (arenaStart kernelEnd fbEnabled fb) ∧ (arenaStart kernelEnd fbEnabled fb + 41943040 ≤ 134217728 →
        arenaStart kernelEnd fbEnabled fb + 41943040 ≤ behindArenas (arenaStart kernelEnd fbEnabled fb)) := by
    rw [behindArenas]
    split <;> lia
  have hlast : behindArenas (arenaStart kernelEnd fbEnabled fb) ≤ layoutEnd kernelEnd fbEnabled fb := Nat.le_add_right _ _
  have hkernel : kernelEnd.toNat ≤ 134217728 := by lia
  obtain ⟨hfree, hbase⟩ := @physBase_toNat kernelEnd fbEnabled fb hkernel
  obtain ⟨hlimit, harena, -⟩ := @arenas_toNat kernelEnd fbEnabled fb hkernel
  have hboot := @physFree_boot kernelEnd fbEnabled fb hkernel
  refine ⟨fun x hx h => ?_, fun x hx h => ?_, fun x hx h => ?_, fun x hx h => ?_, fun x hx hne h => ?_, fun x hx => ?_⟩
  · have := hx.1
    lia
  · have := hx.1
    lia
  · have := hx.1
    lia
  · have := hx.1
    lia
  · have := hx.1
    rw [harena, hdma] at h
    split at h <;> omega
  · obtain ⟨hlow, hhigh⟩ := hx
    have haddr : (BitVec.ofNat 32 x).toNat = x := by
      rw [BitVec.toNat_ofNat]
      lia
    refine ⟨by lia, ?_⟩
    have hself := translate_eq_self_iff (m := (pagingInit kernelEnd fbEnabled fb).map) (a := BitVec.ofNat 32 x)
    rw [haddr] at hself
    exact hself.mpr (frame_above (by lia) (by lia))

/-- A buffer from 16MB on that collides with nothing is behind the whole layout. -/
theorem layoutEnd_of_apart (h : LoadedApart kernelEnd fbEnabled fb addr bytes) (hpos : 0 < bytes.toNat) (hlow : 16777216 ≤ addr.toNat)
    (halign : addr.toNat % 4096 = 0) (htop : addr.toNat < 134217728)
    (hfb : ∀ j < pagesOf fb.bytes.toNat, addr.toNat / 4096 ≠ FrameMap.lfbFrame fb.lfbPhys j) :
    layoutEnd kernelEnd fbEnabled fb ≤ addr.toNat := by
  have hdma : userDmaSize = 16777216 := rfl
  have hkbase : kernelBase = 2097152 := rfl
  have hin : inBuffer addr bytes addr.toNat := ⟨le_rfl, by lia⟩
  have himage := h.image _ hin
  have hkernel : kernelEnd.toNat ≤ 134217728 := by lia
  obtain ⟨hfree, hbase⟩ := @physBase_toNat kernelEnd fbEnabled fb hkernel
  obtain ⟨hlimit, harena, hbehind⟩ := @arenas_toNat kernelEnd fbEnabled fb hkernel
  have hboot := @physFree_boot kernelEnd fbEnabled fb hkernel
  have hup : (pageUp kernelEnd).toNat ≤ addr.toNat := by
    rw [pageUp_toNat]
    lia
  -- one after the other, the first byte is behind the tables, the arena of the program and that of the blocks
  have hstart : arenaStart kernelEnd fbEnabled fb ≤ addr.toNat := by
    have := h.tables _ hin
    lia
  have hmid : arenaStart kernelEnd fbEnabled fb + 25165824 ≤ addr.toNat := by
    have := h.arena _ hin
    lia
  have hblocks : arenaStart kernelEnd fbEnabled fb + 41943040 ≤ 134217728 →
      arenaStart kernelEnd fbEnabled fb + 41943040 ≤ addr.toNat := by
    intro hfits
    rw [if_pos hfits] at harena
    have hne : (pagingInit kernelEnd fbEnabled fb).arenaBase ≠ 0#32 := by
      intro hzero
      rw [hzero] at harena
      exact absurd harena (by rw [show (0#32 : U32).toNat = 0 from rfl]; lia)
    have := h.blocks _ hin hne
    lia
  -- it is behind the program's pages, and so behind the window
  have hwindow : 104857600 ≤ addr.toNat := by
    have haddr : (BitVec.ofNat 32 addr.toNat).toNat = addr.toNat := by
      rw [BitVec.toNat_ofNat]
      lia
    have hself := translate_eq_self_iff (m := (pagingInit kernelEnd fbEnabled fb).map) (a := BitVec.ofNat 32 addr.toNat)
    rw [haddr] at hself
    rcases above_of_self (by lia) hfb (hself.mp (h.mapped _ hin).2) with habove | hprogram
    · lia
    · lia
  have hcases : behindArenas (arenaStart kernelEnd fbEnabled fb) ≤ addr.toNat := by
    rw [behindArenas]
    split
    · rename_i hfits
      exact max_le (hblocks hfits) hwindow
    · exact max_le hmid hwindow
  have := h.processTables _ hin
  lia

/-- A buffer that `alloc_mapped` returns collides with nothing exactly if it is empty, or its number of pages does not wrap and it lies
behind everything that `paging_init` lays out. -/
theorem apart_iff (hfw : fw.Sound fb) (h : allocMapped fw bytes = some addr) :
    LoadedApart kernelEnd fbEnabled fb addr bytes ↔
      bytes = 0#64 ∨ bytes.toNat + 0xFFF < 2 ^ 64 ∧ layoutEnd kernelEnd fbEnabled fb ≤ addr.toNat := by
  have hpage : pageSize = 4096 := rfl
  obtain ⟨hfw', hlow⟩ := allocMapped_eq h
  have halign := hfw.aligned hfw'
  have hbelow := hfw.below hfw'
  have hmemory := hfw.memory hfw'
  rw [show (kernelMapLimit - 1#64).toNat = 134217727 from rfl, hpage] at hbelow
  rw [hpage] at halign hmemory
  constructor
  · intro hapart
    by_cases hzero : bytes = 0#64
    · exact .inl hzero
    · have hpos : 0 < bytes.toNat := Nat.pos_of_ne_zero fun h0 => hzero (BitVec.eq_of_toNat_eq h0)
      have hwrap : bytes.toNat + 0xFFF < 2 ^ 64 := by
        have hlast := (hapart.mapped (addr.toNat + (bytes.toNat - 1)) ⟨by lia, by lia⟩).1
        lia
      rw [pages_toNat hwrap] at hbelow hmemory
      refine .inr ⟨hwrap, layoutEnd_of_apart hapart hpos hlow halign (by lia) fun j hj => ?_⟩
      have := hmemory 0 (by lia) j hj
      rwa [Nat.add_zero] at this
  · rintro (rfl | ⟨hwrap, hend⟩)
    · have hnone : ∀ x, ¬inBuffer addr 0#64 x := by
        intro x hx
        have hlt := hx.2
        rw [show (0#64 : U64).toNat = 0 from rfl] at hlt
        have := hx.1
        lia
      exact ⟨fun x hx => absurd hx (hnone x), fun x hx => absurd hx (hnone x), fun x hx => absurd hx (hnone x),
        fun x hx => absurd hx (hnone x), fun x hx => absurd hx (hnone x), fun x hx => absurd hx (hnone x)⟩
    · rw [pages_toNat hwrap] at hbelow
      exact apart_of_layoutEnd hend (by lia)

end Apart

/-- The loader's buffers and the kernel's memory do not collide exactly where the buffer is empty, or lies behind everything that
`paging_init` lays out. -/
theorem loader_buffer_apart_iff (fw : Firmware) (kernelEnd : U32) (fbEnabled : Bool) (fb : FbMode) (addr bytes : U64)
    (hfw : fw.Sound fb) (h : allocMapped fw bytes = some addr) :
    LoadedApart kernelEnd fbEnabled fb addr bytes ↔
      bytes = 0#64 ∨ bytes.toNat + 0xFFF < 2 ^ 64 ∧ layoutEnd kernelEnd fbEnabled fb ≤ addr.toNat :=
  apart_iff hfw h

/-- Firmware that has memory from an address on and hands out the start of it. -/
def firmwareFrom (start : U64) : Firmware := fun pages max =>
  if start.toNat + pages.toNat * pageSize ≤ max.toNat + 1 then some start else none

/-- No framebuffer. -/
def textMode : FbMode := ⟨0#32, 0#32, 0#32, 0#32, 0#64⟩

theorem firmwareFrom_sound {start : U64} (h : start.toNat % pageSize = 0) : (firmwareFrom start).Sound textMode := by
  have hsome : ∀ {pages max addr}, firmwareFrom start pages max = some addr →
      start.toNat + pages.toNat * pageSize ≤ max.toNat + 1 ∧ start = addr := by
    intro pages max addr heq
    unfold firmwareFrom at heq
    split at heq
    · rename_i hle
      exact ⟨hle, Option.some.inj heq⟩
    · exact nomatch heq
  refine ⟨fun heq => ?_, fun heq => ?_, fun heq k _ j hj => absurd hj (Nat.not_lt_zero j)⟩
  · rw [← (hsome heq).2, h]
  · rw [← (hsome heq).2]
    exact (hsome heq).1

/-- A kernel that ends at 3MB in text mode, and firmware that hands out 120MB: the page collides with nothing. -/
theorem loader_buffer_at_120 : LoadedApart 0x300000#32 false textMode 0x7800000#64 4096#64 :=
  (loader_buffer_apart_iff (firmwareFrom 0x7800000#64) 0x300000#32 false textMode 0x7800000#64 4096#64 (firmwareFrom_sound (by decide))
    (by decide)).mpr (.inr ⟨by decide, by decide⟩)

/-- With firmware that hands out 16MB, the page is in the arena of the program. -/
theorem loader_buffer_at_16 : ¬∀ (fw : Firmware) (kernelEnd : U32) (fbEnabled : Bool) (fb : FbMode) (addr bytes : U64), fw.Sound fb →
    allocMapped fw bytes = some addr → LoadedApart kernelEnd fbEnabled fb addr bytes := by
  intro h
  have hfw : (firmwareFrom 0x1000000#64).Sound textMode := firmwareFrom_sound (by decide)
  have halloc : allocMapped (firmwareFrom 0x1000000#64) 4096#64 = some 0x1000000#64 := by decide
  have hiff := (apart_iff hfw halloc).mp (h _ 0x300000#32 false _ _ _ hfw halloc)
  exact absurd hiff (by decide)

end MiniOs32
