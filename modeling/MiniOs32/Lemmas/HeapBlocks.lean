import MiniOs32.Kernel.Heap
import MiniOs32.User.Malloc

/-!
# The blocks of a heap

Every range that `sys_sbrk` gave is a block with its size in front. The blocks that are free are in a list, the last that was freed
first; a call takes one of them out, or makes a new one, or puts one back.
-/

namespace MiniOs32

namespace FsLib

/-! ## What is asked of `sys_sbrk` -/

/-- The questions that were answered by a range. -/
def granted (asked : List (U32 × U32)) : List (U32 × U32) := asked.filter fun e => decide (0 ≤ e.2.toInt)

/-- Two ranges that do not overlap. -/
def RangesApart (e e' : U32 × U32) : Prop := e.2.toNat + e.1.toNat ≤ e'.2.toNat ∨ e'.2.toNat + e'.1.toNat ≤ e.2.toNat

instance : Std.Symm RangesApart := ⟨fun _ _ h => h.symm⟩

/-- `sys_sbrk` answers with a negative value, or with a range apart from every one before that does not start at the null pointer; to an
increment that is not positive it answers with a negative value. -/
structure SbrkSound (asked : List (U32 × U32)) : Prop where
  positive : ∀ e ∈ granted asked, 0 < e.1.toInt
  nonnull : ∀ e ∈ granted asked, e.2 ≠ 0#32
  fresh : (granted asked).Pairwise RangesApart

/-- The kernel answers an increment that is negative as an `int` with -1. -/
theorem sysSbrk_negative {brk inc : U32} (hbrk : brk.toNat ≤ userStackGuardOff) (hinc : inc.toInt < 0) : sysSbrk brk inc = none := by
  have hguard : userStackGuardOff = 24113152 := rfl
  have hlarge : 2 ^ 31 ≤ inc.toNat := by
    rw [BitVec.toInt_eq_toNat_cond] at hinc
    split at hinc <;> omega
  rw [sysSbrk, if_pos]
  rw [BitVec.lt_def, BitVec.toNat_sub, BitVec.toNat_ofNat]
  have := inc.isLt
  omega

section Granted

variable {asked : List (U32 × U32)} {e e' : U32 × U32}

/-- A range ends below 4GB, and starts below 2GB. -/
theorem SbrkSound.bounds (h : SbrkSound asked) (he : e ∈ granted asked) :
    0 < e.1.toNat ∧ e.1.toNat < 2 ^ 31 ∧ 0 < e.2.toNat ∧ e.2.toNat < 2 ^ 31 := by
  have hpos := h.positive e he
  have hne := h.nonnull e he
  have hanswer : 0 ≤ e.2.toInt := of_decide_eq_true (List.mem_filter.mp he).2
  have h0 : e.2.toNat ≠ 0 := fun h0 => hne (BitVec.eq_of_toNat_eq h0)
  have h1 := e.1.isLt
  have h2 := e.2.isLt
  rw [BitVec.toInt_eq_toNat_cond] at hpos hanswer
  split at hpos <;> split at hanswer <;> lia

/-- Two ranges are one, or apart. -/
theorem SbrkSound.apart (h : SbrkSound asked) (he : e ∈ granted asked) (he' : e' ∈ granted asked) : e = e' ∨ RangesApart e e' :=
  or_iff_not_imp_left.mpr fun hne => h.fresh.forall he he' hne

/-- The pointer of a block. -/
theorem SbrkSound.pointer (h : SbrkSound asked) (he : e ∈ granted asked) :
    (e.2 + 8#32).toNat = e.2.toNat + 8 ∧ e.2 + 8#32 ≠ 0#32 := by
  obtain ⟨-, -, -, hlt⟩ := h.bounds he
  have hsum : (e.2 + 8#32).toNat = e.2.toNat + 8 := by
    rw [BitVec.toNat_add, show (8#32 : U32).toNat = 8 from rfl]
    lia
  refine ⟨hsum, fun h0 => ?_⟩
  rw [h0] at hsum
  exact absurd hsum (by rw [show (0#32 : U32).toNat = 0 from rfl]; lia)

/-- The link of a block. -/
theorem SbrkSound.link (h : SbrkSound asked) (he : e ∈ granted asked) : (e.2 + 4#32).toNat = e.2.toNat + 4 := by
  obtain ⟨-, -, -, hlt⟩ := h.bounds he
  rw [BitVec.toNat_add, show (4#32 : U32).toNat = 4 from rfl]
  omega

/-- Blocks at one address are one. -/
theorem SbrkSound.eq_of_start (h : SbrkSound asked) (he : e ∈ granted asked) (he' : e' ∈ granted asked) (heq : e.2 = e'.2) : e = e' := by
  obtain ⟨hpos, -, -, -⟩ := h.bounds he
  obtain ⟨hpos', -, -, -⟩ := h.bounds he'
  refine (h.apart he he').resolve_right fun hapart => ?_
  rw [RangesApart, heq] at hapart
  omega

end Granted

/-! ## Memory -/

/-- A word depends on its four bytes. -/
theorem read32_congr {m m' : Mem} {a : U32} (ha : a.toNat + 4 ≤ 2 ^ 32)
    (h : ∀ x : U32, a.toNat ≤ x.toNat → x.toNat < a.toNat + 4 → m' x = m x) : m'.read32 a = m.read32 a := by
  have hbyte : ∀ i : U32, i.toNat < 4 → m' (a + i) = m (a + i) := by
    intro i hi
    have hsum : (a + i).toNat = a.toNat + i.toNat := by
      rw [BitVec.toNat_add, Nat.mod_eq_of_lt (by omega)]
    exact h _ (by omega) (by omega)
  have h0 := hbyte 0#32 (by decide)
  rw [BitVec.add_zero] at h0
  rw [Mem.read32, Mem.read32, h0, hbyte 1#32 (by decide), hbyte 2#32 (by decide), hbyte 3#32 (by decide)]

/-- A word stored changes its four bytes. -/
theorem write32_of_apart {m : Mem} {a v x : U32} (ha : a.toNat + 4 ≤ 2 ^ 32) (h : x.toNat < a.toNat ∨ a.toNat + 4 ≤ x.toNat) :
    m.write32 a v x = m x := by
  refine Mem.write_of_le ?_
  rw [le32_length, BitVec.toNat_sub]
  have := x.isLt
  omega

/-- The distance from the next place is one less. -/
theorem sub_next {x a : U32} {n : Nat} (h : x ≠ a) : (x - (a + 1#32)).toNat < n ↔ (x - a).toNat < n + 1 := by
  have hsub : (x - (a + 1#32)).toNat + 1 = (x - a).toNat := by bv_omega
  omega

/-- The place itself is the last that the next reaches. -/
theorem not_sub_next (a : U32) {n : Nat} (hn : n < 2 ^ 32) : ¬(a - (a + 1#32)).toNat < n := by
  have hsub : (a - (a + 1#32)).toNat = 2 ^ 32 - 1 := by bv_omega
  omega

/-- `memset_local` sets its bytes. -/
theorem setLocal_apply (dst : U32) (v : Byte) (x : U32) : ∀ (left : Nat) (m : Mem) (i : U32),
    setLocal m dst i v left x = if (x - (dst + i)).toNat < left then v else m x := by
  intro left
  induction left with
  | zero => intro m i; exact (if_neg (Nat.not_lt_zero _)).symm
  | succ left ih =>
    intro m i
    rw [setLocal, ih, Mem.write_one, ← BitVec.add_assoc]
    by_cases hx : x = dst + i
    · rw [if_pos hx, hx, BitVec.sub_self, if_pos (show (0#32 : U32).toNat < left + 1 from Nat.zero_lt_succ _), ite_self]
    · rw [if_neg hx]
      exact if_congr (sub_next hx) rfl rfl

/-- `memcpy_local` copies its bytes, where the two blocks do not overlap. -/
theorem copyLocal_apply (dst src x : U32) : ∀ (left : Nat) (m : Mem) (i : U32), left < 2 ^ 32 →
    (∀ y z : U32, (y - (src + i)).toNat < left → (z - (dst + i)).toNat < left → y ≠ z) →
    copyLocal m dst src i left x = if (x - (dst + i)).toNat < left then m (src + (x - dst)) else m x := by
  intro left
  induction left with
  | zero => intro m i _ _; exact (if_neg (Nat.not_lt_zero _)).symm
  | succ left ih =>
    intro m i hleft hapart
    have hnext : ∀ {y a : U32}, (y - (a + (i + 1#32))).toNat < left → (y - (a + i)).toNat < left + 1 := by
      intro y a hy
      rw [← BitVec.add_assoc] at hy
      by_cases heq : y = a + i
      · rw [heq] at hy
        exact absurd hy (not_sub_next _ (by lia))
      · exact (sub_next heq).mp hy
    rw [copyLocal, ih _ _ (by lia) fun y z hy hz => hapart y z (hnext hy) (hnext hz), ← BitVec.add_assoc]
    by_cases hx : x = dst + i
    · -- the first byte, which the rest leaves
      have hsrc : src + (x - dst) = src + i := by rw [hx]; abel
      have hself : (x - (dst + i)).toNat < left + 1 := by
        rw [hx, BitVec.sub_self]
        exact Nat.zero_lt_succ _
      rw [if_pos hself, hsrc, hx, if_neg (not_sub_next _ (by lia)), Mem.write_one, if_pos rfl]
    · rw [if_congr (sub_next hx) rfl rfl, Mem.write_one, Mem.write_one, if_neg hx]
      by_cases hlt : (x - (dst + i)).toNat < left + 1
      · have hplace : src + (x - dst) - (src + i) = x - (dst + i) := by abel
        have hne : src + (x - dst) ≠ dst + i := by
          refine hapart _ _ (by rw [hplace]; exact hlt) ?_
          rw [BitVec.sub_self]
          exact Nat.zero_lt_succ _
        rw [if_pos hlt, if_pos hlt, if_neg hne]
      · rw [if_neg hlt, if_neg hlt]

/-! ## Blocks -/

/-- The blocks of a heap: those the program holds, with the bytes it asked for, and those it freed, in the order of the free list. -/
structure Blocks (h : Heap) (live : U32 → Option Nat) (freed : List U32) : Prop where
  sound : SbrkSound h.asked
  sizes : ∀ e ∈ granted h.asked, h.size e.2 + 8#32 = e.1 ∧ 12 ≤ e.1.toNat
  liveBlock : ∀ p n, live p = some n → p ∉ freed ∧ ∃ e ∈ granted h.asked, p = e.2 + 8#32 ∧ n + 8 ≤ e.1.toNat
  freedBlock : ∀ p ∈ freed, ∃ e ∈ granted h.asked, p = e.2 + 8#32
  nodup : freed.Nodup
  chain : ListMem.Chain 4#32 h.list.mem h.list.head (freed.map (· - 8#32))

namespace Blocks

variable {h h' : Heap} {live : U32 → Option Nat} {freed : List U32} {e e' : U32 × U32} {p q x size answer : U32} {m : Mem} {n : Nat}

/-- The size in a header. -/
theorem size_toNat (hb : Blocks h live freed) (he : e ∈ granted h.asked) : (h.size e.2).toNat + 8 = e.1.toNat := by
  obtain ⟨hsize, hlow⟩ := hb.sizes e he
  have hsum := congrArg BitVec.toNat hsize
  rw [BitVec.toNat_add, show (8#32 : U32).toNat = 8 from rfl] at hsum
  have := (h.size e.2).isLt
  omega

/-- A pointer that is held, or was freed, is the pointer of a block. -/
theorem block (hb : Blocks h live freed) (hp : (live p).isSome ∨ p ∈ freed) : ∃ e ∈ granted h.asked, p = e.2 + 8#32 := by
  rcases hp with hp | hp
  · obtain ⟨n, hn⟩ := Option.isSome_iff_exists.mp hp
    obtain ⟨-, e, he, heq, -⟩ := hb.liveBlock p n hn
    exact ⟨e, he, heq⟩
  · exact hb.freedBlock p hp

theorem mem_header (hb : Blocks h live freed) (hp : p ∈ freed) : ∃ e ∈ granted h.asked, p - 8#32 = e.2 := by
  obtain ⟨e, he, rfl⟩ := hb.freedBlock p hp
  exact ⟨e, he, BitVec.add_sub_cancel _ _⟩

/-- The blocks do not depend on memory outside the headers, nor on `errno`. -/
theorem withMem (hb : Blocks h live freed)
    (hm : ∀ e ∈ granted h.asked, ∀ x : U32, e.2.toNat ≤ x.toNat → x.toNat < e.2.toNat + 8 → m x = h.list.mem x) :
    Blocks (h.withMem m) live freed := by
  refine ⟨hb.sound, fun e he => ⟨?_, (hb.sizes e he).2⟩, hb.liveBlock, hb.freedBlock, hb.nodup, ?_⟩
  · obtain ⟨-, -, -, hlt⟩ := hb.sound.bounds he
    have hsize : (h.withMem m).size e.2 = h.size e.2 := read32_congr (by lia) fun x hx hx' => hm e he x hx (by lia)
    rw [hsize]
    exact (hb.sizes e he).1
  · refine hb.chain.congr fun y hy => ?_
    obtain ⟨p, hp, rfl⟩ := List.mem_map.mp hy
    obtain ⟨e, he, heq⟩ := hb.mem_header hp
    obtain ⟨-, -, -, hlt⟩ := hb.sound.bounds he
    have hplace := hb.sound.link he
    rw [heq]
    exact read32_congr (by lia) fun x hx hx' => hm e he x (by lia) (by lia)

/-- Headers of two blocks, and the links in them, do not overlap. -/
theorem links_apart (hb : Blocks h live freed) (he : e ∈ granted h.asked) (he' : e' ∈ granted h.asked) (hne : e.2 ≠ e'.2) :
    WordsApart (e.2 + 4#32) (e'.2 + 4#32) := by
  obtain ⟨-, -, -, hlt⟩ := hb.sound.bounds he
  obtain ⟨-, -, -, hlt'⟩ := hb.sound.bounds he'
  have h12 := (hb.sizes e he).2
  have h12' := (hb.sizes e' he').2
  have hplace := hb.sound.link he
  have hplace' := hb.sound.link he'
  have hapart := (hb.sound.apart he he').resolve_left fun heq => hne (congrArg Prod.snd heq)
  unfold RangesApart at hapart
  exact wordsApart_of_le (by lia) (by lia) (by lia)

theorem sub_injective : Function.Injective fun p : U32 => p - 8#32 := fun _ _ h => sub_left_injective h

theorem nodup_map (hb : Blocks h live freed) : (freed.map (· - 8#32)).Nodup := hb.nodup.map sub_injective

/-! ## `malloc` -/

/-- A size that does not wrap is rounded up. -/
theorem roundWord_toNat (hpos : 0 < size.toInt) (hle : size.toInt ≤ 0x7ffffffc) :
    size.toNat ≤ (roundWord size).toNat ∧ 4 ≤ (roundWord size).toNat ∧ (roundWord size).toNat ≤ 0x7ffffffc ∧
      size.toInt.toNat = size.toNat := by
  have hmask := toNat_and_not_low (size + 3#32) 2
  have hlt := size.isLt
  have hsum : (size + 3#32).toNat = size.toNat + 3 := by
    rw [BitVec.toNat_add, show (3#32 : U32).toNat = 3 from rfl]
    rw [BitVec.toInt_eq_toNat_cond] at hpos hle
    split at hpos <;> split at hle <;> lia
  change (roundWord size).toNat = _ at hmask
  rw [hsum] at hmask
  rw [BitVec.toInt_eq_toNat_cond] at hpos hle ⊢
  split at hpos <;> split at hle <;> lia

/-- A larger one is the most negative `int`. -/
theorem roundWord_wraps (h : 0x7ffffffc < size.toInt) : roundWord size = 0x80000000#32 := by
  have hlt := size.isLt
  have hcases : size = 0x7ffffffd#32 ∨ size = 0x7ffffffe#32 ∨ size = 0x7fffffff#32 := by
    rw [BitVec.toInt_eq_toNat_cond] at h
    have htop : size.toNat = 0x7ffffffd ∨ size.toNat = 0x7ffffffe ∨ size.toNat = 0x7fffffff := by
      split at h <;> lia
    rcases htop with h' | h' | h'
    · exact .inl (BitVec.eq_of_toNat_eq h')
    · exact .inr (.inl (BitVec.eq_of_toNat_eq h'))
    · exact .inr (.inr (BitVec.eq_of_toNat_eq h'))
  rcases hcases with rfl | rfl | rfl <;> decide

/-- The heap with a block taken out of the free list behind others. -/
def unlinked (h : Heap) (before : List U32) (p : U32) : Heap :=
  let place := ListMem.lastPlace 4#32 none (before.map (· - 8#32))
  { h with list := h.list.store place (h.list.mem.read32 (p - 8#32 + 4#32)) }

/-- The heap with a question to `sys_sbrk` noted. -/
def noted (h : Heap) (size answer : U32) : Heap := { h with asked := h.asked ++ [(roundWord size + 8#32, answer)] }

/-- The heap with a new block. -/
def extended (h : Heap) (size answer : U32) : Heap :=
  (noted h size answer).withMem ((h.list.mem.write32 answer (roundWord size)).write32 (answer + 4#32) 0#32)

/-- What `malloc` does: nothing, for a size that is not positive; or it takes the first block that fits out of the free list; or it asks
for a new one, and is denied or given it. -/
theorem malloc_cases (hb : Blocks h live freed) (size answer : U32) :
    size.toInt ≤ 0 ∧ malloc h size answer = some (h, 0#32) ∨
    0 < size.toInt ∧ (∃ l₁ p l₂, freed = l₁ ++ p :: l₂ ∧ (roundWord size).toInt ≤ (h.size (p - 8#32)).toInt ∧
      malloc h size answer = some (unlinked h l₁ p, p)) ∨
    0 < size.toInt ∧ answer.toInt < 0 ∧ malloc h size answer = some ({ noted h size answer with errno := enomem }, 0#32) ∨
    0 < size.toInt ∧ 0 ≤ answer.toInt ∧ malloc h size answer = some (extended h size answer, answer + 8#32) := by
  rw [malloc]
  by_cases hneg : size.toInt ≤ 0
  · exact .inl ⟨hneg, if_pos hneg⟩
  rw [if_neg hneg]
  have hturns : (freed.map (· - 8#32)).length < walkTurns := Nat.lt_succ_of_le (length_le_of_nodup hb.nodup_map)
  have hchain : ListMem.Chain 4#32 h.list.mem (h.list.load none) (freed.map (· - 8#32)) := hb.chain
  rcases ListMem.walk_eq (h.fits (roundWord size)) hchain hturns with ⟨-, hwalk⟩ | ⟨l₁, b, l₂, heq, hfit, hwalk⟩
  · rw [hwalk]
    dsimp only
    by_cases hanswer : answer.toInt < 0
    · exact .inr (.inr (.inl ⟨by omega, hanswer, if_pos hanswer⟩))
    · exact .inr (.inr (.inr ⟨by omega, by omega, if_neg hanswer⟩))
  · obtain ⟨k₁, k, rfl, rfl, hk⟩ := List.map_eq_append_iff.mp heq
    obtain ⟨p, k₂, rfl, rfl, rfl⟩ := List.map_eq_cons_iff.mp hk
    rw [heq] at hchain
    have hload : h.list.load (ListMem.lastPlace 4#32 none (k₁.map (· - 8#32))) = p - 8#32 := ListMem.load_lastPlace hchain
    refine .inr (.inl ⟨by omega, k₁, p, k₂, rfl, of_decide_eq_true hfit, ?_⟩)
    rw [hwalk]
    dsimp only
    rw [hload, BitVec.sub_add_cancel]
    rfl

/-- No block is free, or the size does not wrap as it is rounded up. -/
def SizeFits (h : Heap) (size : U32) : Prop := size.toInt ≤ 0x7ffffffc ∨ h.list.head = 0#32

/-- What an allocation leaves: the ranges before it, and either all as it was, for a null pointer, or a block that was not held, and
the bytes of those that were. -/
structure Allocated (h : Heap) (live : U32 → Option Nat) (freed : List U32) (h' : Heap) (p size : U32) : Prop where
  ranges : ∀ e ∈ granted h.asked, e ∈ granted h'.asked
  null : p = 0#32 → h'.list.mem = h.list.mem ∧ Blocks h' live freed
  given : p ≠ 0#32 → live p = none ∧ Blocks h' (Function.update live p (some size.toInt.toNat)) (freed.erase p)
  frame : ∀ q, (live q).isSome → ∀ x : U32, q.toNat ≤ x.toNat → x.toNat < q.toNat + (h.size (q - 8#32)).toNat →
    h'.list.mem x = h.list.mem x

/-- A block that is taken out of the free list is written to in the links of free blocks only. -/
theorem unlinked_mem (hb : Blocks h live freed) {before : List U32} (hbefore : ∀ q ∈ before, q ∈ freed)
    (hx : ∀ e ∈ granted h.asked, e.2 + 8#32 ∈ freed → x.toNat < e.2.toNat + 4 ∨ e.2.toNat + 8 ≤ x.toNat) :
    (unlinked h before p).list.mem x = h.list.mem x := by
  refine ListMem.mem_unlink fun y hy => ?_
  obtain ⟨q, hq, rfl⟩ := List.mem_map.mp hy
  obtain ⟨e, he, rfl⟩ := hb.freedBlock q (hbefore q hq)
  have hlink := hb.sound.link he
  have hcases := hx e he (hbefore _ hq)
  obtain ⟨-, -, -, hlt⟩ := hb.sound.bounds he
  rw [BitVec.add_sub_cancel, BitVec.toNat_sub, hlink]
  have := x.isLt
  omega

/-- The bytes of a block that is held, with those of its header that are no link of a free block. -/
theorem apart_of_live (hb : Blocks h live freed) (hq : q ∉ freed) (he : e ∈ granted h.asked) (heq : q = e.2 + 8#32)
    (he' : e' ∈ granted h.asked) (hfree : e'.2 + 8#32 ∈ freed) : RangesApart e e' := by
  refine (hb.sound.apart he he').resolve_left ?_
  rintro rfl
  exact hq (heq ▸ hfree)

theorem unlinked_allocated (hb : Blocks h live freed) {l₁ l₂ : List U32} (hfreed : freed = l₁ ++ p :: l₂)
    (hfits : (roundWord size).toInt ≤ (h.size (p - 8#32)).toInt) (hpos : 0 < size.toInt) (hle : size.toInt ≤ 0x7ffffffc) :
    Allocated h live freed (unlinked h l₁ p) p size := by
  have hin : p ∈ freed := by
    rw [hfreed]
    exact List.mem_append_right _ List.mem_cons_self
  have hbefore : ∀ q ∈ l₁, q ∈ freed := fun q hq => by
    rw [hfreed]
    exact List.mem_append_left _ hq
  obtain ⟨e, he, hpe⟩ := hb.freedBlock p hin
  have hlive : live p = none := by
    cases hp : live p with
    | none => rfl
    | some n => exact absurd hin (hb.liveBlock p n hp).1
  have hne : p ≠ 0#32 := hpe ▸ (hb.sound.pointer he).2
  have herase : freed.erase p = l₁ ++ l₂ := by
    have hnot : p ∉ l₁ := by
      have hnodup := hb.nodup
      rw [hfreed] at hnodup
      exact fun h => (List.nodup_append.mp hnodup).2.2 p h p List.mem_cons_self rfl
    rw [hfreed, List.erase_append_right _ hnot, List.erase_cons_head]
  have hroom : size.toInt.toNat + 8 ≤ e.1.toNat := by
    obtain ⟨hround, -, htop, hnat⟩ := roundWord_toNat hpos hle
    have hsize := hb.size_toNat he
    have hbound := (hb.sound.bounds he).2.1
    rw [hpe, BitVec.add_sub_cancel, BitVec.toInt_eq_toNat_of_lt (by lia), BitVec.toInt_eq_toNat_of_lt (by lia)] at hfits
    lia
  refine ⟨fun _ h => h, fun h0 => absurd h0 hne, fun _ => ⟨hlive, hb.sound, fun e he => ⟨?_, (hb.sizes e he).2⟩, fun q n hq => ?_,
    fun q hq => hb.freedBlock q (List.mem_of_mem_erase hq), hb.nodup.erase p, ?_⟩, fun q hq x hlow hhigh => ?_⟩
  · have hsize : (unlinked h l₁ p).size e.2 = h.size e.2 := by
      obtain ⟨-, -, -, hlt⟩ := hb.sound.bounds he
      refine read32_congr (by lia) fun x hx hx' => unlinked_mem hb hbefore fun e' he' _ => ?_
      rcases hb.sound.apart he he' with rfl | hapart
      · exact .inl hx'
      · have h12 := (hb.sizes e he).2
        have h12' := (hb.sizes e' he').2
        unfold RangesApart at hapart
        lia
    rw [hsize]
    exact (hb.sizes e he).1
  · by_cases hqp : q = p
    · rw [hqp, Function.update_self, Option.some.injEq] at hq
      refine ⟨fun hmem => ?_, e, he, hqp.trans hpe, by lia⟩
      rw [hqp] at hmem
      exact hb.nodup.not_mem_erase hmem
    · rw [Function.update_of_ne hqp] at hq
      obtain ⟨hnot, hblock⟩ := hb.liveBlock q n hq
      exact ⟨fun hmem => hnot (List.mem_of_mem_erase hmem), hblock⟩
  · have hchain := hb.chain
    have hnodup := hb.nodup_map
    have hheader : ∀ y ∈ freed.map (· - 8#32), ∃ e ∈ granted h.asked, y = e.2 := by
      intro y hy
      obtain ⟨q, hq, rfl⟩ := List.mem_map.mp hy
      exact hb.mem_header hq
    have hmap : freed.map (· - 8#32) = l₁.map (· - 8#32) ++ (p - 8#32) :: l₂.map (· - 8#32) := by
      rw [hfreed, List.map_append, List.map_cons]
    rw [hmap] at hchain hnodup hheader
    rw [herase, List.map_append]
    refine ListMem.Chain.unlink hchain hnodup (fun y hy z hz hyz => ?_) nofun
    obtain ⟨e, he, rfl⟩ := hheader y hy
    obtain ⟨e', he', rfl⟩ := hheader z hz
    exact hb.links_apart he he' hyz
  · obtain ⟨n, hn⟩ := Option.isSome_iff_exists.mp hq
    obtain ⟨hnot, e, he, hqe, -⟩ := hb.liveBlock q n hn
    have hsize := hb.size_toNat he
    have hpointer := (hb.sound.pointer he).1
    refine unlinked_mem hb hbefore fun e' he' hfree => ?_
    have hapart := hb.apart_of_live hnot he hqe he' hfree
    have h12 := (hb.sizes e' he').2
    rw [hqe, BitVec.add_sub_cancel] at hhigh
    rw [hqe] at hlow
    unfold RangesApart at hapart
    lia

/-- A question that is denied adds no range. -/
theorem granted_denied (asked : List (U32 × U32)) {total : U32} (h : answer.toInt < 0) :
    granted (asked ++ [(total, answer)]) = granted asked := by
  have hno : granted [(total, answer)] = [] := List.filter_cons_of_neg (by simpa using h)
  rw [granted, List.filter_append]
  exact (congrArg (granted asked ++ ·) hno).trans (List.append_nil _)

/-- One that is granted adds its range. -/
theorem granted_given (asked : List (U32 × U32)) {total : U32} (h : 0 ≤ answer.toInt) :
    granted (asked ++ [(total, answer)]) = granted asked ++ [(total, answer)] := by
  have hyes : granted [(total, answer)] = [(total, answer)] := List.filter_cons_of_pos (by simpa using h)
  rw [granted, List.filter_append]
  exact congrArg (granted asked ++ ·) hyes

/-- The blocks of a heap with another list of questions, none of them granted. -/
theorem denied_allocated (hb : Blocks h live freed) (hanswer : answer.toInt < 0) (hs : SbrkSound (noted h size answer).asked) :
    Allocated h live freed { noted h size answer with errno := enomem } 0#32 size := by
  have hgranted : granted (noted h size answer).asked = granted h.asked := granted_denied h.asked hanswer
  refine ⟨fun e he => ?_, fun _ => ⟨rfl, hs, fun e he => ?_, fun q n hq => ?_, fun q hq => ?_, hb.nodup, hb.chain⟩,
    fun h0 => absurd rfl h0, fun _ _ _ _ _ => rfl⟩
  · change e ∈ granted (noted h size answer).asked
    rwa [hgranted]
  · change e ∈ granted (noted h size answer).asked at he
    rw [hgranted] at he
    exact hb.sizes e he
  · change _ ∧ ∃ e ∈ granted (noted h size answer).asked, _
    rw [hgranted]
    exact hb.liveBlock q n hq
  · change ∃ e ∈ granted (noted h size answer).asked, _
    rw [hgranted]
    exact hb.freedBlock q hq

/-- A new block is written to in its header only. -/
theorem extended_mem (hlow : answer.toNat + 8 ≤ 2 ^ 32) (hx : x.toNat < answer.toNat ∨ answer.toNat + 8 ≤ x.toNat) :
    (extended h size answer).list.mem x = h.list.mem x := by
  have hlink : (answer + 4#32).toNat = answer.toNat + 4 := by
    rw [BitVec.toNat_add, show (4#32 : U32).toNat = 4 from rfl]
    lia
  change ((h.list.mem.write32 answer (roundWord size)).write32 (answer + 4#32) 0#32) x = _
  rw [write32_of_apart (by lia) (by lia), write32_of_apart (by lia) (by lia)]

theorem extended_allocated (hb : Blocks h live freed) (hanswer : 0 ≤ answer.toInt) (hpos : 0 < size.toInt)
    (hs : SbrkSound (extended h size answer).asked) : Allocated h live freed (extended h size answer) (answer + 8#32) size := by
  have hgranted : granted (extended h size answer).asked = granted h.asked ++ [(roundWord size + 8#32, answer)] :=
    granted_given h.asked hanswer
  have hnew : (roundWord size + 8#32, answer) ∈ granted (extended h size answer).asked := by
    rw [hgranted]
    exact List.mem_append_right _ List.mem_cons_self
  have hold : ∀ e ∈ granted h.asked, e ∈ granted (extended h size answer).asked := fun e he => by
    rw [hgranted]
    exact List.mem_append_left _ he
  have hle : size.toInt ≤ 0x7ffffffc := by
    by_contra hlt
    have hpositive := hs.positive _ hnew
    rw [roundWord_wraps (by omega)] at hpositive
    have hneg : ¬0 < (0x80000000#32 + 8#32 : U32).toInt := by decide
    exact hneg hpositive
  obtain ⟨hround, hfour, htop, hnat⟩ := roundWord_toNat hpos hle
  have htotal : (roundWord size + 8#32).toNat = (roundWord size).toNat + 8 := by
    rw [BitVec.toNat_add, show (8#32 : U32).toNat = 8 from rfl]
    omega
  obtain ⟨-, hbound, -, hlow⟩ := hs.bounds hnew
  obtain ⟨hpointer, hne⟩ := hs.pointer hnew
  dsimp only at hbound hlow hpointer hne
  -- the new range is apart from every one before
  have hfresh : ∀ e ∈ granted h.asked, e.2.toNat + e.1.toNat ≤ answer.toNat ∨ answer.toNat + (roundWord size + 8#32).toNat ≤ e.2.toNat := by
    have hpairs := hs.fresh
    rw [hgranted, List.pairwise_append] at hpairs
    exact fun e he => hpairs.2.2 e he _ List.mem_cons_self
  have hstart : ∀ e ∈ granted h.asked, answer + 8#32 ≠ e.2 + 8#32 := by
    intro e he heq
    have hstart : answer = e.2 := add_right_cancel heq
    have hapart := hfresh e he
    have h12 := (hb.sizes e he).2
    rw [hstart] at hapart
    omega
  have hlive : live (answer + 8#32) = none := by
    cases hp : live (answer + 8#32) with
    | none => rfl
    | some n =>
      obtain ⟨-, e, he, heq, -⟩ := hb.liveBlock _ n hp
      exact absurd heq (hstart e he)
  have hfreed : answer + 8#32 ∉ freed := by
    intro hin
    obtain ⟨e, he, heq⟩ := hb.freedBlock _ hin
    exact hstart e he heq
  have hmem : ∀ x : U32, x.toNat < answer.toNat ∨ answer.toNat + 8 ≤ x.toNat →
      (extended h size answer).list.mem x = h.list.mem x := fun x hx => extended_mem (by omega) hx
  -- the headers of the blocks before are as they were, and their links
  have hsize : ∀ e ∈ granted h.asked, (extended h size answer).size e.2 = h.size e.2 := by
    intro e he
    have hapart := hfresh e he
    have h12 := (hb.sizes e he).2
    obtain ⟨-, -, -, hlt⟩ := hb.sound.bounds he
    exact read32_congr (by omega) fun x hx hx' => hmem x (by omega)
  have hlink : ∀ q ∈ freed, (extended h size answer).list.mem.read32 (q - 8#32 + 4#32) = h.list.mem.read32 (q - 8#32 + 4#32) := by
    intro q hq
    obtain ⟨e, he, rfl⟩ := hb.freedBlock q hq
    have hapart := hfresh e he
    have h12 := (hb.sizes e he).2
    have hplace := hb.sound.link he
    obtain ⟨-, -, -, hlt⟩ := hb.sound.bounds he
    rw [BitVec.add_sub_cancel]
    exact read32_congr (by omega) fun x hx hx' => hmem x (by omega)
  have hself : (extended h size answer).size answer = roundWord size := by
    have hplace : (answer + 4#32).toNat = answer.toNat + 4 := by
      rw [BitVec.toNat_add, show (4#32 : U32).toNat = 4 from rfl]
      omega
    have hwords : WordsApart answer (answer + 4#32) := wordsApart_of_le (by omega) (by omega) (by omega)
    exact (Mem.read32_write32_of_le hwords.1 hwords.2).trans (Mem.read32_write32 _ _ _)
  refine ⟨hold, fun h0 => absurd h0 hne, fun _ => ⟨hlive, hs, fun e he => ?_, fun q n hq => ?_, fun q hq => ?_, hb.nodup.erase _, ?_⟩,
    fun q hq x hx hx' => ?_⟩
  · rw [hgranted] at he
    rcases List.mem_append.mp he with he | he
    · rw [hsize e he]
      exact hb.sizes e he
    · rw [List.mem_singleton.mp he]
      dsimp only
      rw [hself]
      exact ⟨rfl, by omega⟩
  · rw [List.erase_of_not_mem hfreed]
    by_cases hqp : q = answer + 8#32
    · rw [hqp, Function.update_self, Option.some.injEq] at hq
      refine ⟨hqp ▸ hfreed, _, hnew, hqp, ?_⟩
      dsimp only
      omega
    · rw [Function.update_of_ne hqp] at hq
      obtain ⟨hnot, e, he, heq, hroom⟩ := hb.liveBlock q n hq
      exact ⟨hnot, e, hold e he, heq, hroom⟩
  · obtain ⟨e, he, heq⟩ := hb.freedBlock q (List.mem_of_mem_erase hq)
    exact ⟨e, hold e he, heq⟩
  · rw [List.erase_of_not_mem hfreed]
    refine hb.chain.congr fun y hy => ?_
    obtain ⟨q, hq, rfl⟩ := List.mem_map.mp hy
    exact hlink q hq
  · obtain ⟨e, he, hqe⟩ := hb.block (.inl hq)
    have hapart := hfresh e he
    have hroom := hb.size_toNat he
    have hplace := (hb.sound.pointer he).1
    rw [hqe, BitVec.add_sub_cancel] at hx'
    rw [hqe] at hx
    exact hmem x (by omega)

/-- A call of `malloc` returns, and leaves the blocks as they should be, where the size does not wrap or no block is free. -/
theorem malloc_allocated (hb : Blocks h live freed) (hfit : SizeFits h size) (answer : U32) :
    ∃ h' p, malloc h size answer = some (h', p) ∧ (SbrkSound h'.asked → Allocated h live freed h' p size) := by
  rcases malloc_cases hb size answer with ⟨-, heq⟩ | ⟨hpos, l₁, p, l₂, hfreed, hsize, heq⟩ | ⟨-, hanswer, heq⟩ | ⟨hpos, hanswer, heq⟩
  · exact ⟨h, 0#32, heq, fun _ => ⟨fun _ he => he, fun _ => ⟨rfl, hb⟩, fun h0 => absurd rfl h0, fun _ _ _ _ _ => rfl⟩⟩
  · refine ⟨_, p, heq, fun _ => unlinked_allocated hb hfreed hsize hpos (hfit.resolve_right fun h0 => ?_)⟩
    -- the free list has a block
    have hchain := hb.chain
    rw [hfreed, List.map_append, List.map_cons, h0] at hchain
    cases l₁ with
    | nil => exact hchain.2.1 hchain.1.symm
    | cons q l₁ => exact hchain.2.1 hchain.1.symm
  · exact ⟨_, _, heq, fun hs => denied_allocated hb hanswer hs⟩
  · exact ⟨_, _, heq, fun hs => extended_allocated hb hanswer hpos hs⟩

/-! ## `free` -/

/-- `free` writes to the link of its block. -/
theorem free_mem (he : e ∈ granted h.asked) (hb : Blocks h live freed) (hp : p = e.2 + 8#32)
    (hx : x.toNat < e.2.toNat + 4 ∨ e.2.toNat + 8 ≤ x.toNat) : (free h p).list.mem x = h.list.mem x := by
  have hlink := hb.sound.link he
  obtain ⟨-, -, -, hlt⟩ := hb.sound.bounds he
  have hne : p ≠ 0#32 := hp ▸ (hb.sound.pointer he).2
  rw [free, if_neg hne, hp, BitVec.add_sub_cancel]
  exact write32_of_apart (by omega) (by omega)

theorem free_asked (h : Heap) (p : U32) : (free h p).asked = h.asked := by
  rw [free]
  split <;> rfl

/-- A block that is held goes to the front of the free list. -/
theorem free_blocks (hb : Blocks h live freed) (hp : (live p).isSome) : Blocks (free h p) (Function.update live p none) (p :: freed) := by
  obtain ⟨n, hn⟩ := Option.isSome_iff_exists.mp hp
  obtain ⟨hnot, e, he, hpe, -⟩ := hb.liveBlock p n hn
  have hne : p ≠ 0#32 := hpe ▸ (hb.sound.pointer he).2
  have hmem : ∀ x : U32, x.toNat < e.2.toNat + 4 ∨ e.2.toNat + 8 ≤ x.toNat → (free h p).list.mem x = h.list.mem x :=
    fun x hx => free_mem he hb hpe hx
  have hasked := free_asked h p
  refine ⟨hasked ▸ hb.sound, fun e' he' => ?_, fun q k hq => ?_, fun q hq => ?_, List.nodup_cons.mpr ⟨hnot, hb.nodup⟩, ?_⟩
  · rw [hasked] at he'
    have hsize : (free h p).size e'.2 = h.size e'.2 := by
      obtain ⟨-, -, -, hlt⟩ := hb.sound.bounds he'
      refine read32_congr (by lia) fun x hx hx' => hmem x ?_
      rcases hb.sound.apart he he' with rfl | hapart
      · exact .inl hx'
      · have h12 := (hb.sizes e he).2
        have h12' := (hb.sizes e' he').2
        unfold RangesApart at hapart
        lia
    rw [hsize]
    exact hb.sizes e' he'
  · by_cases hqp : q = p
    · rw [hqp, Function.update_self] at hq
      exact nomatch hq
    · rw [Function.update_of_ne hqp] at hq
      obtain ⟨hq', hblock⟩ := hb.liveBlock q k hq
      rw [hasked]
      exact ⟨fun hmem => (List.mem_cons.mp hmem).elim hqp hq', hblock⟩
  · rw [hasked]
    rcases List.mem_cons.mp hq with rfl | hq
    · exact hb.block (.inl hp)
    · exact hb.freedBlock q hq
  · have hhead : (free h p).list = ⟨h.list.mem.write32 (p - 8#32 + 4#32) h.list.head, p - 8#32⟩ := by
      rw [free, if_neg hne]
    rw [hhead, List.map_cons]
    refine hb.chain.push ?_ (Mem.read32_write32 _ _ _) fun y hy => ?_
    · rw [hpe, BitVec.add_sub_cancel]
      exact hb.sound.nonnull e he
    · obtain ⟨q, hq, rfl⟩ := List.mem_map.mp hy
      obtain ⟨e', he', hqe⟩ := hb.mem_header hq
      have hstart : e'.2 ≠ e.2 := by
        intro heq
        rw [← BitVec.sub_add_cancel q 8#32, hqe, heq, ← hpe] at hq
        exact hnot hq
      have hwords := hb.links_apart he' he hstart
      rw [hqe, hpe, BitVec.add_sub_cancel]
      exact Mem.read32_write32_of_le hwords.1 hwords.2

/-! ## `calloc` and `realloc` -/

/-- A change of memory in the bytes of a block that is held leaves the blocks as they are. -/
theorem withMem_payload (hb : Blocks h live freed) (he : e ∈ granted h.asked)
    (hm : ∀ x : U32, x.toNat < e.2.toNat + 8 ∨ e.2.toNat + e.1.toNat ≤ x.toNat → m x = h.list.mem x) : Blocks (h.withMem m) live freed := by
  refine hb.withMem fun e' he' x hx hx' => hm x ?_
  rcases hb.sound.apart he he' with rfl | hapart
  · exact .inl (by omega)
  · have h12' := (hb.sizes e' he').2
    unfold RangesApart at hapart
    omega

/-- The bytes from a pointer on. -/
theorem in_range {d : U32} {k : Nat} (hd : d.toNat + k ≤ 2 ^ 32) : (x - (d + 0#32)).toNat < k ↔ d.toNat ≤ x.toNat ∧ x.toNat < d.toNat + k := by
  rw [BitVec.add_zero, BitVec.toNat_sub]
  have := x.isLt
  have := d.isLt
  omega

/-- What `calloc` multiplies does not wrap where it goes on. -/
theorem calloc_total {n : U32} (hn : 0 < n.toInt) (hsize : 0 < size.toInt)
    (hle : n.toInt ≤ ((0x7fffffff#32 : U32).sdiv size).toInt) :
    (n * size).toInt = n.toInt * size.toInt ∧ n.toInt * size.toInt ≤ 0x7fffffff := by
  have hne : (0x7fffffff#32 : U32) ≠ BitVec.intMin 32 := by decide
  rw [BitVec.toInt_sdiv_of_ne_or_ne _ _ (.inl hne), show (0x7fffffff#32 : U32).toInt = 0x7fffffff from rfl,
    Int.tdiv_eq_ediv_of_nonneg (by decide), Int.le_ediv_iff_mul_le hsize] at hle
  have hpos : 0 < n.toInt * size.toInt := Int.mul_pos hn hsize
  refine ⟨?_, hle⟩
  rw [BitVec.toInt_mul]
  exact Int.bmod_eq_of_le (by omega) (by omega)

/-- `calloc` refuses its arguments, or what it asks `malloc` for does not wrap or no block is free. -/
def CountFits (h : Heap) (n size : U32) : Prop :=
  n.toInt ≤ 0 ∨ size.toInt ≤ 0 ∨ 0x7fffffff < n.toInt * size.toInt ∨ n.toInt * size.toInt ≤ 0x7ffffffc ∨ h.list.head = 0#32

theorem calloc_allocated (hb : Blocks h live freed) {n : U32} (hfit : CountFits h n size) (answer : U32) :
    ∃ h' p, calloc h n size answer = some (h', p) ∧ (SbrkSound h'.asked → Allocated h live freed h' p (n * size) ∧
      (p ≠ 0#32 → ∀ i < (n * size).toInt.toNat, h'.list.mem (p + BitVec.ofNat 32 i) = 0#8)) := by
  have hrefused : Allocated h live freed h 0#32 (n * size) ∧
      ((0#32 : U32) ≠ 0#32 → ∀ i < (n * size).toInt.toNat, h.list.mem (0#32 + BitVec.ofNat 32 i) = 0#8) :=
    ⟨⟨fun _ he => he, fun _ => ⟨rfl, hb⟩, fun h0 => absurd rfl h0, fun _ _ _ _ _ => rfl⟩, fun h0 => absurd rfl h0⟩
  rw [calloc]
  by_cases hneg : n.toInt ≤ 0 ∨ size.toInt ≤ 0
  · exact ⟨h, 0#32, if_pos hneg, fun _ => hrefused⟩
  rw [if_neg hneg]
  by_cases hlarge : ((0x7fffffff#32 : U32).sdiv size).toInt < n.toInt
  · exact ⟨h, 0#32, if_pos hlarge, fun _ => hrefused⟩
  rw [if_neg hlarge]
  obtain ⟨htotal, hmax⟩ := @calloc_total size n (by lia) (by lia) (by lia)
  have hsize : SizeFits h (n * size) := by
    rw [SizeFits, htotal]
    rcases hfit with hn | hs | hover | hle | hhead
    · exact absurd (.inl hn) hneg
    · exact absurd (.inr hs) hneg
    · lia
    · exact .inl hle
    · exact .inr hhead
  obtain ⟨h₁, p, heq, hall⟩ := hb.malloc_allocated hsize answer
  rw [heq, Option.map_some]
  by_cases hp : p = 0#32
  · refine ⟨h₁, p, ?_, fun hs => ⟨hall hs, fun h0 => absurd hp h0⟩⟩
    dsimp only
    rw [if_neg (not_not_intro hp)]
  · refine ⟨h₁.withMem (setLocal h₁.list.mem p 0#32 0#8 (n * size).toInt.toNat), p, ?_, fun hs => ?_⟩
    · dsimp only
      rw [if_pos hp]
    · have hgiven := hall hs
      obtain ⟨hnone, hblocks⟩ := hgiven.given hp
      obtain ⟨-, e, he, hpe, hroom⟩ := hblocks.liveBlock p _ (Function.update_self _ _ _)
      obtain ⟨-, hbound, -, hlow⟩ := hblocks.sound.bounds he
      have hpointer := (hblocks.sound.pointer he).1
      rw [← hpe] at hpointer
      -- the bytes that are cleared are those of the new block
      have hmem : ∀ x : U32, x.toNat < p.toNat ∨ p.toNat + (n * size).toInt.toNat ≤ x.toNat →
          setLocal h₁.list.mem p 0#32 0#8 (n * size).toInt.toNat x = h₁.list.mem x := by
        intro x hx
        rw [setLocal_apply, if_neg]
        rw [in_range (by lia)]
        lia
      refine ⟨⟨hgiven.ranges, fun h0 => absurd h0 hp, fun _ => ⟨hnone, hblocks.withMem_payload he fun x hx => hmem x (by lia)⟩,
        fun q hq x hx hx' => ?_⟩, fun _ i hi => ?_⟩
      · refine Eq.trans (hmem x ?_) (hgiven.frame q hq x hx hx')
        obtain ⟨e', he', hqe⟩ := hb.block (.inl hq)
        have hsize' := hb.size_toNat he'
        have hpointer' := (hb.sound.pointer he').1
        rw [hqe, BitVec.add_sub_cancel] at hx'
        rw [hqe] at hx
        rcases hblocks.sound.apart he (hgiven.ranges e' he') with rfl | hapart
        · rw [hqe, ← hpe, hnone] at hq
          exact nomatch hq
        · unfold RangesApart at hapart
          lia
      · change setLocal _ p 0#32 0#8 _ _ = 0#8
        rw [setLocal_apply, if_pos]
        rw [in_range (by lia), BitVec.toNat_add, BitVec.toNat_ofNat]
        lia

/-- What `realloc` leaves of a block that is held: all as it was, for a null pointer, or the block or another with the bytes that both
sizes have, and the bytes of every other block. -/
structure Reallocated (h : Heap) (live : U32 → Option Nat) (freed : List U32) (h' : Heap) (p np size : U32) : Prop where
  null : np = 0#32 → h'.list.mem = h.list.mem ∧ Blocks h' live freed
  given : np ≠ 0#32 →
    Blocks h' (Function.update (Function.update live p none) np (some size.toInt.toNat)) ((p :: freed).erase np)
  moved : np ≠ 0#32 → ∀ i < (h.size (p - 8#32)).toNat, (i : Int) < size.toInt →
    h'.list.mem (np + BitVec.ofNat 32 i) = h.list.mem (p + BitVec.ofNat 32 i)
  frame : ∀ q, (live q).isSome → q ≠ p → ∀ x : U32, q.toNat ≤ x.toNat → x.toNat < q.toNat + (h.size (q - 8#32)).toNat →
    h'.list.mem x = h.list.mem x

/-- The block has room for the new size. -/
theorem stays_reallocated (hb : Blocks h live freed) (hp : (live p).isSome) (hle : size.toInt ≤ (h.size (p - 8#32)).toInt) :
    Reallocated h live freed h p p size := by
  obtain ⟨n, hn⟩ := Option.isSome_iff_exists.mp hp
  obtain ⟨hnot, e, he, hpe, -⟩ := hb.liveBlock p n hn
  have hne : p ≠ 0#32 := hpe ▸ (hb.sound.pointer he).2
  have hsize := hb.size_toNat he
  have hbound := (hb.sound.bounds he).2.1
  rw [hpe, BitVec.add_sub_cancel, BitVec.toInt_eq_toNat_of_lt (x := h.size e.2) (by lia)] at hle
  refine ⟨fun h0 => absurd h0 hne, fun _ => ?_, fun _ _ _ _ => rfl, fun _ _ _ _ _ _ => rfl⟩
  rw [Function.update_idem, List.erase_cons_head]
  refine ⟨hb.sound, hb.sizes, fun q k hq => ?_, hb.freedBlock, hb.nodup, hb.chain⟩
  by_cases hqp : q = p
  · rw [hqp, Function.update_self, Option.some.injEq] at hq
    exact ⟨hqp ▸ hnot, e, he, hqp.trans hpe, by lia⟩
  · rw [Function.update_of_ne hqp] at hq
    exact hb.liveBlock q k hq

/-- The block is copied to another, and freed. -/
theorem moves_reallocated (hb : Blocks h live freed) {h₁ : Heap} {np : U32} (hp : (live p).isSome) (hnp : np ≠ 0#32)
    (hlt : (h.size (p - 8#32)).toInt < size.toInt) (hgiven : Allocated h live freed h₁ np size) :
    Reallocated h live freed (free (h₁.withMem (copyLocal h₁.list.mem np p 0#32 (h₁.size (p - 8#32)).toInt.toNat)) p) p np size := by
  obtain ⟨hnone, hblocks⟩ := hgiven.given hnp
  obtain ⟨e, he, hpe⟩ := hb.block (.inl hp)
  obtain ⟨-, e', he', hnpe, hroom⟩ := hblocks.liveBlock np _ (Function.update_self _ _ _)
  have hpne : p ≠ np := by
    rintro rfl
    rw [hnone] at hp
    exact nomatch hp
  have he₁ := hgiven.ranges e he
  have hsize := hb.size_toNat he
  have hkeep : h₁.size e.2 = h.size e.2 := add_right_cancel (((hblocks.sizes e he₁).1).trans (hb.sizes e he).1.symm)
  have hheader : p - 8#32 = e.2 := by rw [hpe, BitVec.add_sub_cancel]
  obtain ⟨-, hbound, -, hlow⟩ := hblocks.sound.bounds he₁
  obtain ⟨-, hbound', -, hlow'⟩ := hblocks.sound.bounds he'
  have hpointer := (hblocks.sound.pointer he₁).1
  have hpointer' := (hblocks.sound.pointer he').1
  rw [← hpe] at hpointer
  rw [← hnpe] at hpointer'
  have hint : (h.size e.2).toInt = (h.size e.2).toNat := BitVec.toInt_eq_toNat_of_lt (by lia)
  have hcount : (h₁.size (p - 8#32)).toInt.toNat = (h.size e.2).toNat := by rw [hheader, hkeep, hint, Int.toNat_natCast]
  rw [hheader, hint] at hlt
  have hapart : RangesApart e e' := by
    refine (hblocks.sound.apart he₁ he').resolve_left ?_
    rintro rfl
    exact hpne (hpe.trans hnpe.symm)
  unfold RangesApart at hapart
  rw [hcount]
  generalize hcopy : copyLocal h₁.list.mem np p 0#32 (h.size e.2).toNat = m
  have hcopied : ∀ x, m x = if (x - (np + 0#32)).toNat < (h.size e.2).toNat then h₁.list.mem (p + (x - np)) else h₁.list.mem x := by
    intro x
    rw [← hcopy]
    refine copyLocal_apply np p x _ _ _ (by lia) fun y z hy hz => ?_
    rw [in_range (by lia)] at hy hz
    rintro rfl
    lia
  have hm : ∀ x : U32, x.toNat < np.toNat ∨ np.toNat + (h.size e.2).toNat ≤ x.toNat → m x = h₁.list.mem x := by
    intro x hx
    rw [hcopied, if_neg]
    rw [in_range (by lia)]
    lia
  have hblocks' : Blocks (h₁.withMem m) (Function.update live np (some size.toInt.toNat)) (freed.erase np) :=
    hblocks.withMem_payload he' fun x hx => hm x (by lia)
  have hheld : (Function.update live np (some size.toInt.toNat) p).isSome := by rwa [Function.update_of_ne hpne]
  have hfree : ∀ x : U32, x.toNat < e.2.toNat + 4 ∨ e.2.toNat + 8 ≤ x.toNat → (free (h₁.withMem m) p).list.mem x = m x :=
    fun x hx => free_mem he₁ hblocks' hpe hx
  refine ⟨fun h0 => absurd h0 hnp, fun _ => ?_, fun _ i hi hi' => ?_, fun q hq hqp x hx hx' => ?_⟩
  · rw [Function.update_comm hpne, List.erase_cons_tail (by simpa using hpne)]
    exact hblocks'.free_blocks hheld
  · rw [hheader] at hi
    have hplace : (np + BitVec.ofNat 32 i).toNat = np.toNat + i := by
      rw [BitVec.toNat_add, BitVec.toNat_ofNat]
      lia
    have hplace' : (p + BitVec.ofNat 32 i).toNat = p.toNat + i := by
      rw [BitVec.toNat_add, BitVec.toNat_ofNat]
      lia
    have hsub : np + BitVec.ofNat 32 i - np = BitVec.ofNat 32 i := by abel
    rw [hfree _ (by lia), hcopied, if_pos (by rw [in_range (by lia)]; lia), hsub]
    exact hgiven.frame p hp _ (by lia) (by rw [hheader]; lia)
  · obtain ⟨e'', he'', hqe⟩ := hb.block (.inl hq)
    have hsize'' := hb.size_toNat he''
    have hpointer'' := (hb.sound.pointer he'').1
    have h₂ : RangesApart e e'' := by
      refine (hb.sound.apart he he'').resolve_left ?_
      rintro rfl
      exact hqp (hqe.trans hpe.symm)
    have h₃ : RangesApart e' e'' := by
      refine (hblocks.sound.apart he' (hgiven.ranges e'' he'')).resolve_left ?_
      rintro rfl
      rw [hqe, ← hnpe, hnone] at hq
      exact nomatch hq
    unfold RangesApart at h₂ h₃
    have hx₁ := hx
    have hx₂ := hx'
    rw [hqe, BitVec.add_sub_cancel] at hx₂
    rw [hqe] at hx₁
    rw [hfree _ (by lia), hm _ (by lia)]
    exact hgiven.frame q hq x hx hx'

theorem realloc_reallocated (hb : Blocks h live freed) (hp : (live p).isSome) (hfit : SizeFits h size) (answer : U32) :
    ∃ h' np, realloc h p size answer = some (h', np) ∧ (SbrkSound h'.asked → Reallocated h live freed h' p np size) := by
  obtain ⟨e, he, hpe⟩ := hb.block (.inl hp)
  have hne : p ≠ 0#32 := hpe ▸ (hb.sound.pointer he).2
  rw [realloc, if_neg hne]
  by_cases hle : size.toInt ≤ (h.size (p - 8#32)).toInt
  · exact ⟨h, p, if_pos hle, fun _ => hb.stays_reallocated hp hle⟩
  rw [if_neg hle]
  obtain ⟨h₁, np, heq, hall⟩ := hb.malloc_allocated hfit answer
  rw [heq, Option.map_some]
  by_cases hnp : np = 0#32
  · refine ⟨h₁, np, ?_, fun hs => ?_⟩
    · dsimp only
      rw [if_neg (not_not_intro hnp)]
    · have hgiven := hall hs
      exact ⟨hgiven.null, fun h0 => absurd hnp h0, fun h0 => absurd hnp h0, fun q hq _ => hgiven.frame q hq⟩
  · refine ⟨free (h₁.withMem (copyLocal h₁.list.mem np p 0#32 (h₁.size (p - 8#32)).toInt.toNat)) p, np, ?_, fun hs => ?_⟩
    · dsimp only
      rw [if_pos hnp]
    · rw [free_asked] at hs
      exact hb.moves_reallocated hp hnp (by omega) (hall hs)

end Blocks

end FsLib

end MiniOs32
