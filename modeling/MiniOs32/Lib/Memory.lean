import MiniOs32.Lib.Words

/-!
# Byte memory

A memory of bytes behind 32-bit addresses that wrap, and words in it, least significant byte first. A write is described by what
every address holds after it, so that reading it back and reading around it are facts about the distance of two addresses.
-/

namespace MiniOs32

/-- A memory. -/
abbrev Mem : Type := U32 → Byte

namespace Mem

variable {m : Mem} {a b x : U32} {v : U32} {bs : List Byte}

/-- The memory with bytes written from an address on. -/
def write (m : Mem) (a : U32) (bs : List Byte) : Mem := fun x => bs[(x - a).toNat]?.getD (m x)

/-- The bytes from an address on. -/
def read (m : Mem) (a : U32) (n : Nat) : List Byte := (List.range n).map fun i => m (a + BitVec.ofNat 32 i)

/-- The word at an address. -/
def read32 (m : Mem) (a : U32) : U32 := word32 (m a) (m (a + 1#32)) (m (a + 2#32)) (m (a + 3#32))

/-- The memory with a word written. -/
def write32 (m : Mem) (a v : U32) : Mem := m.write a (le32 v)

theorem write_apply (m : Mem) (a x : U32) (bs : List Byte) : m.write a bs x = bs[(x - a).toNat]?.getD (m x) := rfl

/-- A write is not seen at an address outside it. -/
theorem write_of_le (h : bs.length ≤ (x - a).toNat) : m.write a bs x = m x := by
  rw [write_apply, List.getElem?_eq_none h, Option.getD_none]

/-- One byte written. -/
theorem write_one (m : Mem) (a x : U32) (c : Byte) : m.write a [c] x = if x = a then c else m x := by
  split
  · rename_i h
    rw [write_apply, h, BitVec.sub_self]
    rfl
  · rename_i h
    refine write_of_le (Nat.one_le_iff_ne_zero.mpr fun h0 => h ?_)
    bv_omega

@[simp] theorem read32_write32 (m : Mem) (a v : U32) : (m.write32 a v).read32 a = v := by
  simp [read32, write32, write_apply, le32, BitVec.add_comm a, word32_le32]

/-- A word is not touched by bytes written elsewhere. -/
theorem read32_write_of_le (h : bs.length ≤ (b - a).toNat) (h' : 4 ≤ (a - b).toNat) :
    (m.write a bs).read32 b = m.read32 b := by
  have hi : ∀ i : U32, i.toNat < 4 → (m.write a bs) (b + i) = m (b + i) := by
    intro i hi
    refine write_of_le ?_
    bv_omega
  have h0 := hi 0#32 (by decide)
  rw [BitVec.add_zero] at h0
  simp only [read32, h0, hi 1#32 (by decide), hi 2#32 (by decide), hi 3#32 (by decide)]

/-- A word is not touched by a word written elsewhere. -/
theorem read32_write32_of_le (h : 4 ≤ (b - a).toNat) (h' : 4 ≤ (a - b).toNat) : (m.write32 a v).read32 b = m.read32 b :=
  read32_write_of_le (by simpa using h) h'

end Mem

end MiniOs32
