import Mathlib

/-!
# Machine words and bytes

The fixed-width integers every program of the system is written in, little-endian byte strings of them, and the arithmetic
facts that turn a statement about wrapping words into one about natural numbers. Nothing here names a program.
-/

namespace MiniOs32

/-- A byte of memory. -/
abbrev Byte : Type := BitVec 8

/-- A 32-bit word: `u32`, or an `int` under its two's-complement reading. -/
abbrev U32 : Type := BitVec 32

/-- A 64-bit word: `u64`. -/
abbrev U64 : Type := BitVec 64

/-- The byte of a character of the source text. -/
def Char.byte (c : Char) : Byte := BitVec.ofNat 8 c.toNat

/-- The bytes of a text. -/
def asciiBytes (s : String) : List Byte := s.toList.map Char.byte

/-- The four bytes of a word, least significant first. -/
def le32 (w : U32) : List Byte :=
  [w.extractLsb' 0 8, w.extractLsb' 8 8, w.extractLsb' 16 8, w.extractLsb' 24 8]

@[simp] theorem le32_length (w : U32) : (le32 w).length = 4 := rfl

/-- The word of four bytes, least significant first. -/
def word32 (b0 b1 b2 b3 : Byte) : U32 := b3 ++ b2 ++ b1 ++ b0

/-- The bytes of a word give the word back. -/
theorem word32_le32 (w : U32) :
    word32 (w.extractLsb' 0 8) (w.extractLsb' 8 8) (w.extractLsb' 16 8) (w.extractLsb' 24 8) = w := by
  unfold word32
  ext i hi
  have hw : w.getLsbD i = w[i] := BitVec.getLsbD_eq_getElem hi
  simp only [BitVec.getElem_append, BitVec.getElem_extractLsb']
  split_ifs <;> (rw [← hw]; congr 1; omega)

/-- The low bits of a word, extended by zeros, are the word if and only if it is small. -/
theorem zext_eq_iff (v : U32) {k : Nat} (hk : k ≤ 32) : (v.setWidth k).setWidth 32 = v ↔ v.toNat < 2 ^ k := by
  have h2 : (2 : Nat) ^ k ≤ 2 ^ 32 := Nat.pow_le_pow_right (by decide) hk
  have h3 : v.toNat % 2 ^ k < 2 ^ k := Nat.mod_lt _ (by positivity)
  rw [← BitVec.toNat_inj, BitVec.toNat_setWidth, BitVec.toNat_setWidth, Nat.mod_eq_of_lt (lt_of_lt_of_le h3 h2)]
  constructor
  · intro h
    rw [← h]
    exact h3
  · exact Nat.mod_eq_of_lt

/-- The low bits of a word, sign-extended, are the word if and only if it is small. -/
theorem sext_eq_iff (v : U32) {k : Nat} (hk : k < 32) :
    (v.setWidth (k + 1)).signExtend 32 = v ↔ -2 ^ k ≤ v.toInt ∧ v.toInt < 2 ^ k := by
  have hv : ((v.toNat : Int)).bmod (2 ^ (k + 1)) = v.toInt.bmod (2 ^ (k + 1)) := by
    rw [BitVec.toInt_eq_toNat_bmod, Int.bmod_bmod_of_dvd (Nat.pow_dvd_pow 2 (by omega))]
  have hpow : ((2 ^ (k + 1) : Nat) : Int) = 2 * 2 ^ k := by
    push_cast
    ring
  have hpos : (0 : Int) < 2 ^ k := by positivity
  rw [← BitVec.toInt_inj, BitVec.toInt_signExtend_of_le (by omega), BitVec.toInt_setWidth, hv]
  constructor
  · intro h
    have hlo := @Int.le_bmod v.toInt (2 ^ (k + 1)) (by positivity)
    have hhi := @Int.bmod_lt v.toInt (2 ^ (k + 1)) (by positivity)
    rw [h, hpow] at hlo hhi
    omega
  · rintro ⟨hlo, hhi⟩
    exact Int.bmod_eq_of_le (by rw [hpow]; omega) (by rw [hpow]; omega)

/-- A word with its low bits cleared. -/
theorem toNat_and_not_low {w : Nat} (x : BitVec w) (k : Nat) : (x &&& ~~~BitVec.ofNat w (2 ^ k - 1)).toNat = x.toNat / 2 ^ k * 2 ^ k := by
  have hx := x.isLt
  have h : x &&& ~~~BitVec.ofNat w (2 ^ k - 1) = (x >>> k) <<< k := by
    apply BitVec.eq_of_getLsbD_eq
    intro i hi
    simp only [BitVec.getLsbD_and, BitVec.getLsbD_not, BitVec.getLsbD_ofNat, Nat.testBit_two_pow_sub_one, BitVec.getLsbD_shiftLeft,
      BitVec.getLsbD_ushiftRight, hi, decide_true, Bool.true_and]
    by_cases hk : i < k
    · simp [hk]
    · have : k + (i - k) = i := by omega
      simp [hk, this]
  rw [h, BitVec.toNat_shiftLeft, BitVec.toNat_ushiftRight, Nat.shiftRight_eq_div_pow, Nat.shiftLeft_eq]
  exact Nat.mod_eq_of_lt (lt_of_le_of_lt (Nat.div_mul_le_self _ _) hx)

/-- Low bits put into a word that has none there. -/
theorem toNat_or_low {w k : Nat} {x y : BitVec w} (hx : x.toNat % 2 ^ k = 0) (hy : y.toNat < 2 ^ k) :
    (x ||| y).toNat = x.toNat + y.toNat := by
  obtain ⟨m, hm⟩ := Nat.dvd_of_mod_eq_zero hx
  rw [BitVec.toNat_or, hm, Nat.mul_comm, ← Nat.shiftLeft_eq, Nat.shiftLeft_add_eq_or_of_lt hy]

end MiniOs32
