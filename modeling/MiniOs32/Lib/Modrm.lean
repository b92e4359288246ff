import MiniOs32.Lib.Words

/-!
# Operand encodings

How an IA-32 processor reads a ModRM byte, the SIB byte that may follow it and the displacement, in 32-bit addressing: the middle field,
the operand, and the bytes that are left.
-/

namespace MiniOs32

/-- An address: a base register, an index register with its factor, and a displacement. -/
structure AddressExpr where
  base : Option (BitVec 3)
  index : Option (BitVec 3 × Nat)
  disp : U32
  deriving DecidableEq

/-- A register or memory. -/
inductive RmOperand where
  | reg (r : BitVec 3)
  | mem (a : AddressExpr)
  deriving DecidableEq

/-- Two bits above two fields of three: `mod`, `reg` and `rm`, or the scale, the index and the base. -/
def fields233 (hi : BitVec 2) (mid lo : BitVec 3) : Byte := hi ++ mid ++ lo

theorem fields233_hi : ∀ hi mid lo, (fields233 hi mid lo).extractLsb' 6 2 = hi := by decide

theorem fields233_mid : ∀ hi mid lo, (fields233 hi mid lo).extractLsb' 3 3 = mid := by decide

theorem fields233_lo : ∀ hi mid lo, (fields233 hi mid lo).extractLsb' 0 3 = lo := by decide

/-- Four bytes. -/
def takeWord : List Byte → Option (U32 × List Byte)
  | b0 :: b1 :: b2 :: b3 :: bs => some (word32 b0 b1 b2 b3, bs)
  | _ => none

theorem takeWord_le32 (v : U32) (rest : List Byte) : takeWord (le32 v ++ rest) = some (v, rest) := by
  change some (word32 _ _ _ _, rest) = _
  rw [word32_le32]

/-- The displacement for `mod`: none, a byte that is extended by its sign, or a word. -/
def takeDisp (mod : BitVec 2) (bs : List Byte) : Option (U32 × List Byte) :=
  if mod = 1#2 then
    match bs with
    | b :: bs => some (b.signExtend 32, bs)
    | [] => none
  else if mod = 2#2 then takeWord bs
  else some (0#32, bs)

/-- The SIB byte and the displacement. Index 4 means that there is none; base 5 without a displacement, a word instead of a base. -/
def decodeSib (mod : BitVec 2) : List Byte → Option (AddressExpr × List Byte)
  | [] => none
  | sib :: bs =>
    let index := if sib.extractLsb' 3 3 = 4#3 then none else some (sib.extractLsb' 3 3, 2 ^ (sib.extractLsb' 6 2).toNat)
    if mod = 0#2 ∧ sib.extractLsb' 0 3 = 5#3 then (takeWord bs).map fun r => (⟨none, index, r.1⟩, r.2)
    else (takeDisp mod bs).map fun r => (⟨some (sib.extractLsb' 0 3), index, r.1⟩, r.2)

/-- The ModRM byte and what belongs to it. `rm` 4 is a SIB byte; `rm` 5 without a displacement, a word alone. -/
def decodeModrm : List Byte → Option (BitVec 3 × RmOperand × List Byte)
  | [] => none
  | b :: bs =>
    let mod := b.extractLsb' 6 2
    let reg := b.extractLsb' 3 3
    let rm := b.extractLsb' 0 3
    if mod = 3#2 then some (reg, .reg rm, bs)
    else if rm = 4#3 then (decodeSib mod bs).map fun r => (reg, .mem r.1, r.2)
    else if mod = 0#2 ∧ rm = 5#3 then (takeWord bs).map fun r => (reg, .mem ⟨none, none, r.1⟩, r.2)
    else (takeDisp mod bs).map fun r => (reg, .mem ⟨some rm, none, r.1⟩, r.2)

section Decode

variable {mod ss : BitVec 2} {reg rm index base : BitVec 3} {bs : List Byte}

theorem decodeModrm_fields (h : mod ≠ 3#2) : decodeModrm (fields233 mod reg rm :: bs) =
    if rm = 4#3 then (decodeSib mod bs).map fun r => (reg, .mem r.1, r.2)
    else if mod = 0#2 ∧ rm = 5#3 then (takeWord bs).map fun r => (reg, .mem ⟨none, none, r.1⟩, r.2)
    else (takeDisp mod bs).map fun r => (reg, .mem ⟨some rm, none, r.1⟩, r.2) := by
  rw [decodeModrm]
  rw [fields233_hi, fields233_mid, fields233_lo, if_neg h]

theorem decodeSib_fields : decodeSib mod (fields233 ss index base :: bs) =
    if mod = 0#2 ∧ base = 5#3 then
      (takeWord bs).map fun r => (⟨none, if index = 4#3 then none else some (index, 2 ^ ss.toNat), r.1⟩, r.2)
    else (takeDisp mod bs).map fun r => (⟨some base, if index = 4#3 then none else some (index, 2 ^ ss.toNat), r.1⟩, r.2) := by
  rw [decodeSib, fields233_hi, fields233_mid, fields233_lo]

end Decode

end MiniOs32
