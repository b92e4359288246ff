import MiniOs32.User.Numbers

/-!
# What the printers of numbers write

Each printer as the numeral of a number. The signed loops stop at once at a negative word: the most negative one has no positive to
print, and `print_uint` and `print_hex` take an `int`.
-/

namespace MiniOs32

/-- The decimal numeral of a number. -/
def decNumeral (n : Nat) : List Byte := (Nat.toDigits 10 n).map Char.byte

/-- The hexadecimal numeral of a number. -/
def hexNumeral (upper : Bool) (n : Nat) : List Byte :=
  (Nat.toDigits 16 n).map fun c => Char.byte (if upper then c.toUpper else c)

theorem numeral_ne_nil {b n : Nat} (hb : 1 < b) : Nat.toDigits b n ≠ [] := by
  rw [Nat.toDigits_eq_if hb]
  split
  · exact List.cons_ne_nil _ _
  · exact List.append_ne_nil_of_right_ne_nil _ (List.cons_ne_nil _ _)

@[simp] theorem length_hexNumeral (upper : Bool) (n : Nat) : (hexNumeral upper n).length = (Nat.toDigits 16 n).length := List.length_map _

/-! ## Digits -/

theorem decChar_eq {d : U32} (h : d.toNat < 10) : decChar d = Char.byte (Nat.digitChar d.toNat) := by
  have hall : ∀ n < 10, decChar (BitVec.ofNat 32 n) = Char.byte (Nat.digitChar n) := by decide
  have := hall d.toNat h
  rwa [BitVec.ofNat_toNat, BitVec.setWidth_eq] at this

theorem hexChar_eq (upper : Bool) {d : U32} (h : d.toNat < 16) :
    hexChar upper d = Char.byte (if upper then (Nat.digitChar d.toNat).toUpper else Nat.digitChar d.toNat) := by
  have hall : ∀ upper : Bool, ∀ n < 16, hexChar upper (BitVec.ofNat 32 n) =
      Char.byte (if upper then (Nat.digitChar n).toUpper else Nat.digitChar n) := by decide
  have := hall upper d.toNat h
  rwa [BitVec.ofNat_toNat, BitVec.setWidth_eq] at this

/-! ## Loops -/

/-- A word that is not negative. -/
def Nonneg (v : U32) : Prop := v.toNat < 2 ^ 31

theorem nonneg_iff (v : U32) : Nonneg v ↔ 0 ≤ v.toInt := by
  rw [Nonneg, BitVec.toInt_eq_toNat_cond]
  have := v.isLt
  split <;> omega

theorem Nonneg.toInt {v : U32} (h : Nonneg v) : v.toInt = v.toNat := by
  unfold Nonneg at h
  exact BitVec.toInt_eq_toNat_of_lt (by omega)

theorem intPos_iff {v : U32} (h : Nonneg v) : intPos v = true ↔ 0 < v.toNat := by
  rw [intPos, decide_eq_true_iff, h.toInt]
  omega

/-- Signed division of words that are not negative is division. -/
theorem sdiv_eq_udiv {v b : U32} (h : Nonneg v) (hb : Nonneg b) : v.sdiv b = v / b := by
  unfold Nonneg at h hb
  have hv : v.msb = false := by rw [BitVec.msb_eq_false_iff_two_mul_lt]; omega
  have hb' : b.msb = false := by rw [BitVec.msb_eq_false_iff_two_mul_lt]; omega
  rw [BitVec.sdiv_eq, hv, hb']
  rfl

theorem srem_eq_umod {v b : U32} (h : Nonneg v) (hb : Nonneg b) : v.srem b = v % b := by
  unfold Nonneg at h hb
  have hv : v.msb = false := by rw [BitVec.msb_eq_false_iff_two_mul_lt]; omega
  have hb' : b.msb = false := by rw [BitVec.msb_eq_false_iff_two_mul_lt]; omega
  rw [BitVec.srem_eq, hv, hb']

theorem Nonneg.div {v : U32} (h : Nonneg v) (b : U32) : Nonneg (v / b) := by
  unfold Nonneg at h ⊢
  rw [BitVec.toNat_udiv]
  exact lt_of_le_of_lt (Nat.div_le_self _ _) h

/-- `v - v / b * b` is the remainder. -/
theorem sub_div_mul (v b : U32) : v - v / b * b = v % b := by
  refine sub_eq_of_eq_add (BitVec.eq_of_toNat_eq ?_)
  have h := Nat.mod_add_div v.toNat b.toNat
  rw [Nat.mul_comm] at h
  rw [BitVec.toNat_add, BitVec.toNat_mul, BitVec.toNat_udiv, BitVec.toNat_umod, Nat.add_mod_mod, h, Nat.mod_eq_of_lt v.isLt]

/-- A printer whose loop stands for a number prints its numeral; a zero is printed by itself. -/
theorem printWord_eq {more : U32 → Bool} {digit : U32 → Byte} {next : U32 → U32} {b : Nat} (hb : 1 < b) (char : Char → Byte)
    (ok : U32 → Prop) (hzero : char '0' = Char.byte '0') (hmore : ∀ s, ok s → (more s = true ↔ 0 < s.toNat))
    (hok : ∀ s, ok s → ok (next s)) (hdigit : ∀ s, ok s → digit s = char (Nat.digitChar (s.toNat % b)))
    (hnext : ∀ s, ok s → (next s).toNat = s.toNat / b) {signed : U32 → Bool} {v : U32} (hs : signed v = false) (hv : ok v) :
    printWord signed more digit next v = (Nat.toDigits b v.toNat).map char := by
  rw [printWord]
  split
  · rename_i h0
    rw [h0, show (0#32 : U32).toNat = 0 from rfl, Nat.toDigits_eq_if hb, if_pos (by omega)]
    exact congrArg (· :: []) hzero.symm
  · rename_i h0
    have hne : v.toNat ≠ 0 := fun h => h0 (BitVec.eq_of_toNat_eq h)
    dsimp only
    rw [hs, if_neg Bool.false_ne_true, if_neg Bool.false_ne_true, Numerals.printLoop_eq hb hmore hok hdigit hnext [] hv le_rfl,
      if_neg hne, List.append_nil, List.nil_append]

/-- A loop that does not start prints no digit. -/
theorem printWord_stops {signed more : U32 → Bool} {digit : U32 → Byte} {next : U32 → U32} {v : U32} (h0 : v ≠ 0#32)
    (h : more (if signed v then -v else v) = false) :
    printWord signed more digit next v = if signed v then [Char.byte '-'] else [] := by
  have hloop : ∀ {n : Nat} {s : U32}, more s = false → Numerals.printLoop more digit next n s [] = [] := by
    intro n s hs
    cases n with
    | zero => rfl
    | succ n =>
      rw [Numerals.printLoop, hs]
      rfl
  rw [printWord, if_neg h0]
  dsimp only
  rw [hloop h, List.append_nil]

theorem toNat_ten : (10#32 : U32).toNat = 10 := rfl
theorem toNat_sixteen : (16#32 : U32).toNat = 16 := rfl

/-- The digits of `out_uint`, by division and by remainder. -/
theorem decChar_mod (v : U32) : decChar (v % 10#32) = Char.byte (Nat.digitChar (v.toNat % 10)) := by
  rw [decChar_eq (by rw [BitVec.toNat_umod, toNat_ten]; omega), BitVec.toNat_umod, toNat_ten]

theorem hexChar_mod (upper : Bool) (v : U32) : hexChar upper (v % 16#32) =
    Char.byte (if upper then (Nat.digitChar (v.toNat % 16)).toUpper else Nat.digitChar (v.toNat % 16)) := by
  rw [hexChar_eq upper (by rw [BitVec.toNat_umod, toNat_sixteen]; omega), BitVec.toNat_umod, toNat_sixteen]

/-! ## Printers -/

/-- `v > 0` of an `unsigned int`. -/
theorem uintPos_iff (v : U32) : uintPos v = true ↔ 0 < v.toNat := decide_eq_true_iff

theorem FsLib.outUint_eq (v : U32) : FsLib.outUint v = decNumeral v.toNat := by
  refine printWord_eq (by decide) _ (fun _ => True) rfl (fun s _ => uintPos_iff s) (fun _ _ => trivial) (fun s _ => ?_)
    (fun s _ => BitVec.toNat_udiv) rfl trivial
  rw [sub_div_mul]
  exact decChar_mod s

theorem UserLibc.outUint_eq (v : U32) : UserLibc.outUint v = decNumeral v.toNat :=
  printWord_eq (by decide) _ (fun _ => True) rfl (fun s _ => uintPos_iff s) (fun _ _ => trivial) (fun s _ => decChar_mod s)
    (fun _ _ => BitVec.toNat_udiv) rfl trivial

theorem FsLib.outHex_eq (v : U32) (upper : Bool) : FsLib.outHex v upper = hexNumeral upper v.toNat := by
  refine printWord_eq (by decide) (fun c => Char.byte (if upper then c.toUpper else c)) (fun _ => True) (by cases upper <;> rfl)
    (fun s _ => uintPos_iff s) (fun _ _ => trivial) (fun s _ => ?_) (fun s _ => BitVec.toNat_udiv) rfl trivial
  rw [sub_div_mul]
  exact hexChar_mod upper s

theorem UserLibc.outHex_eq (v : U32) : UserLibc.outHex v = hexNumeral false v.toNat := by
  refine printWord_eq (by decide) (fun c => Char.byte (if false then c.toUpper else c)) (fun _ => True) rfl
    (fun s _ => uintPos_iff s) (fun _ _ => trivial) (fun s _ => ?_) (fun s _ => ?_) rfl trivial
  · have hmask : s &&& 0xF#32 = s % 16#32 := by
      apply BitVec.eq_of_toNat_eq
      rw [BitVec.toNat_and, BitVec.toNat_umod]
      exact Nat.and_two_pow_sub_one_eq_mod s.toNat 4
    rw [hmask, hexChar_mod]
  · rw [BitVec.toNat_ushiftRight, Nat.shiftRight_eq_div_pow]

/-- The digits of the signed loops are those of the unsigned ones. -/
theorem fsDigit_eq {b s : U32} (hb : Nonneg b) (h : Nonneg s) : s - s.sdiv b * b = s % b := by
  rw [sdiv_eq_udiv h hb, sub_div_mul]

theorem nonneg_ten : Nonneg 10#32 := by
  rw [Nonneg]
  decide

theorem nonneg_sixteen : Nonneg 16#32 := by
  rw [Nonneg]
  decide

/-- A loop over an `int` in base 10 prints the numeral of a word that is not negative. -/
theorem printDec_nonneg {digit : U32 → Byte} (hdigit : ∀ s, Nonneg s → digit s = decChar (s % 10#32)) (signed : U32 → Bool) {v : U32}
    (hs : signed v = false) (hv : Nonneg v) : printWord signed intPos digit (fun v => v.sdiv 10#32) v = decNumeral v.toNat := by
  refine printWord_eq (by decide) _ Nonneg rfl (fun s h => intPos_iff h) (fun s h => ?_) (fun s h => ?_) (fun s h => ?_) hs hv
  · rw [sdiv_eq_udiv h nonneg_ten]
    exact h.div _
  · rw [hdigit s h, decChar_mod]
  · rw [sdiv_eq_udiv h nonneg_ten, BitVec.toNat_udiv]
    rfl

/-- The numeral of a word read as an `int`. -/
def intNumeral (v : U32) : List Byte :=
  if v.toInt < 0 then Char.byte '-' :: decNumeral v.toInt.natAbs else decNumeral v.toInt.natAbs

theorem intNumeral_nonneg {v : U32} (h : Nonneg v) : intNumeral v = decNumeral v.toNat := by
  rw [intNumeral, h.toInt, if_neg (by omega), Int.natAbs_natCast]

/-- The numeral of a negative `int`. -/
theorem intNumeral_neg {v : U32} (h : ¬Nonneg v) : intNumeral v = Char.byte '-' :: decNumeral (2 ^ 32 - v.toNat) := by
  unfold Nonneg at h
  have hlt := v.isLt
  have hint : v.toInt = (v.toNat : Int) - 2 ^ 32 := by
    rw [BitVec.toInt_eq_toNat_cond, if_neg (by omega)]
    norm_cast
  rw [intNumeral, if_pos (by omega), show v.toInt.natAbs = 2 ^ 32 - v.toNat by omega]

theorem intNeg_iff (v : U32) : intNeg v = true ↔ ¬Nonneg v := by
  rw [intNeg, decide_eq_true_iff, nonneg_iff]
  omega

/-- A signed loop prints the numeral of an `int`, save that of the most negative one, whose negation is negative again. -/
theorem printInt_eq {digit : U32 → Byte} (hdigit : ∀ s, Nonneg s → digit s = decChar (s % 10#32)) (v : U32) :
    printWord intNeg intPos digit (fun v => v.sdiv 10#32) v = if v = BitVec.intMin 32 then [Char.byte '-'] else intNumeral v := by
  have hlt := v.isLt
  have hmin : (BitVec.intMin 32).toNat = 2 ^ 31 := rfl
  by_cases hv : Nonneg v
  · have hne : v ≠ BitVec.intMin 32 := by
      rintro rfl
      exact absurd hv (by rw [Nonneg, hmin]; omega)
    rw [if_neg hne, intNumeral_nonneg hv]
    refine printDec_nonneg hdigit _ ?_ hv
    rw [← Bool.not_eq_true, intNeg_iff]
    exact not_not_intro hv
  · have h0 : v ≠ 0#32 := by
      rintro rfl
      exact hv (by rw [Nonneg]; decide)
    have hs : intNeg v = true := (intNeg_iff v).mpr hv
    split
    · rename_i heq
      rw [printWord_stops h0 (by rw [heq]; decide), if_pos hs]
    · rename_i hne
      -- the loop prints the negation, as it would print it by itself
      have hneg : (-v).toNat = 2 ^ 32 - v.toNat := by
        have : v.toNat ≠ 0 := fun h => h0 (BitVec.eq_of_toNat_eq h)
        rw [BitVec.toNat_neg]
        omega
      have hmin' : v.toNat ≠ 2 ^ 31 := fun h => hne (BitVec.eq_of_toNat_eq h)
      have hpos : Nonneg (-v) := by
        unfold Nonneg at hv ⊢
        omega
      have hne0 : -v ≠ 0#32 := fun h => h0 (by simpa using congrArg Neg.neg h)
      have hself := printDec_nonneg hdigit (fun _ => false) rfl hpos
      rw [printWord, if_neg hne0] at hself
      rw [printWord, if_neg h0, hs, intNumeral_neg hv, ← hneg, ← hself]
      rfl

theorem FsLib.outInt_eq (v : U32) : FsLib.outInt v = if v = BitVec.intMin 32 then [Char.byte '-'] else intNumeral v :=
  printInt_eq (fun _ h => congrArg decChar (fsDigit_eq nonneg_ten h)) v

theorem UserLibc.outInt_eq (v : U32) : UserLibc.outInt v = if v = BitVec.intMin 32 then [Char.byte '-'] else intNumeral v :=
  printInt_eq (fun _ h => congrArg decChar (srem_eq_umod h nonneg_ten)) v

/-- A loop over an `int` prints nothing at a negative word. -/
theorem printWord_negative {digit : U32 → Byte} {next : U32 → U32} {v : U32} (hv : ¬Nonneg v) :
    printWord (fun _ => false) intPos digit next v = [] := by
  have h0 : v ≠ 0#32 := by
    rintro rfl
    exact hv (by rw [Nonneg]; decide)
  refine printWord_stops h0 ?_
  rw [nonneg_iff] at hv
  exact decide_eq_false (by rw [if_neg Bool.false_ne_true]; omega)

theorem FsLib.printUint_eq (v : U32) : FsLib.printUint v = if 0 ≤ v.toInt then decNumeral v.toNat else [] := by
  split
  · rename_i h
    exact printDec_nonneg (fun _ h => congrArg decChar (fsDigit_eq nonneg_ten h)) _ rfl ((nonneg_iff v).mpr h)
  · rename_i h
    exact printWord_negative (mt (nonneg_iff v).mp h)

theorem FsLib.printHex_eq (v : U32) : FsLib.printHex v = if 0 ≤ v.toInt then hexNumeral false v.toNat else [] := by
  split
  · rename_i h
    refine printWord_eq (by decide) (fun c => Char.byte (if false then c.toUpper else c)) Nonneg rfl (fun s h => intPos_iff h)
      (fun s h => ?_) (fun s h => ?_) (fun s h => ?_) rfl ((nonneg_iff v).mpr h)
    · rw [sdiv_eq_udiv h nonneg_sixteen]
      exact h.div _
    · rw [fsDigit_eq nonneg_sixteen h]
      exact hexChar_mod false s
    · rw [sdiv_eq_udiv h nonneg_sixteen, BitVec.toNat_udiv]
      rfl
  · rename_i h
    exact printWord_negative (mt (nonneg_iff v).mp h)

end MiniOs32
