import MiniOs32.Lemmas.Formats
import MiniOs32.Lemmas.PrintedNumbers

/-!
# Integers that are printed and read

What a printer writes for a word, and what a parser of either library makes of the numeral of the word with another text behind it. The
parsers invert the numerals, save that `parse_hex` takes a zero with an `x` behind it for a prefix. The printers that loop over an
`int` do not write the numeral where the word, or its negation, is negative.
-/

namespace MiniOs32

/-- What the name of a printer or a parser says: a signed or an unsigned decimal, or a hexadecimal numeral. -/
inductive NumberName where
  | int
  | uint
  | hex

/-- The C library of a program, or of `fs`. -/
inductive CLib where
  | fs
  | user

/-- The numeral of a word. -/
def numeral : NumberName → U32 → List Byte
  | .int, v => intNumeral v
  | .uint, v => decNumeral v.toNat
  | .hex, v => hexNumeral false v.toNat

/-- The format of a number. -/
def NumberName.format : NumberName → List Byte
  | .int => asciiBytes "%d"
  | .uint => asciiBytes "%u"
  | .hex => asciiBytes "%x"

/-- A digit of a numeral. -/
def NumberName.digit : NumberName → Byte → Bool
  | .int, c => isDigit c
  | .uint, c => isDigit c
  | .hex, c => decide (0 ≤ (hexVal c).toInt)

/-- The printers of a number: `printf` of a library, and `print_int`, `print_uint` and `print_hex`. -/
inductive NumberPrinter where
  | printf (lib : CLib)
  | print

/-- What a printer writes for the first argument. -/
def printed (m : Mem) (a : FormatArgs) : NumberPrinter → NumberName → List Byte
  | .printf .fs, n => (FsLib.printf m n.format a).1
  | .printf .user, n => (UserLibc.printf n.format a).1
  | .print, .int => FsLib.printInt (a.word 0)
  | .print, .uint => FsLib.printUint (a.word 0)
  | .print, .hex => FsLib.printHex (a.word 0)

/-- What a parser of a library reads. -/
def parsed : CLib → NumberName → List Byte → Option (U32 × List Byte)
  | _, .int => parseInt
  | _, .uint => parseUint
  | .fs, .hex => FsLib.parseHex
  | .user, .hex => UserLibc.parseHex

/-- A word is printed as its numeral, and read from it. -/
structure Survives (m : Mem) (a : FormatArgs) (w : NumberPrinter) (lib : CLib) (n : NumberName) (rest : List Byte) : Prop where
  printed : printed m a w n = numeral n (a.word 0)
  parsed : parsed lib n (numeral n (a.word 0) ++ rest) = some (a.word 0, rest)

/-- The word is none that stops the loop of the printer at once. -/
def PrintsWell (w : NumberPrinter) (n : NumberName) (v : U32) : Prop :=
  match w, n with
  | .print, .uint | .print, .hex => 0 ≤ v.toInt
  | _, .int => v ≠ BitVec.intMin 32
  | _, _ => True

/-- The numeral and the text behind it do not start as `0x`. -/
def NoPrefix (n : NumberName) (v : U32) (rest : List Byte) : Prop :=
  ¬(n = .hex ∧ v = 0#32 ∧ (charAt rest = Char.byte 'x' ∨ charAt rest = Char.byte 'X'))

/-! ## Printing -/

theorem FsLib.printf_number (m : Mem) (a : FormatArgs) (n : NumberName) :
    (FsLib.printf m n.format a).1 = match n with
      | .int => FsLib.outInt (a.word 0)
      | .uint => FsLib.outUint (a.word 0)
      | .hex => FsLib.outHex (a.word 0) false := by
  rw [FsLib.printf_eq]
  cases n <;> exact List.append_nil _

theorem UserLibc.printf_number (a : FormatArgs) (n : NumberName) :
    (UserLibc.printf n.format a).1 = match n with
      | .int => UserLibc.outInt (a.word 0)
      | .uint => UserLibc.outUint (a.word 0)
      | .hex => UserLibc.outHex (a.word 0) := by
  rw [UserLibc.printf_eq]
  cases n <;> exact List.append_nil _

theorem decNumeral_ne_nil (n : Nat) : decNumeral n ≠ [] := fun h => numeral_ne_nil (by decide) (List.map_eq_nil_iff.mp h)

theorem hexNumeral_ne_nil (upper : Bool) (n : Nat) : hexNumeral upper n ≠ [] :=
  fun h => numeral_ne_nil (by decide) (List.map_eq_nil_iff.mp h)

/-- The minus sign alone is no numeral. -/
theorem minus_iff (v : U32) : (if v = BitVec.intMin 32 then [Char.byte '-'] else intNumeral v) = intNumeral v ↔ v ≠ BitVec.intMin 32 := by
  constructor
  · rintro h rfl
    rw [if_pos rfl, intNumeral_neg (by rw [Nonneg]; decide), List.cons.injEq] at h
    exact decNumeral_ne_nil _ h.2.symm
  · intro h
    exact if_neg h

theorem empty_iff {p : Prop} [Decidable p] {l : List Byte} (hl : l ≠ []) : (if p then l else []) = l ↔ p := by
  refine ⟨fun h => ?_, fun h => if_pos h⟩
  by_contra hp
  rw [if_neg hp] at h
  exact hl h.symm

/-- The words that a printer prints as their numerals. -/
theorem printed_iff (m : Mem) (a : FormatArgs) (w : NumberPrinter) (n : NumberName) :
    printed m a w n = numeral n (a.word 0) ↔ PrintsWell w n (a.word 0) := by
  rcases w with (_ | _) | _
  · rw [printed, FsLib.printf_number]
    cases n with
    | int => rw [FsLib.outInt_eq]; exact minus_iff _
    | uint => rw [FsLib.outUint_eq]; exact iff_true_intro rfl
    | hex => rw [FsLib.outHex_eq]; exact iff_true_intro rfl
  · rw [printed, UserLibc.printf_number]
    cases n with
    | int => rw [UserLibc.outInt_eq]; exact minus_iff _
    | uint => rw [UserLibc.outUint_eq]; exact iff_true_intro rfl
    | hex => rw [UserLibc.outHex_eq]; exact iff_true_intro rfl
  · cases n with
    | int =>
      change FsLib.outInt _ = _ ↔ _
      rw [FsLib.outInt_eq]
      exact minus_iff _
    | uint =>
      rw [printed, FsLib.printUint_eq]
      exact empty_iff (decNumeral_ne_nil _)
    | hex =>
      rw [printed, FsLib.printHex_eq]
      exact empty_iff (hexNumeral_ne_nil _ _)

/-! ## Reading -/

/-- The loop over decimal digits takes them and stops at the first character that is none. -/
theorem readDec_append {rest : List Byte} (hrest : isDigit (charAt rest) = false) {w : List Byte} (hw : ∀ c ∈ w, isDigit c = true) :
    ∀ v, readDec v (w ++ rest) = (w.foldl (fun v c => v * 10#32 + (charInt c - charInt (Char.byte '0'))) v, rest) := by
  induction w with
  | nil =>
    intro v
    cases rest with
    | nil => rfl
    | cons c rest =>
      change isDigit c = false at hrest
      rw [List.nil_append, readDec, if_neg (Bool.eq_false_iff.mp hrest)]
      rfl
  | cons c w ih =>
    intro v
    rw [List.cons_append, readDec, if_pos (hw c List.mem_cons_self), ih fun c hc => hw c (List.mem_cons_of_mem _ hc)]
    rfl

/-- The loop over hexadecimal digits, alike. -/
theorem readHex_append {step : U32 → U32 → U32} {rest : List Byte} (hrest : ¬0 ≤ (hexVal (charAt rest)).toInt) {w : List Byte}
    (hw : ∀ c ∈ w, 0 ≤ (hexVal c).toInt) : ∀ v, readHex step v (w ++ rest) = (w.foldl (fun v c => step v (hexVal c)) v, rest) := by
  induction w with
  | nil =>
    intro v
    cases rest with
    | nil => rfl
    | cons c rest =>
      change ¬0 ≤ (hexVal c).toInt at hrest
      rw [List.nil_append, readHex, if_neg hrest]
      rfl
  | cons c w ih =>
    intro v
    rw [List.cons_append, readHex, if_pos (hw c List.mem_cons_self), ih fun c hc => hw c (List.mem_cons_of_mem _ hc)]
    rfl

theorem isDigit_digitChar : ∀ d < 10, isDigit (Char.byte (Nat.digitChar d)) = true := by decide

theorem hexVal_digitChar : ∀ d < 16, hexVal (Char.byte (Nat.digitChar d)) = BitVec.ofNat 32 d := by decide

/-- Decimal digits are read as the number whose numeral they are. -/
theorem readDec_numeral {rest : List Byte} (hrest : isDigit (charAt rest) = false) (n : Nat) :
    readDec 0#32 (decNumeral n ++ rest) = (BitVec.ofNat 32 n, rest) := by
  have hdigits : ∀ c ∈ decNumeral n, isDigit c = true := by
    intro c hc
    obtain ⟨x, hx, rfl⟩ := List.mem_map.mp hc
    obtain ⟨d, hd, rfl⟩ := Numerals.mem_toDigits (by decide) hx
    exact isDigit_digitChar d hd
  have hval : ∀ d < 10, (fun c => (charInt (Char.byte c) - charInt (Char.byte '0')).toNat) (Nat.digitChar d) = d := by decide
  have hword := Numerals.foldl_word (w := 32) (b := 10) (l := Nat.toDigits 10 n)
    (fun c => (charInt (Char.byte c) - charInt (Char.byte '0')).toNat)
    (fun v c => v * 10#32 + (charInt (Char.byte c) - charInt (Char.byte '0')))
    (fun v c _ => by rw [BitVec.ofNat_toNat, BitVec.setWidth_eq]) 0
  rw [readDec_append hrest hdigits, decNumeral, List.foldl_map, hword, Numerals.horner_toDigits (by decide) hval]

/-- A way to add a digit that is Horner's rule. -/
def AddsDigit (step : U32 → U32 → U32) : Prop := ∀ v, ∀ d < 16, step v (BitVec.ofNat 32 d) = v * 16#32 + BitVec.ofNat 32 d

theorem addsDigit_fs : AddsDigit fun v hv => v * 16#32 + hv := fun _ _ _ => rfl

theorem addsDigit_user : AddsDigit fun v hv => v <<< 4 ||| hv := by
  intro v d hd
  apply BitVec.eq_of_toNat_eq
  have hlow : v.toNat <<< 4 % 2 ^ 32 = (v.toNat % 2 ^ 28) <<< 4 := by
    rw [Nat.shiftLeft_eq, Nat.shiftLeft_eq]
    omega
  have hd' : d % 2 ^ 32 = d := Nat.mod_eq_of_lt (by omega)
  rw [BitVec.toNat_or, BitVec.toNat_shiftLeft, BitVec.toNat_ofNat, hlow, hd', ← Nat.shiftLeft_add_eq_or_of_lt (by omega),
    BitVec.toNat_add, BitVec.toNat_mul, toNat_sixteen, BitVec.toNat_ofNat, hd', Nat.shiftLeft_eq]
  omega

/-- Hexadecimal digits are read as the number whose numeral they are. -/
theorem readHex_numeral {step : U32 → U32 → U32} (hstep : AddsDigit step) {rest : List Byte} (hrest : ¬0 ≤ (hexVal (charAt rest)).toInt)
    (n : Nat) : readHex step 0#32 (hexNumeral false n ++ rest) = (BitVec.ofNat 32 n, rest) := by
  have hnumeral : hexNumeral false n = (Nat.toDigits 16 n).map Char.byte := rfl
  have hdigits : ∀ c ∈ hexNumeral false n, 0 ≤ (hexVal c).toInt := by
    intro c hc
    rw [hnumeral] at hc
    obtain ⟨x, hx, rfl⟩ := List.mem_map.mp hc
    obtain ⟨d, hd, rfl⟩ := Numerals.mem_toDigits (by decide) hx
    rw [hexVal_digitChar d hd]
    exact (nonneg_iff _).mp (by rw [Nonneg, BitVec.toNat_ofNat]; omega)
  have hval : ∀ d < 16, (fun c => (hexVal (Char.byte c)).toNat) (Nat.digitChar d) = d := by decide
  have hword := Numerals.foldl_word (w := 32) (b := 16) (l := Nat.toDigits 16 n)
    (fun c => (hexVal (Char.byte c)).toNat) (fun v c => step v (hexVal (Char.byte c))) (fun v c hc => by
      obtain ⟨d, hd, rfl⟩ := Numerals.mem_toDigits (by decide) hc
      rw [hexVal_digitChar d hd, hstep v d hd, BitVec.ofNat_toNat, BitVec.setWidth_eq]) 0
  rw [readHex_append hrest hdigits, hnumeral, List.foldl_map, hword, Numerals.horner_toDigits (by decide) hval]

/-! ## Parsers -/

/-- A text that starts with a digit of base 10 has no white space and no sign in front. -/
theorem digit_plain : ∀ d < 10, isSpace (Char.byte (Nat.digitChar d)) = false ∧ Char.byte (Nat.digitChar d) ≠ Char.byte '+' ∧
    Char.byte (Nat.digitChar d) ≠ Char.byte '-' := by decide

theorem hexDigit_plain : ∀ d < 16, isSpace (Char.byte (Nat.digitChar d)) = false := by decide

/-- The first digit of a numeral. -/
theorem toDigits_cons {b : Nat} (hb : 1 < b) (n : Nat) : ∃ d < b, ∃ l, Nat.toDigits b n = Nat.digitChar d :: l := by
  cases hl : Nat.toDigits b n with
  | nil => exact absurd hl (numeral_ne_nil hb)
  | cons c l =>
    obtain ⟨d, hd, rfl⟩ := Numerals.mem_toDigits hb (by rw [hl]; exact List.mem_cons_self)
    exact ⟨d, hd, l, rfl⟩

theorem decNumeral_cons (n : Nat) : ∃ d < 10, ∃ l, decNumeral n = Char.byte (Nat.digitChar d) :: l := by
  obtain ⟨d, hd, l, hl⟩ := toDigits_cons (b := 10) (by decide) n
  exact ⟨d, hd, l.map Char.byte, by rw [decNumeral, hl, List.map_cons]⟩

theorem skipSpace_cons {c : Byte} (hc : isSpace c = false) (l : List Byte) : skipSpace (c :: l) = c :: l := by
  rw [skipSpace, List.dropWhile_cons, if_neg (Bool.eq_false_iff.mp hc)]

/-- `parse_uint` reads a numeral. -/
theorem parseUint_numeral {rest : List Byte} (hrest : isDigit (charAt rest) = false) (n : Nat) :
    parseUint (decNumeral n ++ rest) = some (BitVec.ofNat 32 n, rest) := by
  obtain ⟨d, hd, l, hl⟩ := decNumeral_cons n
  have hskip : skipSpace (decNumeral n ++ rest) = decNumeral n ++ rest := by
    rw [hl]
    exact skipSpace_cons (digit_plain d hd).1 _
  have hdigit : isDigit (charAt (decNumeral n ++ rest)) = true := by
    rw [hl]
    exact isDigit_digitChar d hd
  rw [parseUint, hskip]
  rw [if_pos hdigit, readDec_numeral hrest]

/-- `parse_int` reads a numeral without a sign. -/
theorem parseInt_numeral {rest : List Byte} (hrest : isDigit (charAt rest) = false) (n : Nat) :
    parseInt (decNumeral n ++ rest) = some (BitVec.ofNat 32 n, rest) := by
  obtain ⟨d, hd, l, hl⟩ := decNumeral_cons n
  obtain ⟨hspace, hplus, hminus⟩ := digit_plain d hd
  have hskip : skipSpace (decNumeral n ++ rest) = decNumeral n ++ rest := by
    rw [hl]
    exact skipSpace_cons hspace _
  have hhead : charAt (decNumeral n ++ rest) = Char.byte (Nat.digitChar d) := by
    rw [hl]
    rfl
  rw [parseInt, hskip]
  dsimp only
  rw [hhead, if_neg (not_or.mpr ⟨hplus, hminus⟩), hhead, if_pos (isDigit_digitChar d hd), readDec_numeral hrest,
    beq_eq_false_iff_ne.mpr hminus]
  rfl

/-- `parse_int` reads a numeral with a minus sign. -/
theorem parseInt_minus {rest : List Byte} (hrest : isDigit (charAt rest) = false) (n : Nat) :
    parseInt (Char.byte '-' :: (decNumeral n ++ rest)) = some (-BitVec.ofNat 32 n, rest) := by
  obtain ⟨d, hd, l, hl⟩ := decNumeral_cons n
  have hdigit : isDigit (charAt (decNumeral n ++ rest)) = true := by
    rw [hl]
    exact isDigit_digitChar d hd
  rw [parseInt, skipSpace_cons (by decide)]
  dsimp only
  have hhead : charAt (Char.byte '-' :: (decNumeral n ++ rest)) = Char.byte '-' := rfl
  rw [hhead, if_pos (Or.inr (rfl : Char.byte '-' = Char.byte '-')), List.tail_cons, if_pos hdigit, readDec_numeral hrest]
  rfl

/-- `parse_int` reads the numeral of every word. -/
theorem parseInt_intNumeral {rest : List Byte} (hrest : isDigit (charAt rest) = false) (v : U32) :
    parseInt (intNumeral v ++ rest) = some (v, rest) := by
  by_cases hv : Nonneg v
  · rw [intNumeral_nonneg hv, parseInt_numeral hrest, BitVec.ofNat_toNat, BitVec.setWidth_eq]
  · have hneg : -BitVec.ofNat 32 (2 ^ 32 - v.toNat) = v := by
      apply BitVec.eq_of_toNat_eq
      unfold Nonneg at hv
      have := v.isLt
      rw [BitVec.toNat_neg, BitVec.toNat_ofNat]
      omega
    rw [intNumeral_neg hv, List.cons_append, parseInt_minus hrest, hneg]

theorem length_readHex_le (step : U32 → U32 → U32) (p : List Byte) : ∀ v, (readHex step v p).2.length ≤ p.length := by
  induction p with
  | nil => intro v; exact le_rfl
  | cons c p ih =>
    intro v
    rw [readHex]
    split
    · exact (ih _).trans (Nat.le_succ _)
    · exact le_rfl

/-- `parse_hex` reads the numeral of a word, unless a zero and the text behind it are taken for a prefix. -/
theorem parseHexWith_iff {step : U32 → U32 → U32} (hstep : AddsDigit step) {rest : List Byte}
    (hrest : ¬0 ≤ (hexVal (charAt rest)).toInt) (v : U32) :
    parseHexWith step (hexNumeral false v.toNat ++ rest) = some (v, rest) ↔ NoPrefix .hex v rest := by
  obtain ⟨d, hd, l, hl⟩ := toDigits_cons (b := 16) (by decide) v.toNat
  have hnumeral : hexNumeral false v.toNat = Char.byte (Nat.digitChar d) :: l.map Char.byte := by
    change (Nat.toDigits 16 v.toNat).map Char.byte = _
    rw [hl, List.map_cons]
  have hskip : skipSpace (hexNumeral false v.toNat ++ rest) = hexNumeral false v.toNat ++ rest := by
    rw [hnumeral]
    exact skipSpace_cons (hexDigit_plain d hd) _
  rw [parseHexWith, hskip]
  by_cases hplain : NoPrefix .hex v rest
  · have hno : ¬(charAt (hexNumeral false v.toNat ++ rest) = Char.byte '0' ∧
        (charAt (hexNumeral false v.toNat ++ rest).tail = Char.byte 'x' ∨
          charAt (hexNumeral false v.toNat ++ rest).tail = Char.byte 'X')) := by
      rintro ⟨h0, hx⟩
      by_cases hv : v = 0#32
      · refine hplain ⟨rfl, hv, ?_⟩
        rw [hv] at hx
        exact hx
      · obtain ⟨d', hpos, hlt, hhead⟩ := Numerals.head_toDigits (b := 16) (n := v.toNat) (by decide)
          (Nat.pos_of_ne_zero fun h => hv (BitVec.eq_of_toNat_eq h))
        rw [hl, List.head?_cons, Option.some.injEq] at hhead
        rw [hnumeral, hhead] at h0
        change Char.byte (Nat.digitChar d') = Char.byte '0' at h0
        have hne : ∀ d < 16, 0 < d → Char.byte (Nat.digitChar d) ≠ Char.byte '0' := by decide
        exact hne d' hlt hpos h0
    have hval : ¬(hexVal (charAt (hexNumeral false v.toNat ++ rest))).toInt < 0 := by
      rw [hnumeral]
      change ¬(hexVal (Char.byte (Nat.digitChar d))).toInt < 0
      rw [hexVal_digitChar d hd]
      have := (nonneg_iff (BitVec.ofNat 32 d)).mp (by rw [Nonneg, BitVec.toNat_ofNat]; omega)
      omega
    rw [if_neg hno, if_neg hval, readHex_numeral hstep hrest, BitVec.ofNat_toNat, BitVec.setWidth_eq]
    exact iff_of_true rfl hplain
  · -- the zero and the `x` are dropped, so that less is left than the text behind the numeral
    obtain ⟨-, rfl, hx⟩ := not_not.mp hplain
    have hrest' : rest ≠ [] := by
      rintro rfl
      exact absurd hx (by decide)
    refine iff_of_false ?_ hplain
    have htext : hexNumeral false (0#32 : U32).toNat ++ rest = Char.byte '0' :: rest := rfl
    have hyes : charAt (Char.byte '0' :: rest) = Char.byte '0' ∧
        (charAt (Char.byte '0' :: rest).tail = Char.byte 'x' ∨ charAt (Char.byte '0' :: rest).tail = Char.byte 'X') := ⟨rfl, hx⟩
    rw [htext, if_pos hyes]
    split
    · exact fun h => by cases h
    · intro h
      have hlen := length_readHex_le step rest.tail 0#32
      rw [Option.some.injEq] at h
      change readHex step 0#32 rest.tail = _ at h
      rw [h, List.length_tail] at hlen
      change rest.length ≤ rest.length - 1 at hlen
      have := List.length_pos_iff.mpr hrest'
      omega

/-- A parser of either library reads the numeral of a word, unless it is a zero that makes a prefix. -/
theorem parsed_iff (lib : CLib) (n : NumberName) (v : U32) {rest : List Byte} (hrest : n.digit (charAt rest) = false) :
    parsed lib n (numeral n v ++ rest) = some (v, rest) ↔ NoPrefix n v rest := by
  cases n with
  | int =>
    refine iff_of_true ?_ fun h => nomatch h.1
    cases lib <;> exact parseInt_intNumeral hrest v
  | uint =>
    refine iff_of_true ?_ fun h => nomatch h.1
    have hword : BitVec.ofNat 32 v.toNat = v := by rw [BitVec.ofNat_toNat, BitVec.setWidth_eq]
    have huint := parseUint_numeral hrest v.toNat
    rw [hword] at huint
    cases lib <;> exact huint
  | hex =>
    have hrest' : ¬0 ≤ (hexVal (charAt rest)).toInt := of_decide_eq_false hrest
    cases lib with
    | fs => exact parseHexWith_iff addsDigit_fs hrest' v
    | user => exact parseHexWith_iff addsDigit_user hrest' v

/-- A word survives printing and reading, with a text behind it that starts with no digit, exactly if the printer prints it and its
numeral and the text do not start as `0x`. -/
theorem integer_survives_iff (m : Mem) (a : FormatArgs) (w : NumberPrinter) (lib : CLib) (n : NumberName) (rest : List Byte)
    (hrest : n.digit (charAt rest) = false) :
    Survives m a w lib n rest ↔ PrintsWell w n (a.word 0) ∧ NoPrefix n (a.word 0) rest := by
  refine ⟨fun h => ⟨(printed_iff m a w n).mp h.printed, (parsed_iff lib n _ hrest).mp h.parsed⟩, fun h => ⟨?_, ?_⟩⟩
  · exact (printed_iff m a w n).mpr h.1
  · exact (parsed_iff lib n _ hrest).mpr h.2

/-- A word as the only argument. -/
def oneArg (v : U32) : FormatArgs := ⟨fun _ => v, fun _ => [], fun _ _ _ => [], fun _ _ _ => []⟩

/-- A word of 17 is read back behind `%d`, with a blank behind it. -/
theorem integer_survives_seventeen : Survives (fun _ => 0#8) (oneArg 17#32) (.printf .user) .fs .int (asciiBytes " 1") :=
  (integer_survives_iff _ _ _ _ _ _ (by decide)).mpr ⟨(by decide : (17#32 : U32) ≠ BitVec.intMin 32), fun h => nomatch h.1⟩

/-- `print_uint` prints nothing for 2147483648. -/
theorem integer_survives_false : ¬Survives (fun _ => 0#8) (oneArg 0x80000000#32) .print .fs .uint [] := by
  intro h
  have hp := (printed_iff _ _ .print .uint).mp h.printed
  exact absurd hp (by change ¬0 ≤ (0x80000000#32 : U32).toInt; decide)

end MiniOs32
