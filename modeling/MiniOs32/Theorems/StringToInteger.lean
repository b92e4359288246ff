import MiniOs32.User.Numbers

/-!
# `strtol` and C

C's `strtol` takes the longest beginning of the text that is a number in the base. The code drops a prefix before it knows that
digits follow it, and then finds none: a `0x` without a hex digit behind it, and, where the base is to be told from the text, a `0`
without an octal digit behind it, are both a `0` in C.
-/

namespace MiniOs32

/-! ## The numbers of C -/

/-- The value of a digit or a letter. -/
def digitValue (c : Byte) : Option Nat :=
  let n := c.toNat
  if 48 ≤ n ∧ n ≤ 57 then some (n - 48)
  else if 97 ≤ n ∧ n ≤ 122 then some (n - 97 + 10)
  else if 65 ≤ n ∧ n ≤ 90 then some (n - 65 + 10)
  else none

/-- Digits of a base, one at least, and the number they stand for. -/
def Digits (b : Nat) (w : List Byte) (n : Nat) : Prop :=
  w ≠ [] ∧ ∃ ds : List Nat, w.map digitValue = ds.map some ∧ (∀ d ∈ ds, d < b) ∧ n = Nat.ofDigits b ds.reverse

/-- A number without a sign: digits of the base; behind `0x` in base 16; in base 0 a constant of the language. -/
inductive Magnitude : Int → List Byte → Nat → Prop
  | digits {base w n} : 2 ≤ base → base ≤ 36 → Digits base.toNat w n → Magnitude base w n
  | hex {base x w n} : base = 0 ∨ base = 16 → x = Char.byte 'x' ∨ x = Char.byte 'X' → Digits 16 w n →
      Magnitude base (Char.byte '0' :: x :: w) n
  | octal {w n} : w.head? = some (Char.byte '0') → Digits 8 w n → Magnitude 0 w n
  | decimal {w n} : w.head? ≠ some (Char.byte '0') → Digits 10 w n → Magnitude 0 w n

/-- A number with or without a sign. -/
inductive Number (base : Int) : List Byte → Int → Prop
  | plain {w n} : Magnitude base w n → Number base w n
  | plus {w n} : Magnitude base w n → Number base (Char.byte '+' :: w) n
  | minus {w n} : Magnitude base w n → Number base (Char.byte '-' :: w) (-n)

/-- The subject sequence: the longest beginning that is a number. -/
structure IsSubject (base : Int) (text w : List Byte) (v : Int) : Prop where
  number : Number base w v
  starts : w <+: text
  longest : ∀ w' v', Number base w' v' → w' <+: text → w'.length ≤ w.length

/-- A call of `strtol` does what C says. -/
def StrtolRight (s : List Byte) (endptr : Bool) (base : Int) : Prop :=
  (∃ w v, IsSubject base (s.dropWhile isSpace) w v ∧ (strtol s endptr base).value = BitVec.ofInt 32 v ∧
    (strtol s endptr base).stop = if endptr then some ((s.takeWhile isSpace).length + w.length) else none) ∨
  (∀ w v, Number base w v → ¬w <+: s.dropWhile isSpace) ∧ (strtol s endptr base).value = 0#32 ∧
    (strtol s endptr base).stop = if endptr then some 0 else none

/-- A digit of a base. -/
def isDigitIn (b : Nat) (c : Byte) : Bool := (digitValue c).any (· < b)

/-- The text behind white space and a sign. -/
def behindSign (s : List Byte) : List Byte :=
  let p := s.dropWhile isSpace
  if charAt p = Char.byte '+' ∨ charAt p = Char.byte '-' then p.tail else p

/-- The prefix swallows the number: `0x` with no hex digit behind it, or, in base 0, a `0` with no octal digit behind it. -/
def PrefixOnly (base : Int) (l : List Byte) : Prop :=
  (base = 0 ∨ base = 16) ∧ hexPrefix l = true ∧ isDigitIn 16 (charAt l.tail.tail) = false ∨
  base = 0 ∧ hexPrefix l = false ∧ charAt l = Char.byte '0' ∧ isDigitIn 8 (charAt l.tail) = false

/-! ## Digits -/

/-- `digit_val` is the value of a digit, or -1. -/
theorem digitVal_eq (c : Byte) : digitVal c = ((digitValue c).map (BitVec.ofNat 32)).getD (-1#32) := by
  revert c
  decide

theorem digitOf_lt {c : Byte} {d : Nat} (h : digitValue c = some d) : d < 36 := by
  unfold digitValue at h
  dsimp only at h
  split at h
  · cases h
    omega
  split at h
  · cases h
    omega
  split at h
  · cases h
    omega
  · cases h

theorem isDigitIn_iff {b : Nat} {c : Byte} : isDigitIn b c = true ↔ ∃ d, digitValue c = some d ∧ d < b := by
  rw [isDigitIn, Option.any_eq_true]
  exact exists_congr fun d => and_congr_right fun _ => decide_eq_true_iff

/-- The value of a digit. -/
def digitNat (c : Byte) : Nat := (digitValue c).getD 0

/-- The loop stops at the first character that is no digit of the base. -/
theorem strtolDigits_stops {b : Nat} (c : Byte) :
    ((digitVal c).toInt < 0 ∨ (b : Int) ≤ (digitVal c).toInt) ↔ isDigitIn b c = false := by
  rw [digitVal_eq, isDigitIn]
  cases hd : digitValue c with
  | none => simp
  | some d =>
    have hlt := digitOf_lt hd
    have hint : (BitVec.ofNat 32 d).toInt = d := by
      rw [BitVec.toInt_eq_toNat_of_lt (by rw [BitVec.toNat_ofNat]; omega), BitVec.toNat_ofNat, Nat.mod_eq_of_lt (by omega)]
    simp only [Option.map_some, Option.getD_some, hint, Option.any_some, decide_eq_false_iff_not]
    omega

/-- The loop over the digits takes all digits of the base and computes their number in words. -/
theorem strtolDigits_eq {b : Nat} (l : List Byte) : ∀ (v : Nat) (any : Bool),
    strtolDigits b (BitVec.ofNat 32 v) any l =
      (BitVec.ofNat 32 (Numerals.horner b digitNat v (l.takeWhile (isDigitIn b))), any || !(l.takeWhile (isDigitIn b)).isEmpty,
        l.dropWhile (isDigitIn b)) := by
  induction l with
  | nil => intro v any; simp [strtolDigits, Numerals.horner]
  | cons c l ih =>
    intro v any
    rw [strtolDigits]
    by_cases hc : isDigitIn b c = true
    · have hgo : ¬((digitVal c).toInt < 0 ∨ (b : Int) ≤ (digitVal c).toInt) := by
        rw [strtolDigits_stops, hc]
        exact Bool.noConfusion
      have hval : digitVal c = BitVec.ofNat 32 (digitNat c) := by
        rw [digitVal_eq, digitNat]
        rw [isDigitIn] at hc
        cases hd : digitValue c with
        | none => simp [hd] at hc
        | some d => rfl
      rw [if_neg hgo, hval, BitVec.ofInt_natCast, ← BitVec.ofNat_mul, ← BitVec.ofNat_add, ih, List.takeWhile_cons_of_pos hc,
        List.dropWhile_cons_of_pos hc]
      simp [Numerals.horner]
    · have hstop := (strtolDigits_stops c).mpr (Bool.not_eq_true _ ▸ hc)
      rw [if_pos hstop, List.takeWhile_cons_of_neg hc, List.dropWhile_cons_of_neg hc]
      simp [Numerals.horner]

/-- All characters are digits. -/
theorem digits_iff {b : Nat} {w : List Byte} {n : Nat} :
    Digits b w n ↔ w ≠ [] ∧ (∀ c ∈ w, isDigitIn b c = true) ∧ n = Numerals.horner b digitNat 0 w := by
  rw [Digits, Numerals.horner_eq_ofDigits]
  refine and_congr_right fun _ => ⟨?_, ?_⟩
  · rintro ⟨ds, hds, hlt, rfl⟩
    have hmap : w.map digitNat = ds := by
      have h := congrArg (List.map fun o => o.getD 0) hds
      rw [List.map_map, List.map_map] at h
      exact h.trans (List.map_id ds)
    refine ⟨fun c hc => ?_, by rw [hmap]⟩
    have hmem : digitValue c ∈ ds.map some := hds ▸ List.mem_map_of_mem hc
    obtain ⟨d, hd, heq⟩ := List.mem_map.mp hmem
    exact isDigitIn_iff.mpr ⟨d, heq.symm, hlt d hd⟩
  · rintro ⟨hall, rfl⟩
    refine ⟨w.map digitNat, ?_, fun d hd => ?_, rfl⟩
    · rw [List.map_map]
      refine List.map_congr_left fun c hc => ?_
      obtain ⟨d, hd, -⟩ := isDigitIn_iff.mp (hall c hc)
      simp [digitNat, hd]
    · obtain ⟨c, hc, rfl⟩ := List.mem_map.mp hd
      obtain ⟨d, hd, hlt⟩ := isDigitIn_iff.mp (hall c hc)
      rw [digitNat, hd]
      exact hlt

/-! ## The longest number -/

/-- The digits at the start of a text are its longest run of digits. -/
theorem length_le_takeWhile {b : Nat} {w l : List Byte} (hw : w <+: l) (hall : ∀ c ∈ w, isDigitIn b c = true) :
    w.length ≤ (l.takeWhile (isDigitIn b)).length := by
  obtain ⟨t, rfl⟩ := hw
  rw [List.takeWhile_append_of_pos hall, List.length_append]
  exact Nat.le_add_right _ _

/-- The prefix that C sees, and the base it reads the digits behind it in. -/
def prefixOf (base : Int) (l : List Byte) : Nat × Nat :=
  if (base = 0 ∨ base = 16) ∧ hexPrefix l = true ∧ isDigitIn 16 (charAt l.tail.tail) = true then (2, 16)
  else (0, if base = 0 then (if charAt l = Char.byte '0' then 8 else 10) else base.toNat)

/-- The digits behind it. -/
def digitsOf (base : Int) (l : List Byte) : List Byte :=
  (l.drop (prefixOf base l).1).takeWhile (isDigitIn (prefixOf base l).2)

theorem hexPrefix_iff {l : List Byte} : hexPrefix l = true ↔
    ∃ x t, (x = Char.byte 'x' ∨ x = Char.byte 'X') ∧ l = Char.byte '0' :: x :: t := by
  simp only [hexPrefix, Bool.and_eq_true, Bool.or_eq_true, beq_iff_eq]
  constructor
  · rintro ⟨h0, hx⟩
    rcases l with _ | ⟨c, _ | ⟨x, t⟩⟩
    · exact absurd h0 (by decide)
    · have hnul : charAt [c].tail = 0#8 := rfl
      rw [hnul] at hx
      exact absurd hx (by decide)
    · exact ⟨x, t, hx, by rw [show c = Char.byte '0' from h0]⟩
  · rintro ⟨x, t, hx, rfl⟩
    exact ⟨rfl, hx⟩

/-- No `x` is a digit, even in base 16. -/
theorem isDigitIn_x {x : Byte} (hx : x = Char.byte 'x' ∨ x = Char.byte 'X') {b : Nat} (hb : b ≤ 16) : isDigitIn b x = false := by
  rw [← Bool.not_eq_true, isDigitIn_iff]
  rintro ⟨d, hd, hlt⟩
  have hval : digitValue x = some 33 := by rcases hx with rfl | rfl <;> rfl
  rw [hval] at hd
  cases hd
  omega

/-- Digits that start a text with a prefix are the zero. -/
theorem length_le_one {x : Byte} (hx : x = Char.byte 'x' ∨ x = Char.byte 'X') {b : Nat} (hb : b ≤ 16) {w t : List Byte}
    (hw : w <+: Char.byte '0' :: x :: t) (hall : ∀ c ∈ w, isDigitIn b c = true) : w.length ≤ 1 := by
  have h := length_le_takeWhile hw hall
  rw [List.takeWhile_cons] at h
  split at h
  · rw [List.takeWhile_cons_of_neg (by simp [isDigitIn_x hx hb])] at h
    exact h
  · exact h.trans (by simp)

variable {base : Int} {l : List Byte}

/-- What is read behind the prefix is a number, if there is a digit. -/
theorem magnitude_digitsOf (hbase : base = 0 ∨ 2 ≤ base ∧ base ≤ 36) (hne : digitsOf base l ≠ []) :
    Magnitude base (l.take (prefixOf base l).1 ++ digitsOf base l)
      (Numerals.horner (prefixOf base l).2 digitNat 0 (digitsOf base l)) := by
  have hdigits : Digits (prefixOf base l).2 (digitsOf base l)
      (Numerals.horner (prefixOf base l).2 digitNat 0 (digitsOf base l)) :=
    digits_iff.mpr ⟨hne, fun c hc => List.mem_takeWhile_imp hc, rfl⟩
  revert hne hdigits
  rw [digitsOf, prefixOf]
  split
  · rename_i h
    intro _ hdigits
    obtain ⟨hb, hpre, -⟩ := h
    obtain ⟨x, t, hx, rfl⟩ := hexPrefix_iff.mp hpre
    exact .hex hb hx hdigits
  · intro hne hdigits
    dsimp only at hne hdigits ⊢
    rw [List.drop_zero] at hne hdigits ⊢
    rw [List.take_zero, List.nil_append]
    rcases hbase with rfl | ⟨h2, h36⟩
    · rw [if_pos rfl] at hne hdigits ⊢
      -- the head of the digits is the head of the text
      have hhead : ∀ b, l.takeWhile (isDigitIn b) ≠ [] → (l.takeWhile (isDigitIn b)).head? = some (charAt l) := by
        intro b hb
        cases l with
        | nil => exact absurd rfl hb
        | cons c t =>
          rw [List.takeWhile_cons] at hb ⊢
          split at hb
          · rename_i hc
            rw [if_pos hc]
            rfl
          · exact absurd rfl hb
      split at hne
      · rename_i h0
        rw [if_pos h0] at hdigits ⊢
        exact .octal (by rw [hhead 8 hne, h0]) hdigits
      · rename_i h0
        rw [if_neg h0] at hdigits ⊢
        exact .decimal (by rw [hhead 10 hne]; simpa using h0) hdigits
    · rw [if_neg (by omega)] at hdigits ⊢
      exact .digits h2 h36 hdigits

/-- Behind a prefix there is a digit, and no run of digits from the `0` on is longer. -/
theorem digitsOf_prefix {w : List Byte} {b : Nat} (hb : b ≤ 16) (hbase : base = 0 ∨ base = 16) (hpre : hexPrefix l = true)
    (hhex : isDigitIn 16 (charAt l.tail.tail) = true) (hw : w <+: l) (hall : ∀ c ∈ w, isDigitIn b c = true) :
    digitsOf base l ≠ [] ∧ w.length ≤ (prefixOf base l).1 + (digitsOf base l).length := by
  obtain ⟨x, t, hx, rfl⟩ := hexPrefix_iff.mp hpre
  have hle := length_le_one hx hb hw hall
  rw [digitsOf, prefixOf, if_pos ⟨hbase, hpre, hhex⟩]
  refine ⟨?_, by dsimp only; omega⟩
  change isDigitIn 16 (charAt t) = true at hhex
  cases t with
  | nil => exact absurd hhex (by decide)
  | cons c t =>
    rw [charAt, List.headD_cons] at hhex
    simp [hhex]

/-- Without a prefix the digits are the longest run. -/
theorem digitsOf_plain {w : List Byte} (h0 : (prefixOf base l).1 = 0) (hne : w ≠ []) (hw : w <+: l)
    (hall : ∀ c ∈ w, isDigitIn (prefixOf base l).2 c = true) :
    digitsOf base l ≠ [] ∧ w.length ≤ (prefixOf base l).1 + (digitsOf base l).length := by
  have hle := length_le_takeWhile hw hall
  have hpos := List.length_pos_of_ne_nil hne
  rw [digitsOf, h0, List.drop_zero]
  exact ⟨List.ne_nil_of_length_pos (by omega), by omega⟩

theorem prefixOf_of_not (h : ¬((base = 0 ∨ base = 16) ∧ hexPrefix l = true ∧ isDigitIn 16 (charAt l.tail.tail) = true)) :
    prefixOf base l = (0, if base = 0 then (if charAt l = Char.byte '0' then 8 else 10) else base.toNat) := if_neg h

/-- The head of a text that starts with a number. -/
theorem charAt_of_begins {w : List Byte} (hne : w ≠ []) (hw : w <+: l) : w.head? = some (charAt l) := by
  obtain ⟨t, rfl⟩ := hw
  obtain ⟨c, w, rfl⟩ := List.exists_cons_of_ne_nil hne
  rfl

/-- A text that starts with a prefix and a hex digit. -/
theorem hexPrefix_of_begins {x : Byte} {w : List Byte} (hx : x = Char.byte 'x' ∨ x = Char.byte 'X') (hne : w ≠ [])
    (hall : ∀ c ∈ w, isDigitIn 16 c = true) (hw : Char.byte '0' :: x :: w <+: l) :
    hexPrefix l = true ∧ isDigitIn 16 (charAt l.tail.tail) = true ∧ w <+: l.drop 2 := by
  obtain ⟨t, rfl⟩ := hw
  obtain ⟨c, w, rfl⟩ := List.exists_cons_of_ne_nil hne
  exact ⟨hexPrefix_iff.mpr ⟨x, _, hx, rfl⟩, hall c List.mem_cons_self, ⟨t, rfl⟩⟩

/-- No number is longer, and there is none if no digit follows the prefix. -/
theorem length_magnitude_le {w : List Byte} {n : Nat} (h : Magnitude base w n) (hw : w <+: l) :
    digitsOf base l ≠ [] ∧ w.length ≤ (prefixOf base l).1 + (digitsOf base l).length := by
  by_cases hp : (base = 0 ∨ base = 16) ∧ hexPrefix l = true ∧ isDigitIn 16 (charAt l.tail.tail) = true
  · obtain ⟨hb, hpre, hhex⟩ := hp
    cases h with
    | digits h2 h36 hd =>
      obtain ⟨-, hall, -⟩ := digits_iff.mp hd
      have h16 : base.toNat ≤ 16 := by lia
      exact digitsOf_prefix h16 hb hpre hhex hw hall
    | hex _ hx hd =>
      obtain ⟨hne, hall, -⟩ := digits_iff.mp hd
      have hle := length_le_takeWhile (hexPrefix_of_begins hx hne hall hw).2.2 hall
      have hpos := List.length_pos_of_ne_nil hne
      rw [digitsOf, prefixOf, if_pos ⟨hb, hpre, hhex⟩]
      dsimp only
      exact ⟨List.ne_nil_of_length_pos (by lia), by rw [List.length_cons, List.length_cons]; lia⟩
    | octal _ hd => exact digitsOf_prefix (by lia) hb hpre hhex hw (digits_iff.mp hd).2.1
    | decimal _ hd => exact digitsOf_prefix (by lia) hb hpre hhex hw (digits_iff.mp hd).2.1
  · have hpart := prefixOf_of_not hp
    have h0 : (prefixOf base l).1 = 0 := by rw [hpart]
    cases h with
    | digits h2 h36 hd =>
      obtain ⟨hne, hall, -⟩ := digits_iff.mp hd
      refine digitsOf_plain h0 hne hw ?_
      rw [hpart, if_neg (by lia)]
      exact hall
    | hex hb hx hd =>
      obtain ⟨hne, hall, -⟩ := digits_iff.mp hd
      obtain ⟨hpre, hhex, -⟩ := hexPrefix_of_begins hx hne hall hw
      exact absurd ⟨hb, hpre, hhex⟩ hp
    | octal h8 hd =>
      obtain ⟨hne, hall, -⟩ := digits_iff.mp hd
      refine digitsOf_plain h0 hne hw ?_
      rw [charAt_of_begins hne hw, Option.some.injEq] at h8
      rw [hpart, if_pos rfl, if_pos h8]
      exact hall
    | decimal h10 hd =>
      obtain ⟨hne, hall, -⟩ := digits_iff.mp hd
      refine digitsOf_plain h0 hne hw ?_
      rw [charAt_of_begins hne hw, ne_eq, Option.some.injEq] at h10
      rw [hpart, if_pos rfl, if_neg h10]
      exact hall

/-! ## The scan of the code -/

/-- What `strtol` does behind the sign: the prefix and the digits. -/
def scan (base : Int) (l : List Byte) : U32 × Bool × List Byte :=
  strtolDigits (strtolPrefix base l).1 0#32 false (strtolPrefix base l).2

/-- The loop over the digits from zero on. -/
theorem strtolDigits_zero (b : Nat) (l : List Byte) : strtolDigits b 0#32 false l =
    (BitVec.ofNat 32 (Numerals.horner b digitNat 0 (l.takeWhile (isDigitIn b))), !(l.takeWhile (isDigitIn b)).isEmpty,
      l.dropWhile (isDigitIn b)) := by
  rw [show (0#32 : U32) = BitVec.ofNat 32 0 from rfl, strtolDigits_eq, Bool.false_or]

/-- A text without a digit in front has no run of digits. -/
theorem takeWhile_nil {b : Nat} {l : List Byte} (h : isDigitIn b (charAt l) = false) : l.takeWhile (isDigitIn b) = [] := by
  cases l with
  | nil => rfl
  | cons c t => exact List.takeWhile_cons_of_neg (by rw [Bool.not_eq_true]; exact h)

/-- Where the prefix swallows the number, the scan finds no digit. -/
theorem scan_prefixOnly (h : PrefixOnly base l) : (scan base l).2.1 = false := by
  rcases h with ⟨hb, hpre, hhex⟩ | ⟨rfl, hpre, h0, hoct⟩
  · have hp : strtolPrefix base l = (16, l.tail.tail) := by
      rw [strtolPrefix]
      rcases hb with rfl | rfl
      · rw [if_pos rfl, if_pos hpre]
      · rw [if_neg (by omega), if_pos rfl, if_pos hpre]
    rw [scan, hp, show (16 : Int) = (16 : Nat) from rfl, strtolDigits_zero, takeWhile_nil hhex]
    rfl
  · have hp : strtolPrefix 0 l = (8, l.tail) := by
      rw [strtolPrefix, if_pos rfl, if_neg (by simp [hpre]), if_pos h0]
    rw [scan, hp, show (8 : Int) = (8 : Nat) from rfl, strtolDigits_zero, takeWhile_nil hoct]
    rfl

theorem eq_cons_of_charAt {c : Byte} (h : charAt l = c) (hc : c ≠ 0#8) : l = c :: l.tail := by
  cases l with
  | nil => exact absurd h.symm hc
  | cons d t => rw [show d = c from h, List.tail_cons]

/-- The number that C sees there is the zero. -/
theorem digitsOf_prefixOnly (h : PrefixOnly base l) : (prefixOf base l).1 = 0 ∧ digitsOf base l = [Char.byte '0'] := by
  have hnot : ¬((base = 0 ∨ base = 16) ∧ hexPrefix l = true ∧ isDigitIn 16 (charAt l.tail.tail) = true) := by
    rcases h with ⟨-, -, hhex⟩ | ⟨-, hpre, -⟩
    · simp [hhex]
    · simp [hpre]
  rw [digitsOf, prefixOf_of_not hnot]
  refine ⟨rfl, ?_⟩
  rw [List.drop_zero]
  dsimp only
  rcases h with ⟨hb, hpre, -⟩ | ⟨rfl, -, h0, hoct⟩
  · obtain ⟨x, t, hx, rfl⟩ := hexPrefix_iff.mp hpre
    have hrun : ∀ b, b ≤ 16 → isDigitIn b (Char.byte '0') = true →
        (Char.byte '0' :: x :: t).takeWhile (isDigitIn b) = [Char.byte '0'] := by
      intro b hb h0
      rw [List.takeWhile_cons_of_pos h0, List.takeWhile_cons_of_neg (by simp [isDigitIn_x hx hb])]
    rcases hb with rfl | rfl
    · rw [if_pos rfl, if_pos (by rfl), hrun 8 (by omega) (by rfl)]
    · rw [if_neg (by omega)]
      exact hrun 16 le_rfl rfl
  · rw [if_pos rfl, if_pos h0]
    rw [eq_cons_of_charAt h0 (by decide), List.takeWhile_cons_of_pos (by rfl), takeWhile_nil hoct]

/-- A text is its digits and what is left. -/
theorem length_takeWhile_dropWhile (p : Byte → Bool) (l : List Byte) :
    (l.takeWhile p).length + (l.dropWhile p).length = l.length := by
  rw [← List.length_append, List.takeWhile_append_dropWhile]

/-- Elsewhere the scan finds the number that C sees. -/
theorem scan_eq (hbase : base = 0 ∨ 2 ≤ base ∧ base ≤ 36) (h : ¬PrefixOnly base l) :
    (scan base l).1 = BitVec.ofNat 32 (Numerals.horner (prefixOf base l).2 digitNat 0 (digitsOf base l)) ∧
      (scan base l).2.1 = !(digitsOf base l).isEmpty ∧
      (digitsOf base l ≠ [] → (prefixOf base l).1 + (digitsOf base l).length + (scan base l).2.2.length = l.length) := by
  by_cases hp : (base = 0 ∨ base = 16) ∧ hexPrefix l = true ∧ isDigitIn 16 (charAt l.tail.tail) = true
  · obtain ⟨hb, hpre, hhex⟩ := hp
    obtain ⟨x, t, hx, rfl⟩ := hexPrefix_iff.mp hpre
    have hcode : strtolPrefix base (Char.byte '0' :: x :: t) = (16, t) := by
      rw [strtolPrefix]
      rcases hb with rfl | rfl
      · rw [if_pos rfl, if_pos hpre]
        rfl
      · rw [if_neg (by lia), if_pos rfl, if_pos hpre]
        rfl
    rw [scan, hcode, digitsOf, prefixOf, if_pos ⟨hb, hpre, hhex⟩, show (16 : Int) = (16 : Nat) from rfl, strtolDigits_zero]
    refine ⟨rfl, rfl, fun _ => ?_⟩
    have hlen := length_takeWhile_dropWhile (isDigitIn 16) t
    simp only [List.drop_succ_cons, List.drop_zero, List.length_cons]
    lia
  rw [digitsOf, prefixOf_of_not hp, List.drop_zero]
  dsimp only
  by_cases h0 : base = 0
  · subst h0
    have hpre : hexPrefix l = false := by
      rw [← Bool.not_eq_true]
      intro hpre
      rcases Bool.eq_false_or_eq_true (isDigitIn 16 (charAt l.tail.tail)) with hhex | hhex
      · exact hp ⟨.inl rfl, hpre, hhex⟩
      · exact h (.inl ⟨.inl rfl, hpre, hhex⟩)
    rw [if_pos rfl]
    by_cases hz : charAt l = Char.byte '0'
    · -- the code has dropped the leading zero, which adds nothing
      have hcode : strtolPrefix 0 l = (8, l.tail) := by rw [strtolPrefix, if_pos rfl, if_neg (by simp [hpre]), if_pos hz]
      have hoct : isDigitIn 8 (charAt l.tail) = true := by
        rw [← Bool.not_eq_false]
        exact fun hoct => h (.inr ⟨rfl, hpre, hz, hoct⟩)
      rw [if_pos hz, scan, hcode, show (8 : Int) = (8 : Nat) from rfl, strtolDigits_zero]
      have hl := eq_cons_of_charAt hz (by decide)
      generalize l.tail = t at hl hoct ⊢
      subst hl
      rw [List.takeWhile_cons_of_pos (by rfl)]
      refine ⟨rfl, ?_, fun _ => ?_⟩
      · cases t with
        | nil => exact absurd hoct (by decide)
        | cons c t =>
          have hc : isDigitIn 8 c = true := hoct
          simp [hc]
      · have hlen := length_takeWhile_dropWhile (isDigitIn 8) t
        simp only [List.length_cons]
        lia
    · have hcode : strtolPrefix 0 l = (10, l) := by rw [strtolPrefix, if_pos rfl, if_neg (by simp [hpre]), if_neg hz]
      rw [if_neg hz, scan, hcode, show (10 : Int) = (10 : Nat) from rfl, strtolDigits_zero]
      exact ⟨rfl, rfl, fun _ => by rw [Nat.zero_add]; exact length_takeWhile_dropWhile _ _⟩
  · have hcode : strtolPrefix base l = (base, l) := by
      rw [strtolPrefix, if_neg h0]
      split
      · rename_i h16
        rw [if_neg]
        intro hpre
        rcases Bool.eq_false_or_eq_true (isDigitIn 16 (charAt l.tail.tail)) with hhex | hhex
        · exact hp ⟨.inr h16, hpre, hhex⟩
        · exact h (.inl ⟨.inr h16, hpre, hhex⟩)
      · rfl
    have hnat : base = (base.toNat : Int) := by lia
    rw [if_neg h0, scan, hcode]
    dsimp only
    rw [hnat, strtolDigits_zero, Int.toNat_natCast]
    exact ⟨rfl, rfl, fun _ => by rw [Nat.zero_add]; exact length_takeWhile_dropWhile _ _⟩

/-! ## The sign -/

/-- The sign at the start of a text. -/
def signOf (p : List Byte) : List Byte := if charAt p = Char.byte '+' ∨ charAt p = Char.byte '-' then [charAt p] else []

/-- The number with the sign of a text. -/
def signed (p : List Byte) (n : Nat) : Int := if charAt p = Char.byte '-' then -n else n

/-- The text behind the sign. -/
def unsigned (p : List Byte) : List Byte := if charAt p = Char.byte '+' ∨ charAt p = Char.byte '-' then p.tail else p

theorem signOf_unsigned (p : List Byte) : signOf p ++ unsigned p = p := by
  rw [signOf, unsigned]
  split
  · rename_i h
    have hne : charAt p ≠ 0#8 := by rcases h with h | h <;> rw [h] <;> decide
    exact (eq_cons_of_charAt rfl hne).symm
  · rfl

/-- A number without a sign starts with a digit. -/
theorem head_magnitude {w : List Byte} {n : Nat} (h : Magnitude base w n) :
    ∃ c t, w = c :: t ∧ c ≠ Char.byte '+' ∧ c ≠ Char.byte '-' := by
  have hdigit : ∀ {b : Nat} {w : List Byte} {n : Nat}, Digits b w n → ∃ c t, w = c :: t ∧ c ≠ Char.byte '+' ∧ c ≠ Char.byte '-' := by
    intro b w n hd
    obtain ⟨hne, hall, -⟩ := digits_iff.mp hd
    obtain ⟨c, t, rfl⟩ := List.exists_cons_of_ne_nil hne
    obtain ⟨d, hd, -⟩ := isDigitIn_iff.mp (hall c List.mem_cons_self)
    refine ⟨c, t, rfl, ?_, ?_⟩ <;> rintro rfl <;> cases hd
  cases h with
  | digits _ _ hd => exact hdigit hd
  | hex _ _ _ => exact ⟨_, _, rfl, by decide, by decide⟩
  | octal _ hd => exact hdigit hd
  | decimal _ hd => exact hdigit hd

/-- A number that starts a text is its sign and a number behind it. -/
theorem number_cases {w p : List Byte} {v : Int} (h : Number base w v) (hw : w <+: p) :
    ∃ m n, Magnitude base m n ∧ w = signOf p ++ m ∧ m <+: unsigned p ∧ v = signed p n := by
  cases h with
  | plain h =>
    obtain ⟨c, t, rfl, hplus, hminus⟩ := head_magnitude h
    obtain ⟨r, rfl⟩ := hw
    have hno : ¬(charAt (c :: t ++ r) = Char.byte '+' ∨ charAt (c :: t ++ r) = Char.byte '-') := not_or.mpr ⟨hplus, hminus⟩
    exact ⟨_, _, h, by rw [signOf, if_neg hno, List.nil_append], by rw [unsigned, if_neg hno]; exact ⟨r, rfl⟩,
      by rw [signed, if_neg (not_or.mp hno).2]⟩
  | plus h =>
    obtain ⟨r, rfl⟩ := hw
    exact ⟨_, _, h, rfl, ⟨r, rfl⟩, rfl⟩
  | minus h =>
    obtain ⟨r, rfl⟩ := hw
    exact ⟨_, _, h, rfl, ⟨r, rfl⟩, rfl⟩

/-- A number behind the sign is one with it. -/
theorem number_signed {m : List Byte} {n : Nat} (p : List Byte) (h : Magnitude base m n) :
    Number base (signOf p ++ m) (signed p n) := by
  rw [signOf, signed]
  by_cases hminus : charAt p = Char.byte '-'
  · rw [if_pos (.inr hminus), if_pos hminus, hminus]
    exact .minus h
  · rw [if_neg hminus]
    by_cases hplus : charAt p = Char.byte '+'
    · rw [if_pos (.inl hplus), hplus]
      exact .plus h
    · rw [if_neg (not_or.mpr ⟨hplus, hminus⟩)]
      exact .plain h

/-- The prefix is there. -/
theorem length_take_prefixOf (base : Int) (l : List Byte) : (l.take (prefixOf base l).1).length = (prefixOf base l).1 := by
  rw [prefixOf]
  split
  · rename_i h
    obtain ⟨x, t, -, rfl⟩ := hexPrefix_iff.mp h.2.1
    rfl
  · rfl

/-- The prefix and the digits start the text. -/
theorem prefix_digitsOf (base : Int) (l : List Byte) : l.take (prefixOf base l).1 ++ digitsOf base l <+: l := by
  have h := (List.prefix_append_right_inj (l.take (prefixOf base l).1)).mpr
    (List.takeWhile_prefix (l := l.drop (prefixOf base l).1) (isDigitIn (prefixOf base l).2))
  rwa [List.take_append_drop] at h

/-- The subject sequence of a text, if it has a digit behind its prefix. -/
theorem isSubject_digitsOf (hbase : base = 0 ∨ 2 ≤ base ∧ base ≤ 36) {p : List Byte} (hne : digitsOf base (unsigned p) ≠ []) :
    IsSubject base p (signOf p ++ ((unsigned p).take (prefixOf base (unsigned p)).1 ++ digitsOf base (unsigned p)))
      (signed p (Numerals.horner (prefixOf base (unsigned p)).2 digitNat 0 (digitsOf base (unsigned p)))) := by
  refine ⟨number_signed p (magnitude_digitsOf hbase hne), ?_, fun w v h hw => ?_⟩
  · have h := (List.prefix_append_right_inj (signOf p)).mpr (prefix_digitsOf base (unsigned p))
    rwa [signOf_unsigned] at h
  · obtain ⟨m, n, hm, rfl, hpre, -⟩ := number_cases h hw
    have hle := (length_magnitude_le hm hpre).2
    rw [List.length_append, List.length_append, List.length_append, length_take_prefixOf]
    omega

/-- A text without one has no subject sequence. -/
theorem not_number (p : List Byte) (hnil : digitsOf base (unsigned p) = []) {w : List Byte} {v : Int} (h : Number base w v) : ¬w <+: p := by
  intro hw
  obtain ⟨m, n, hm, -, hpre, -⟩ := number_cases h hw
  exact (length_magnitude_le hm hpre).1 hnil

/-! ## The function -/

/-- `strtol` with a base it knows. -/
theorem strtol_eq (hbase : base = 0 ∨ 2 ≤ base ∧ base ≤ 36) (s : List Byte) (endptr : Bool) : strtol s endptr base =
    if !(scan base (behindSign s)).2.1 then ⟨0#32, if endptr then some 0 else none, true⟩
    else ⟨if charAt (s.dropWhile isSpace) == Char.byte '-' then -(scan base (behindSign s)).1 else (scan base (behindSign s)).1,
      if endptr then some (s.length - (scan base (behindSign s)).2.2.length) else none, false⟩ := by
  rw [strtol]
  dsimp only
  rw [if_neg (by omega)]
  rfl

/-- The end of the digits is the end of the subject sequence. -/
theorem stop_eq (hbase : base = 0 ∨ 2 ≤ base ∧ base ≤ 36) (s : List Byte) (hno : ¬PrefixOnly base (behindSign s))
    (hne : digitsOf base (behindSign s) ≠ []) :
    s.length - (scan base (behindSign s)).2.2.length = (s.takeWhile isSpace).length + (signOf (s.dropWhile isSpace) ++
      ((behindSign s).take (prefixOf base (behindSign s)).1 ++ digitsOf base (behindSign s))).length := by
  have hscan := (scan_eq hbase hno).2.2 hne
  have hspace := length_takeWhile_dropWhile isSpace s
  have hsign := congrArg List.length (signOf_unsigned (s.dropWhile isSpace))
  rw [List.length_append, show unsigned (s.dropWhile isSpace) = behindSign s from rfl] at hsign
  rw [List.length_append, List.length_append, length_take_prefixOf]
  omega

/-- A word with the sign of a text. -/
theorem signed_word (p : List Byte) (n : Nat) :
    (if charAt p == Char.byte '-' then -BitVec.ofNat 32 n else BitVec.ofNat 32 n) = BitVec.ofInt 32 (signed p n) := by
  rw [signed]
  by_cases h : charAt p = Char.byte '-'
  · rw [if_pos h, if_pos (by simpa using h), BitVec.ofInt_neg, BitVec.ofInt_natCast]
  · rw [if_neg h, if_neg (by simpa using h), BitVec.ofInt_natCast]

/-- Where the prefix swallows the number, C sees a zero behind the sign. -/
theorem subject_prefixOnly (hbase : base = 0 ∨ 2 ≤ base ∧ base ≤ 36) {p : List Byte} (h : PrefixOnly base (unsigned p)) :
    IsSubject base p (signOf p ++ [Char.byte '0']) 0 := by
  obtain ⟨h0, hdigits⟩ := digitsOf_prefixOnly h
  have hsub := isSubject_digitsOf hbase (p := p) (by rw [hdigits]; exact List.cons_ne_nil _ _)
  have hzero : ∀ b, Numerals.horner b digitNat 0 [Char.byte '0'] = 0 := fun b => by
    simp [Numerals.horner, show digitNat (Char.byte '0') = 0 from rfl]
  rw [h0, hdigits, hzero, List.take_zero, List.nil_append] at hsub
  rwa [signed, Nat.cast_zero, neg_zero, ite_self] at hsub

/-- The scan that finds no digit stores the start of the text as its end. -/
theorem strtol_prefixOnly {s : List Byte} (hbase : base = 0 ∨ 2 ≤ base ∧ base ≤ 36) (h : PrefixOnly base (behindSign s))
    (endptr : Bool) : strtol s endptr base = ⟨0#32, if endptr then some 0 else none, true⟩ := by
  rw [strtol_eq hbase, scan_prefixOnly h]
  rfl

theorem not_right_of_prefixOnly {s : List Byte} (hbase : base = 0 ∨ 2 ≤ base ∧ base ≤ 36) (h : PrefixOnly base (behindSign s)) :
    ¬StrtolRight s true base := by
  have hsub := subject_prefixOnly hbase h
  rw [StrtolRight, strtol_prefixOnly hbase h]
  rintro (⟨w, v, hw, -, hstop⟩ | ⟨hnone, -⟩)
  · have hle := hw.longest _ _ hsub.number hsub.starts
    have hzero := Option.some.inj hstop
    rw [List.length_append, List.length_singleton] at hle
    omega
  · exact hnone _ _ hsub.number hsub.starts

/-- `strtol` follows C for every text and every base, and `atoi` is `strtol` in base 10, exactly if no end pointer is asked for or
there is more to the number than its prefix. -/
theorem strtol_follows_iff (s : List Byte) (endptr : Bool) (base : Int) :
    StrtolRight s endptr base ∧ atoi s = (strtol s false 10).value ↔ endptr = false ∨ ¬PrefixOnly base (behindSign s) := by
  have hatoi : atoi s = (strtol s false 10).value := rfl
  rw [and_iff_left hatoi]
  by_cases hbase : base = 0 ∨ 2 ≤ base ∧ base ≤ 36
  · by_cases hno : PrefixOnly base (behindSign s)
    · cases endptr with
      | false =>
        refine iff_of_true (.inl ⟨_, _, subject_prefixOnly hbase hno, ?_⟩) (.inl rfl)
        rw [strtol_prefixOnly hbase hno]
        exact ⟨rfl, rfl⟩
      | true => exact iff_of_false (not_right_of_prefixOnly hbase hno) (by simp [hno])
    · refine iff_of_true ?_ (.inr hno)
      obtain ⟨hval, hany, -⟩ := scan_eq hbase hno
      by_cases hnil : digitsOf base (behindSign s) = []
      · refine .inr ⟨fun w v hw => not_number _ hnil hw, ?_⟩
        rw [strtol_eq hbase, hany, hnil]
        exact ⟨rfl, rfl⟩
      · refine .inl ⟨_, _, isSubject_digitsOf hbase hnil, ?_⟩
        have hsome : (!!(digitsOf base (behindSign s)).isEmpty) = false := by simpa using hnil
        rw [strtol_eq hbase, hany, hsome, if_neg Bool.noConfusion, stop_eq hbase s hno hnil]
        refine ⟨?_, rfl⟩
        dsimp only
        rw [hval, signed_word]
        rfl
  · -- no base: no number in it
    have hcode : strtol s endptr base = ⟨0#32, if endptr then some 0 else none, true⟩ := by
      rw [strtol]
      exact if_pos (by omega)
    have hnone : ∀ w n, ¬Magnitude base w n := by
      intro w n h
      cases h <;> omega
    refine iff_of_true (.inr ⟨fun w v h => ?_, ?_⟩) (.inr ?_)
    · cases h with
      | plain h => exact absurd h (hnone _ _)
      | plus h => exact absurd h (hnone _ _)
      | minus h => exact absurd h (hnone _ _)
    · rw [hcode]
      exact ⟨rfl, rfl⟩
    · rintro (⟨hb, -⟩ | ⟨hb, -⟩) <;> omega

/-- A lone `0` in base 0 is a number of C, but the end that is stored is its start. -/
theorem strtol_follows_false : ¬StrtolRight [Char.byte '0'] true 0 :=
  not_right_of_prefixOnly (.inl rfl) (.inr ⟨rfl, rfl, rfl, rfl⟩)

end MiniOs32
