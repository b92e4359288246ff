import MiniOs32.Lemmas.Formats
import MiniOs32.Lemmas.PrintedNumbers

/-!
# The two `printf`s

`printf` of `user/libc.c` and of `fs/lib/stdio.c` cut a format into the same pieces. They print the same characters for each, save for
`%X`, whose letters are small in the one, and for a `%` that the format ends in, which is printed twice by it; and the one does not
count the characters of a numeral.
-/

namespace MiniOs32

/-- No piece of the format converts a floating-point value. -/
def NoFloats (fmt : List Byte) : Prop := ∀ prec c, FormatPiece.conv prec c ∈ pieces fmt → ¬isFloatConv c

/-- Both libraries write the same characters and return the same value, which is their number. -/
structure PrintAlike (m : Mem) (fmt : List Byte) (a : FormatArgs) : Prop where
  console : (UserLibc.printf fmt a).1 = (FsLib.printf m fmt a).1
  value : (UserLibc.printf fmt a).2 = (FsLib.printf m fmt a).2
  count : (FsLib.printf m fmt a).2.toInt = (FsLib.printf m fmt a).1.length

/-- No piece of the format converts an integer to a numeral, and the format does not end in a `%`. -/
def NoNumerals (fmt : List Byte) : Prop := ∀ p ∈ pieces fmt, p ≠ .cut ∧ ∀ prec c, p = .conv prec c → ¬isNumberConv c

/-! ## Pieces -/

/-- A piece that is no conversion of a floating-point value. -/
def FormatPiece.NoFloat (p : FormatPiece) : Prop := ∀ prec c, p = .conv prec c → ¬isFloatConv c

section

variable {text text' : Nat → FormatPiece → List Byte} {words words' : FormatPiece → Nat}

/-- Pieces that print the same are printed the same. -/
theorem renderPieces_congr {ps : List FormatPiece} (hw : ∀ p ∈ ps, words p = words' p) (ht : ∀ p ∈ ps, ∀ ap, text ap p = text' ap p) :
    ∀ ap, renderPieces text words ap ps = renderPieces text' words' ap ps := by
  induction ps with
  | nil => intro ap; rfl
  | cons p ps ih =>
    intro ap
    rw [renderPieces, renderPieces, ht p List.mem_cons_self, hw p List.mem_cons_self,
      ih (fun q hq => hw q (List.mem_cons_of_mem _ hq)) fun q hq => ht q (List.mem_cons_of_mem _ hq)]

/-- Where every piece is no longer than its counterpart, the whole is not, and is as long only if every piece is. -/
theorem length_renderPieces_le {ps : List FormatPiece} (hw : ∀ p ∈ ps, words p = words' p)
    (ht : ∀ p ∈ ps, ∀ ap, (text ap p).length ≤ (text' ap p).length) : ∀ ap,
    (renderPieces text words ap ps).length ≤ (renderPieces text' words' ap ps).length ∧
      ((renderPieces text words ap ps).length = (renderPieces text' words' ap ps).length →
        ∀ p ∈ ps, ∃ ap, (text ap p).length = (text' ap p).length) := by
  induction ps with
  | nil => exact fun ap => ⟨le_rfl, fun _ p hp => absurd hp List.not_mem_nil⟩
  | cons p ps ih =>
    intro ap
    have hp := ht p List.mem_cons_self ap
    obtain ⟨hle, heq⟩ := ih (fun q hq => hw q (List.mem_cons_of_mem _ hq)) (fun q hq => ht q (List.mem_cons_of_mem _ hq))
      (ap + words' p)
    rw [renderPieces, renderPieces, hw p List.mem_cons_self, List.length_append, List.length_append]
    refine ⟨by omega, fun h q hq => ?_⟩
    rcases List.mem_cons.mp hq with rfl | hq
    · exact ⟨ap, by omega⟩
    · exact heq (by omega) q hq

end

theorem intNumeral_ne_nil (v : U32) : intNumeral v ≠ [] := by
  have hdec : decNumeral v.toInt.natAbs ≠ [] := fun h => numeral_ne_nil (by decide) (List.map_eq_nil_iff.mp h)
  rw [intNumeral]
  split
  · exact List.cons_ne_nil _ _
  · exact hdec

/-- A numeral has a character at least. -/
theorem pieceText_number {c : Byte} (h : isNumberConv c) (a : FormatArgs) (ap : Nat) (prec : U32) :
    UserLibc.pieceText a ap (.conv prec c) ≠ [] := by
  rcases h with rfl | rfl | rfl | rfl
  · change UserLibc.outInt _ ≠ []
    rw [UserLibc.outInt_eq]
    split
    · exact List.cons_ne_nil _ _
    · exact intNumeral_ne_nil _
  · change UserLibc.outUint _ ≠ []
    rw [UserLibc.outUint_eq]
    exact fun h => numeral_ne_nil (by decide) (List.map_eq_nil_iff.mp h)
  · change UserLibc.outHex _ ≠ []
    rw [UserLibc.outHex_eq]
    exact fun h => numeral_ne_nil (by decide) (List.map_eq_nil_iff.mp h)
  · change UserLibc.outHex _ ≠ []
    rw [UserLibc.outHex_eq]
    exact fun h => numeral_ne_nil (by decide) (List.map_eq_nil_iff.mp h)

/-- Both libraries take the same words for a piece. -/
theorem pieceWords_agree {p : FormatPiece} (h : p.NoFloat) : FsLib.pieceWords p = UserLibc.pieceWords p := by
  cases p with
  | lit c => rfl
  | percent => rfl
  | cut => rfl
  | conv prec c =>
    rw [UserLibc.pieceWords]
    exact (if_neg (h prec c rfl)).symm

/-- A conversion of a value that is no number is alike in both. -/
theorem pieceText_agree {p : FormatPiece} (h : p.NoFloat) (hcut : p ≠ .cut) (hnum : ∀ prec c, p = .conv prec c → ¬isNumberConv c)
    (a : FormatArgs) (ap : Nat) : UserLibc.pieceText a ap p = FsLib.pieceText a ap p ∧
      UserLibc.pieceCounted a ap p = UserLibc.pieceText a ap p := by
  cases p with
  | lit c => exact ⟨rfl, rfl⟩
  | percent => exact ⟨rfl, rfl⟩
  | cut => exact absurd rfl hcut
  | conv prec c =>
    have hf := h prec c rfl
    have hn := hnum prec c rfl
    refine ⟨?_, if_neg (not_or.mpr ⟨hf, hn⟩)⟩
    simp only [isFloatConv, isNumberConv, not_or] at hf hn
    simp only [UserLibc.pieceText, FsLib.pieceText, hf, hn, or_self, if_false]

/-- What `fs/lib/stdio.c` prints for a piece is never longer; it is shorter for a `%` that the format ends in. -/
theorem length_pieceText_le {p : FormatPiece} (h : p.NoFloat) (a : FormatArgs) (ap : Nat) :
    (FsLib.pieceText a ap p).length ≤ (UserLibc.pieceText a ap p).length := by
  cases p with
  | lit c => exact le_rfl
  | percent => exact le_rfl
  | cut => exact Nat.le_succ 1
  | conv prec c =>
    by_cases hn : isNumberConv c
    · rcases hn with rfl | rfl | rfl | rfl
      · change (FsLib.outInt _).length ≤ (UserLibc.outInt _).length
        rw [FsLib.outInt_eq, UserLibc.outInt_eq]
      · change (FsLib.outUint _).length ≤ (UserLibc.outUint _).length
        rw [FsLib.outUint_eq, UserLibc.outUint_eq]
      · change (FsLib.outHex _ false).length ≤ (UserLibc.outHex _).length
        rw [FsLib.outHex_eq, UserLibc.outHex_eq]
      · change (FsLib.outHex _ true).length ≤ (UserLibc.outHex _).length
        rw [FsLib.outHex_eq, UserLibc.outHex_eq, length_hexNumeral, length_hexNumeral]
    · rw [(pieceText_agree h (fun h => nomatch h) (fun prec' c' heq => by cases heq; exact hn) a ap).1]

/-- What is counted of a piece is never longer than the piece. -/
theorem length_pieceCounted_le (a : FormatArgs) (ap : Nat) (p : FormatPiece) :
    (UserLibc.pieceCounted a ap p).length ≤ (UserLibc.pieceText a ap p).length := by
  cases p with
  | lit c => exact le_rfl
  | percent => exact le_rfl
  | cut => exact le_rfl
  | conv prec c =>
    rw [UserLibc.pieceCounted]
    split
    · exact Nat.zero_le _
    · exact le_rfl

/-- Without floating-point conversions, both libraries print alike exactly if the format converts no integer to a numeral and does not
end in a `%`, and its text is shorter than 2GB. -/
theorem printf_agree_iff (m : Mem) (fmt : List Byte) (a : FormatArgs) (hfloat : NoFloats fmt) :
    PrintAlike m fmt a ↔ NoNumerals fmt ∧ (FsLib.formatText fmt a).length < 2 ^ 31 := by
  have hno : ∀ p ∈ pieces fmt, p.NoFloat := fun p hp prec c heq => hfloat prec c (heq ▸ hp)
  have hwords : ∀ p ∈ pieces fmt, FsLib.pieceWords p = UserLibc.pieceWords p := fun p hp => pieceWords_agree (hno p hp)
  constructor
  · rintro ⟨hconsole, hvalue, hcount⟩
    rw [FsLib.printf_eq, UserLibc.printf_eq] at hconsole hvalue
    rw [FsLib.printf_eq] at hcount
    dsimp only at hconsole hvalue hcount
    have hlt : (FsLib.formatText fmt a).length < 2 ^ 31 := by
      have := BitVec.toInt_lt (x := BitVec.ofNat 32 (FsLib.formatText fmt a).length)
      omega
    refine ⟨fun p hp => ⟨?_, ?_⟩, hlt⟩
    · -- a `%` at the end makes the one text longer
      rintro rfl
      obtain ⟨ap, hap⟩ := (length_renderPieces_le hwords (fun p hp ap => length_pieceText_le (hno p hp) a ap) 0).2
        (congrArg List.length hconsole).symm _ hp
      change 1 = 2 at hap
      omega
    · -- a numeral makes the count smaller than the text
      rintro prec c rfl hnum
      have hwords : ∀ p ∈ pieces fmt, UserLibc.pieceWords p = UserLibc.pieceWords p := fun _ _ => rfl
      have hle := length_renderPieces_le hwords
        (fun p (_ : p ∈ pieces fmt) ap => length_pieceCounted_le a ap p) 0
      have hsame : (UserLibc.formatCounted fmt a).length = (UserLibc.formatText fmt a).length := by
        have hmod := congrArg BitVec.toNat hvalue
        have hle := hle.1
        change (UserLibc.formatCounted fmt a).length ≤ (UserLibc.formatText fmt a).length at hle
        rw [hconsole] at hle ⊢
        rw [BitVec.toNat_ofNat, BitVec.toNat_ofNat, Nat.mod_eq_of_lt (by omega), Nat.mod_eq_of_lt (by omega)] at hmod
        exact hmod
      obtain ⟨ap, hap⟩ := hle.2 hsame _ hp
      rw [UserLibc.pieceCounted, if_pos (.inr hnum)] at hap
      exact pieceText_number hnum a ap prec (List.length_eq_zero_iff.mp hap.symm)
  · rintro ⟨hnum, hlt⟩
    have hagree := fun p hp ap => pieceText_agree (hno p hp) (hnum p hp).1 (hnum p hp).2 a ap
    have htext : UserLibc.formatText fmt a = FsLib.formatText fmt a :=
      renderPieces_congr (fun p hp => (hwords p hp).symm) (fun p hp ap => (hagree p hp ap).1) 0
    have hcounted : UserLibc.formatCounted fmt a = UserLibc.formatText fmt a :=
      renderPieces_congr (fun _ _ => rfl) (fun p hp ap => (hagree p hp ap).2) 0
    refine ⟨?_, ?_, ?_⟩
    · rw [FsLib.printf_eq, UserLibc.printf_eq, htext]
    · rw [FsLib.printf_eq, UserLibc.printf_eq, hcounted, htext]
    · rw [FsLib.printf_eq]
      dsimp only
      rw [BitVec.toInt_eq_toNat_of_lt (by rw [BitVec.toNat_ofNat]; omega), BitVec.toNat_ofNat, Nat.mod_eq_of_lt (by omega)]

theorem noFloats_d : NoFloats (asciiBytes "%d") := by
  intro prec c hmem hf
  have hpieces : pieces (asciiBytes "%d") = [.conv (-1#32) (Char.byte 'd')] := rfl
  rw [hpieces, List.mem_singleton, FormatPiece.conv.injEq] at hmem
  rw [hmem.2] at hf
  exact absurd hf (by decide)

theorem printf_agree_d : PrintAlike (fun _ => 0#8) (asciiBytes "%d") zeroArgs ↔
    NoNumerals (asciiBytes "%d") ∧ (FsLib.formatText (asciiBytes "%d") zeroArgs).length < 2 ^ 31 :=
  printf_agree_iff _ _ _ noFloats_d

/-- `printf("%d", 0)` returns 0 in the one library and 1 in the other. -/
theorem printf_agree_d_false : ¬PrintAlike (fun _ => 0#8) (asciiBytes "%d") zeroArgs :=
  fun h => absurd h.value (by decide)

end MiniOs32
