import MiniOs32.User.Format

/-!
# A format is a list of pieces

Both `printf`s cut a format into the same pieces, and print each by itself. What a piece prints depends on the argument that comes
next, not on what has been printed.
-/

namespace MiniOs32

/-- A piece of a format: a character, `%%`, a conversion with its precision, or a `%` that the format ends in. -/
inductive FormatPiece where
  | lit (c : Byte)
  | percent
  | conv (prec : U32) (c : Byte)
  | cut

/-- The piece that starts with a character, and the format behind it. -/
def nextPiece (c : Byte) (fmt : List Byte) : FormatPiece × List Byte :=
  if c ≠ Char.byte '%' then (.lit c, fmt)
  else if charAt fmt = Char.byte '%' then (.percent, fmt.tail)
  else
    match scanPrec fmt with
    | (_, []) => (.cut, [])
    | (prec, c :: fmt) => (.conv prec c, fmt)

/-- The pieces of a format, with as many turns as there can be. -/
def piecesLoop : Nat → List Byte → List FormatPiece
  | 0, _ => []
  | _ + 1, [] => []
  | n + 1, c :: fmt => (nextPiece c fmt).1 :: piecesLoop n (nextPiece c fmt).2

/-- The pieces of a format. -/
def pieces (fmt : List Byte) : List FormatPiece := piecesLoop fmt.length fmt

/-! ## Cutting a format -/

theorem length_readDec_le (p : List Byte) : ∀ v, (readDec v p).2.length ≤ p.length := by
  induction p with
  | nil => intro v; exact le_rfl
  | cons c p ih =>
    intro v
    rw [readDec]
    split
    · exact (ih _).trans (Nat.le_succ _)
    · exact le_rfl

theorem length_scanPrec_le (fmt : List Byte) : (scanPrec fmt).2.length ≤ fmt.length := by
  rw [scanPrec]
  split
  · refine (length_readDec_le fmt.tail _).trans ?_
    rw [List.length_tail]
    omega
  · exact le_rfl

/-- A piece takes a character at least. -/
theorem length_nextPiece_le (c : Byte) (fmt : List Byte) : (nextPiece c fmt).2.length ≤ fmt.length := by
  have hprec := length_scanPrec_le fmt
  rw [nextPiece]
  split
  · exact le_rfl
  split
  · rw [List.length_tail]
    omega
  · generalize scanPrec fmt = q at hprec
    rcases q with ⟨prec, _ | ⟨c, t⟩⟩
    · exact Nat.zero_le _
    · exact (Nat.le_succ _).trans hprec

/-- There are always turns enough. -/
theorem piecesLoop_of_le : ∀ {n : Nat} {fmt : List Byte}, fmt.length ≤ n → piecesLoop n fmt = pieces fmt := by
  have hmore : ∀ {n m : Nat} {fmt : List Byte}, fmt.length ≤ n → fmt.length ≤ m → piecesLoop n fmt = piecesLoop m fmt := by
    intro n
    induction n with
    | zero =>
      intro m fmt hn _
      rw [List.length_eq_zero_iff.mp (Nat.le_zero.mp hn)]
      cases m <;> rfl
    | succ n ih =>
      intro m fmt hn hm
      cases fmt with
      | nil => cases m <;> rfl
      | cons c fmt =>
        obtain ⟨m, rfl⟩ : ∃ k, m = k + 1 := ⟨m - 1, by rw [List.length_cons] at hm; omega⟩
        have hle := length_nextPiece_le c fmt
        rw [List.length_cons] at hn hm
        exact congrArg _ (ih (by omega) (by omega))
  intro n fmt h
  exact hmore h le_rfl

@[simp] theorem pieces_nil : pieces [] = [] := rfl

/-- The pieces of a format are the first and those of what is left. -/
theorem pieces_cons (c : Byte) (fmt : List Byte) : pieces (c :: fmt) = (nextPiece c fmt).1 :: pieces (nextPiece c fmt).2 := by
  rw [pieces, List.length_cons, piecesLoop, piecesLoop_of_le (length_nextPiece_le c fmt)]

/-! ## What pieces print -/

/-- An argument list of zeros. -/
def zeroArgs : FormatArgs := ⟨fun _ => 0#32, fun _ => [], fun _ _ _ => [], fun _ _ _ => []⟩

/-- The text of pieces one behind the other, with the arguments from one on. -/
def renderPieces (text : Nat → FormatPiece → List Byte) (words : FormatPiece → Nat) : Nat → List FormatPiece → List Byte
  | _, [] => []
  | ap, p :: ps => text ap p ++ renderPieces text words (ap + words p) ps

/-- `c` converts a floating-point value. -/
def isFloatConv (c : Byte) : Prop := c = Char.byte 'f' ∨ c = Char.byte 'F' ∨ c = Char.byte 'g' ∨ c = Char.byte 'G'
/-- `c` converts an integer to a numeral. -/
def isNumberConv (c : Byte) : Prop := c = Char.byte 'd' ∨ c = Char.byte 'u' ∨ c = Char.byte 'x' ∨ c = Char.byte 'X'

instance (c : Byte) : Decidable (isFloatConv c) := inferInstanceAs (Decidable (_ ∨ _))
instance (c : Byte) : Decidable (isNumberConv c) := inferInstanceAs (Decidable (_ ∨ _))

namespace FsLib

/-- What `fs/lib/stdio.c` prints for a piece. -/
def pieceText (a : FormatArgs) (ap : Nat) : FormatPiece → List Byte
  | .lit c => [c]
  | .percent => [Char.byte '%']
  | .cut => [Char.byte '%']
  | .conv prec c =>
    if c = Char.byte 'f' ∨ c = Char.byte 'F' then a.floatText false (a.word ap) (floatPrec prec)
    else if c = Char.byte 'g' ∨ c = Char.byte 'G' then a.floatText true (a.word ap) (floatPrec prec)
    else if c = Char.byte 'd' then outInt (a.word ap)
    else if c = Char.byte 'u' then outUint (a.word ap)
    else if c = Char.byte 'x' then outHex (a.word ap) false
    else if c = Char.byte 'X' then outHex (a.word ap) true
    else if c = Char.byte 'c' then [(a.word ap).setWidth 8]
    else if c = Char.byte 's' then a.strText (a.word ap)
    else [Char.byte '%', c]

/-- The arguments that a piece takes. -/
def pieceWords : FormatPiece → Nat
  | .conv _ c =>
    if c = Char.byte 'f' ∨ c = Char.byte 'F' ∨ c = Char.byte 'g' ∨ c = Char.byte 'G' ∨ c = Char.byte 'd' ∨ c = Char.byte 'u' ∨
      c = Char.byte 'x' ∨ c = Char.byte 'X' ∨ c = Char.byte 'c' ∨ c = Char.byte 's' then 1 else 0
  | _ => 0

/-- What `fs/lib/stdio.c` prints for a format. -/
def formatText (fmt : List Byte) (a : FormatArgs) : List Byte := renderPieces (pieceText a) pieceWords 0 (pieces fmt)

theorem Out.text_append (o : Out) (l l' : List Byte) : o.text (l ++ l') = (o.text l).text l' := List.foldl_append

/-- A turn of the loop prints a piece. -/
theorem formatTurn_eq (a : FormatArgs) (o : Out) (c : Byte) (fmt : List Byte) (ap : Nat) :
    formatTurn a o c fmt ap = (o.text (pieceText a ap (nextPiece c fmt).1), (nextPiece c fmt).2, ap + pieceWords (nextPiece c fmt).1) := by
  rw [formatTurn, nextPiece]
  by_cases hplain : c ≠ Char.byte '%'
  · rw [if_pos hplain, if_pos hplain]
    rfl
  rw [if_neg hplain, if_neg hplain]
  by_cases htwo : charAt fmt = Char.byte '%'
  · rw [if_pos htwo, if_pos htwo]
    rfl
  rw [if_neg htwo, if_neg htwo]
  generalize scanPrec fmt = q
  rcases q with ⟨prec, _ | ⟨c, t⟩⟩
  · rfl
  dsimp only [pieceText, pieceWords]
  by_cases hf : c = Char.byte 'f' ∨ c = Char.byte 'F'
  · rw [if_pos hf, if_pos hf, if_pos (by tauto)]
  rw [if_neg hf, if_neg hf]
  by_cases hg : c = Char.byte 'g' ∨ c = Char.byte 'G'
  · rw [if_pos hg, if_pos hg, if_pos (by tauto)]
  rw [if_neg hg, if_neg hg]
  by_cases hd : c = Char.byte 'd'
  · rw [if_pos hd, if_pos hd, if_pos (by tauto)]
  rw [if_neg hd, if_neg hd]
  by_cases hu : c = Char.byte 'u'
  · rw [if_pos hu, if_pos hu, if_pos (by tauto)]
  rw [if_neg hu, if_neg hu]
  by_cases hx : c = Char.byte 'x'
  · rw [if_pos hx, if_pos hx, if_pos (by tauto)]
  rw [if_neg hx, if_neg hx]
  by_cases hX : c = Char.byte 'X'
  · rw [if_pos hX, if_pos hX, if_pos (by tauto)]
  rw [if_neg hX, if_neg hX]
  by_cases hc : c = Char.byte 'c'
  · rw [if_pos hc, if_pos hc, if_pos (by tauto)]
    rfl
  rw [if_neg hc, if_neg hc]
  by_cases hs : c = Char.byte 's'
  · rw [if_pos hs, if_pos hs, if_pos (by tauto)]
  · rw [if_neg hs, if_neg hs, if_neg (by tauto)]
    rfl

/-- The loop prints the pieces. -/
theorem formatLoop_eq (a : FormatArgs) : ∀ (n : Nat) (o : Out) (fmt : List Byte) (ap : Nat),
    formatLoop a n o fmt ap = o.text (renderPieces (pieceText a) pieceWords ap (piecesLoop n fmt)) := by
  intro n
  induction n with
  | zero => intro o fmt ap; rfl
  | succ n ih =>
    intro o fmt ap
    cases fmt with
    | nil => rfl
    | cons c fmt =>
      rw [formatLoop, formatTurn_eq, piecesLoop, renderPieces, Out.text_append]
      exact ih _ _ _

/-- `vformat_ap` passes the text of the format to `out_ch`. -/
theorem vformatAp_eq (a : FormatArgs) (o : Out) (fmt : List Byte) : vformatAp a o fmt = o.text (formatText fmt a) :=
  formatLoop_eq a _ o fmt 0

/-- Without a buffer the text goes to the console, and its length is counted. -/
theorem Out.text_console (l : List Byte) : ∀ {o : Out}, o.buf = 0#32 →
    o.text l = { o with console := o.console ++ l, len := o.len + BitVec.ofNat 32 l.length } := by
  induction l with
  | nil =>
    intro o _
    rw [List.length_nil, List.append_nil, show BitVec.ofNat 32 0 = 0#32 from rfl, BitVec.add_zero]
    rfl
  | cons c l ih =>
    intro o h
    have hch : o.ch c = { o with console := o.console ++ [c], len := o.len + 1#32 } := by
      rw [Out.ch, if_neg (by simpa using h)]
    change (o.ch c).text l = _
    rw [hch, ih (by exact h), List.length_cons, BitVec.ofNat_add, List.append_assoc, BitVec.add_assoc, BitVec.add_comm (BitVec.ofNat 32 l.length)]
    rfl

/-- `printf` prints the text of the format. -/
theorem printf_eq (m : Mem) (fmt : List Byte) (a : FormatArgs) :
    printf m fmt a = (formatText fmt a, BitVec.ofNat 32 (formatText fmt a).length) := by
  rw [printf, vformatAp_eq, Out.text_console _ rfl]
  dsimp only
  rw [List.nil_append, BitVec.zero_add]

end FsLib

namespace UserLibc

/-- What `user/libc.c` prints for a piece. -/
def pieceText (a : FormatArgs) (ap : Nat) : FormatPiece → List Byte
  | .lit c => [c]
  | .percent => [Char.byte '%']
  | .cut => [Char.byte '%', Char.byte '%']
  | .conv prec c =>
    if c = Char.byte 'f' ∨ c = Char.byte 'F' then a.doubleText false (a.word (ap + 1) ++ a.word ap) (floatPrec prec)
    else if c = Char.byte 'g' ∨ c = Char.byte 'G' then a.doubleText true (a.word (ap + 1) ++ a.word ap) (floatPrec prec)
    else if c = Char.byte 'd' then outInt (a.word ap)
    else if c = Char.byte 'u' then outUint (a.word ap)
    else if c = Char.byte 'x' ∨ c = Char.byte 'X' then outHex (a.word ap)
    else if c = Char.byte 'c' then [(a.word ap).setWidth 8]
    else if c = Char.byte 's' then a.strText (a.word ap)
    else [Char.byte '%', c]

/-- The text of a piece that is counted: a numeral is not. -/
def pieceCounted (a : FormatArgs) (ap : Nat) : FormatPiece → List Byte
  | .conv prec c => if isFloatConv c ∨ isNumberConv c then [] else pieceText a ap (.conv prec c)
  | p => pieceText a ap p

/-- The words that a piece takes; a `double` is two. -/
def pieceWords (p : FormatPiece) : Nat :=
  match p with
  | .conv _ c => if isFloatConv c then 2 else FsLib.pieceWords p
  | _ => 0

/-- What `user/libc.c` prints for a format. -/
def formatText (fmt : List Byte) (a : FormatArgs) : List Byte := renderPieces (pieceText a) pieceWords 0 (pieces fmt)

/-- What of it is counted. -/
def formatCounted (fmt : List Byte) (a : FormatArgs) : List Byte := renderPieces (pieceCounted a) pieceWords 0 (pieces fmt)

/-- What has been printed after a text of which a part was counted. -/
def Printed.both (o : Printed) (text counted : List Byte) : Printed := ⟨o.console ++ text, o.count + BitVec.ofNat 32 counted.length⟩

theorem Printed.both_append (o : Printed) (t t' c c' : List Byte) : o.both (t ++ t') (c ++ c') = (o.both t c).both t' c' := by
  rw [both, both, both, List.append_assoc, List.length_append, BitVec.ofNat_add, BitVec.add_assoc]

theorem Printed.both_nil (o : Printed) : o.both [] [] = o := by
  rw [both, List.append_nil, List.length_nil, show BitVec.ofNat 32 0 = 0#32 from rfl, BitVec.add_zero]

theorem Printed.text_eq (o : Printed) (l : List Byte) : o.text l = o.both l [] := by
  rw [both, text, List.length_nil, show BitVec.ofNat 32 0 = 0#32 from rfl, BitVec.add_zero]

/-- A turn of the loop prints a piece. -/
theorem printfTurn_eq (a : FormatArgs) (o : Printed) (c : Byte) (fmt : List Byte) (ap : Nat) :
    printfTurn a o c fmt ap =
      (o.both (pieceText a ap (nextPiece c fmt).1) (pieceCounted a ap (nextPiece c fmt).1), (nextPiece c fmt).2,
        ap + pieceWords (nextPiece c fmt).1) := by
  rw [printfTurn, nextPiece]
  by_cases hplain : c ≠ Char.byte '%'
  · rw [if_pos hplain, if_pos hplain]
    rfl
  rw [if_neg hplain, if_neg hplain]
  by_cases htwo : charAt fmt = Char.byte '%'
  · rw [if_pos htwo, if_pos htwo]
    rfl
  rw [if_neg htwo, if_neg htwo]
  generalize scanPrec fmt = q
  rcases q with ⟨prec, _ | ⟨c, t⟩⟩
  · rfl
  dsimp only [pieceText, pieceCounted, pieceWords, FsLib.pieceWords]
  by_cases hf : c = Char.byte 'f' ∨ c = Char.byte 'F'
  · have hfloat : isFloatConv c := hf.elim .inl fun h => .inr (.inl h)
    rw [if_pos hf, if_pos hf, if_pos (.inl hfloat), if_pos hfloat, Printed.text_eq]
  rw [if_neg hf, if_neg hf]
  by_cases hg : c = Char.byte 'g' ∨ c = Char.byte 'G'
  · have hfloat : isFloatConv c := .inr (.inr hg)
    rw [if_pos hg, if_pos hg, if_pos (.inl hfloat), if_pos hfloat, Printed.text_eq]
  have hfloat : ¬isFloatConv c := fun h => h.elim (hf ∘ .inl) fun h => h.elim (hf ∘ .inr) hg
  rw [if_neg hg, if_neg hg, if_neg hfloat]
  by_cases hd : c = Char.byte 'd'
  · rw [if_pos hd, if_pos hd, if_pos (.inr (.inl hd)), if_pos (by tauto), Printed.text_eq]
  rw [if_neg hd, if_neg hd]
  by_cases hu : c = Char.byte 'u'
  · rw [if_pos hu, if_pos hu, if_pos (.inr (.inr (.inl hu))), if_pos (by tauto), Printed.text_eq]
  rw [if_neg hu, if_neg hu]
  by_cases hx : c = Char.byte 'x' ∨ c = Char.byte 'X'
  · rw [if_pos hx, if_pos hx, if_pos (.inr (.inr (.inr hx))), if_pos (by tauto), Printed.text_eq]
  have hnumber : ¬(isFloatConv c ∨ isNumberConv c) := fun h => h.elim hfloat fun h => h.elim hd fun h => h.elim hu hx
  rw [if_neg hx, if_neg hx, if_neg hnumber]
  by_cases hc : c = Char.byte 'c'
  · rw [if_pos hc, if_pos hc, if_pos (by tauto)]
    rfl
  rw [if_neg hc, if_neg hc]
  by_cases hs : c = Char.byte 's'
  · rw [if_pos hs, if_pos hs, if_pos (by tauto)]
    rfl
  · rw [if_neg hs, if_neg hs, if_neg (by tauto)]
    rfl

/-- The loop prints the pieces. -/
theorem printfLoop_eq (a : FormatArgs) : ∀ (n : Nat) (o : Printed) (fmt : List Byte) (ap : Nat),
    printfLoop a n o fmt ap = o.both (renderPieces (pieceText a) pieceWords ap (piecesLoop n fmt))
      (renderPieces (pieceCounted a) pieceWords ap (piecesLoop n fmt)) := by
  intro n
  induction n with
  | zero => intro o fmt ap; exact o.both_nil.symm
  | succ n ih =>
    intro o fmt ap
    cases fmt with
    | nil => exact o.both_nil.symm
    | cons c fmt =>
      rw [printfLoop, printfTurn_eq, piecesLoop, renderPieces, renderPieces, Printed.both_append]
      exact ih _ _ _

/-- `printf` prints the text of the format and counts a part of it. -/
theorem printf_eq (fmt : List Byte) (a : FormatArgs) :
    printf fmt a = (formatText fmt a, BitVec.ofNat 32 (formatCounted fmt a).length) := by
  rw [printf, printfLoop_eq, Printed.both]
  dsimp only
  rw [List.nil_append, BitVec.zero_add]
  rfl

end UserLibc

end MiniOs32
