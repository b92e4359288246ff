import MiniOs32.Cc.Expand

/-!
# C's reading of a line

What the preprocessing tokens of a line of text are for C: identifiers of any length, numbers with their suffixes and
hexadecimal digits, literals with their escapes and encoding, comments, and single characters of any other kind. This is the
language's view of a text, against which the compiler's own scanning is judged.
-/

namespace MiniOs32

/-- A piece of a line. -/
inductive CPiece where
  | name (w : List Byte)
  | number (t : List Byte)
  | literal (t : List Byte)
  | comment (t : List Byte)
  | char (c : Byte)
  deriving DecidableEq

/-- The text of a piece. -/
def CPiece.text : CPiece → List Byte
  | .name t | .number t | .literal t | .comment t => t
  | .char c => [c]

/-- The identifier a piece is. -/
def CPiece.name? : CPiece → Option (List Byte)
  | .name w => some w
  | _ => none

/-- How many characters a literal goes on behind its opening quote: to the closing quote, or to the end of the line. -/
def literalLength (quote : Byte) : List Byte → Nat
  | [] => 0
  | [_] => 1
  | c :: e :: r =>
    if c = backslash then 2 + literalLength quote r
    else if c = quote then 1
    else 1 + literalLength quote (e :: r)

/-- How many characters a block comment goes on: to its end mark, or to the end of the line. -/
def commentLength : List Byte → Nat
  | [] => 0
  | [_] => 1
  | c :: e :: r => if c = Char.byte '*' ∧ e = Char.byte '/' then 2 else 1 + commentLength (e :: r)

/-- A letter behind which a sign goes on with a number. -/
def isExponent (c : Byte) : Bool := asciiBytes "eEpP" |>.contains c

/-- How many characters a number goes on behind its first digit: letters, digits, points, and signs behind an exponent letter. -/
def numberLength : List Byte → Nat
  | [] => 0
  | [c] => if ppIsAlnum c || c == Char.byte '.' then 1 else 0
  | c :: s :: r =>
    if isExponent c && (s == Char.byte '+' || s == Char.byte '-') then 2 + numberLength r
    else if ppIsAlnum c || c == Char.byte '.' then 1 + numberLength (s :: r)
    else 0

/-- The names that may stand before the opening quote of a literal and belong to it. -/
def encodings : List (List Byte) := [asciiBytes "L", asciiBytes "u", asciiBytes "U", asciiBytes "u8"]

/-- The quote a text begins with. -/
def quoteAt (text : List Byte) : Option Byte := text.head?.filter fun c => c == doubleQuote || c == singleQuote

/-- The first piece of a text `c :: rest`. -/
def cFirst (c : Byte) (rest : List Byte) : CPiece :=
  if ppIsAlpha c then
    let w := (c :: rest).takeWhile ppIsAlnum
    match quoteAt ((c :: rest).drop w.length) with
    | some quote =>
      if w ∈ encodings then
        .literal ((c :: rest).take (w.length + 1 + literalLength quote ((c :: rest).drop (w.length + 1))))
      else .name w
    | none => .name w
  else if ppIsDigit c then .number (c :: rest.take (numberLength rest))
  else if c = Char.byte '.' ∧ ppIsDigit (rest.headD 0#8) = true then .number (c :: rest.take (numberLength rest))
  else if c = doubleQuote ∨ c = singleQuote then .literal (c :: rest.take (literalLength c rest))
  else if c = Char.byte '/' ∧ rest.head? = some (Char.byte '/') then .comment (c :: rest)
  else if c = Char.byte '/' ∧ rest.head? = some (Char.byte '*') then
    .comment (c :: rest.take (1 + commentLength rest.tail))
  else .char c

/-- The pieces of a text, at most `n` of them. -/
def cPiecesOf : Nat → List Byte → List CPiece
  | 0, _ => []
  | _, [] => []
  | n + 1, c :: rest => cFirst c rest :: cPiecesOf n ((c :: rest).drop (cFirst c rest).text.length)

/-- The pieces of a line, which may begin inside a block comment. -/
def cPieces (inComment : Bool) (line : List Byte) : List CPiece :=
  if inComment then
    .comment (line.take (commentLength line)) :: cPiecesOf line.length (line.drop (commentLength line))
  else cPiecesOf line.length line

/-- The identifiers of a line. -/
def cNames (inComment : Bool) (line : List Byte) : List (List Byte) := (cPieces inComment line).filterMap CPiece.name?

end MiniOs32
