import MiniOs32.Lib.Words

/-!
# The compiler: conditions of the preprocessor

`pp_eval_if` reads the text behind `#if` or `#elif` with a recursive descent of twelve functions, one for each level of
precedence, each working on the bytes at `e->p`. A text is the list of its bytes before the NUL. An `int` is a word under its
two's-complement reading. The functions take a bound on their depth and on the turns of their loops and return `none` when it
is used up.
-/

namespace MiniOs32

/-- Names are compared byte by byte. -/
instance lawfulBEq_name : LawfulBEq (List Byte) := inferInstance

/-- `Macro`; `param_count` is the number of parameters. -/
structure Macro where
  name : List Byte
  isFunc : Bool
  params : List (List Byte)
  body : List Byte

/-- `Preproc`: the macros in the order they were defined. -/
abbrev Preproc : Type := List Macro

/-- `pp_is_space`. -/
def ppIsSpace (c : Byte) : Bool :=
  c == Char.byte ' ' || c == Char.byte '\t' || c == Char.byte '\r' || c == Char.byte '\n' || c == 11#8 || c == 12#8

/-- `pp_is_alpha`. -/
def ppIsAlpha (c : Byte) : Bool :=
  (Char.byte 'a' ≤ c && c ≤ Char.byte 'z') || (Char.byte 'A' ≤ c && c ≤ Char.byte 'Z') || c == Char.byte '_'

/-- A decimal digit. -/
def ppIsDigit (c : Byte) : Bool := Char.byte '0' ≤ c && c ≤ Char.byte '9'

/-- `pp_is_alnum`. -/
def ppIsAlnum (c : Byte) : Bool := ppIsAlpha c || ppIsDigit c

/-- `pp_find_macro`: the macro itself, `none` for -1. -/
def ppFindMacro (pp : Preproc) (name : List Byte) : Option Macro := pp.find? fun m => decide (m.name = name)

/-- A truth value of C. -/
def truth (b : Bool) : U32 := if b then 1#32 else 0#32

/-! ## Characters and numbers -/

/-- `pp_expr_skip`. -/
def ppExprSkip (p : List Byte) : List Byte := p.dropWhile ppIsSpace

/-- `pp_expr_match`: the spaces are skipped whether it matches or not. -/
def ppExprMatch (p op : List Byte) : Bool × List Byte :=
  if op.isPrefixOf (ppExprSkip p) then (true, (ppExprSkip p).drop op.length) else (false, ppExprSkip p)

/-- The loop over decimal digits. -/
def ppDecimal (v : U32) : List Byte → U32 × List Byte
  | [] => (v, [])
  | c :: p => if ppIsDigit c then ppDecimal (v * 10#32 + (c - Char.byte '0').setWidth 32) p else (v, c :: p)

/-- The value of a hexadecimal digit. -/
def ppHexDigit (c : Byte) : Option Byte :=
  if ppIsDigit c then some (c - Char.byte '0')
  else if Char.byte 'a' ≤ c ∧ c ≤ Char.byte 'f' then some (c - Char.byte 'a' + 10#8)
  else if Char.byte 'A' ≤ c ∧ c ≤ Char.byte 'F' then some (c - Char.byte 'A' + 10#8)
  else none

/-- The loop over hexadecimal digits. -/
def ppHex (v : U32) : List Byte → U32 × List Byte
  | [] => (v, [])
  | c :: p =>
    match ppHexDigit c with
    | some hv => ppHex (v <<< 4 + hv.setWidth 32) p
    | none => (v, c :: p)

/-- `pp_expr_number` behind the sign: the number and the text behind it, or `none` where it returns 0. -/
def ppUnsigned (q : List Byte) : Option (U32 × List Byte) :=
  if q.headD 0#8 = Char.byte '0' ∧ (q.tail.headD 0#8 = Char.byte 'x' ∨ q.tail.headD 0#8 = Char.byte 'X') then
    some (ppHex 0#32 (q.drop 2))
  else if !ppIsDigit (q.headD 0#8) then none
  else some (ppDecimal 0#32 q)

/-- `pp_expr_number`: the number, if there is one, and the text behind it. -/
def ppExprNumber (p : List Byte) : Option U32 × List Byte :=
  let p := ppExprSkip p
  let neg := decide (p.headD 0#8 = Char.byte '-')
  match ppUnsigned (if neg then p.tail else p) with
  | some (v, r) => (some (if neg then -v else v), r)
  | none => (none, p)

/-- `pp_macro_value`. -/
def ppMacroValue (pp : Preproc) (name : List Byte) : U32 :=
  match ppFindMacro pp name with
  | none => 0#32
  | some m => (ppExprNumber m.body).1.getD 1#32

/-! ## The operators -/

/-- The unary operators. -/
inductive UnOp where
  | not | compl | plus | neg
  deriving DecidableEq

/-- How a unary operator is written. -/
def UnOp.text : UnOp → List Byte
  | .not => asciiBytes "!"
  | .compl => asciiBytes "~"
  | .plus => asciiBytes "+"
  | .neg => asciiBytes "-"

/-- What `pp_parse_unary` computes for a unary operator. -/
def UnOp.apply : UnOp → U32 → U32
  | .not, v => truth (v = 0#32)
  | .compl, v => ~~~v
  | .plus, v => v
  | .neg, v => -v

/-- The binary operators that always evaluate both operands. -/
inductive BinOp where
  | mul | div | mod | add | sub | shl | shr | le | ge | lt | gt | eq | ne | band | bxor | bor
  deriving DecidableEq

/-- How a binary operator is written. -/
def BinOp.text : BinOp → List Byte
  | .mul => asciiBytes "*"
  | .div => asciiBytes "/"
  | .mod => asciiBytes "%"
  | .add => asciiBytes "+"
  | .sub => asciiBytes "-"
  | .shl => asciiBytes "<<"
  | .shr => asciiBytes ">>"
  | .le => asciiBytes "<="
  | .ge => asciiBytes ">="
  | .lt => asciiBytes "<"
  | .gt => asciiBytes ">"
  | .eq => asciiBytes "=="
  | .ne => asciiBytes "!="
  | .band => asciiBytes "&"
  | .bxor => asciiBytes "^"
  | .bor => asciiBytes "|"

/-- What the parsers compute for a binary operator. A division by zero leaves the left operand; a shift uses the low five bits
of its count, as the processor does. -/
def BinOp.apply : BinOp → U32 → U32 → U32
  | .mul, v, r => v * r
  | .div, v, r => if r = 0#32 then v else v.sdiv r
  | .mod, v, r => if r = 0#32 then v else v.srem r
  | .add, v, r => v + r
  | .sub, v, r => v - r
  | .shl, v, r => v <<< (r.toNat % 32)
  | .shr, v, r => v.sshiftRight (r.toNat % 32)
  | .le, v, r => truth (v.sle r)
  | .ge, v, r => truth (r.sle v)
  | .lt, v, r => truth (v.slt r)
  | .gt, v, r => truth (r.slt v)
  | .eq, v, r => truth (v = r)
  | .ne, v, r => truth (v ≠ r)
  | .band, v, r => v &&& r
  | .bxor, v, r => v ^^^ r
  | .bor, v, r => v ||| r

/-- The first operator of a list that matches, each tried with `pp_expr_match`. -/
def ppFirstMatch {α : Type} (text : α → List Byte) : List α → List Byte → Option α × List Byte
  | [], p => (none, p)
  | op :: ops, p =>
    match ppExprMatch p (text op) with
    | (true, p) => (some op, p)
    | (false, p) => ppFirstMatch text ops p

/-! ## The parsers -/

/-- A parser: the value and the text behind what it has read. -/
abbrev PPParser : Type := List Byte → Option (U32 × List Byte)

/-- The loop that copies a name into a buffer of 32. -/
def ppReadName (p : List Byte) : List Byte := (p.take 31).takeWhile ppIsAlnum

/-- `defined`, once it has been read: with parentheses or without. -/
def ppParseDefined (pp : Preproc) : PPParser := fun p =>
  let p := ppExprSkip p
  if p.headD 0#8 = Char.byte '(' then
    let p := ppExprSkip p.tail
    let dn := ppReadName p
    let p := ppExprSkip (p.drop dn.length)
    some (truth (ppFindMacro pp dn).isSome, if p.headD 0#8 = Char.byte ')' then p.tail else p)
  else
    let dn := ppReadName p
    some (truth (ppFindMacro pp dn).isSome, p.drop dn.length)

/-- `pp_parse_primary`; `lor` is `pp_parse_lor`. -/
def ppParsePrimary (pp : Preproc) (lor : PPParser) : PPParser := fun p =>
  let p := ppExprSkip p
  if p.headD 0#8 = Char.byte '(' then do
    let (v, p) ← lor p.tail
    let p := ppExprSkip p
    return (v, if p.headD 0#8 = Char.byte ')' then p.tail else p)
  else if ppIsAlpha (p.headD 0#8) then
    let name := ppReadName p
    let p := p.drop name.length
    if name = asciiBytes "defined" then ppParseDefined pp p
    else some (ppMacroValue pp name, p)
  else
    let (v, p) := ppExprNumber p
    some (v.getD 0#32, p)

/-- `pp_parse_unary`. -/
def ppParseUnary (pp : Preproc) (lor : PPParser) : Nat → PPParser
  | 0, _ => none
  | n + 1, p =>
    match ppFirstMatch UnOp.text [.not, .compl, .plus, .neg] p with
    | (some op, p) => do
      let (v, p) ← ppParseUnary pp lor n p
      return (op.apply v, p)
    | (none, p) => ppParsePrimary pp lor p

theorem ppParseUnary_succ (pp : Preproc) (lor : PPParser) (n : Nat) (p : List Byte) :
    ppParseUnary pp lor (n + 1) p =
      match ppFirstMatch UnOp.text [.not, .compl, .plus, .neg] p with
      | (some op, p) => (ppParseUnary pp lor n p).bind fun r => some (op.apply r.1, r.2)
      | (none, p) => ppParsePrimary pp lor p := rfl

/-- The loop of a level: as long as one of its operators follows, its right operand is read by the next tighter level. -/
def ppBinaryLoop (ops : List BinOp) (next : PPParser) : Nat → U32 → PPParser
  | 0, _, _ => none
  | n + 1, v, p =>
    match ppFirstMatch BinOp.text ops p with
    | (some op, p) => do
      let (r, p) ← next p
      ppBinaryLoop ops next n (op.apply v r) p
    | (none, p) => some (v, p)

theorem ppBinaryLoop_succ (ops : List BinOp) (next : PPParser) (n : Nat) (v : U32) (p : List Byte) :
    ppBinaryLoop ops next (n + 1) v p =
      match ppFirstMatch BinOp.text ops p with
      | (some op, p) => (next p).bind fun r => ppBinaryLoop ops next n (op.apply v r.1) r.2
      | (none, p) => some (v, p) := rfl

/-- A level of left-associative operators. -/
def ppBinary (ops : List BinOp) (next : PPParser) (n : Nat) : PPParser := fun p => do
  let (v, p) ← next p
  ppBinaryLoop ops next n v p

section

variable (pp : Preproc) (lor : PPParser) (n : Nat)

/-- `pp_parse_mul`. -/
def ppParseMul : PPParser := ppBinary [.mul, .div, .mod] (ppParseUnary pp lor n) n

/-- `pp_parse_add`. -/
def ppParseAdd : PPParser := ppBinary [.add, .sub] (ppParseMul pp lor n) n

/-- `pp_parse_shift`. -/
def ppParseShift : PPParser := ppBinary [.shl, .shr] (ppParseAdd pp lor n) n

/-- `pp_parse_rel`. -/
def ppParseRel : PPParser := ppBinary [.le, .ge, .lt, .gt] (ppParseShift pp lor n) n

/-- `pp_parse_eq`. -/
def ppParseEq : PPParser := ppBinary [.eq, .ne] (ppParseRel pp lor n) n

/-- `pp_parse_bitand`. -/
def ppParseBitand : PPParser := ppBinary [.band] (ppParseEq pp lor n) n

/-- `pp_parse_bitxor`. -/
def ppParseBitxor : PPParser := ppBinary [.bxor] (ppParseBitand pp lor n) n

/-- `pp_parse_bitor`. -/
def ppParseBitor : PPParser := ppBinary [.bor] (ppParseBitxor pp lor n) n

end

/-- The loop of `pp_parse_land` (`stop` is 0) and of `pp_parse_lor` (`stop` is 1): the right operand is read only when the left
one does not decide, so that its text stays where it is otherwise. -/
def ppShortLoop (op : List Byte) (stop : Bool) (next : PPParser) : Nat → U32 → PPParser
  | 0, _, _ => none
  | n + 1, v, p =>
    match ppExprMatch p op with
    | (true, p) =>
      if decide (v ≠ 0#32) = stop then ppShortLoop op stop next n (truth stop) p
      else do
        let (r, p) ← next p
        ppShortLoop op stop next n (truth (r ≠ 0#32)) p
    | (false, p) => some (v, p)

/-- `pp_parse_land`. -/
def ppParseLand (pp : Preproc) (lor : PPParser) (n : Nat) : PPParser := fun p => do
  let (v, p) ← ppParseBitor pp lor n p
  ppShortLoop (asciiBytes "&&") false (ppParseBitor pp lor n) n v p

/-- `pp_parse_lor`. -/
def ppParseLor (pp : Preproc) : Nat → PPParser
  | 0, _ => none
  | n + 1, p => do
    let (v, p) ← ppParseLand pp (ppParseLor pp n) n p
    ppShortLoop (asciiBytes "||") true (ppParseLand pp (ppParseLor pp n) n) n v p

/-- `pp_eval_if`. -/
def ppEvalIf (n : Nat) (pp : Preproc) (expr : List Byte) : Option Bool :=
  (ppParseLor pp n expr).map fun r => decide (r.1 ≠ 0#32)

end MiniOs32
