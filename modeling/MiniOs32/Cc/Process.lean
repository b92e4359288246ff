import MiniOs32.Cc.Expand

/-!
# The compiler: directives of the preprocessor

`pp_process` reads a text line by line. A line whose first character behind spaces is `#` is a directive; any other is expanded
and copied to the output when every open conditional is active. What the function needs from elsewhere, the truth of a condition
and the text of an included file, is a parameter. The map of output lines to source lines is left out.
-/

namespace MiniOs32

/-- What ends `pp_process` with -1; `outOfRange` stands for a write outside an array. -/
inductive PpFail where
  | includeDepth | includeFail (name : List Byte) | ovf | outOfRange
  deriving DecidableEq

/-- An open conditional: its entries of `cond_active` and `cond_taken`. -/
structure PpCond where
  active : Bool
  taken : Bool
  deriving DecidableEq

/-- The variables of `pp_process`; the innermost conditional comes first. -/
structure PpState where
  pp : Preproc
  out : List Byte
  conds : List PpCond
  line : Nat

/-- `pp_eval_if`, `load_include` (the text and the path of the file that is found) and `skip_stdio`. -/
structure PpEnv where
  evalIf : Preproc → List Byte → Bool
  load : List Byte → List Byte → Bool → Option (List Byte × List Byte)
  skipStdio : Bool

/-! ## The table of macros -/

/-- `pp_define`; a table of 256 macros takes no new one. -/
def ppDefine (pp : Preproc) (m : Macro) : Preproc :=
  match pp.findIdx? fun m' => decide (m'.name = m.name) with
  | some i => pp.set i m
  | none => if 256 ≤ pp.length then pp else pp ++ [m]

/-- `pp_undef`. -/
def ppUndef (pp : Preproc) (name : List Byte) : Preproc := pp.eraseP fun m => decide (m.name = name)

/-- The loop over the parameters of a macro, for at most as many turns as the text has characters. -/
def ppReadParams : Nat → List (List Byte) → List Byte → List (List Byte) × List Byte
  | 0, ps, q => (ps, q)
  | n + 1, ps, q =>
    if q = [] ∨ q.head? = some (Char.byte ')') then (ps, q)
    else
      let pn := ppReadName q
      let ps := if ps.length < 8 then ps ++ [pn] else ps
      let q := ppExprSkip (q.drop pn.length)
      if q.head? = some (Char.byte ',') then ppReadParams n ps (ppExprSkip q.tail) else (ps, q)

/-- The macro that the text behind `#define` and its spaces defines. -/
def ppReadMacro (q : List Byte) : Macro :=
  let name := ppReadName q
  let q := q.drop name.length
  if q.head? = some (Char.byte '(') then
    let (ps, q) := ppReadParams q.length [] (ppExprSkip q.tail)
    let q := if q.head? = some (Char.byte ')') then q.tail else q
    ⟨name, true, ps, (ppExprSkip q).take 255⟩
  else ⟨name, false, [], (ppExprSkip q).take 255⟩

/-! ## Directives -/

/-- A directive with the text behind its keyword. -/
inductive PpDirective where
  | incl (q : List Byte)
  | define (q : List Byte)
  | undef (q : List Byte)
  | ifdef (q : List Byte)
  | ifndef (q : List Byte)
  | cond (q : List Byte)
  | elif (q : List Byte)
  | els | endif | other
  deriving DecidableEq

/-- A keyword that a space must follow, and the text from that space on. -/
def ppKeyword (word : String) (q : List Byte) : Option (List Byte) :=
  let r := q.drop (asciiBytes word).length
  if (asciiBytes word).isPrefixOf q && ppIsSpace (r.headD 0#8) then some r else none

/-- The tests of the text behind `#` and its spaces, in their order. -/
def ppDirective (q : List Byte) : PpDirective :=
  if let some q := ppKeyword "include" q then .incl q
  else if let some q := ppKeyword "define" q then .define q
  else if let some q := ppKeyword "undef" q then .undef q
  else if let some q := ppKeyword "ifdef" q then .ifdef q
  else if let some q := ppKeyword "ifndef" q then .ifndef q
  else if let some q := ppKeyword "if" q then .cond q
  else if let some q := ppKeyword "elif" q then .elif q
  else if (asciiBytes "else").isPrefixOf q then .els
  else if (asciiBytes "endif").isPrefixOf q then .endif
  else .other

/-- `active`: no open conditional is inactive. -/
def ppActive (conds : List PpCond) : Bool := conds.all PpCond.active

/-- The file named behind `#include`, and whether its name stands in quotes. -/
def ppIncludeName (q : List Byte) : Option (Bool × List Byte) :=
  let q := ppExprSkip q
  if q.head? = some doubleQuote then some (true, (q.tail.take 63).takeWhile (· ≠ doubleQuote))
  else if q.head? = some (Char.byte '<') then some (false, (q.tail.take 63).takeWhile (· ≠ Char.byte '>'))
  else none

/-- A conditional is opened; the arrays have 16 entries. -/
def PpState.open (s : PpState) (val : Bool) : Except PpFail PpState :=
  if s.conds.length < 16 then
    .ok { s with conds := ⟨ppActive s.conds && val, val⟩ :: s.conds, line := s.line + 1 }
  else .error .outOfRange

section

variable (env : PpEnv) (filename : List Byte) (outMax : Nat) (deepest : Bool)
  (sub : Preproc → List Byte → List Byte → Nat → Except PpFail (Preproc × List Byte))

/-- An active `#include`: `sub` is `pp_process` one level deeper, and the level is the `deepest` when there is none. -/
def ppInclude (s : PpState) (q : List Byte) : Except PpFail PpState :=
  match ppIncludeName q with
  | none => .ok { s with line := s.line + 1 }
  | some (quoted, name) =>
    if env.skipStdio && decide (name = asciiBytes "stdio.c") then .ok { s with line := s.line + 1 }
    else if deepest then .error .includeDepth
    else
      match env.load name filename quoted with
      | none => .error (.includeFail name)
      | some (text, path) => do
        let (pp, out) ← sub s.pp text path (outMax - s.out.length - 1)
        return { s with pp := pp, out := s.out ++ out, line := s.line + 1 }

/-- What a line with a directive does. -/
def ppRunDirective (s : PpState) : PpDirective → Except PpFail PpState
  | .incl q =>
    if ppActive s.conds then ppInclude env filename outMax deepest sub s q else .ok { s with line := s.line + 1 }
  | .define q =>
    .ok { s with pp := if ppActive s.conds then ppDefine s.pp (ppReadMacro (ppExprSkip q)) else s.pp, line := s.line + 1 }
  | .undef q =>
    .ok { s with pp := if ppActive s.conds then ppUndef s.pp (ppReadName (ppExprSkip q)) else s.pp, line := s.line + 1 }
  | .ifdef q => s.open (ppFindMacro s.pp (ppReadName (ppExprSkip q))).isSome
  | .ifndef q => s.open (ppFindMacro s.pp (ppReadName (ppExprSkip q))).isNone
  | .cond q => s.open (env.evalIf s.pp q)
  | .elif q =>
    match s.conds with
    | [] => .ok { s with line := s.line + 1 }
    | c :: conds =>
      let val := env.evalIf s.pp q
      let c := if c.taken then { c with active := false } else ⟨ppActive conds && val, val⟩
      .ok { s with conds := c :: conds, line := s.line + 1 }
  | .els =>
    match s.conds with
    | [] => .ok { s with line := s.line + 1 }
    | c :: conds =>
      let c := if c.taken then { c with active := false } else ⟨ppActive conds, true⟩
      .ok { s with conds := c :: conds, line := s.line + 1 }
  | .endif => .ok { s with conds := s.conds.tail, line := s.line + 1 }
  | .other => .ok { s with line := s.line + 1 }

/-- What an active line of text does. -/
def ppText (s : PpState) (linebuf : List Byte) : Except PpFail PpState :=
  match ppExpandText filename s.line s.pp 8 linebuf 1024 with
  | none => .error .outOfRange
  | some expanded =>
    if outMax ≤ s.out.length + expanded.length + 2 then .error .ovf
    else .ok { s with out := s.out ++ expanded ++ [Char.byte '\n'], line := s.line + 1 }

/-- What a line does. -/
def ppLine (s : PpState) (linebuf : List Byte) : Except PpFail PpState :=
  let q := ppExprSkip linebuf
  if q.head? = some (Char.byte '#') then
    ppRunDirective env filename outMax deepest sub s (ppDirective (ppExprSkip q.tail))
  else if ppActive s.conds then ppText filename outMax s linebuf
  else .ok { s with line := s.line + 1 }

/-- The characters of the next line, at most 1535 of them, and the text behind it. -/
def ppTakeLine (p : List Byte) : List Byte × List Byte :=
  let linebuf := (p.take 1535).takeWhile (· ≠ Char.byte '\n')
  let rest := p.drop linebuf.length
  (linebuf, if rest.head? = some (Char.byte '\n') then rest.tail else rest)

/-- The loop over the lines, for at most as many turns as the text has characters. -/
def ppLines : Nat → PpState → List Byte → Except PpFail PpState
  | 0, s, _ => .ok s
  | n + 1, s, p =>
    if p = [] then .ok s
    else do
      let s ← ppLine env filename outMax deepest sub s (ppTakeLine p).1
      ppLines n s (ppTakeLine p).2

end

/-- The mark of UTF-8 that may stand before the first line. -/
def byteOrderMark : List Byte := [0xEF#8, 0xBB#8, 0xBF#8]

/-- `pp_process`, where `levels` is `PP_MAX_DEPTH - depth`: the table and the text it leaves. -/
def ppProcess (env : PpEnv) : Nat → List Byte → Preproc → List Byte → Nat → Except PpFail (Preproc × List Byte)
  | 0, _, _, _, _ => .error .includeDepth
  | levels + 1, filename, pp, text, outMax => do
    let p := if levels = 8 && byteOrderMark.isPrefixOf text then text.drop 3 else text
    let sub := fun pp text path outMax => ppProcess env levels path pp text outMax
    let s ← ppLines env filename outMax (decide (levels = 0)) sub p.length ⟨pp, [], [], 1⟩ p
    if s.out.length < outMax then return (s.pp, s.out) else .error .outOfRange

end MiniOs32
