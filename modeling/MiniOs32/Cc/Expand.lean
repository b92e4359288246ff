import MiniOs32.Cc.Preproc

/-!
# The compiler: expansion of macros

`pp_expand_text` copies a text into a buffer of `out_max` bytes and replaces the names of macros on the way. It calls itself on
the arguments of a macro and on what a macro is replaced by, with the depth lowered by one; at depth 0 it only copies. A text is
the list of its bytes before the NUL. A write outside an array is `none`, whatever the compiled code would do next.
-/

namespace MiniOs32

/-- The character that opens and closes a string literal. -/
def doubleQuote : Byte := 34#8

/-- The character that opens and closes a character literal. -/
def singleQuote : Byte := 39#8

/-- The character that takes away the meaning of the next one in a literal. -/
def backslash : Byte := 92#8

/-! ## Writes into a buffer -/

/-- Bytes written at `out_len` without a look at `out_max`. -/
def ppPut (outMax : Nat) (out bs : List Byte) : Option (List Byte) :=
  if out.length + bs.length ≤ outMax then some (out ++ bs) else none

/-- The loops that copy as long as `out_len + 1 < out_max`. -/
def ppFill (outMax : Nat) (out bs : List Byte) : List Byte := out ++ bs.take (outMax - 1 - out.length)

/-- The NUL behind the text, which is then what the function returns. -/
def ppClose (outMax : Nat) (out : List Byte) : Option (List Byte) := if out.length < outMax then some out else none

/-- The text of a line number. -/
def ppLineText (line : Nat) : List Byte := (Nat.toDigits 10 line).map Char.byte

/-! ## Arguments and their substitution -/

/-- The loop that gathers the arguments into `args[8][128]`, from `depthp` open parentheses, with the finished rows `done` and
the characters `cur` of row `ac`. The last row is written over when there are more than eight arguments. The text behind the
closing parenthesis is returned with them. -/
def ppCollect : Nat → List (List Byte) → List Byte → List Byte → Option (List (List Byte) × List Byte)
  | _, done, cur, [] => if cur.length < 128 then some (done ++ [cur], []) else none
  | depthp, done, cur, ch :: rest =>
    if ch = Char.byte '(' then
      if cur.length < 128 then ppCollect (depthp + 1) done (cur ++ [ch]) rest else none
    else if ch = Char.byte ')' then
      if depthp = 1 then if cur.length < 128 then some (done ++ [cur], rest) else none
      else if cur.length < 128 then ppCollect (depthp - 1) done (cur ++ [ch]) rest else none
    else if ch = Char.byte ',' ∧ depthp = 1 then
      if cur.length < 128 then ppCollect depthp (if done.length + 1 < 8 then done ++ [cur] else done) [] rest else none
    -- from 120 characters on a NUL is written behind each
    else if cur.length + 1 < 128 then ppCollect depthp done (cur ++ [ch]) rest else none

/-- The loop that copies a body into `temp[512]` and replaces its parameters by the expanded arguments `reps`. -/
def ppSubst (params reps : List (List Byte)) : Nat → List Byte → List Byte → List Byte
  | 0, temp, _ => temp
  | _, temp, [] => temp
  | n + 1, temp, c :: body =>
    if temp.length + 1 < 512 then
      if ppIsAlpha c then
        let tn := ppReadName (c :: body)
        let text := match params.findIdx? fun p => decide (tn = p) with
          | some a => reps.getD a []
          | none => tn
        ppSubst params reps n (ppFill 512 temp text) ((c :: body).drop tn.length)
      else ppSubst params reps n (temp ++ [c]) body
    else temp

/-! ## The loop over the text -/

/-- `in_str` and `in_chr`. -/
inductive TextMode where
  | code | str | chr
  deriving DecidableEq

/-- The variables of the loop: what has been written, and the text at `in + i`. -/
structure Expansion where
  out : List Byte
  mode : TextMode
  rest : List Byte
  deriving DecidableEq

/-- A turn of the loop ends it or goes on. -/
inductive ExpandTurn where
  | stop (out : List Byte)
  | more (s : Expansion)
  deriving DecidableEq

/-- The turn inside a literal: a character behind a backslash is written with it, under the check made for one. -/
def ppLiteralTurn (outMax : Nat) (quote : Byte) (s : Expansion) (c : Byte) (rest : List Byte) : Option ExpandTurn :=
  if outMax ≤ s.out.length + 1 then some (.stop s.out)
  else
    match rest with
    | e :: rest' =>
      if c = backslash then (ppPut outMax (s.out ++ [c]) [e]).map fun out => .more ⟨out, s.mode, rest'⟩
      else some (.more ⟨s.out ++ [c], if c = quote then .code else s.mode, rest⟩)
    | [] => some (.more ⟨s.out ++ [c], if c = quote then .code else s.mode, rest⟩)

section

variable (file : List Byte) (line : Nat) (pp : Preproc) (sub : List Byte → Nat → Option (List Byte))

/-- A use of a function-like macro, from behind its opening parenthesis: its replacement, expanded into `expanded[512]`, and the
text behind the use. `sub` is `pp_expand_text` one level deeper. -/
def ppCall (m : Macro) (text : List Byte) : Option (List Byte × List Byte) := do
  let (args, after) ← ppCollect 1 [] [] text
  let reps ← args.mapM fun a => sub a 256
  let expanded ← sub (ppSubst m.params reps m.body.length [] m.body) 512
  return (expanded, after)

/-- The turn at a name. -/
def ppNameTurn (outMax : Nat) (out text : List Byte) : Option ExpandTurn :=
  let name := ppReadName text
  let after := text.drop name.length
  if name = asciiBytes "__LINE__" then some (.more ⟨ppFill outMax out (ppLineText line), .code, after⟩)
  else if name = asciiBytes "__FILE__" then
    let quote := [doubleQuote]
    some (.more ⟨ppFill outMax (ppFill outMax (ppFill outMax out quote) file) quote, .code, after⟩)
  else
    match ppFindMacro pp name with
    | none => some (.more ⟨ppFill outMax out name, .code, after⟩)
    | some m =>
      if m.isFunc then
        if after.head? = some (Char.byte '(') then
          (ppCall sub m after.tail).map fun r => .more ⟨ppFill outMax out r.1, .code, r.2⟩
        else some (.more ⟨ppFill outMax out name, .code, after⟩)
      else (sub m.body 512).map fun expanded => .more ⟨ppFill outMax out expanded, .code, after⟩

/-- A turn of the loop. -/
def ppExpandTurn (outMax : Nat) (s : Expansion) : Option ExpandTurn :=
  match s.rest with
  | [] => some (.stop s.out)
  | c :: rest =>
    match s.mode with
    | .str => ppLiteralTurn outMax doubleQuote s c rest
    | .chr => ppLiteralTurn outMax singleQuote s c rest
    | .code =>
      if c = doubleQuote then (ppPut outMax s.out [c]).map fun out => .more ⟨out, .str, rest⟩
      else if c = singleQuote then (ppPut outMax s.out [c]).map fun out => .more ⟨out, .chr, rest⟩
      else if ppIsAlpha c then ppNameTurn file line pp sub outMax s.out s.rest
      else if outMax ≤ s.out.length + 1 then some (.stop s.out)
      else some (.more ⟨s.out ++ [c], .code, rest⟩)

/-- The loop, for at most as many turns as the text has characters: each turn reads one at least. -/
def ppExpandLoop (outMax : Nat) : Nat → Expansion → Option (List Byte)
  | 0, s => ppClose outMax s.out
  | n + 1, s => do
    match ← ppExpandTurn file line pp sub outMax s with
    | .stop out => ppClose outMax out
    | .more s => ppExpandLoop outMax n s

end

/-- `pp_expand_text`. -/
def ppExpandText (file : List Byte) (line : Nat) (pp : Preproc) : Nat → List Byte → Nat → Option (List Byte)
  | 0, text, outMax => ppClose outMax (ppFill outMax [] text)
  | depth + 1, text, outMax =>
    ppExpandLoop file line pp (ppExpandText file line pp depth) outMax text.length ⟨[], .code, text⟩

end MiniOs32
