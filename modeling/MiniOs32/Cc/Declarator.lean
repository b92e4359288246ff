import MiniOs32.Cc.Expr

/-!
# The compiler: declarators

`parse_declarator` over the tokens of a declaration. The tokens of an array's size are one token here, with the value `eval_const`
gives them, and those a declarator does not look at are `other`. Beside it stand C's declarators, in any nesting, with the type C
gives them: `CFull` has the function types that `CType` lacks.
-/

namespace MiniOs32

/-- A token of a declaration. -/
inductive DeclTok where
  | star
  | cv
  | lparen
  | rparen
  | lbrack
  | rbrack
  | id (x : List Byte)
  | size (n : Int)
  | other
  deriving DecidableEq

/-- `skip_cv`. -/
def skipCv : List DeclTok → List DeclTok
  | .cv :: ts => skipCv ts
  | ts => ts

/-- A run of `*`, each with its qualifiers: how many there are, and what follows. -/
def takeStars : List DeclTok → Nat × List DeclTok
  | .star :: ts => ((takeCvStars ts).1 + 1, (takeCvStars ts).2)
  | ts => (0, ts)
where
  /-- The same behind a `*`, whose qualifiers are skipped. -/
  takeCvStars : List DeclTok → Nat × List DeclTok
    | .cv :: ts => takeCvStars ts
    | .star :: ts => ((takeCvStars ts).1 + 1, (takeCvStars ts).2)
    | ts => (0, ts)

/-- The parameter list of a function pointer, skipped to the parenthesis that closes it, or to the end of the source. -/
def skipParams : Nat → List DeclTok → List DeclTok
  | _, [] => []
  | d, .lparen :: ts => skipParams (d + 1) ts
  | d, .rparen :: ts => if d = 1 then ts else skipParams (d - 1) ts
  | d, _ :: ts => skipParams d ts

/-- The array suffixes, of which there are at most eight; a size that is left out is zero. -/
def takeDims (ndims : Nat) : List DeclTok → Option (List Nat × List DeclTok)
  | .lbrack :: .rbrack :: ts =>
    if 8 ≤ ndims then none else (takeDims (ndims + 1) ts).map fun r => (0 :: r.1, r.2)
  | .lbrack :: .size n :: .rbrack :: ts =>
    if n < 0 ∨ 8 ≤ ndims then none else (takeDims (ndims + 1) ts).map fun r => (n.toNat :: r.1, r.2)
  | .lbrack :: _ => none
  | ts => some ([], ts)

/-- A number of pointers to a type. -/
def CType.ptrs (t : CType) : Nat → CType
  | 0 => t
  | n + 1 => (t.ptrs n).ptr

/-- The end of `parse_declarator`: the suffixes, of which the last wraps the type first. -/
def takeSuffixes (base : CType) (x : List Byte) (ts : List DeclTok) : Option (List Byte × CType × List DeclTok) :=
  (takeDims 0 ts).map fun r => (x.take 31, r.1.foldr (fun n t => t.array n) base, r.2)

/-- `parse_declarator`: the name, the type and the tokens that are left; `none` where the compilation ends. -/
def parseDeclarator (base : CType) (ts : List DeclTok) : Option (List Byte × CType × List DeclTok) :=
  let base := base.ptrs (takeStars ts).1
  match (takeStars ts).2 with
  | .lparen :: ts =>
    match (takeStars ts).2 with
    | .id x :: .rparen :: ts' =>
      takeSuffixes (base.ptrs (takeStars ts).1) x (match ts' with
        | .lparen :: ts => skipParams 1 ts
        | ts => ts)
    | _ => none
  | .id x :: ts => takeSuffixes base x ts
  | _ => none

/-! ## C's declarators -/

/-- C's types over those of the compiler. -/
inductive CFull where
  | of (t : CType)
  | ptr (base : CFull)
  | array (base : CFull) (len : Nat)
  | func (ret : CFull) (params : List DeclTok)

/-- A list of tokens whose parentheses match. -/
def balanced : Nat → List DeclTok → Bool
  | d, [] => d == 0
  | d, .lparen :: ts => balanced (d + 1) ts
  | 0, .rparen :: _ => false
  | d + 1, .rparen :: ts => balanced d ts
  | d, _ :: ts => balanced d ts

/-- What stands behind a direct declarator: the size of an array, or the parameters of a function. -/
inductive Suffix where
  | array (len : Option Int)
  | func (params : List DeclTok) (closed : balanced 0 params = true)

/-- A declarator: stars with their qualifiers, then a name or a declarator in parentheses, then suffixes. -/
inductive CDeclarator where
  | name (stars : List Nat) (x : List Byte) (suffixes : List Suffix)
  | group (stars : List Nat) (inner : CDeclarator) (suffixes : List Suffix)

/-- The tokens of stars. -/
def starTokens (stars : List Nat) : List DeclTok := stars.flatMap fun n => .star :: List.replicate n .cv

/-- The tokens of a suffix. -/
def Suffix.tokens : Suffix → List DeclTok
  | array none => [.lbrack, .rbrack]
  | array (some n) => [.lbrack, .size n, .rbrack]
  | func ps _ => .lparen :: ps ++ [.rparen]

/-- The tokens of a declarator. -/
def CDeclarator.tokens : CDeclarator → List DeclTok
  | name stars x sfx => starTokens stars ++ .id x :: sfx.flatMap Suffix.tokens
  | group stars d sfx => starTokens stars ++ .lparen :: d.tokens ++ .rparen :: sfx.flatMap Suffix.tokens

/-- The type a suffix makes of the type of what it declares. -/
def Suffix.apply (t : CFull) : Suffix → CFull
  | array len => t.array (len.getD 0).toNat
  | func ps _ => t.func ps

/-- A number of pointers to a type. -/
def CFull.ptrs (t : CFull) : Nat → CFull
  | 0 => t
  | n + 1 => (t.ptrs n).ptr

/-- C's type of the name: the stars apply to the base type, then the suffixes from the last, and a declarator in parentheses reads on
from there. -/
def CDeclarator.type (base : CFull) : CDeclarator → CFull
  | name stars _ sfx => sfx.foldr (fun s t => s.apply t) (base.ptrs stars.length)
  | group stars d sfx => d.type (sfx.foldr (fun s t => s.apply t) (base.ptrs stars.length))

/-- The type in the compiler's own types, where it has no function types. -/
def CFull.plain : CFull → Option CType
  | of t => some t
  | ptr b => b.plain.map .ptr
  | array b n => b.plain.map (·.array n)
  | func _ _ => none

/-- The type with every function type replaced by the type the function returns. -/
def CFull.erase : CFull → CType
  | of t => t
  | ptr b => b.erase.ptr
  | array b n => b.erase.array n
  | func r _ => r.erase

/-- An array suffix behind a group in which there is a star. -/
def CDeclarator.StarGroupArray : CDeclarator → Prop
  | name _ _ _ => False
  | group _ d sfx => (match d with
      | name stars _ _ | group stars _ _ => stars ≠ []) ∧ ∃ len, .array len ∈ sfx

end MiniOs32
