import MiniOs32.Cc.Preproc

/-!
# Conditions and their C value

The expressions `#if` and `#elif` may hold, as the trees C reads them as, with the spaces their text has in front of each token.
`CValue` is the value C gives them: 32-bit arithmetic, `&&` and `||` with the value 0 or 1, an undefined name 0, a macro the
value of its body. Where C leaves the value undefined there is none.
-/

namespace MiniOs32

/-- Spaces. -/
def Spaces : Type := { s : List Byte // ∀ c ∈ s, ppIsSpace c = true }

/-- No spaces. -/
def Spaces.none : Spaces := ⟨[], by simp⟩

/-- A name: a letter or `_`, then letters, digits and `_`. -/
def CName : Type := { s : List Byte // ppIsAlpha (s.headD 0#8) = true ∧ ∀ c ∈ s, ppIsAlnum c = true }

/-- An integer literal: decimal, without a leading zero, or hexadecimal. -/
inductive CLiteral where
  | dec (digits : List Byte) (ne : digits ≠ []) (ok : ∀ c ∈ digits, ppIsDigit c = true)
      (lead : digits.headD 0#8 = Char.byte '0' → digits.length = 1)
  | hex (upperX : Bool) (digits : List Byte) (ne : digits ≠ []) (ok : ∀ c ∈ digits, (ppHexDigit c).isSome = true)

/-- How a literal is written. -/
def CLiteral.text : CLiteral → List Byte
  | .dec digits _ _ _ => digits
  | .hex upperX digits _ _ => Char.byte '0' :: Char.byte (if upperX then 'X' else 'x') :: digits

/-- The value of a literal as an `int`. -/
def CLiteral.value : CLiteral → U32
  | .dec digits _ _ _ => BitVec.ofNat 32 (digits.foldl (fun v c => v * 10 + (c.toNat - 48)) 0)
  | .hex _ digits _ _ => BitVec.ofNat 32 (digits.foldl (fun v c => v * 16 + ((ppHexDigit c).getD 0#8).toNat) 0)

/-- An expression, with the spaces in front of its tokens. -/
inductive CondExpr where
  | num (sp : Spaces) (lit : CLiteral)
  | name (sp : Spaces) (id : CName)
  /-- `defined(X)`. -/
  | definedIn (sp sp1 sp2 : Spaces) (id : CName) (sp3 : Spaces)
  /-- `defined X`. -/
  | definedAt (sp sp1 : Spaces) (id : CName)
  | paren (sp : Spaces) (e : CondExpr) (sp1 : Spaces)
  | un (sp : Spaces) (op : UnOp) (e : CondExpr)
  | bin (a : CondExpr) (sp : Spaces) (op : BinOp) (b : CondExpr)
  | land (a : CondExpr) (sp : Spaces) (b : CondExpr)
  | lor (a : CondExpr) (sp : Spaces) (b : CondExpr)

/-- The text of an expression. -/
def CondExpr.text : CondExpr → List Byte
  | .num sp lit => sp.val ++ lit.text
  | .name sp id => sp.val ++ id.val
  | .definedIn sp sp1 sp2 id sp3 =>
    sp.val ++ asciiBytes "defined" ++ sp1.val ++ asciiBytes "(" ++ sp2.val ++ id.val ++ sp3.val ++ asciiBytes ")"
  | .definedAt sp sp1 id => sp.val ++ asciiBytes "defined" ++ sp1.val ++ id.val
  | .paren sp e sp1 => sp.val ++ asciiBytes "(" ++ e.text ++ sp1.val ++ asciiBytes ")"
  | .un sp op e => sp.val ++ op.text ++ e.text
  | .bin a sp op b => a.text ++ sp.val ++ op.text ++ b.text
  | .land a sp b => a.text ++ sp.val ++ asciiBytes "&&" ++ b.text
  | .lor a sp b => a.text ++ sp.val ++ asciiBytes "||" ++ b.text

/-- How loosely a binary operator binds: 1 for `*`, `/` and `%`, up to 8 for `|`. -/
def BinOp.level : BinOp → Nat
  | .mul | .div | .mod => 1
  | .add | .sub => 2
  | .shl | .shr => 3
  | .le | .ge | .lt | .gt => 4
  | .eq | .ne => 5
  | .band => 6
  | .bxor => 7
  | .bor => 8

/-- How loosely an expression binds. -/
def CondExpr.level : CondExpr → Nat
  | .bin _ _ op _ => op.level
  | .land _ _ _ => 9
  | .lor _ _ _ => 10
  | _ => 0

/-- The text is read as this tree: an operand that binds more loosely than its place allows stands in parentheses. -/
def CondExpr.WellFormed : CondExpr → Prop
  | .num _ _ => True
  | .name _ id => id.val ≠ asciiBytes "defined"
  | .definedIn _ _ _ _ _ => True
  | .definedAt _ sp1 _ => sp1.val ≠ []
  | .paren _ e _ => e.WellFormed
  | .un _ _ e => e.WellFormed ∧ e.level = 0
  | .bin a _ op b => a.WellFormed ∧ b.WellFormed ∧ a.level ≤ op.level ∧ b.level < op.level
  | .land a _ b => a.WellFormed ∧ b.WellFormed ∧ a.level ≤ 9 ∧ b.level < 9
  | .lor a _ b => a.WellFormed ∧ b.WellFormed ∧ a.level ≤ 10 ∧ b.level < 10

/-! ## The C value -/

/-- The value of a binary operator, where C defines it: no division by zero, no quotient that overflows, a shift by 0 to 31. -/
def BinOp.cApply : BinOp → U32 → U32 → Option U32
  | .mul, v, r => some (v * r)
  | .div, v, r => if r = 0#32 ∨ (v = BitVec.intMin 32 ∧ r = -1#32) then none else some (v.sdiv r)
  | .mod, v, r => if r = 0#32 ∨ (v = BitVec.intMin 32 ∧ r = -1#32) then none else some (v.srem r)
  | .add, v, r => some (v + r)
  | .sub, v, r => some (v - r)
  | .shl, v, r => if r.toNat < 32 then some (v <<< r.toNat) else none
  | .shr, v, r => if r.toNat < 32 then some (v.sshiftRight r.toNat) else none
  | .le, v, r => some (truth (v.toInt ≤ r.toInt))
  | .ge, v, r => some (truth (v.toInt ≥ r.toInt))
  | .lt, v, r => some (truth (v.toInt < r.toInt))
  | .gt, v, r => some (truth (v.toInt > r.toInt))
  | .eq, v, r => some (truth (v = r))
  | .ne, v, r => some (truth (v ≠ r))
  | .band, v, r => some (v &&& r)
  | .bxor, v, r => some (v ^^^ r)
  | .bor, v, r => some (v ||| r)

/-- The body of a macro is an integer literal, possibly behind a `-`. -/
structure LiteralBody (body : List Byte) (v : U32) : Prop where
  ok : ∃ (sp : Spaces) (neg : Bool) (lit : CLiteral) (sp1 : Spaces),
    body = sp.val ++ (if neg then asciiBytes "-" else []) ++ lit.text ++ sp1.val ∧ v = if neg then -lit.value else lit.value

/-- The C value of an expression, with the macros of `pp`. A name that is not defined is 0. An object-like macro is replaced by its
body, in which its own name is not replaced again; the rule is for a body that stands where an operand does. -/
inductive CValue : Preproc → CondExpr → U32 → Prop
  | num (pp : Preproc) (sp : Spaces) (lit : CLiteral) : CValue pp (.num sp lit) lit.value
  | undef {pp : Preproc} (sp : Spaces) (id : CName) (h : ∀ m ∈ pp, m.name ≠ id.val) : CValue pp (.name sp id) 0#32
  | replaced {pp : Preproc} (sp : Spaces) (id : CName) {m : Macro} (hm : ppFindMacro pp id.val = some m) (hobj : m.isFunc = false)
      {e : CondExpr} {sp1 : Spaces} {v : U32} (hbody : m.body = e.text ++ sp1.val) (hwf : e.WellFormed) (h0 : e.level = 0) :
      CValue (pp.filter fun m => decide (m.name ≠ id.val)) e v → CValue pp (.name sp id) v
  | definedIn (pp : Preproc) (sp sp1 sp2 : Spaces) (id : CName) (sp3 : Spaces) :
      CValue pp (.definedIn sp sp1 sp2 id sp3) (truth (pp.any fun m => decide (m.name = id.val)))
  | definedAt (pp : Preproc) (sp sp1 : Spaces) (id : CName) :
      CValue pp (.definedAt sp sp1 id) (truth (pp.any fun m => decide (m.name = id.val)))
  | paren {pp : Preproc} (sp : Spaces) {e : CondExpr} (sp1 : Spaces) {v : U32} : CValue pp e v → CValue pp (.paren sp e sp1) v
  | un {pp : Preproc} (sp : Spaces) (op : UnOp) {e : CondExpr} {v : U32} : CValue pp e v → CValue pp (.un sp op e) (op.apply v)
  | bin {pp : Preproc} {a : CondExpr} (sp : Spaces) (op : BinOp) {b : CondExpr} {v r w : U32} (h : op.cApply v r = some w) :
      CValue pp a v → CValue pp b r → CValue pp (.bin a sp op b) w
  | landStop {pp : Preproc} {a : CondExpr} (sp : Spaces) (b : CondExpr) : CValue pp a 0#32 → CValue pp (.land a sp b) 0#32
  | land {pp : Preproc} {a : CondExpr} (sp : Spaces) {b : CondExpr} {v r : U32} (h : v ≠ 0#32) :
      CValue pp a v → CValue pp b r → CValue pp (.land a sp b) (truth (r ≠ 0#32))
  | lorStop {pp : Preproc} {a : CondExpr} (sp : Spaces) (b : CondExpr) {v : U32} (h : v ≠ 0#32) :
      CValue pp a v → CValue pp (.lor a sp b) 1#32
  | lor {pp : Preproc} {a : CondExpr} (sp : Spaces) {b : CondExpr} {r : U32} :
      CValue pp a 0#32 → CValue pp b r → CValue pp (.lor a sp b) (truth (r ≠ 0#32))

end MiniOs32
