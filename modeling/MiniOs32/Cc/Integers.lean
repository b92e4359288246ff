import MiniOs32.Cc.Code

/-!
# C's integer types

Integer expressions as C has them: over variables of the integer types and literals, with the suffix the compiler's tree does not
keep. `IntExpr.unsigned` is C's rule for the type of an expression after the integer promotions: `int` or `unsigned int`. The
trees are those `parse_expr` builds from such an expression.
-/

namespace MiniOs32

/-- The integer types. -/
def CType.isInteger : CType → Bool
  | .int _ | .short _ | .char _ | .bool => true
  | _ => false

/-- What an integer type is not. -/
theorem CType.isInteger_not {t : CType} (h : t.isInteger = true) :
    t.isFloat = false ∧ t.isPtr = false ∧ t.isRecord = false ∧ t.isArray = false := by
  cases t <;> first | exact ⟨rfl, rfl, rfl, rfl⟩ | simp [CType.isInteger] at h

/-- An operator on two integers takes both operands from the stack and leaves its result. -/
theorem binCode_int {T : CodeEnv} {op : BinOp} {lt rt : CType} (hl : lt.isInteger = true) (hr : rt.isInteger = true) :
    binCode T op lt rt = popBoth ++ intOp op (lt.isUnsigned || rt.isUnsigned) ++ pushEax := by
  obtain ⟨hlf, hlp, -⟩ := CType.isInteger_not hl
  obtain ⟨hrf, hrp, -⟩ := CType.isInteger_not hr
  simp [binCode, hlf, hlp, hrf, hrp]

/-- The types narrower than `int`. -/
def CType.isNarrow : CType → Bool
  | .bool | .char _ | .short _ => true
  | _ => false

/-- C's conversion of an `int` to a type: a `bool` is whether it is not zero, a narrower integer its low bits, extended. -/
def CType.convert (t : CType) (v : U32) : U32 :=
  match t with
  | .bool => if v = 0#32 then 0#32 else 1#32
  | .char u => Width.byte.extend u v
  | .short u => Width.word.extend u v
  | _ => v

/-- The values of a type, as `int`s. -/
def CType.inRange (t : CType) (v : U32) : Prop :=
  match t with
  | .bool => v = 0#32 ∨ v = 1#32
  | .char true => v.toNat < 2 ^ 8
  | .char false => -2 ^ 7 ≤ v.toInt ∧ v.toInt < 2 ^ 7
  | .short true => v.toNat < 2 ^ 16
  | .short false => -2 ^ 15 ≤ v.toInt ∧ v.toInt < 2 ^ 15
  | _ => True

/-- A value of the type is what C converts it to, and no other is. -/
theorem convert_eq_iff {t : CType} {v : U32} (ht : t.isNarrow = true) : t.convert v = v ↔ t.inRange v := by
  cases t with
  | bool =>
    simp only [CType.convert, CType.inRange]
    by_cases h0 : v = 0#32
    · simp [h0]
    · simp [h0, eq_comm]
  | char u =>
    cases u with
    | true => exact zext_eq_iff v (k := 8) (by decide)
    | false => exact sext_eq_iff v (k := 7) (by decide)
  | short u =>
    cases u with
    | true => exact zext_eq_iff v (k := 16) (by decide)
    | false => exact sext_eq_iff v (k := 15) (by decide)
  | _ => cases ht

/-- So it is for an `int`, which holds every value. -/
theorem convert_eq_of_inRange {t : CType} {v : U32} (ht : t.isInteger = true) : t.inRange v ↔ t.convert v = v := by
  cases t with
  | int u => simp [CType.inRange, CType.convert]
  | bool => exact (convert_eq_iff rfl).symm
  | short u | char u => exact (convert_eq_iff rfl).symm
  | _ => cases ht

/-- An integer literal: its value, whether it has a `u` suffix, and whether it is written in hexadecimal. A decimal literal without
a suffix fits an `int`. -/
structure IntLit where
  value : U32
  suffix : Bool
  hex : Bool
  fits : suffix = true ∨ hex = true ∨ value.msb = false

/-- The literal is an `unsigned int`: it has the suffix, or it does not fit an `int`. -/
def IntLit.unsigned (n : IntLit) : Bool := n.suffix || n.value.msb

/-- An integer expression. -/
inductive IntExpr where
  | lit (n : IntLit)
  | var (x : List Byte)
  | unary (op : UnaryOp) (a : IntExpr)
  | bin (op : BinOp) (a b : IntExpr)
  | logical (or : Bool) (a b : IntExpr)

namespace IntExpr

/-- The tree of an expression. The lexer passes over the suffix of a literal. -/
def node : IntExpr → Node
  | lit n => .num n.value
  | var x => .var x
  | unary op a => .unary op a.node
  | bin op a b => .bin op a.node b.node
  | logical or a b => .logical or a.node b.node

/-- The expression and its operands at every depth. -/
def subs : IntExpr → List IntExpr
  | lit n => [lit n]
  | var x => [var x]
  | unary op a => unary op a :: a.subs
  | bin op a b => bin op a b :: (a.subs ++ b.subs)
  | logical or a b => logical or a b :: (a.subs ++ b.subs)

theorem self_mem_subs (e : IntExpr) : e ∈ e.subs := by
  cases e <;> simp [subs]

/-- Every variable is declared, with an integer type. -/
def Declared (T : CodeEnv) : IntExpr → Prop
  | lit _ => True
  | var x => ∃ s, T.findSym x = some s ∧ s.type.isInteger = true
  | unary _ a => a.Declared T
  | bin _ a b | logical _ a b => a.Declared T ∧ b.Declared T

/-- The type a variable is declared with. -/
def varType (T : CodeEnv) (x : List Byte) : CType := ((T.findSym x).map (·.type)).getD .void

/-- C's type of the value after the integer promotions: `unsigned int`, else `int`. Every type narrower than `int` promotes to
`int`; a shift has its left operand's type, a comparison `int`, and the other operators the common type of both. -/
def unsigned (T : CodeEnv) : IntExpr → Bool
  | lit n => n.unsigned
  | var x => decide (varType T x = .int true)
  | unary .not _ => false
  | unary _ a => a.unsigned T
  | bin op a b =>
    match op with
    | .shl | .shr => a.unsigned T
    | .lt | .le | .gt | .ge | .eq | .ne => false
    | _ => a.unsigned T || b.unsigned T
  | logical _ _ _ => false

/-- The signedness in which C does the operation: that of the left operand for a shift, else that of the common type. -/
def computesUnsigned (T : CodeEnv) (op : BinOp) (a b : IntExpr) : Bool :=
  match op with
  | .shl | .shr => a.unsigned T
  | _ => a.unsigned T || b.unsigned T

/-- The code generated for a node, in any state of the label counter, follows C: the type of its value is C's, and the operation
is done on the two operands in the signedness of C. -/
def Follows (T : CodeEnv) (e : IntExpr) : Prop :=
  match e with
  | lit _ | var _ => True
  | unary _ _ | logical _ _ _ => ∀ k t c T', gen { T with labels := k } .value e.node = some (t, c, T') → t = .int (e.unsigned T)
  | bin op a b => ∀ k t c T', gen { T with labels := k } .value e.node = some (t, c, T') →
      t = .int (e.unsigned T) ∧ ∃ operands, c = operands ++ ops (popBoth ++ intOp op (computesUnsigned T op a b) ++ pushEax)

/-! ## Where the compiler departs -/

/-- A variable of type `unsigned short`, which the compiler does not promote. -/
def isUShort (T : CodeEnv) : IntExpr → Bool
  | var x => decide (varType T x = .short true)
  | _ => false

/-- A literal. -/
def isLit : IntExpr → Bool
  | lit _ => true
  | _ => false

/-- An operand that counts as unsigned: an `unsigned short` variable, or what C makes `unsigned int`, unless it is a literal. -/
def countsUnsigned (T : CodeEnv) (e : IntExpr) : Bool := e.isUShort T || (e.unsigned T && !e.isLit)

/-- The condition on a node. Where the operands' signedness matters, one of them counts as unsigned if and only if C makes one
`unsigned int`: for a shift, if and only if the left one is. -/
def Kept (T : CodeEnv) : IntExpr → Prop
  | lit _ | var _ | logical _ _ _ | unary .not _ => True
  | unary _ a => a.countsUnsigned T = a.unsigned T
  | bin op a b => op = .eq ∨ op = .ne ∨ (a.countsUnsigned T || b.countsUnsigned T) = computesUnsigned T op a b

instance (T : CodeEnv) : ∀ e : IntExpr, Decidable (e.Kept T)
  | lit _ | var _ | logical _ _ _ | unary .not _ => .isTrue trivial
  | unary .neg _ | unary .compl _ => inferInstanceAs (Decidable (_ = _))
  | bin _ _ _ => inferInstanceAs (Decidable (_ ∨ _ ∨ _))

end IntExpr

end MiniOs32
