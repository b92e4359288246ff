import MiniOs32.Cc.Expr

/-!
# The compiler: the type rules

The types of an expression, stated without either of the compiler's two passes: `Typed.own`, the type of the object or
function result the expression names, as it was declared, and `Typed.val`, the type of the value it computes. The rules are
C's, in the dialect the code generator compiles: `short` computes as it is, a call through a variable returns `int`, and so does a call
of a function without a result. `?:` takes the types of its operands themselves. On a tree the compiler refuses the types mean
nothing.

`Inferable` is the condition on one node under which reading the type off the left operand, as `infer_type` does, is right.
-/

namespace MiniOs32

namespace CType

/-- C's integer promotions. -/
def promoted : CType → CType
  | short _ | char _ | bool => int false
  | t => t

/-- A type up to integer promotion and array decay. -/
def converted (t : CType) : CType := t.decay.promoted

/-- What a pointer or an array points to. -/
def elem : CType → CType
  | ptr b | array b _ => b
  | _ => void

end CType

/-- The type of a binary operator's value, from the promoted types of its operands. -/
def binType (op : BinOp) (lt rt : CType) : CType :=
  if op.isCmp then .int false
  else if op.isBit then .int (lt.isUnsigned || rt.isUnsigned)
  else if (op = .add ∨ op = .sub) ∧ lt.isPtr = true ∧ rt.isNumeric = true ∧ rt.isFloat = false then lt
  else if op = .add ∧ rt.isPtr = true ∧ lt.isNumeric = true ∧ lt.isFloat = false then rt
  else if op = .sub ∧ lt.isPtr = true ∧ rt.isPtr = true then .int false
  else if lt.isFloat || rt.isFloat then .float
  else .int (lt.isUnsigned || rt.isUnsigned || lt.isPtr || rt.isPtr)

/-- The type of a unary operator's value. -/
def unaryType (op : UnaryOp) (t : CType) : CType :=
  match op with
  | .not => .int false
  | .neg | .compl => if t.isFloat then .float else .int t.isUnsigned

/-- The types of an expression: the declared one and that of its value. -/
structure Typed where
  own : CType
  val : CType

/-- An expression whose value is loaded from an object. -/
def Typed.loaded (t : CType) : Typed := ⟨t, t.decay.promote⟩

/-- An expression that is a value of its type. -/
def Typed.value (t : CType) : Typed := ⟨t, t⟩

/-- The type of the object an expression names; a function's name names no object. -/
def Env.objType (env : Env) (e : Node) (own : CType) : CType :=
  match e with
  | .var x => (env.findVar x).getD .void
  | _ => own

/-- The type a call is declared to return. -/
def Env.retType (env : Env) (x : List Byte) : CType := ((env.findFunc x).map (·.ret)).getD (.int false)

/-- A call that leaves an `int` whatever is declared. -/
def Env.callsInt (env : Env) (callee : Node) : Bool :=
  decide (callee.name = asciiBytes "va_start") || decide (callee.name = asciiBytes "va_end") || isSyscall callee.name ||
    env.indirect callee

/-- The type rules. -/
def typed (env : Env) : Node → Typed
  | .num _ => .value (.int false)
  | .fnum _ => .value .float
  | .str _ => .value (.ptr (.char false))
  | .var x =>
    match env.findVar x with
    | some t => .loaded t
    | none => .value (.ptr .void)
  | .bin op a b => .value (binType op (typed env a).val.decay.promote (typed env b).val.decay.promote)
  | .logical _ _ _ => .value (.int false)
  | .assign a _ => ⟨env.objType a (typed env a).own, (env.objType a (typed env a).own).promote⟩
  | .call callee _ =>
    ⟨env.retType callee.name, if env.callsInt callee then .int false else callType (env.retType callee.name)⟩
  | .cast t _ => .value t
  | .unary op a => .value (unaryType op (typed env a).val)
  | .addr e => .value (.ptr (env.objType e (typed env e).own))
  | .deref e => ⟨(typed env e).val.elem, (typed env e).val.elem.promote⟩
  | .index e _ => .loaded (typed env e).val.elem
  | .dot e x => .loaded ((env.findField (env.objType e (typed env e).own) x).getD .void)
  | .arrow e x => .loaded ((env.findField (typed env e).val.elem x).getD .void)
  | .vaArg _ t => .value t
  | .tern _ a b => .value (ternaryCommonType (typed env a).own (typed env b).own)

/-- An object with a type that is not `void` is what its name was declared as. -/
theorem Env.objType_eq_own {env : Env} {a : Node} (h : env.objType a (typed env a).own ≠ .void) :
    env.objType a (typed env a).own = (typed env a).own := by
  cases a
  case var x =>
    cases hv : env.findVar x with
    | none => simp [Env.objType, hv] at h
    | some s => simp [Env.objType, hv, typed, Typed.loaded]
  all_goals rfl

/-- The node's value is an `int` with the signedness of the left operand's declared type. -/
def Env.ReadsLeft (env : Env) (n a : Node) : Prop := (typed env n).val.converted = .int (typed env a).own.isUnsigned

/-- The condition on a node: an operator or an assignment yields an `int` as unsigned as its left operand was declared; `*` and
`->` are not applied to an array; `&` is not applied to a variable that shares its name with a function; and a call's declared
result is the one it leaves. -/
def Env.Inferable (env : Env) : Node → Prop
  | .bin op a b => env.ReadsLeft (.bin op a b) a
  | .logical _ a _ => (typed env a).own.isUnsigned = false
  | .assign a b => env.ReadsLeft (.assign a b) a
  | .unary op a => env.ReadsLeft (.unary op a) a
  | .deref e | .arrow e _ => (typed env e).own.isArray = false
  | .addr (.var x) => ∀ t f, env.findVar x = some t → env.findFunc x = some f → t = .void
  | .call callee _ =>
    if env.callsInt callee then (env.retType callee.name).converted = .int false else env.retType callee.name ≠ .void
  | _ => True

/-- The operands code is generated for: not the arguments of `va_start` and `va_end`. -/
def Node.operands : Node → List Node
  | .bin _ a b | .logical _ a b | .assign a b | .index a b => [a, b]
  | .cast _ a | .unary _ a | .addr a | .deref a | .dot a _ | .arrow a _ => [a]
  | .tern c a b => [c, a, b]
  | .call callee args =>
    if callee.name = asciiBytes "va_start" ∨ callee.name = asciiBytes "va_end" then [] else callee :: args
  | .num _ | .fnum _ | .str _ | .var _ | .vaArg _ _ => []

/-- An expression and its operands at every depth. -/
inductive Node.Contains : Node → Node → Prop
  | self (n : Node) : n.Contains n
  | operand {n c m : Node} : c ∈ n.operands → c.Contains m → n.Contains m

/-- The tables later on in the same expression: calls of names nothing declares have added functions. -/
inductive Env.Later (env : Env) : Env → Prop
  | here : env.Later env
  | called {e : Env} {x : List Byte} : env.Later e → e.findVar x = none → e.findFunc x = none → env.Later (e.addFunc x)

/-- If code is generated for the tree, `infer_type` gives the type of its value, up to integer promotion and array decay. -/
def Env.InferAgrees (env : Env) (n : Node) : Prop :=
  ∀ t env', genExpr env n = some (t, env') → ∃ s, inferType env n = some s ∧ s.converted = t.converted

end MiniOs32
