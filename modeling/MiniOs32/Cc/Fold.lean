import MiniOs32.Cc.Integers

/-!
# The compiler: constant expressions

`eval_const` folds a tree of literals and operators in the compiler's own `int` arithmetic, which wraps and whose division traps
where the quotient does not fit. Beside it stands what the same tree means by the types the code generator gives it: the word that
the code for it leaves on the stack.
-/

namespace MiniOs32

/-- The most negative `int`. -/
def intMin : U32 := 0x80000000#32

/-! ## Folding -/

/-- What becomes of a call of `eval_const`: it gives up and returns zero, the compiler traps, or there is a value. -/
inductive FoldResult where
  | refused
  | trap
  | value (v : U32)
  deriving DecidableEq

/-- What follows a value. -/
def FoldResult.bind (r : FoldResult) (f : U32 → FoldResult) : FoldResult :=
  match r with
  | .value v => f v
  | r => r

/-- A truth value. -/
def boolWord (b : Bool) : U32 := if b then 1#32 else 0#32

/-- The unary operators of `eval_const`. -/
def UnaryOp.fold (op : UnaryOp) (a : U32) : U32 :=
  match op with
  | .neg => -a
  | .not => boolWord (decide (a = 0#32))
  | .compl => ~~~a

/-- A division of `eval_const`, by zero or of `INT_MIN` by -1 without a value. -/
def foldDiv (quot a b : U32) : FoldResult := if b = 0#32 then .refused else if a = intMin ∧ b = -1#32 then .trap else .value quot

/-- The binary operators of `eval_const`, on `int`s. A shift takes the low five bits of the count, as the processor does. -/
def BinOp.fold (op : BinOp) (a b : U32) : FoldResult :=
  match op with
  | .add => .value (a + b)
  | .sub => .value (a - b)
  | .mul => .value (a * b)
  | .div => foldDiv (a.sdiv b) a b
  | .mod => foldDiv (a.srem b) a b
  | .shl => .value (a <<< (b.toNat % 32))
  | .shr => .value (a.sshiftRight (b.toNat % 32))
  | .band => .value (a &&& b)
  | .bor => .value (a ||| b)
  | .bxor => .value (a ^^^ b)
  | .lt => .value (boolWord (a.slt b))
  | .le => .value (boolWord (a.sle b))
  | .gt => .value (boolWord (b.slt a))
  | .ge => .value (boolWord (b.sle a))
  | .eq => .value (boolWord (decide (a = b)))
  | .ne => .value (boolWord (decide (a ≠ b)))

/-- `eval_const`. A cast is passed over. -/
def evalConst : Node → FoldResult
  | .num v => .value v
  | .cast _ a => evalConst a
  | .unary op a => (evalConst a).bind fun a => .value (op.fold a)
  | .tern c a b => (evalConst c).bind fun c => if c ≠ 0#32 then evalConst a else evalConst b
  | .logical or a b =>
    (evalConst a).bind fun x =>
      if or = false ∧ x = 0#32 then .value 0#32
      else if or = true ∧ x ≠ 0#32 then .value 1#32
      else (evalConst b).bind fun y => .value (boolWord (decide (y ≠ 0#32)))
  | .bin op a b => (evalConst a).bind fun a => (evalConst b).bind fun b => op.fold a b
  | _ => .refused

/-! ## Meaning -/

/-- A tree of literals, casts to integer types and operators, in which no divisor is a literal zero: that ends the compilation. -/
def Node.isConst : Node → Bool
  | .num _ => true
  | .cast ty a => ty.isInteger && a.isConst
  | .unary _ a => a.isConst
  | .tern c a b => c.isConst && a.isConst && b.isConst
  | .logical _ a b => a.isConst && b.isConst
  | .bin op a b => a.isConst && b.isConst && !(decide (op = .div ∨ op = .mod) && b.isZero)
  | _ => false

theorem Node.isConst_tern {c a b : Node} :
    (tern c a b).isConst = true ↔ (c.isConst = true ∧ a.isConst = true) ∧ b.isConst = true := by
  simp only [isConst, Bool.and_eq_true]

theorem Node.isConst_logical {or : Bool} {a b : Node} : (logical or a b).isConst = true ↔ a.isConst = true ∧ b.isConst = true :=
  Bool.and_eq_true_iff

theorem Node.isConst_bin {op : BinOp} {a b : Node} :
    (bin op a b).isConst = true ↔
      (a.isConst = true ∧ b.isConst = true) ∧ (!(decide (op = .div ∨ op = .mod) && b.isZero)) = true :=
  Bool.and_eq_true_iff.trans (and_congr_left' Bool.and_eq_true_iff)

mutual

/-- The nodes of a tree. -/
def Node.count : Node → Nat
  | .num _ | .fnum _ | .str _ | .var _ => 1
  | .cast _ a | .unary _ a | .addr a | .deref a | .dot a _ | .arrow a _ | .vaArg a _ => 1 + a.count
  | .bin _ a b | .logical _ a b | .assign a b | .index a b => 1 + a.count + b.count
  | .tern c a b => 1 + c.count + a.count + b.count
  | .call f args => 1 + f.count + countArgs args

/-- The nodes of the arguments of a call. -/
def countArgs : List Node → Nat
  | [] => 0
  | a :: as => a.count + countArgs as

end

/-- A tree has a node. -/
theorem count_pos (e : Node) : 1 ≤ e.count := by
  cases e <;> simp [Node.count, Nat.add_assoc]

/-- `MAX_NODE`. -/
def maxNode : Nat := 4096

/-- A quotient or remainder: by zero, and signed where it does not fit, there is none. -/
def divWord (uns : Bool) (q qs a b : U32) : Option U32 :=
  if b = 0#32 then none else if uns then some q else if a = intMin ∧ b = -1#32 then none else some qs

/-- A binary operator on words, in its unsigned or its signed form. -/
def BinOp.word (op : BinOp) (uns : Bool) (a b : U32) : Option U32 :=
  match op with
  | .add => some (a + b)
  | .sub => some (a - b)
  | .mul => some (a * b)
  | .div => divWord uns (a / b) (a.sdiv b) a b
  | .mod => divWord uns (a % b) (a.srem b) a b
  | .shl => some (a <<< (b.toNat % 32))
  | .shr => some (if uns then a >>> (b.toNat % 32) else a.sshiftRight (b.toNat % 32))
  | .band => some (a &&& b)
  | .bor => some (a ||| b)
  | .bxor => some (a ^^^ b)
  | .lt => some (boolWord (if uns then a.ult b else a.slt b))
  | .le => some (boolWord (if uns then a.ule b else a.sle b))
  | .gt => some (boolWord (if uns then b.ult a else b.slt a))
  | .ge => some (boolWord (if uns then b.ule a else b.sle a))
  | .eq => some (boolWord (decide (a = b)))
  | .ne => some (boolWord (decide (a ≠ b)))

/-- Whether the operators on two integer types are unsigned. -/
def isUnsignedPair (lt rt : CType) : Bool := lt.promote.isUnsigned || rt.promote.isUnsigned

/-- The type of an operator on two integer types. -/
def BinOp.intType (op : BinOp) (lt rt : CType) : CType := if op.isCmp then .int false else .int (isUnsignedPair lt rt)

/-- The type of a unary operator on an integer type. -/
def UnaryOp.intType (op : UnaryOp) (t : CType) : CType :=
  match op with
  | .not => .int false
  | _ => .int t.isUnsigned

/-- The type `gen_expr` gives a constant expression. That of `?:` is read off the tree. -/
def Node.constType : Node → CType
  | .cast ty _ => ty
  | .unary op a => op.intType a.constType
  | .tern _ a b =>
    ternaryCommonType ((inferType ⟨[], [], [], []⟩ a).getD (.int false)) ((inferType ⟨[], [], [], []⟩ b).getD (.int false))
  | .bin op a b => op.intType a.constType b.constType
  | _ => .int false

/-- The word a constant expression means, where no division it comes to faults. -/
def Node.word : Node → Option U32
  | .num v => some v
  | .cast ty a => a.word.map ty.convert
  | .unary op a => a.word.map op.fold
  | .tern c a b => c.word.bind fun c => if c ≠ 0#32 then a.word else b.word
  | .logical or a b =>
    a.word.bind fun x => if decide (x = 0#32) = or then b.word.map fun y => boolWord (decide (y ≠ 0#32)) else some (boolWord or)
  | .bin op a b => a.word.bind fun x => b.word.bind fun y => op.word (isUnsignedPair a.constType b.constType) x y
  | _ => none

/-- The expression and its operands at every depth, as far as its evaluation comes. -/
def Node.reached : Node → List Node
  | .cast ty a => .cast ty a :: a.reached
  | .unary op a => .unary op a :: a.reached
  | .tern c a b =>
    .tern c a b :: (c.reached ++ match c.word with
      | some v => if v ≠ 0#32 then a.reached else b.reached
      | none => [])
  | .logical or a b =>
    .logical or a b :: (a.reached ++ match a.word with
      | some x => if decide (x = 0#32) = or then b.reached else []
      | none => [])
  | .bin op a b =>
    .bin op a b :: (a.reached ++ match a.word with
      | some _ => b.reached
      | none => [])
  | e => [e]

theorem Node.reached_cast (ty : CType) (a : Node) : (cast ty a).reached = .cast ty a :: a.reached := rfl

theorem Node.reached_unary (op : UnaryOp) (a : Node) : (unary op a).reached = .unary op a :: a.reached := rfl

theorem Node.reached_tern (c a b : Node) : (tern c a b).reached =
    .tern c a b :: (c.reached ++ match c.word with
      | some v => if v ≠ 0#32 then a.reached else b.reached
      | none => []) := rfl

theorem Node.reached_logical (or : Bool) (a b : Node) : (logical or a b).reached =
    .logical or a b :: (a.reached ++ match a.word with
      | some x => if decide (x = 0#32) = or then b.reached else []
      | none => []) := rfl

theorem Node.reached_bin (op : BinOp) (a b : Node) : (bin op a b).reached =
    .bin op a b :: (a.reached ++ match a.word with
      | some _ => b.reached
      | none => []) := rfl

/-! ## Folding and meaning -/

/-- The operands on which the unsigned form of an operator is the signed one. -/
def BinOp.SignBlind (op : BinOp) (a b : U32) : Prop :=
  match op with
  | .lt | .le | .gt | .ge => a.msb = b.msb
  | .shr => a.msb = false ∨ b.toNat % 32 = 0
  | .div => b ≠ 0#32 → a.sdiv b = a / b
  | .mod => b ≠ 0#32 → a.srem b = a % b
  | _ => True

/-- What `eval_const` passes over does not matter at a node: a cast is of a value its type holds, an operator whose unsigned form is
generated has operands on which that is the signed one, and no division is of `INT_MIN` by -1. -/
def Node.Plain : Node → Prop
  | .cast ty a => ∀ v, a.word = some v → ty.inRange v
  | .bin op a b => ∀ x y, a.word = some x → b.word = some y →
      (isUnsignedPair a.constType b.constType = true → op.SignBlind x y) ∧
      (op = .div ∨ op = .mod → ¬(x = intMin ∧ y = -1#32))
  | _ => True

end MiniOs32
