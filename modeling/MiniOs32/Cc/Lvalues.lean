import MiniOs32.Cc.Fold

/-!
# Lvalues and steps

An lvalue without side effects names a variable, a member of one, an element of an array at a constant or at what another such lvalue
holds, or what a pointer points to. `Denotes` is C's rule for the object it names in a memory, and says which cells that depends on.

`++` and `--` have no code of their own: the parser builds assignments for them, and takes a postfix one back to the old value.
-/

namespace MiniOs32

/-! ## The tree of a step -/

/-- `node_int`. -/
def nodeInt (v : U32) : Node := .num v

/-- `node_bin`. -/
def nodeBin (op : BinOp) (a b : Node) : Node := .bin op a b

/-- `node_assign`. -/
def nodeAssign (lhs rhs : Node) : Node := .assign lhs rhs

/-- `node_step`: `x = x <op> 1`. -/
def nodeStep (lv : Node) (op : BinOp) : Node := nodeAssign lv (nodeBin op lv (nodeInt 1#32))

/-- What `parse_postfix` builds behind `++` and `--`. -/
def postfixStep (inc : Bool) (lv : Node) : Node :=
  if inc then nodeBin .sub (nodeStep lv .add) (nodeInt 1#32) else nodeBin .add (nodeStep lv .sub) (nodeInt 1#32)

/-! ## Lvalues -/

/-- An lvalue without side effects; an index is a constant expression or an lvalue of the same kind. -/
inductive LVal where
  | var (x : List Byte)
  | dot (a : LVal) (x : List Byte)
  | arrow (a : LVal) (x : List Byte)
  | deref (a : LVal)
  | elem (a : LVal) (i : Node)
  | index (a i : LVal)

/-- How the parser builds it. -/
def LVal.node : LVal → Node
  | .var x => .var x
  | .dot a x => .dot a.node x
  | .arrow a x => .arrow a.node x
  | .deref a => .deref a.node
  | .elem a i => .index a.node i
  | .index a i => .index a.node i.node

/-- The number of bytes of a scalar. -/
def CType.bytes (t : CType) : Nat := (t.width.map Width.bytes).getD 4

/-- The value of a scalar in memory, promoted. -/
def CType.load (t : CType) (m : Mem) (p : U32) : U32 :=
  match t.width with
  | some w => w.extend t.isUnsigned (m.read32 p)
  | none => m.read32 p

/-- The address a pointer holds, or an array is at. -/
def CType.pointer (t : CType) (m : Mem) (p : U32) : U32 := if t.isArray then p else m.read32 p

/-- Whether an array can have elements of a type. -/
def CodeEnv.sized (T : CodeEnv) (t : CType) : Bool := (0#32).slt (T.size t)

/-- The type an lvalue is declared with, for one that C accepts. -/
def LVal.type (T : CodeEnv) : LVal → Option CType
  | .var x => (T.findSym x).map (·.type)
  | .dot a x => do
    let t ← a.type T
    let f ← T.findField t x
    return f.type
  | .arrow a x => do
    let t ← a.type T
    let b ← t.decay.ptrBase
    let f ← T.findField b x
    return f.type
  | .deref a => do
    let t ← a.type T
    t.decay.ptrBase
  | .elem a i => do
    let t ← a.type T
    let b ← t.decay.ptrBase
    if T.sized b && i.isConst then some b else none
  | .index a i => do
    let t ← a.type T
    let b ← t.decay.ptrBase
    let it ← i.type T
    if T.sized b && it.isInteger then some b else none

/-- Where a variable is in memory. -/
def Place.addr {F : Type} (w : World F) (ebp : U32) : Place → U32
  | .frame off => ebp + off
  | .global i => w.addr (.global i)

/-- The cells of an object. -/
def Covers (P : U32 → Prop) (p : U32) (n : Nat) : Prop := ∀ i < n, P (p + BitVec.ofNat 32 i)

/-- The address of the object an lvalue names, which depends on memory only where `P` holds. -/
inductive Denotes {F : Type} (T : CodeEnv) (w : World F) (ebp : U32) (m : Mem) (P : U32 → Prop) : LVal → U32 → Prop
  | var {x : List Byte} {s : CSym} (hs : T.findSym x = some s) : Denotes T w ebp m P (.var x) (s.place.addr w ebp)
  | dot {a : LVal} {x : List Byte} {t : CType} {f : FieldSlot} {p : U32} (ha : Denotes T w ebp m P a p) (ht : a.type T = some t)
      (hf : T.findField t x = some f) : Denotes T w ebp m P (.dot a x) (p + f.offset)
  | arrow {a : LVal} {x : List Byte} {t b : CType} {f : FieldSlot} {p : U32} (ha : Denotes T w ebp m P a p) (ht : a.type T = some t)
      (hb : t.decay.ptrBase = some b) (hf : T.findField b x = some f) (hr : t.isArray = true ∨ Covers P p 4) :
      Denotes T w ebp m P (.arrow a x) (t.pointer m p + f.offset)
  | deref {a : LVal} {t : CType} {p : U32} (ha : Denotes T w ebp m P a p) (ht : a.type T = some t)
      (hr : t.isArray = true ∨ Covers P p 4) : Denotes T w ebp m P (.deref a) (t.pointer m p)
  | elem {a : LVal} {i : Node} {t b : CType} {p v : U32} (ha : Denotes T w ebp m P a p) (ht : a.type T = some t)
      (hb : t.decay.ptrBase = some b) (hr : t.isArray = true ∨ Covers P p 4) (hi : i.word = some v) :
      Denotes T w ebp m P (.elem a i) (t.pointer m p + v * T.size b)
  | index {a i : LVal} {t b it : CType} {p ip : U32} (ha : Denotes T w ebp m P a p) (ht : a.type T = some t)
      (hb : t.decay.ptrBase = some b) (hr : t.isArray = true ∨ Covers P p 4) (hi : Denotes T w ebp m P i ip)
      (hit : i.type T = some it) (hir : Covers P ip it.bytes) :
      Denotes T w ebp m P (.index a i) (t.pointer m p + it.load m ip * T.size b)

/-- How far a step goes: one, or one element. -/
def CodeEnv.stride (T : CodeEnv) (t : CType) : U32 :=
  match t with
  | .ptr b => T.size b
  | _ => 1#32

/-- What C leaves in an object of a type behind a step, by the value it held. -/
def CodeEnv.stepped (T : CodeEnv) (t : CType) (inc : Bool) (old : U32) : U32 :=
  t.convert (if inc then old + T.stride t else old - T.stride t)

end MiniOs32
