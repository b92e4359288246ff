import MiniOs32.Cc.Preproc

/-!
# The compiler: types of expressions

`infer_type` reads the type of an expression off its tree, without code; `gen_expr` generates the code and returns the type of
the value it leaves on the stack. The model keeps of `gen_expr`, `gen_addr` and `gen_call` the types, the checks that end the
compilation (`none`) and the table of functions, which a call of an undeclared function extends. The emitted bytes, the warnings
and the capacities of the tables are left out. A tree has the nodes `parse_expr` builds, so every operand is there.
-/

namespace MiniOs32

/-- `Type`: the kinds `TY_INT`, `TY_SHORT` and `TY_CHAR` with `is_unsigned`. `TY_BOOL` is unsigned. A struct or union is named
by its place in `structs`. -/
inductive CType where
  | int (uns : Bool)
  | short (uns : Bool)
  | float
  | char (uns : Bool)
  | bool
  | void
  | ptr (base : CType)
  | array (base : CType) (len : Nat)
  | struct (sdef : Nat)
  | union (sdef : Nat)
  deriving DecidableEq

namespace CType

/-- `is_unsigned_type`. -/
def isUnsigned : CType → Bool
  | int u | short u | char u => u
  | bool => true
  | _ => false

/-- `is_float`. -/
def isFloat : CType → Bool
  | float => true
  | _ => false

/-- `is_ptr`. -/
def isPtr : CType → Bool
  | ptr _ => true
  | _ => false

/-- `is_array`. -/
def isArray : CType → Bool
  | array _ _ => true
  | _ => false

/-- `is_void`. -/
def isVoid : CType → Bool
  | void => true
  | _ => false

/-- `is_record`, with the place of the record in `structs`. -/
def sdef : CType → Option Nat
  | struct s | union s => some s
  | _ => none

/-- `is_record`. -/
def isRecord (t : CType) : Bool := t.sdef.isSome

/-- `is_numeric`. -/
def isNumeric : CType → Bool
  | int _ | short _ | float | char _ | bool => true
  | _ => false

/-- `t->base` of a pointer, `none` where the code ends on anything else. -/
def ptrBase : CType → Option CType
  | ptr b => some b
  | _ => none

/-- `decay_array`. -/
def decay : CType → CType
  | array b _ => ptr b
  | t => t

/-- `promote`: a `short` stays as it is. -/
def promote : CType → CType
  | char _ | bool => int false
  | t => t

end CType

/-- `Field`, without its offset. -/
structure Field where
  name : List Byte
  type : CType

/-- `StructDef`: what expressions read of it. -/
structure StructDef where
  fields : List Field
  size : Nat

/-- `Sym`: a variable's name and type. -/
structure Var where
  name : List Byte
  type : CType

/-- `Func`, without its label and link name. -/
structure Func where
  name : List Byte
  ret : CType
  params : List CType
  isVarargs : Bool
  declared : Bool

/-- The tables an expression is compiled against. -/
structure Env where
  structs : List StructDef
  locals : List Var
  globals : List Var
  funcs : List Func

/-- The operators of `ND_UNARY`. -/
inductive UnaryOp where
  | neg | not | compl
  deriving DecidableEq

/-- `Node`. `ND_BIN` has a constructor of its own for `&&` and `||`, and `ND_MEMBER` one for `.` and one for `->`. The name of a
call is that of its callee. -/
inductive Node where
  | num (ival : U32)
  | fnum (bits : U32)
  | str (text : List Byte)
  | var (name : List Byte)
  | bin (op : BinOp) (lhs rhs : Node)
  | logical (or : Bool) (lhs rhs : Node)
  | assign (lhs rhs : Node)
  | call (callee : Node) (args : List Node)
  | cast (type : CType) (lhs : Node)
  | unary (op : UnaryOp) (lhs : Node)
  | addr (lhs : Node)
  | deref (lhs : Node)
  | index (lhs rhs : Node)
  | dot (lhs : Node) (name : List Byte)
  | arrow (lhs : Node) (name : List Byte)
  | vaArg (lhs : Node) (type : CType)
  | tern (cond yes no : Node)

/-- The name of a variable, and of a call of it: empty for any other node. -/
def Node.name : Node → List Byte
  | .var x => x
  | _ => []

namespace Env

/-- `find_local`: the last one wins. -/
def findLocal (env : Env) (x : List Byte) : Option Var := env.locals.reverse.find? fun s => decide (s.name = x)

/-- `find_global`. -/
def findGlobal (env : Env) (x : List Byte) : Option Var := env.globals.find? fun s => decide (s.name = x)

/-- The type of a variable: a local one, else a global one. -/
def findVar (env : Env) (x : List Byte) : Option CType := ((env.findLocal x).or (env.findGlobal x)).map (·.type)

/-- `find_func`. -/
def findFunc (env : Env) (x : List Byte) : Option Func := env.funcs.find? fun f => decide (f.name = x)

/-- `add_func` for a name that has no function yet: it returns `int` and declares no parameters. -/
def addFunc (env : Env) (x : List Byte) : Env := { env with funcs := env.funcs ++ [⟨x, .int false, [], false, false⟩] }

/-- `find_field` in a record: the type of the field, `none` where the code ends. -/
def findField (env : Env) (t : CType) (x : List Byte) : Option CType := do
  let s ← t.sdef
  let sd ← env.structs[s]?
  let f ← sd.fields.find? fun f => decide (f.name = x)
  return f.type

/-- `type_size` of a record. -/
def recordSize (env : Env) (t : CType) : Option Nat := do
  let s ← t.sdef
  let sd ← env.structs[s]?
  return sd.size

end Env

/-! ## Inferred types -/

/-- `ternary_common_type`. -/
def ternaryCommonType (ta tb : CType) : CType :=
  if ta.decay.isPtr && tb.decay.isPtr then ta.decay
  else if ta.decay.isFloat || tb.decay.isFloat then .float
  else .int (ta.decay.isUnsigned || tb.decay.isUnsigned)

/-- The type of a function's name. -/
def Env.funcName (env : Env) (x : List Byte) : Option CType := (env.findFunc x).map fun _ => .ptr .void

/-- `infer_type`. It spells out `ternary_common_type` under `ND_TERN`. -/
def inferType (env : Env) : Node → Option CType
  | .num _ => some (.int false)
  | .fnum _ => some .float
  | .str _ => some (.ptr (.char false))
  | .var x => (env.findVar x).or (env.funcName x)
  | .addr e =>
    match e with
    | .var x => (env.funcName x).or ((inferType env e).map .ptr)
    | _ => (inferType env e).map .ptr
  | .deref e => do
    let t ← inferType env e
    t.ptrBase
  | .index e _ => do
    let t ← inferType env e
    t.decay.ptrBase
  | .dot e x | .arrow e x => do
    let t ← inferType env e
    env.findField (t.ptrBase.getD t) x
  | .cast ty _ => some ty
  | .call callee _ => some (((env.findFunc callee.name).map (·.ret)).getD (.int false))
  | .bin _ a _ | .logical _ a _ | .assign a _ | .unary _ a => do
    let t ← inferType env a
    return .int t.isUnsigned
  | .vaArg _ ty => some ty
  | .tern _ a b => do
    let ta ← inferType env a
    let tb ← inferType env b
    return ternaryCommonType ta tb

/-! ## Generated types -/

/-- The system calls `gen_call` knows by name, with the number of their arguments. -/
def syscallBuiltins : List (String × Nat) :=
  [("sys_write", 3), ("sys_read", 3), ("sys_list", 2), ("sys_load", 3), ("sys_save", 3), ("sys_exec", 1), ("sys_exit", 1),
   ("sys_sbrk", 1), ("sys_rename", 2), ("sys_delete", 1), ("sys_getkey", 0), ("sys_getkey_nb", 0), ("sys_ticks", 0),
   ("sys_thread_create", 2), ("sys_thread_exit", 0), ("sys_sleep", 1), ("sys_sleepf", 1), ("sys_cls", 0),
   ("sys_setcursor", 2), ("sys_vmode", 1), ("sys_blit", 1), ("sys_palette", 2), ("sys_gfxinfo", 2), ("sys_gfx_fbinfo", 2),
   ("sys_vbemodes", 2), ("sys_keystate", 1), ("sys_getcwd", 2), ("sys_setcwd", 1), ("sys_poweroff", 0), ("sys_meminfo", 2),
   ("sys_storage", 2), ("sys_sync", 0), ("sys_io_in", 2), ("sys_io_out", 3), ("sys_pci_read", 2), ("sys_pci_write", 3),
   ("sys_map_phys", 3), ("sys_dma_alloc", 2), ("sys_irq_wait", 2)]

/-- A name `gen_call` compiles to a system call. -/
def isSyscall (x : List Byte) : Bool :=
  decide (x = asciiBytes "syscall") || syscallBuiltins.any fun b => decide (asciiBytes b.1 = x)

/-- The number of arguments a system call takes: `syscall` itself takes its number and at most three more. -/
def syscallArgcOk (x : List Byte) (argc : Nat) : Bool :=
  if x = asciiBytes "syscall" then decide (1 ≤ argc ∧ argc ≤ 4)
  else (syscallBuiltins.find? fun b => decide (asciiBytes b.1 = x)).any fun b => decide (argc = b.2)

/-- Whether a call goes through a value: the callee is an expression, or a variable has its name. -/
def Env.indirect (env : Env) : Node → Bool
  | .var x => (env.findVar x).isSome
  | _ => true

/-- One argument of a direct call, against the type of its parameter; beyond the parameters it is passed as an `int`. -/
def argAccepted (env : Env) (t : CType) (pt : Option CType) : Bool :=
  match pt with
  | none => true
  | some pt =>
    !pt.isArray && (!pt.isRecord || (t.isRecord && decide (env.recordSize t = env.recordSize pt)))

/-- The arguments of a direct call, against the function called. -/
def argsAccepted (env : Env) (f : Func) (ts : List CType) : Bool :=
  (!f.declared || (if f.isVarargs then decide (f.params.length ≤ ts.length) else decide (ts.length = f.params.length))) &&
    (List.range ts.length).all fun i => argAccepted env (ts[i]?.getD (.int false)) f.params[i]?

/-- The type of a direct call. -/
def callType (ret : CType) : CType := if ret.isVoid then .int false else ret

/-- `va_start`: both arguments are variables. -/
def vaStartAccepted (env : Env) : List Node → Bool
  | [.var ap, .var last] => (env.findVar ap).isSome && (env.findVar last).isSome
  | _ => false

/-- The operators for which a float or a pointer ends the compilation. -/
def BinOp.isBit : BinOp → Bool
  | .band | .bor | .bxor | .shl | .shr | .mod => true
  | _ => false

/-- `is_cmp`. -/
def BinOp.isCmp : BinOp → Bool
  | .lt | .gt | .le | .ge | .eq | .ne => true
  | _ => false

/-- `ND_BIN` once the operands are generated: their types promoted and decayed, and whether the right one is a literal zero. -/
def genBin (op : BinOp) (lt rt : CType) (zero : Bool) : Option CType :=
  let isU := lt.isUnsigned || rt.isUnsigned || lt.isPtr || rt.isPtr
  if (op = .div ∨ op = .mod) ∧ zero = true then none
  else if op.isBit then
    if lt.isFloat || rt.isFloat || lt.isPtr || rt.isPtr then none else some (.int isU)
  else if op.isCmp then
    if (lt.isFloat || rt.isFloat) && (lt.isPtr || rt.isPtr) then none else some (.int false)
  else if (op = .add ∨ op = .sub) ∧ lt.isPtr = true ∧ rt.isNumeric = true ∧ rt.isFloat = false then some lt
  else if op = .add ∧ rt.isPtr = true ∧ lt.isNumeric = true ∧ lt.isFloat = false then some rt
  else if op = .sub ∧ lt.isPtr = true ∧ rt.isPtr = true then some (.int false)
  else if lt.isFloat || rt.isFloat then
    if lt.isPtr || rt.isPtr then none else some .float
  else some (.int isU)

/-- `ND_UNARY` once the operand is generated. -/
def genUnary : UnaryOp → CType → Option CType
  | .neg, t => some (if t.isFloat then .float else .int t.isUnsigned)
  | .not, _ => some (.int false)
  | .compl, t => if t.isFloat then none else some (.int t.isUnsigned)

/-- `ND_ASSIGN` once both sides are generated: a record is copied, an array refused. -/
def genAssign (env : Env) (lt rt : CType) : Option CType :=
  if lt.isRecord then
    if rt.isRecord && decide (env.recordSize rt = env.recordSize lt) then some lt else none
  else if lt.isArray then none
  else some lt.promote

/-- A literal zero. -/
def Node.isZero : Node → Bool
  | .num v => v == 0#32
  | _ => false

mutual

/-- `gen_addr`: the type of the object whose address is left on the stack. -/
def genAddr (env : Env) : Node → Option (CType × Env)
  | .var x => ((env.findVar x).or ((env.findFunc x).map fun _ => .void)).map fun t => (t, env)
  | .deref e => do
    let (pt, env) ← genExpr env e
    let b ← pt.decay.ptrBase
    return (b, env)
  | .index e i => do
    let (bt, env) ← genExpr env e
    let b ← bt.decay.ptrBase
    let (_, env) ← genExpr env i
    return (b, env)
  | .dot e x => do
    let (bt, env) ← genAddr env e
    let t ← env.findField bt x
    return (t, env)
  | .arrow e x => do
    let (pt, env) ← genExpr env e
    let bt ← pt.decay.ptrBase
    let t ← env.findField bt x
    return (t, env)
  | _ => none

/-- `gen_expr` and `gen_call`: the type of the value left on the stack. A value is loaded from its address, unless it is an array
or a record: an array is its address, and `*p` alone keeps the array's type. The operands of `&&` and `||` are generated by
`gen_logical`, those of a condition by `gen_cond`; both walk nested `&&` and `||` in the order in which `gen_expr` does. -/
def genExpr (env : Env) : Node → Option (CType × Env)
  | .num _ => some (.int false, env)
  | .fnum _ => some (.float, env)
  | .str _ => some (.ptr (.char false), env)
  | .var x =>
    match env.findVar x with
    | some t => some (t.decay.promote, env)
    | none => (env.funcName x).map fun t => (t, env)
  | .addr e => do
    let (t, env) ← genAddr env e
    return (.ptr t, env)
  | .deref e => do
    let (pt, env) ← genExpr env e
    let b ← pt.decay.ptrBase
    return (b.promote, env)
  | .index e i => do
    let (bt, env) ← genExpr env e
    let b ← bt.decay.ptrBase
    let (_, env) ← genExpr env i
    return (b.decay.promote, env)
  | .dot e x => do
    let (bt, env) ← genAddr env e
    let t ← env.findField bt x
    return (t.decay.promote, env)
  | .arrow e x => do
    let (pt, env) ← genExpr env e
    let bt ← pt.decay.ptrBase
    let t ← env.findField bt x
    return (t.decay.promote, env)
  | .assign a b => do
    let (lt, env) ← genAddr env a
    let (rt, env) ← genExpr env b
    let t ← genAssign env lt rt
    return (t, env)
  | .tern c a b => do
    let ta ← inferType env a
    let tb ← inferType env b
    if ta.decay.isRecord || tb.decay.isRecord then none
    else
      let (_, env) ← genExpr env c
      let (_, env) ← genExpr env a
      let (_, env) ← genExpr env b
      return (ternaryCommonType ta tb, env)
  | .vaArg e ty =>
    match e with
    | .var x => if ty.isRecord || ty.isArray || (env.findVar x).isNone then none else some (ty, env)
    | _ => none
  | .call callee args =>
    if callee.name = asciiBytes "va_start" then
      if vaStartAccepted env args then some (.int false, env) else none
    else if callee.name = asciiBytes "va_end" then some (.int false, env)
    else if isSyscall callee.name then do
      let (ts, env) ← genArgs env args
      if syscallArgcOk callee.name ts.length then return (.int false, env) else none
    else if env.indirect callee then do
      let (_, env) ← genArgs env args
      let (_, env) ← genExpr env callee
      return (.int false, env)
    else match env.findFunc callee.name with
      | some f => do
        let (ts, env) ← genArgs env args
        if argsAccepted env f ts then return (callType f.ret, env) else none
      | none => do
        let (_, env) ← genArgs (env.addFunc callee.name) args
        return (.int false, env)
  | .cast ty e => do
    let (_, env) ← genExpr env e
    return (ty, env)
  | .unary op e => do
    let (t, env) ← genExpr env e
    let t ← genUnary op t
    return (t, env)
  | .logical _ a b => do
    let (_, env) ← genExpr env a
    let (_, env) ← genExpr env b
    return (.int false, env)
  | .bin op a b => do
    let (lt, env) ← genExpr env a
    let (rt, env) ← genExpr env b
    let t ← genBin op lt.decay.promote rt.decay.promote b.isZero
    return (t, env)

/-- The arguments of a call, generated from the last to the first. -/
def genArgs (env : Env) : List Node → Option (List CType × Env)
  | [] => some ([], env)
  | a :: as => do
    let (ts, env) ← genArgs env as
    let (t, env) ← genExpr env a
    return (t :: ts, env)

end

/-! `gen_expr` of an object is `gen_addr` and a load. -/

theorem genExpr_deref (env : Env) (e : Node) :
    genExpr env (.deref e) = (genAddr env (.deref e)).map fun r => (r.1.promote, r.2) := by
  simp [genExpr, genAddr, Option.map_bind]

theorem genExpr_index (env : Env) (e i : Node) :
    genExpr env (.index e i) = (genAddr env (.index e i)).map fun r => (r.1.decay.promote, r.2) := by
  have hv : genExpr env (.index e i) = (genExpr env e).bind fun r => r.1.decay.ptrBase.bind fun b =>
      (genExpr r.2 i).bind fun q => some (b.decay.promote, q.2) := rfl
  have ha : genAddr env (.index e i) = (genExpr env e).bind fun r => r.1.decay.ptrBase.bind fun b =>
      (genExpr r.2 i).bind fun q => some (b, q.2) := rfl
  rw [hv, ha]
  simp [Option.map_bind]

theorem genExpr_dot (env : Env) (e : Node) (x : List Byte) :
    genExpr env (.dot e x) = (genAddr env (.dot e x)).map fun r => (r.1.decay.promote, r.2) := by
  have hv : genExpr env (.dot e x) = (genAddr env e).bind fun r => (r.2.findField r.1 x).bind fun t =>
      some (t.decay.promote, r.2) := rfl
  have ha : genAddr env (.dot e x) = (genAddr env e).bind fun r => (r.2.findField r.1 x).bind fun t => some (t, r.2) := rfl
  rw [hv, ha]
  simp [Option.map_bind]

theorem genExpr_arrow (env : Env) (e : Node) (x : List Byte) :
    genExpr env (.arrow e x) = (genAddr env (.arrow e x)).map fun r => (r.1.decay.promote, r.2) := by
  have hv : genExpr env (.arrow e x) = (genExpr env e).bind fun r => r.1.decay.ptrBase.bind fun b =>
      (r.2.findField b x).bind fun t => some (t.decay.promote, r.2) := rfl
  have ha : genAddr env (.arrow e x) = (genExpr env e).bind fun r => r.1.decay.ptrBase.bind fun b =>
      (r.2.findField b x).bind fun t => some (t, r.2) := rfl
  rw [hv, ha]
  simp [Option.map_bind]

end MiniOs32
