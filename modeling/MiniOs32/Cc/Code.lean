import MiniOs32.Cc.Cpu

/-!
# The compiler: code of expressions

`gen_addr`, `gen_expr`, `gen_call`, `gen_logical` and `gen_cond` with the code they emit. Values live on the stack: an expression
leaves one word there, for an array or a record its address. The tables are those of `Env` with what the code depends on: the
place of a variable, the offset of a field, sizes, and the counters of labels and of `.rodata`. Sizes are `int`s that wrap.

The capacities of the tables and the warnings are left out; a label is a number, and a called function is known by its name.
-/

namespace MiniOs32

/-- Where a variable is: its `offset` from `ebp`, or its place in `globals`, as for a `static` local by `alias_global`. -/
inductive Place where
  | frame (offset : U32)
  | global (index : Nat)
  deriving DecidableEq

/-- `Sym`. -/
structure CSym where
  name : List Byte
  type : CType
  place : Place

/-- `Field`. -/
structure FieldSlot where
  name : List Byte
  type : CType
  offset : U32

/-- `StructDef`: what the code depends on. -/
structure RecordDef where
  fields : List FieldSlot
  size : U32

/-- The tables, `label_count` and `rodata_len`. -/
structure CodeEnv where
  records : List RecordDef
  locals : List CSym
  globals : List CSym
  funcs : List Func
  labels : Nat
  rodata : Nat

namespace CodeEnv

/-- The tables types are read from. -/
def env (T : CodeEnv) : Env where
  structs := T.records.map fun r => ⟨r.fields.map fun f => ⟨f.name, f.type⟩, r.size.toNat⟩
  locals := T.locals.map fun s => ⟨s.name, s.type⟩
  globals := T.globals.map fun s => ⟨s.name, s.type⟩
  funcs := T.funcs

/-- `find_local`, else `find_global`. -/
def findSym (T : CodeEnv) (x : List Byte) : Option CSym :=
  (T.locals.reverse.find? fun s => decide (s.name = x)).or (T.globals.find? fun s => decide (s.name = x))

/-- `find_func`. -/
def findFunc (T : CodeEnv) (x : List Byte) : Option Func := T.funcs.find? fun f => decide (f.name = x)

/-- `add_func` for a name that has no function yet. -/
def addFunc (T : CodeEnv) (x : List Byte) : CodeEnv := { T with funcs := T.funcs ++ [⟨x, .int false, [], false, false⟩] }

/-- `find_field` in a record, `none` where the code ends. -/
def findField (T : CodeEnv) (t : CType) (x : List Byte) : Option FieldSlot := do
  let s ← t.sdef
  let r ← T.records[s]?
  r.fields.find? fun f => decide (f.name = x)

/-- `type_size`. -/
def size (T : CodeEnv) : CType → U32
  | .int _ | .float | .ptr _ => 4#32
  | .short _ => 2#32
  | .char _ | .bool => 1#32
  | .void => 0#32
  | .array b n => T.size b * BitVec.ofNat 32 n
  | .struct s | .union s => ((T.records[s]?).map (·.size)).getD 0#32

/-- `new_label`. -/
def newLabel (T : CodeEnv) : Nat × CodeEnv := (T.labels, { T with labels := T.labels + 1 })

end CodeEnv

/-! ## Instruction sequences -/

/-- Instructions as code. -/
def ops (is : List Insn) : Code := is.map .op

/-- `set_label`. -/
def labelAt (l : Nat) : Code := [.label l]

/-- `emit_jmp_label`. -/
def jumpTo (l : Nat) : Code := [.jump l]

/-- `emit_push_eax`. -/
def pushEax : List Insn := [.push .eax]

/-- `emit_pop_eax`. -/
def popEax : List Insn := [.pop .eax]

/-- The right operand to `ebx` and the left one to `eax`. -/
def popBoth : List Insn := [.pop .ebx, .pop .eax]

/-- `emit_add_esp`, left out where the count is not positive. -/
def dropBytes (n : U32) : List Insn := if (0#32).slt n then [.addImm .esp n] else []

/-- `emit_load_addr`. -/
def loadAddr (s : CSym) : List Insn :=
  match s.place with
  | .frame off => [.leaFrame off, .push .eax]
  | .global i => [.movAddr (.global i), .push .eax]

/-- The width of a type narrower than a word. -/
def CType.width : CType → Option Width
  | .char _ | .bool => some .byte
  | .short _ => some .word
  | _ => none

/-- `emit_load_from_addr`. -/
def loadFromAddr (t : CType) : List Insn :=
  match t.width with
  | some w => [.pop .eax, .loadNarrow w t.isUnsigned, .push .eax]
  | none => [.pop .eax, .load .eax .eax, .push .eax]

/-- `emit_store_to_addr`. -/
def storeToAddr (t : CType) : List Insn :=
  match t.width with
  | some w => [.pop .eax, .pop .ebx, .storeNarrow w, .push .eax]
  | none => [.pop .eax, .pop .ebx, .store .ebx .eax, .push .eax]

/-- `conv_stack_to_float`. -/
def convStackToFloat (disp : U32) : List Insn := [.fild disp, .fstp disp]

/-- `conv_stack_to_int`. -/
def convStackToInt (disp : U32) : List Insn :=
  [.fld disp, .subImm .esp 8#32, .fnstcw 0#32, .fnstcw 4#32, .orWord 4#32 0x0C00#16, .fldcw 4#32, .fistp (disp + 8#32), .fldcw 0#32,
    .addImm .esp 8#32]

/-- The conversion of the word at `esp+disp` from one type to another: only between floats and the rest. -/
def convStack (from_ to_ : CType) (disp : U32) : List Insn :=
  if to_.isFloat && !from_.isFloat then convStackToFloat disp
  else if !to_.isFloat && from_.isFloat then convStackToInt disp
  else []

/-- The test of the float on top of the stack, up to the flags. -/
def testFloat : List Insn := [.fld 0#32, .ftst, .fstsw, .sahf, .addImm .esp 4#32]

/-- The test of the word on top of the stack. -/
def testInt : List Insn := [.pop .eax, .cmpImm 0#32]

/-- The test of the value on top of the stack. -/
def testZero (t : CType) : List Insn := if t.isFloat then testFloat else testInt

/-- `setcc al`, `movzx eax, al` and `push eax`. -/
def pushSet (c : Cond) : List Insn := [.set c, .extend .byte true, .push .eax]

/-- `emit_boolify`. -/
def boolify (t : CType) : List Insn := testZero t ++ pushSet .ne

/-- The conversion of a value that is stored to a type. -/
def convStored (from_ to_ : CType) : List Insn :=
  match to_ with
  | .bool => boolify from_
  | _ => convStack from_ to_ 0#32

/-- `emit_struct_copy`. -/
def structCopy (size : U32) : List Insn := [.pop .esi, .pop .edi, .push .edi, .movImm .ecx size, .cld, .repMovsb]

/-- The bytes of the slot an argument of a type takes, `arg_slot_bytes`. -/
def CodeEnv.argSlotBytes (T : CodeEnv) (t : CType) : U32 := if t.isRecord then (T.size t + 3#32) &&& ~~~3#32 else 4#32

/-- `emit_struct_push`. -/
def structPush (size : U32) : List Insn :=
  [.pop .esi, .addImm .esp (-((size + 3#32) &&& ~~~3#32)), .mov .edi .esp, .movImm .ecx size, .cld, .repMovsb]

/-- The multiplication of `eax` by a size, where it is more than one. -/
def scale (sz : U32) : List Insn := if (1#32).slt sz then [.imulImm sz] else []

/-- The multiplication of the word on top of the stack by a size, where it is more than one. -/
def scaleTop (sz : U32) : List Insn := if (1#32).slt sz then popEax ++ scale sz ++ pushEax else []

/-- The end of an index: the address from the base and the scaled index. -/
def indexAddr : List Insn := [.pop .ebx, .pop .eax, .alu .add .eax .ebx, .push .eax]

/-- The step from a record to its field. -/
def fieldAddr (off : U32) : List Insn := if off = 0#32 then popEax ++ pushEax else [.pop .eax, .addImm .eax off, .push .eax]

/-- `emit_syscall_builtin`. -/
def syscallBuiltin (sysno argc : Nat) : List Insn :=
  List.append (([.ebx, .ecx, .edx, .esi].take argc).map .pop) [.movImm .eax (BitVec.ofNat 32 sysno), .int80, .push .eax]

/-- `emit_syscall_runtime`. -/
def syscallRuntime (argc : Nat) : List Insn := List.append (([.eax, .ebx, .ecx, .edx].take argc).map .pop) [.int80, .push .eax]

/-- The numbers of the system calls of `syscallBuiltins`. -/
def syscallNumbers : List (String × Nat) :=
  [("sys_write", 0), ("sys_read", 1), ("sys_list", 2), ("sys_load", 3), ("sys_save", 4), ("sys_exec", 5), ("sys_exit", 6),
   ("sys_sbrk", 7), ("sys_rename", 8), ("sys_delete", 9), ("sys_getkey", 10), ("sys_getkey_nb", 23), ("sys_ticks", 24),
   ("sys_thread_create", 25), ("sys_thread_exit", 26), ("sys_sleep", 27), ("sys_sleepf", 28), ("sys_cls", 11),
   ("sys_setcursor", 12), ("sys_vmode", 13), ("sys_blit", 14), ("sys_palette", 15), ("sys_gfxinfo", 21), ("sys_gfx_fbinfo", 29),
   ("sys_vbemodes", 22), ("sys_keystate", 30), ("sys_getcwd", 35), ("sys_setcwd", 36), ("sys_poweroff", 37), ("sys_meminfo", 38),
   ("sys_storage", 39), ("sys_sync", 40), ("sys_io_in", 41), ("sys_io_out", 42), ("sys_pci_read", 43), ("sys_pci_write", 44),
   ("sys_map_phys", 45), ("sys_dma_alloc", 46), ("sys_irq_wait", 47)]

/-- The end of a system call of a name. -/
def syscallCode (x : List Byte) (argc : Nat) : List Insn :=
  if x = asciiBytes "syscall" then syscallRuntime argc
  else syscallBuiltin (((syscallNumbers.find? fun b => decide (asciiBytes b.1 = x)).map (·.2)).getD 0) argc

/-- The step from one variable argument to the next. -/
def CodeEnv.vaStep (T : CodeEnv) (t : CType) : U32 :=
  if (T.size t).slt 4#32 then 4#32
  else if T.size t &&& 3#32 ≠ 0#32 then (T.size t + 3#32) &&& ~~~3#32
  else T.size t

/-- `va_start`, once its arguments are found. -/
def vaStart (ap last : CSym) (step : U32) : List Insn :=
  (loadAddr ap ++ loadAddr last).append
    [.pop .eax, .addImm .eax step, .pop .ebx, .store .ebx .eax, .movImm .eax 0#32, .push .eax]

/-- `ND_VAARG`, once its variable is found. -/
def vaArgCode (s : CSym) (t : CType) (step : U32) : List Insn :=
  (loadAddr s).append
    [.pop .ebx, .load .eax .ebx, .mov .ecx .eax, if t.width = some .byte then .loadNarrow .byte true else .load .eax .eax,
      .addImm .ecx step, .store .ebx .ecx, .push .eax]

/-- A cast, once its operand is generated. -/
def castCode (from_ to_ : CType) : List Insn :=
  match to_ with
  | .bool => boolify from_
  | .short u => (convStack from_ to_ 0#32).append [.pop .eax, .extend .word u, .push .eax]
  | .char u => (convStack from_ to_ 0#32).append [.pop .eax, .extend .byte u, .push .eax]
  | _ => convStack from_ to_ 0#32

/-- `ND_UNARY`, once its operand is generated. -/
def unaryCode (op : UnaryOp) (t : CType) : List Insn :=
  match op with
  | .neg => if t.isFloat then [.fld 0#32, .fchs, .fstp 0#32] else [.pop .eax, .neg, .push .eax]
  | .not => testZero t ++ pushSet .e
  | .compl => [.pop .eax, .not, .push .eax]

/-- The condition a comparison sets, unsigned or signed. -/
def BinOp.cond (op : BinOp) (uns : Bool) : Cond :=
  match op with
  | .lt => if uns then .b else .l
  | .le => if uns then .be else .le
  | .gt => if uns then .a else .g
  | .ge => if uns then .ae else .ge
  | .ne => .ne
  | _ => .e

/-- An integer operation on `eax` and `ebx`. -/
def intOp (op : BinOp) (uns : Bool) : List Insn :=
  match op with
  | .band => [.alu .and .eax .ebx]
  | .bor => [.alu .or .eax .ebx]
  | .bxor => [.alu .xor .eax .ebx]
  | .shl => [.mov .ecx .ebx, .shift .shl]
  | .shr => [.mov .ecx .ebx, .shift (if uns then .shr else .sar)]
  | .mod => if uns then [.alu .xor .edx .edx, .div .ebx, .mov .eax .edx] else [.cdq, .idiv .ebx, .mov .eax .edx]
  | .add => [.alu .add .eax .ebx]
  | .sub => [.alu .sub .eax .ebx]
  | .mul => [.imul]
  | .div => if uns then [.alu .xor .edx .edx, .div .ebx] else [.cdq, .idiv .ebx]
  | _ => [.alu .cmp .eax .ebx, .set (op.cond uns), .extend .byte true]

/-- The conversions of both operands of a float operation. -/
def convBoth (lt rt : CType) : List Insn :=
  (if rt.isFloat then [] else convStackToFloat 0#32) ++ (if lt.isFloat then [] else convStackToFloat 4#32)

/-- A comparison of floats: the left operand is loaded last. -/
def floatCompare (op : BinOp) : List Insn :=
  [.fld 0#32, .fld 4#32, .fcompp, .fstsw, .sahf, .set (op.cond true), .extend .byte true, .addImm .esp 8#32, .push .eax]

/-- The arithmetic of floats: no operation for an operator that has none. -/
def floatArith (op : BinOp) : List Insn :=
  let ends : List Insn := [.fstp 4#32, .addImm .esp 4#32]
  .fld 4#32 :: .fld 0#32 ::
    match op with
    | .add => .farith .add :: ends
    | .sub => .farith .sub :: ends
    | .mul => .farith .mul :: ends
    | .div => .farith .div :: ends
    | _ => ends

/-- The division of `eax` by a size, where it is more than one. -/
def divBySize (sz : U32) : List Insn := if (1#32).slt sz then [.movImm .ecx sz, .cdq, .idiv .ecx] else []

/-- `ND_BIN`, once its operands are generated and their types promoted and decayed. -/
def binCode (T : CodeEnv) (op : BinOp) (lt rt : CType) : List Insn :=
  let isU := lt.isUnsigned || rt.isUnsigned || lt.isPtr || rt.isPtr
  if op.isBit then popBoth ++ intOp op isU ++ pushEax
  else if op.isCmp then
    if lt.isFloat || rt.isFloat then convBoth lt rt ++ floatCompare op else popBoth ++ intOp op isU ++ pushEax
  else if (op = .add ∨ op = .sub) ∧ lt.isPtr = true ∧ rt.isNumeric = true ∧ rt.isFloat = false then
    scaleTop (T.size (lt.ptrBase.getD .void)) ++ popBoth ++ intOp op true ++ pushEax
  else if op = .add ∧ rt.isPtr = true ∧ lt.isNumeric = true ∧ lt.isFloat = false then
    popBoth ++ scale (T.size (rt.ptrBase.getD .void)) ++ intOp .add true ++ pushEax
  else if op = .sub ∧ lt.isPtr = true ∧ rt.isPtr = true then
    popBoth ++ intOp .sub true ++ divBySize (T.size (lt.ptrBase.getD .void)) ++ pushEax
  else if lt.isFloat || rt.isFloat then convBoth lt rt ++ floatArith op
  else popBoth ++ intOp op isU ++ pushEax

/-- `ND_ASSIGN` once both sides are generated. -/
def assignCode (T : CodeEnv) (lt rt : CType) : List Insn :=
  if lt.isRecord then structCopy (T.size lt) else convStored rt lt ++ storeToAddr lt

/-- What follows the value of an argument, against the type of its parameter, and the bytes it takes. -/
def argCode (T : CodeEnv) (t : CType) (pt : Option CType) : List Insn × U32 :=
  match pt with
  | none => ([], 4#32)
  | some pt =>
    if pt.isRecord then (structPush (T.size pt), T.argSlotBytes pt)
    else (convStack t pt 0#32, 4#32)

/-- What follows the arguments of a direct call. -/
def callCode (x : List Byte) (argbytes : U32) (ret : CType) : List Insn :=
  .call x :: (dropBytes argbytes).append (if ret.isFloat then [.addImm .esp (-4#32), .fstp 0#32] else pushEax)

/-- What follows the callee of an indirect call. -/
def callEaxCode (argc : Nat) : List Insn := .pop .eax :: .callEax :: dropBytes (BitVec.ofNat 32 (4 * argc)) ++ pushEax

/-! ## Code of a tree -/

/-- What is generated for a tree: the address of an object, a value, or the jumps of `gen_logical`. -/
inductive GenMode where
  | addr
  | value
  | jumps (yes no : Nat)

/-- What follows the address of an object: its load, where its value is asked for. -/
def GenMode.finish (m : GenMode) (t : CType) (c : Code) : CType × Code :=
  match m with
  | .addr => (t, c)
  | _ => if t.isRecord || t.isArray then (t.decay, c) else (t.promote, c ++ ops (loadFromAddr t))

/-- What follows the address `*p`: as for any object, but an array keeps its type. -/
def GenMode.finishDeref (m : GenMode) (t : CType) (c : Code) : CType × Code :=
  match m with
  | .addr => (t, c)
  | _ => if t.isRecord || t.isArray then (t, c) else (t.promote, c ++ ops (loadFromAddr t))

/-- What only has a value: there is no address of it. -/
def GenMode.isValue {α : Type} (m : GenMode) (r : α) : Option α :=
  match m with
  | .value => some r
  | _ => none

/-- The type of a function's name: `gen_addr` has the function's for it, `gen_expr` a pointer. -/
def GenMode.funcType : GenMode → CType
  | .addr => .void
  | _ => .ptr .void

/-- `&&` or `||`. -/
def Node.isLogical : Node → Bool
  | .logical _ _ _ => true
  | _ => false

/-- The jump of `gen_cond` behind the value of a condition. -/
def condJump (t : CType) (no : Nat) : Code := (ops (testZero t)).append [.branch .e no]

/-- What `gen_logical` emits behind an operand: nothing where it is `&&` or `||`, whose code has jumped. -/
def logicalJump (e : Node) (t : CType) (c : Code) (yes no : Nat) : Code :=
  if e.isLogical then c else c ++ condJump t no ++ jumpTo yes

/-- The labels a logical operator jumps to: new ones where its value is asked for. -/
def GenMode.targets (m : GenMode) (T : CodeEnv) : Option ((Nat × Nat) × CodeEnv) :=
  match m with
  | .addr => none
  | .jumps yes no => some ((yes, no), T)
  | .value => some ((T.newLabel.1, T.newLabel.2.newLabel.1), T.newLabel.2.newLabel.2)

/-- The end of a logical operator: where its value is asked for, one or zero is pushed. -/
def GenMode.finishLogical (m : GenMode) (yes no : Nat) (c : Code) (T : CodeEnv) : CType × Code × CodeEnv :=
  match m with
  | .value =>
    let (done, T) := T.newLabel
    (.int false, c ++ labelAt yes ++ ops [.pushImm 1#32] ++ jumpTo done ++ labelAt no ++ ops [.pushImm 0#32] ++ labelAt done, T)
  | _ => (.int false, c, T)

mutual

/-- `gen_addr`, `gen_expr` and `gen_logical`, which also stand for `gen_cond`: the type, the code and the tables afterwards. -/
def gen (T : CodeEnv) (m : GenMode) : Node → Option (CType × Code × CodeEnv)
  | .num v => m.isValue (.int false, ops [.pushImm v], T)
  | .fnum v => m.isValue (.float, ops [.pushImm v], T)
  | .str text =>
    m.isValue (.ptr (.char false), ops [.movAddr (.str T.rodata), .push .eax], { T with rodata := T.rodata + text.length + 1 })
  | .var x =>
    match T.findSym x with
    | some s =>
      let (t, c) := m.finish s.type (ops (loadAddr s))
      some (t, c, T)
    | none => do
      let _ ← T.findFunc x
      return (m.funcType, ops [.movAddr (.func x), .push .eax], T)
  | .deref e => do
    let (pt, c, T) ← gen T .value e
    let b ← pt.decay.ptrBase
    let (t, c) := m.finishDeref b c
    return (t, c, T)
  | .index e i => do
    let (bt, c, T) ← gen T .value e
    let b ← bt.decay.ptrBase
    let (it, ci, T) ← gen T .value i
    let idx := (if it.isFloat then convStackToInt 0#32 else []) ++ scaleTop (T.size b) ++ indexAddr
    let (t, c) := m.finish b (c ++ ci ++ ops idx)
    return (t, c, T)
  | .dot e x => do
    let (bt, c, T) ← gen T .addr e
    let f ← T.findField bt x
    let (t, c) := m.finish f.type (c ++ ops (fieldAddr f.offset))
    return (t, c, T)
  | .arrow e x => do
    let (pt, c, T) ← gen T .value e
    let bt ← pt.decay.ptrBase
    let f ← T.findField bt x
    let (t, c) := m.finish f.type (c ++ ops (fieldAddr f.offset))
    return (t, c, T)
  | .addr e => do
    let (t, c, T) ← gen T .addr e
    m.isValue (.ptr t, c, T)
  | .assign a b => do
    let (lt, ca, T) ← gen T .addr a
    let (rt, cb, T) ← gen T .value b
    if lt.isRecord then
      if rt.isRecord && decide (T.size rt = T.size lt) then m.isValue (lt, ca ++ cb ++ ops (assignCode T lt rt), T) else none
    else if lt.isArray then none
    else m.isValue (lt.promote, ca ++ cb ++ ops (assignCode T lt rt), T)
  | .tern c a b => do
    let ta ← inferType T.env a
    let tb ← inferType T.env b
    if ta.decay.isRecord || tb.decay.isRecord then none
    else
      let ct := ternaryCommonType ta tb
      let (no, T) := T.newLabel
      let (done, T) := T.newLabel
      let (yes, T₁) := if c.isLogical then T.newLabel else (0, T)
      let (tc, cc, T) ← gen T₁ (if c.isLogical then .jumps yes no else .value) c
      let cc := if c.isLogical then cc ++ labelAt yes else cc ++ condJump tc no
      let (rt, ca, T) ← gen T .value a
      let (rf, cb, T) ← gen T .value b
      m.isValue (ct, cc ++ ca ++ ops (convStack rt ct 0#32) ++ jumpTo done ++ labelAt no ++ cb ++ ops (convStack rf ct 0#32) ++
        labelAt done, T)
  | .vaArg e ty =>
    match e with
    | .var x => do
      if ty.isRecord || ty.isArray then none
      else
        let s ← T.findSym x
        m.isValue (ty, ops (vaArgCode s ty (T.vaStep ty)), T)
    | _ => none
  | .call callee args =>
    let x := callee.name
    if x = asciiBytes "va_start" then
      match args with
      | [.var ap, .var last] => do
        let ap ← T.findSym ap
        let last ← T.findSym last
        m.isValue (.int false, ops (vaStart ap last (T.vaStep last.type)), T)
      | _ => none
    else if x = asciiBytes "va_end" then m.isValue (.int false, ops [.movImm .eax 0#32, .push .eax], T)
    else if isSyscall x then do
      if syscallArgcOk x args.length then
        let (c, _, T) ← genArgsCode T none args
        m.isValue (.int false, c ++ ops (syscallCode x args.length), T)
      else none
    else if T.env.indirect callee then do
      let (c, _, T) ← genArgsCode T none args
      let (_, cf, T) ← gen T .value callee
      m.isValue (.int false, c ++ cf ++ ops (callEaxCode args.length), T)
    else match T.findFunc x with
      | some f => do
        if !f.declared || (if f.isVarargs then decide (f.params.length ≤ args.length) else decide (args.length = f.params.length)) then
          let (c, n, T) ← genArgsCode T (some f.params) args
          m.isValue (callType f.ret, c ++ ops (callCode x n f.ret), T)
        else none
      | none => do
        let (c, n, T) ← genArgsCode (T.addFunc x) (some []) args
        m.isValue (.int false, c ++ ops (callCode x n (.int false)), T)
  | .cast ty e => do
    let (t, c, T) ← gen T .value e
    m.isValue (ty, c ++ ops (castCode t ty), T)
  | .unary op e => do
    let (t, c, T) ← gen T .value e
    let ty ← genUnary op t
    m.isValue (ty, c ++ ops (unaryCode op t), T)
  | .logical or a b => do
    let ((yes, no), T) ← m.targets T
    let (mid, T) := T.newLabel
    let (yes₁, no₁) := if or then (yes, mid) else (mid, no)
    let (ta, ca, T) ← gen T (if a.isLogical then .jumps yes₁ no₁ else .value) a
    let (tb, cb, T) ← gen T (if b.isLogical then .jumps yes no else .value) b
    return m.finishLogical yes no (logicalJump a ta ca yes₁ no₁ ++ labelAt mid ++ logicalJump b tb cb yes no) T
  | .bin op a b => do
    let (lt, ca, T) ← gen T .value a
    let (rt, cb, T) ← gen T .value b
    let ty ← genBin op lt.decay.promote rt.decay.promote b.isZero
    m.isValue (ty, ca ++ cb ++ ops (binCode T op lt.decay.promote rt.decay.promote), T)

/-- The arguments of a call, from the last to the first, against the parameters of the function called; `none` where a value is
called or the kernel. The number is that of the bytes they take. -/
def genArgsCode (T : CodeEnv) (params : Option (List CType)) : List Node → Option (Code × U32 × CodeEnv)
  | [] => some ([], 0#32, T)
  | a :: as => do
    let (cs, n, T) ← genArgsCode T (params.map List.tail) as
    let (t, c, T) ← gen T .value a
    let pt := params.bind List.head?
    if argAccepted T.env t pt then
      let (ca, k) := argCode T t pt
      return (cs ++ c ++ ops ca, n + k, T)
    else none

end

/-- `gen_cond`: the code jumps to `no` where the condition is false and falls through where it is true. -/
def genCond (T : CodeEnv) (no : Nat) (e : Node) : Option (Code × CodeEnv) :=
  if e.isLogical then do
    let (yes, T) := T.newLabel
    let (_, c, T) ← gen T (.jumps yes no) e
    return (c ++ labelAt yes, T)
  else do
    let (t, c, T) ← gen T .value e
    return (c ++ condJump t no, T)

/-! ## Where code is generated -/

section Equations

variable {T T₁ T₂ : CodeEnv} {a b e : Node} {t lt rt ty : CType} {c ca cb : Code}

-- the equations of `gen` are made here, once for all that follows
attribute [local simp] gen in
theorem gen_cast (ty : CType) (h : gen T .value e = some (t, c, T₁)) :
    gen T .value (.cast ty e) = some (ty, c ++ ops (castCode t ty), T₁) := by
  simp [h, GenMode.isValue]

theorem gen_unary {op : UnaryOp} (h : gen T .value e = some (t, c, T₁)) (hu : genUnary op t = some ty) :
    gen T .value (.unary op e) = some (ty, c ++ ops (unaryCode op t), T₁) := by
  simp [gen, h, hu, GenMode.isValue]

theorem gen_bin {op : BinOp} (ha : gen T .value a = some (lt, ca, T₁)) (hb : gen T₁ .value b = some (rt, cb, T₂))
    (ht : genBin op lt.decay.promote rt.decay.promote b.isZero = some ty) :
    gen T .value (.bin op a b) = some (ty, ca ++ cb ++ ops (binCode T₂ op lt.decay.promote rt.decay.promote), T₂) := by
  simp [gen, ha, hb, ht, GenMode.isValue]

theorem gen_logical {m : GenMode} {or : Bool} {yes no : Nat} {T₀ : CodeEnv} (hT : m.targets T = some ((yes, no), T₀))
    (ha : gen T₀.newLabel.2 (if a.isLogical then .jumps (if or then yes else T₀.labels) (if or then T₀.labels else no) else .value) a =
      some (lt, ca, T₁))
    (hb : gen T₁ (if b.isLogical then .jumps yes no else .value) b = some (rt, cb, T₂)) :
    gen T m (.logical or a b) =
      some (m.finishLogical yes no (logicalJump a lt ca (if or then yes else T₀.labels) (if or then T₀.labels else no) ++
        labelAt T₀.labels ++ logicalJump b rt cb yes no) T₂) := by
  simp only [gen, hT, Option.bind_eq_bind, Option.bind_some]
  cases or <;> simp_all [CodeEnv.newLabel]

/-- The condition of `?:` is generated by `gen_cond`. -/
theorem gen_tern {e : Node} {T₃ : CodeEnv} {ta tb : CType} {cc : Code} (ha : inferType T.env a = some ta)
    (hb : inferType T.env b = some tb) (hr : (ta.decay.isRecord || tb.decay.isRecord) = false)
    (hc : genCond T.newLabel.2.newLabel.2 T.labels e = some (cc, T₁)) (hga : gen T₁ .value a = some (lt, ca, T₂))
    (hgb : gen T₂ .value b = some (rt, cb, T₃)) :
    gen T .value (.tern e a b) = some (ternaryCommonType ta tb,
      cc ++ ca ++ ops (convStack lt (ternaryCommonType ta tb) 0#32) ++ jumpTo (T.labels + 1) ++ labelAt T.labels ++ cb ++
        ops (convStack rt (ternaryCommonType ta tb) 0#32) ++ labelAt (T.labels + 1), T₃) := by
  simp only [gen, ha, hb, hr, Option.bind_eq_bind, Option.bind_some, Bool.false_eq_true, if_false]
  unfold genCond at hc
  cases hl : e.isLogical with
  | true =>
    simp only [hl, if_true, Option.bind_eq_bind, Option.bind_eq_some_iff, Option.pure_def, Option.some.injEq, Prod.mk.injEq,
      Prod.exists] at hc
    obtain ⟨tc, c', T', hc, rfl, rfl⟩ := hc
    simp only [CodeEnv.newLabel] at hc
    simp [CodeEnv.newLabel, hc, hga, hgb, GenMode.isValue]
  | false =>
    simp only [hl, Bool.false_eq_true, if_false, Option.bind_eq_bind, Option.bind_eq_some_iff, Option.pure_def, Option.some.injEq,
      Prod.mk.injEq, Prod.exists] at hc
    obtain ⟨tc, c', T', hc, rfl, rfl⟩ := hc
    simp only [CodeEnv.newLabel] at hc
    simp [CodeEnv.newLabel, hc, hga, hgb, GenMode.isValue]

end Equations

section Inversion

variable {T : CodeEnv} {r : CType × Code × CodeEnv}

theorem gen_bin_inv {op : BinOp} {a b : Node} (h : gen T .value (.bin op a b) = some r) :
    ∃ lt ca T₁ rt cb T₂ ty, gen T .value a = some (lt, ca, T₁) ∧ gen T₁ .value b = some (rt, cb, T₂) ∧
      genBin op lt.decay.promote rt.decay.promote b.isZero = some ty ∧
      r = (ty, ca ++ cb ++ ops (binCode T₂ op lt.decay.promote rt.decay.promote), T₂) := by
  simp only [gen, Option.bind_eq_bind, Option.bind_eq_some_iff, GenMode.isValue, Option.some.injEq, Prod.exists] at h
  obtain ⟨lt, ca, T₁, ha, rt, cb, T₂, hb, ty, ht, rfl⟩ := h
  exact ⟨lt, ca, T₁, rt, cb, T₂, ty, ha, hb, ht, rfl⟩

theorem gen_unary_inv {op : UnaryOp} {a : Node} (h : gen T .value (.unary op a) = some r) :
    ∃ t c T₁ ty, gen T .value a = some (t, c, T₁) ∧ genUnary op t = some ty ∧ r = (ty, c ++ ops (unaryCode op t), T₁) := by
  simp only [gen, Option.bind_eq_bind, Option.bind_eq_some_iff, GenMode.isValue, Option.some.injEq, Prod.exists] at h
  obtain ⟨t, c, T₁, ha, ty, ht, rfl⟩ := h
  exact ⟨t, c, T₁, ty, ha, ht, rfl⟩

theorem gen_logical_inv {m : GenMode} {or : Bool} {a b : Node} (h : gen T m (.logical or a b) = some r) :
    ∃ yes no T₀ ta ca T₁ tb cb T₂, m.targets T = some ((yes, no), T₀) ∧
      gen T₀.newLabel.2 (if a.isLogical then .jumps (if or then yes else T₀.labels) (if or then T₀.labels else no) else .value) a =
        some (ta, ca, T₁) ∧
      gen T₁ (if b.isLogical then .jumps yes no else .value) b = some (tb, cb, T₂) ∧
      r = m.finishLogical yes no (logicalJump a ta ca (if or then yes else T₀.labels) (if or then T₀.labels else no) ++
        labelAt T₀.labels ++ logicalJump b tb cb yes no) T₂ := by
  simp only [gen, Option.bind_eq_bind, Option.bind_eq_some_iff, Prod.exists] at h
  obtain ⟨yes, no, T₀, hT, ta, ca, T₁, ha, tb, cb, T₂, hb, hr⟩ := h
  refine ⟨yes, no, T₀, ta, ca, T₁, tb, cb, T₂, hT, ?_, hb, ?_⟩
  · cases or <;> simpa [CodeEnv.newLabel] using ha
  · cases or <;> exact (Option.some.inj hr).symm

end Inversion

end MiniOs32
