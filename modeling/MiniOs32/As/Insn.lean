import MiniOs32.As.Lex

/-!
# The assembler: instruction encoding

`asm_insn` tries the instruction groups one after the other on the mnemonic; each group has a definition here, which picks a form:
opcode bytes, then maybe an operand encoding, then maybe an immediate. Every branch of the source emits in that order, and none
emits before it reports an error of its own. An operand list holds as many operands as the line has. The form, and so the size,
may look at a displacement or an immediate only when no symbol takes part in it.
-/

namespace MiniOs32

/-! ## Operand encoding -/

/-- `(mod << 6) | (reg << 3) | rm`. -/
def modrmByte (mod : BitVec 2) (reg rm : RegNum) : Byte := mod ++ reg ++ rm

/-- Notes a scale factor. -/
def Asm.noteScale (s : Asm) (sc : Expr) : Asm :=
  { s with trace :=
    { s.trace.note (fun l => { l with sized := l.sized || sc.hasSym }) with symScales := s.trace.symScales + sc.hasSym.toNat } }

/-- `scale_bits`. -/
def Asm.scaleBits (s : Asm) (sc : Expr) : BitVec 2 × Asm :=
  if sc.val = 1#32 then (0#2, s.noteScale sc)
  else if sc.val = 2#32 then (1#2, s.noteScale sc)
  else if sc.val = 4#32 then (2#2, s.noteScale sc)
  else if sc.val = 8#32 then (3#2, s.noteScale sc)
  else (0#2, (s.noteScale sc).err "scale must be 1, 2, 4 or 8" [])

/-- `scale_bits`, as a computation. -/
def scaleBits (sc : Expr) : AsmM (BitVec 2) := fun s => some (s.scaleBits sc)

/-- A value in the range of a signed byte. -/
def fits8 (v : U32) : Bool := -128 ≤ v.toInt && v.toInt ≤ 127

/-- The displacement size `emit_modrm` picks for a base register: none, one byte or four. -/
def modOf (disp : Expr) (base : RegNum) : BitVec 2 :=
  if disp.hasSym then 2#2
  else if disp.val = 0#32 ∧ base ≠ 5#3 then 0#2
  else if fits8 disp.val then 1#2
  else 2#2

/-- The displacement bytes for a choice of `modOf`. -/
def emitDisp (mod : BitVec 2) (disp : U32) : AsmM Unit :=
  if mod = 1#2 then emit8 (disp.setWidth 8)
  else if mod = 2#2 then emit32 disp
  else pure ()

/-- `emit_modrm`. -/
def emitModrm (reg : RegNum) (o : Operand) : AsmM Unit :=
  if o.kind = .reg then emit8 (modrmByte 3#2 reg o.reg)
  else if o.kind ≠ .mem then err "expected memory or register operand" []
  else match o.base, o.index with
    | none, none => do
      emit8 (modrmByte 0#2 reg 5#3)
      emit32 o.disp.val
    | none, some i => do
      emit8 (modrmByte 0#2 reg 4#3)
      let ss ← scaleBits o.scale
      emit8 (modrmByte ss i 5#3)
      emit32 o.disp.val
    | some b, some i => do
      emit8 (modrmByte (modOf o.disp b) reg 4#3)
      let ss ← scaleBits o.scale
      emit8 (modrmByte ss i b)
      emitDisp (modOf o.disp b) o.disp.val
    | some b, none =>
      -- `%esp` as a base needs a SIB byte, with index 4 for "no index"
      if b = 4#3 then do
        emit8 (modrmByte (modOf o.disp b) reg 4#3)
        let ss ← scaleBits o.scale
        emit8 (modrmByte ss 4#3 b)
        emitDisp (modOf o.disp b) o.disp.val
      else do
        emit8 (modrmByte (modOf o.disp b) reg b)
        emitDisp (modOf o.disp b) o.disp.val

/-- `imm_fits8`. -/
def Operand.immFits8 (o : Operand) : Bool := !o.disp.hasSym && fits8 o.disp.val

/-- An operand that is an absolute address: neither base nor index. -/
def Operand.isAbs (o : Operand) : Bool := o.kind = .mem && o.base.isNone && o.index.isNone

/-- The accumulator as an operand. -/
def Operand.isAcc (o : Operand) : Bool := o.kind = .reg && o.reg = 0#3

/-- A distance from the end of the instruction, unknown in the first pass. -/
def Asm.relTo (s : Asm) (target : Expr) : U32 :=
  match s.pass with
  | .one => 0#32
  | .two => target.val - (s.curAddr + 4#32)

/-- The distance, as a computation. -/
def relTo (target : Expr) : AsmM U32 := do return (← get).relTo target

/-- `emit_rel32`. -/
def emitRel32 (target : Expr) : AsmM Unit := do
  let v ← relTo target
  emit32 v

/-- What follows the opcode and the operand encoding. -/
inductive Imm where
  | none
  | imm8 (v : U32)
  | imm32 (v : U32)
  | rel32 (target : Expr)
  deriving DecidableEq

/-- What `asm_insn` does with a line: an opcode alone, an opcode with an operand encoding, or an error. -/
inductive Form where
  | op (opcode : List Byte) (imm : Imm)
  | rm (opcode : List Byte) (reg : RegNum) (o : Operand) (imm : Imm)
  | bad (msg : String) (detail : List Byte)
  deriving DecidableEq

/-- The immediate bytes. -/
def emitImm : Imm → AsmM Unit
  | .none => pure ()
  | .imm8 v => emit8 (v.setWidth 8)
  | .imm32 v => emit32 v
  | .rel32 target => emitRel32 target

/-- The opcode bytes. -/
def emitOpcode : List Byte → AsmM Unit
  | [] => pure ()
  | b :: bs => do
    emit8 b
    emitOpcode bs

/-- The bytes of an instruction, in the order every branch of `asm_insn` emits them. -/
def emitForm : Form → AsmM Unit
  | .op opcode imm => do
    emitOpcode opcode
    emitImm imm
  | .rm opcode reg o imm => do
    emitOpcode opcode
    emitModrm reg o
    emitImm imm
  | .bad msg detail => err msg detail

/-- An opcode that has a byte form just before its word form. -/
def sized (size : Nat) (byte word : Byte) : Byte := if size = 1 then byte else word

/-- An immediate of one byte or four, by the operand width. -/
def Operand.imm (o : Operand) (size : Nat) : Imm := if size = 1 then .imm8 o.disp.val else .imm32 o.disp.val

/-! ## Instruction tables -/

/-- `alu_ops`. -/
def aluOps : List (String × Byte × RegNum) :=
  [("add", 0x00#8, 0#3), ("or", 0x08#8, 1#3), ("adc", 0x10#8, 2#3), ("sbb", 0x18#8, 3#3),
   ("and", 0x20#8, 4#3), ("sub", 0x28#8, 5#3), ("xor", 0x30#8, 6#3), ("cmp", 0x38#8, 7#3)]

/-- `cc_ops`. -/
def ccOps : List (String × Byte) :=
  [("o", 0x0#8), ("no", 0x1#8), ("b", 0x2#8), ("nae", 0x2#8), ("c", 0x2#8), ("ae", 0x3#8), ("nb", 0x3#8), ("nc", 0x3#8),
   ("e", 0x4#8), ("z", 0x4#8), ("ne", 0x5#8), ("nz", 0x5#8), ("be", 0x6#8), ("na", 0x6#8), ("a", 0x7#8), ("nbe", 0x7#8),
   ("s", 0x8#8), ("ns", 0x9#8), ("p", 0xA#8), ("np", 0xB#8), ("l", 0xC#8), ("nge", 0xC#8), ("ge", 0xD#8), ("nl", 0xD#8),
   ("le", 0xE#8), ("ng", 0xE#8), ("g", 0xF#8), ("nle", 0xF#8)]

/-- The unary group `F7`. -/
def unaryOps : List (String × RegNum) := [("not", 2#3), ("neg", 3#3), ("mul", 4#3), ("div", 6#3), ("idiv", 7#3)]

/-- `shift_digit`, as a table. -/
def shiftOps : List (String × RegNum) := [("shl", 4#3), ("sal", 4#3), ("shr", 5#3), ("sar", 7#3), ("rol", 0#3), ("ror", 1#3)]

/-- The forms without operands. -/
def plainOps : List (String × Byte) :=
  [("ret", 0xC3#8), ("leave", 0xC9#8), ("nop", 0x90#8), ("hlt", 0xF4#8), ("cdq", 0x99#8), ("cltd", 0x99#8), ("cwde", 0x98#8),
   ("cwtl", 0x98#8), ("pushal", 0x60#8), ("pusha", 0x60#8), ("popal", 0x61#8), ("popa", 0x61#8), ("pushfl", 0x9C#8),
   ("pushf", 0x9C#8), ("popfl", 0x9D#8), ("popf", 0x9D#8)]

/-- The entry of a table under a name. -/
def tableFind {α : Type} (table : List (String × α)) (m : List Byte) : Option α :=
  (table.find? fun p => asciiBytes p.1 = m).map Prod.snd

/-- `cc_lookup`. -/
def ccLookup (m : List Byte) : Option Byte := tableFind ccOps m

/-! ## Instruction groups -/

/-- The eight ALU operations. -/
def aluForm (m : List Byte) (base : Byte) (digit : RegNum) (size : Nat) : List Operand → Form
  | [a, b] =>
    if a.kind = .imm then
      if size = 1 then
        if b.isAcc then .op [base + 0x04#8] (.imm8 a.disp.val) else .rm [0x80#8] digit b (.imm8 a.disp.val)
      else if a.immFits8 then .rm [0x83#8] digit b (.imm8 a.disp.val)
      else if b.isAcc then .op [base + 0x05#8] (.imm32 a.disp.val)
      else .rm [0x81#8] digit b (.imm32 a.disp.val)
    else if a.kind = .reg then .rm [base + sized size 0x00#8 0x01#8] a.reg b .none
    else if b.kind = .reg then .rm [base + sized size 0x02#8 0x03#8] b.reg a .none
    else .bad "invalid operand combination" m
  | _ => .bad "expected two operands" m

/-- `mov`. -/
def movForm (m : List Byte) (size : Nat) : List Operand → Form
  | [a, b] =>
    if a.isAbs && b.isAcc then .op [sized size 0xA0#8 0xA1#8] (.imm32 a.disp.val)
    else if a.isAcc && b.isAbs then .op [sized size 0xA2#8 0xA3#8] (.imm32 b.disp.val)
    else if a.kind = .imm then
      if b.kind = .reg then .op [sized size 0xB0#8 0xB8#8 + b.reg.setWidth 8] (a.imm size)
      else .rm [sized size 0xC6#8 0xC7#8] 0#3 b (a.imm size)
    else if a.kind = .reg then .rm [sized size 0x88#8 0x89#8] a.reg b .none
    else if b.kind = .reg then .rm [sized size 0x8A#8 0x8B#8] b.reg a .none
    else .bad "mov needs a register operand" []
  | _ => .bad "expected two operands" m

/-- The zero- and sign-extending loads: opcode byte after `0F`. -/
def movxOps : List (String × Byte) := [("movzbl", 0xB6#8), ("movsbl", 0xBE#8), ("movzwl", 0xB7#8), ("movswl", 0xBF#8)]

/-- An instruction `0F op` with a register destination: `movzbl` and the like, and `cmovcc`. -/
def twoByteForm (msg : String) (m : List Byte) (op : Byte) : List Operand → Form
  | [a, b] => if b.kind ≠ .reg then .bad msg m else .rm [0x0F#8, op] b.reg a .none
  | _ => .bad msg m

/-- `lea`. -/
def leaForm : List Operand → Form
  | [a, b] => if a.kind ≠ .mem ∨ b.kind ≠ .reg then .bad "expected lea mem, %reg" [] else .rm [0x8D#8] b.reg a .none
  | _ => .bad "expected lea mem, %reg" []

/-- `test`. -/
def testForm (m : List Byte) (size : Nat) : List Operand → Form
  | [a, b] =>
    if a.kind = .imm then
      if b.isAcc then .op [sized size 0xA8#8 0xA9#8] (a.imm size)
      else .rm [sized size 0xF6#8 0xF7#8] 0#3 b (a.imm size)
    else if a.kind = .reg then .rm [sized size 0x84#8 0x85#8] a.reg b .none
    else if b.kind = .reg then .rm [sized size 0x84#8 0x85#8] b.reg a .none
    else .bad "invalid operands" m
  | _ => .bad "expected two operands" m

/-- `xchg`. -/
def xchgForm (m : List Byte) (size : Nat) : List Operand → Form
  | [a, b] =>
    if size = 4 ∧ a.kind = .reg ∧ b.kind = .reg ∧ (a.reg = 0#3 ∨ b.reg = 0#3) then
      .op [0x90#8 + (if a.reg = 0#3 then b.reg else a.reg).setWidth 8] .none
    else if a.kind = .reg then .rm [0x87#8] a.reg b .none
    else if b.kind = .reg then .rm [0x87#8] b.reg a .none
    else .bad "xchg needs a register" []
  | _ => .bad "expected two operands" m

/-- `push`. -/
def pushForm (m : List Byte) : List Operand → Form
  | [a] =>
    if a.kind = .reg then .op [0x50#8 + a.reg.setWidth 8] .none
    else if a.kind = .imm then
      if a.immFits8 then .op [0x6A#8] (.imm8 a.disp.val) else .op [0x68#8] (.imm32 a.disp.val)
    else .rm [0xFF#8] 6#3 a .none
  | _ => .bad "expected one operand" m

/-- `pop`. -/
def popForm (m : List Byte) : List Operand → Form
  | [a] => if a.kind = .reg then .op [0x58#8 + a.reg.setWidth 8] .none else .rm [0x8F#8] 0#3 a .none
  | _ => .bad "expected one operand" m

/-- `inc` and `dec`: the short opcode and the extension of each. -/
def incOps : List (String × Byte × RegNum) := [("inc", 0x40#8, 0#3), ("dec", 0x48#8, 1#3)]

/-- `inc` and `dec`. -/
def incForm (m : List Byte) (op : Byte) (digit : RegNum) (size : Nat) : List Operand → Form
  | [a] =>
    if a.kind = .reg ∧ size = 4 then .op [op + a.reg.setWidth 8] .none
    else .rm [sized size 0xFE#8 0xFF#8] digit a .none
  | _ => .bad "expected one operand" m

/-- The unary group. -/
def unaryForm (m : List Byte) (digit : RegNum) (size : Nat) : List Operand → Form
  | [a] => .rm [sized size 0xF6#8 0xF7#8] digit a .none
  | _ => .bad "expected one operand" m

/-- `imul`. -/
def imulForm : List Operand → Form
  | [a] => .rm [0xF7#8] 5#3 a .none
  | [a, b] => if b.kind = .reg then .rm [0x0F#8, 0xAF#8] b.reg a .none else .bad "bad imul operands" []
  | [a, b, c] =>
    if a.kind = .imm ∧ c.kind = .reg then
      if a.immFits8 then .rm [0x6B#8] c.reg b (.imm8 a.disp.val) else .rm [0x69#8] c.reg b (.imm32 a.disp.val)
    else .bad "bad imul operands" []
  | _ => .bad "bad imul operands" []

/-- A count of one that pass 1 can already see. -/
def Operand.isOne (o : Operand) : Bool := !o.disp.hasSym && o.disp.val = 1#32

/-- The shifts and rotates. -/
def shiftForm (digit : RegNum) (size : Nat) : List Operand → Form
  | [a] => .rm [sized size 0xD0#8 0xD1#8] digit a .none
  | [a, b] =>
    if a.kind = .imm then
      if a.isOne then .rm [sized size 0xD0#8 0xD1#8] digit b .none
      else .rm [sized size 0xC0#8 0xC1#8] digit b (.imm8 a.disp.val)
    else if a.kind = .reg ∧ a.reg = 1#3 ∧ a.size = 1 then .rm [sized size 0xD2#8 0xD3#8] digit b .none
    else .bad "shift count must be $imm or %cl" []
  | _ => .bad "shift count must be $imm or %cl" []

/-- `jmp` and `call`: the direct opcode and the extension of the indirect form. -/
def branchOps : List (String × Byte × RegNum) := [("jmp", 0xE9#8, 4#3), ("call", 0xE8#8, 2#3)]

/-- `jmp` and `call`. -/
def branchForm (m : List Byte) (op : Byte) (digit : RegNum) : List Operand → Form
  | [a] => if a.isAbs then .op [op] (.rel32 a.disp) else .rm [0xFF#8] digit a .none
  | _ => .bad "expected one operand" m

/-- A conditional jump. -/
def jccForm (m : List Byte) (cc : Byte) : List Operand → Form
  | [a] => .op [0x0F#8, 0x80#8 + cc] (.rel32 a.disp)
  | _ => .bad "expected one operand" m

/-- `setcc`. -/
def setccForm (m : List Byte) (cc : Byte) : List Operand → Form
  | [a] => .rm [0x0F#8, 0x90#8 + cc] 0#3 a .none
  | _ => .bad "expected one operand" m

/-- `int`. -/
def intForm : List Operand → Form
  | [a] => if a.kind ≠ .imm then .bad "expected int $n" [] else .op [0xCD#8] (.imm8 a.disp.val)
  | _ => .bad "expected int $n" []

/-- A condition code after a stem such as `j` or `set`. -/
def ccAfter (stem : String) (m : List Byte) : Option Byte :=
  if asciiBytes stem = m.take stem.length then ccLookup (m.drop stem.length) else none

/-- The groups of `asm_insn` from the control flow on. -/
def controlForm (m : List Byte) (ops : List Operand) : Form :=
  match tableFind branchOps m with
  | some (op, digit) => branchForm m op digit ops
  | none => match ccAfter "j" m with
    | some cc => jccForm m cc ops
    | none => match ccAfter "set" m with
      | some cc => setccForm m cc ops
      | none => match ccAfter "cmov" m with
        | some cc => twoByteForm "expected src, %reg" m (0x40#8 + cc) ops
        | none => match tableFind plainOps m with
          | some op => .op [op] .none
          | none => if m = asciiBytes "int" then intForm ops else .bad "unknown instruction" m

/-- The groups of `asm_insn` from `push` on. -/
def stackForm (m : List Byte) (ops : List Operand) (size : Nat) : Form :=
  if m = asciiBytes "push" then pushForm m ops
  else if m = asciiBytes "pop" then popForm m ops
  else match tableFind incOps m with
    | some (op, digit) => incForm m op digit size ops
    | none => match tableFind unaryOps m with
      | some digit => unaryForm m digit size ops
      | none =>
        if m = asciiBytes "imul" then imulForm ops
        else match tableFind shiftOps m with
          | some digit => shiftForm digit size ops
          | none => controlForm m ops

/-- The form `asm_insn` picks. -/
def insnForm (m : List Byte) (ops : List Operand) (size : Nat) : Form :=
  match tableFind aluOps m with
  | some (base, digit) => aluForm m base digit size ops
  | none =>
    if m = asciiBytes "mov" then movForm m size ops
    else match tableFind movxOps m with
      | some op => twoByteForm "expected src, %reg32" m op ops
      | none =>
        if m = asciiBytes "lea" then leaForm ops
        else if m = asciiBytes "test" then testForm m size ops
        else if m = asciiBytes "xchg" then xchgForm m size ops
        else stackForm m ops size

/-- `asm_insn`. -/
def asmInsn (m : List Byte) (ops : List Operand) (size : Nat) : AsmM Unit := emitForm (insnForm m ops size)

end MiniOs32
