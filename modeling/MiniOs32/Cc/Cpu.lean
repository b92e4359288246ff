import MiniOs32.Cc.Expr
import MiniOs32.Lib.Labelled
import MiniOs32.Lib.Memory

/-!
# The compiler: the instructions it emits

The instructions `cc` emits, by their effect, and the processor they run on: the registers, the flags, the stack of the x87 with
its condition codes and control word, and memory. What an instruction leaves undefined keeps its value, and so do the flags
behind shifts, multiplications and `inc`, which nothing reads. Floats are opaque: the x87 operations are parameters. Loads of an
x87 register beyond the eighth and reads of an empty one give `indefinite`, as the processor does with its exceptions masked.

What runs outside the code at hand is a parameter as well: the addresses the linker chooses, a function from the state before the
`call` of it to the state behind, and the kernel behind `int 0x80`.
-/

namespace MiniOs32

/-- The registers. -/
inductive Reg where
  | eax | ecx | edx | ebx | esp | ebp | esi | edi
  deriving DecidableEq

/-- What an address in the code is resolved to by the linker: a variable by its place in `globals`, a function by its name, or a
literal by its place in `.rodata`. -/
inductive Symbol where
  | global (index : Nat)
  | func (name : List Byte)
  | str (offset : Nat)
  deriving DecidableEq

/-- The width of a narrow access. -/
inductive Width where
  | byte | word
  deriving DecidableEq

/-- The operations on two registers. `cmp` only sets the flags. -/
inductive AluOp where
  | add | sub | and | or | xor | cmp
  deriving DecidableEq

/-- The shifts of `eax` by `cl`. -/
inductive ShiftOp where
  | shl | shr | sar
  deriving DecidableEq

/-- The conditions `cc` tests with `setcc`, `je` and `jnz`: `b` to `ae` are unsigned, `l` to `ge` signed. -/
inductive Cond where
  | e | ne | b | be | a | ae | l | le | g | ge
  deriving DecidableEq

/-- The arithmetic of the x87: `faddp`, `fsubp`, `fmulp` and `fdivp`. -/
inductive FloatOp where
  | add | sub | mul | div
  deriving DecidableEq

/-- An instruction. -/
inductive Insn where
  | pushImm (v : U32)
  | push (r : Reg)
  | pop (r : Reg)
  | movImm (r : Reg) (v : U32)
  /-- `mov eax, imm` with a fixup. -/
  | movAddr (a : Symbol)
  | mov (d s : Reg)
  /-- `lea eax, [ebp+disp]`. -/
  | leaFrame (disp : U32)
  /-- `mov eax, [ebp+disp]`. -/
  | loadFrame (disp : U32)
  /-- `mov [ebp+disp], eax`. -/
  | storeFrame (disp : U32)
  /-- `mov d, [s]`. -/
  | load (d s : Reg)
  /-- `movsx` or `movzx` of `[eax]` to `eax`. -/
  | loadNarrow (w : Width) (uns : Bool)
  /-- `mov [d], s`. -/
  | store (d s : Reg)
  /-- `mov [ebx], al` or `mov [ebx], ax`. -/
  | storeNarrow (w : Width)
  /-- `mov byte [eax+disp], b`. -/
  | storeByte (disp : U32) (b : Byte)
  /-- `movsx` or `movzx` of `al` or `ax` to `eax`. -/
  | extend (w : Width) (uns : Bool)
  | alu (op : AluOp) (d s : Reg)
  | addImm (r : Reg) (v : U32)
  | subImm (r : Reg) (v : U32)
  /-- `cmp eax, imm`. -/
  | cmpImm (v : U32)
  /-- `imul eax, ebx`. -/
  | imul
  /-- `imul eax, eax, imm`. -/
  | imulImm (v : U32)
  | shift (op : ShiftOp)
  | cdq
  | div (r : Reg)
  | idiv (r : Reg)
  | neg
  | not
  /-- `setcc al`. -/
  | set (c : Cond)
  | inc
  | decEcx
  | cld
  | repMovsb
  | call (name : List Byte)
  | callEax
  | int80
  | leave
  | ret
  /-- `fld dword [esp+disp]`. -/
  | fld (disp : U32)
  /-- `fild dword [esp+disp]`. -/
  | fild (disp : U32)
  /-- `fstp dword [esp+disp]`. -/
  | fstp (disp : U32)
  /-- `fistp dword [esp+disp]`. -/
  | fistp (disp : U32)
  | ftst
  | fcompp
  | fstsw
  | sahf
  | fchs
  | farith (op : FloatOp)
  | fnstcw (disp : U32)
  | fldcw (disp : U32)
  /-- `or word [esp+disp], v`. -/
  | orWord (disp : U32) (v : BitVec 16)
  deriving DecidableEq

/-- What the x87 computes. The rounding of `toInt` is the two bits of the control word. -/
structure FloatOps (F : Type) where
  ofBits : U32 → F
  toBits : F → U32
  ofInt : U32 → F
  toInt : BitVec 2 → F → U32
  neg : F → F
  arith : FloatOp → F → F → F
  isNaN : F → Bool
  isZero : F → Bool
  below : F → F → Bool
  indefinite : F

/-- The flags. -/
structure Flags where
  cf : Bool
  zf : Bool
  sf : Bool
  of : Bool
  deriving DecidableEq

/-- The condition codes C0, C2 and C3 of the x87. -/
structure FloatCodes where
  c0 : Bool
  c2 : Bool
  c3 : Bool
  deriving DecidableEq

/-- The processor and its memory. -/
structure Cpu (F : Type) where
  regs : Reg → U32
  flags : Flags
  fpu : List F
  codes : FloatCodes
  cw : BitVec 16
  mem : Mem

/-- What the code at hand does not decide. -/
structure World (F : Type) where
  float : FloatOps F
  addr : Symbol → U32
  call : U32 → Cpu F → Option (Cpu F)
  syscall : Cpu F → Option (Cpu F)

namespace Cpu

variable {F : Type}

/-- A register set. -/
def set (s : Cpu F) (r : Reg) (v : U32) : Cpu F := { s with regs := Function.update s.regs r v }

/-- `push`. -/
def push (s : Cpu F) (v : U32) : Cpu F :=
  let a := s.regs .esp - 4#32
  { s with regs := Function.update s.regs .esp a, mem := s.mem.write32 a v }

/-- The word on top of the stack. -/
def top (s : Cpu F) : U32 := s.mem.read32 (s.regs .esp)

/-- The word under the top of the stack. -/
def second (s : Cpu F) : U32 := s.mem.read32 (s.regs .esp + 4#32)

/-- `pop` to a register other than `esp`. -/
def pop (s : Cpu F) (r : Reg) : Cpu F :=
  { s with regs := Function.update (Function.update s.regs .esp (s.regs .esp + 4#32)) r s.top }

/-- A register of the x87 pushed. -/
def fpush (s : Cpu F) (w : World F) (x : F) : Cpu F :=
  if s.fpu.length < 8 then { s with fpu := x :: s.fpu } else { s with fpu := w.float.indefinite :: s.fpu.take 7 }

/-- The top of the x87 stack. -/
def st0 (s : Cpu F) (w : World F) : F := s.fpu.headD w.float.indefinite

/-- The register under it. -/
def st1 (s : Cpu F) (w : World F) : F := s.fpu.tail.headD w.float.indefinite

end Cpu

/-- The flags a sum leaves. -/
def addFlags (a b : U32) : Flags :=
  let r := a + b
  ⟨decide (2 ^ 32 ≤ a.toNat + b.toNat), decide (r = 0#32), r.msb, decide (a.msb = b.msb ∧ r.msb ≠ a.msb)⟩

/-- The flags a difference or a comparison leaves. -/
def subFlags (a b : U32) : Flags :=
  let r := a - b
  ⟨a.ult b, decide (r = 0#32), r.msb, decide (a.msb ≠ b.msb ∧ r.msb ≠ a.msb)⟩

/-- The flags a logical operation leaves. -/
def logicFlags (r : U32) : Flags := ⟨false, decide (r = 0#32), r.msb, false⟩

/-- Whether a condition is met. -/
def Cond.holds (f : Flags) : Cond → Bool
  | .e => f.zf
  | .ne => !f.zf
  | .b => f.cf
  | .be => f.cf || f.zf
  | .a => !f.cf && !f.zf
  | .ae => !f.cf
  | .l => f.sf != f.of
  | .le => f.zf || f.sf != f.of
  | .g => !f.zf && f.sf == f.of
  | .ge => f.sf == f.of

/-- The result and the flags of an operation on two registers; `none` where the first register keeps its value. -/
def AluOp.apply : AluOp → U32 → U32 → Option U32 × Flags
  | .add, a, b => (some (a + b), addFlags a b)
  | .sub, a, b => (some (a - b), subFlags a b)
  | .and, a, b => (some (a &&& b), logicFlags (a &&& b))
  | .or, a, b => (some (a ||| b), logicFlags (a ||| b))
  | .xor, a, b => (some (a ^^^ b), logicFlags (a ^^^ b))
  | .cmp, a, b => (none, subFlags a b)

/-- A shift by the low five bits of the count. -/
def ShiftOp.apply (op : ShiftOp) (a c : U32) : U32 :=
  match op with
  | .shl => a <<< (c.toNat % 32)
  | .shr => a >>> (c.toNat % 32)
  | .sar => a.sshiftRight (c.toNat % 32)

/-- The low byte or word of a register, extended. -/
def Width.extend : Width → Bool → U32 → U32
  | .byte, true, v => (v.setWidth 8).setWidth 32
  | .byte, false, v => (v.setWidth 8).signExtend 32
  | .word, true, v => (v.setWidth 16).setWidth 32
  | .word, false, v => (v.setWidth 16).signExtend 32

/-- The number of bytes. -/
def Width.bytes : Width → Nat
  | .byte => 1
  | .word => 2

/-- `div`: the pair `edx:eax` by an unsigned divisor, with the fault for a quotient that does not fit. -/
def divU (hi lo d : U32) : Option (U32 × U32) :=
  let n := hi.toNat * 2 ^ 32 + lo.toNat
  if d = 0#32 ∨ 2 ^ 32 ≤ n / d.toNat then none else some (BitVec.ofNat 32 (n / d.toNat), BitVec.ofNat 32 (n % d.toNat))

/-- `idiv`: the same signed, rounding towards zero. -/
def divS (hi lo d : U32) : Option (U32 × U32) :=
  let n := (hi ++ lo : BitVec 64).toInt
  let q := n.tdiv d.toInt
  if d = 0#32 ∨ q < -2 ^ 31 ∨ 2 ^ 31 ≤ q then none else some (BitVec.ofInt 32 q, BitVec.ofInt 32 (n.tmod d.toInt))

/-- `rep movsb` with the direction flag clear: one byte after the other, from the lowest address up. -/
def copyBytes (m : Mem) (src dst : U32) : Nat → Mem
  | 0 => m
  | n + 1 => copyBytes (Function.update m dst (m src)) (src + 1#32) (dst + 1#32) n

/-- The condition codes of a comparison of two floats. -/
def FloatOps.compare {F : Type} (f : FloatOps F) (x y : F) (eq : Bool) : FloatCodes :=
  if f.isNaN x || f.isNaN y then ⟨true, true, true⟩ else ⟨f.below x y, false, eq⟩

/-- One instruction; `none` where it faults. -/
def Insn.exec {F : Type} (w : World F) (i : Insn) (s : Cpu F) : Option (Cpu F) :=
  match i with
  | .pushImm v => some (s.push v)
  | .push r => some (s.push (s.regs r))
  | .pop r => some (s.pop r)
  | .movImm r v => some (s.set r v)
  | .movAddr a => some (s.set .eax (w.addr a))
  | .mov d r => some (s.set d (s.regs r))
  | .leaFrame disp => some (s.set .eax (s.regs .ebp + disp))
  | .loadFrame disp => some (s.set .eax (s.mem.read32 (s.regs .ebp + disp)))
  | .storeFrame disp => some { s with mem := s.mem.write32 (s.regs .ebp + disp) (s.regs .eax) }
  | .load d r => some (s.set d (s.mem.read32 (s.regs r)))
  | .loadNarrow wd uns => some (s.set .eax (wd.extend uns (s.mem.read32 (s.regs .eax))))
  | .store d r => some { s with mem := s.mem.write32 (s.regs d) (s.regs r) }
  | .storeNarrow wd => some { s with mem := s.mem.write (s.regs .ebx) ((le32 (s.regs .eax)).take wd.bytes) }
  | .storeByte disp b => some { s with mem := s.mem.write (s.regs .eax + disp) [b] }
  | .extend wd uns => some (s.set .eax (wd.extend uns (s.regs .eax)))
  | .alu op d r =>
    let (v, fl) := op.apply (s.regs d) (s.regs r)
    some { s.set d (v.getD (s.regs d)) with flags := fl }
  | .addImm r v => some { s.set r (s.regs r + v) with flags := addFlags (s.regs r) v }
  | .subImm r v => some { s.set r (s.regs r - v) with flags := subFlags (s.regs r) v }
  | .cmpImm v => some { s with flags := subFlags (s.regs .eax) v }
  | .imul => some (s.set .eax (s.regs .eax * s.regs .ebx))
  | .imulImm v => some (s.set .eax (s.regs .eax * v))
  | .shift op => some (s.set .eax (op.apply (s.regs .eax) (s.regs .ecx)))
  | .cdq => some (s.set .edx (if (s.regs .eax).msb then BitVec.allOnes 32 else 0#32))
  | .div r => (divU (s.regs .edx) (s.regs .eax) (s.regs r)).map fun qr => (s.set .eax qr.1).set .edx qr.2
  | .idiv r => (divS (s.regs .edx) (s.regs .eax) (s.regs r)).map fun qr => (s.set .eax qr.1).set .edx qr.2
  | .neg => some { s.set .eax (-s.regs .eax) with flags := subFlags 0#32 (s.regs .eax) }
  | .not => some (s.set .eax (~~~s.regs .eax))
  | .set c => some (s.set .eax ((s.regs .eax).extractLsb' 8 24 ++ if c.holds s.flags then 1#8 else 0#8))
  | .inc => some (s.set .eax (s.regs .eax + 1#32))
  | .decEcx => some { s.set .ecx (s.regs .ecx - 1#32) with flags := { subFlags (s.regs .ecx) 1#32 with cf := s.flags.cf } }
  | .cld => some s
  | .repMovsb =>
    let n := s.regs .ecx
    some { ((s.set .esi (s.regs .esi + n)).set .edi (s.regs .edi + n)).set .ecx 0#32 with
      mem := copyBytes s.mem (s.regs .esi) (s.regs .edi) n.toNat }
  | .call x => w.call (w.addr (.func x)) s
  | .callEax => w.call (s.regs .eax) s
  | .int80 => w.syscall s
  | .leave => some ((s.set .esp (s.regs .ebp)).pop .ebp)
  | .ret => some (s.set .esp (s.regs .esp + 4#32))
  | .fld disp => some (s.fpush w (w.float.ofBits (s.mem.read32 (s.regs .esp + disp))))
  | .fild disp => some (s.fpush w (w.float.ofInt (s.mem.read32 (s.regs .esp + disp))))
  | .fstp disp => some { s with mem := s.mem.write32 (s.regs .esp + disp) (w.float.toBits (s.st0 w)), fpu := s.fpu.tail }
  | .fistp disp =>
    some { s with mem := s.mem.write32 (s.regs .esp + disp) (w.float.toInt (s.cw.extractLsb' 10 2) (s.st0 w)), fpu := s.fpu.tail }
  | .ftst =>
    let x := s.st0 w
    some { s with codes := w.float.compare x (w.float.ofInt 0#32) (w.float.isZero x) }
  | .fcompp =>
    let x := s.st0 w
    let y := s.st1 w
    some { s with codes := w.float.compare x y (!w.float.below x y && !w.float.below y x), fpu := s.fpu.tail.tail }
  | .fstsw =>
    let bit (b : Bool) (n : Nat) : U32 := if b then 1#32 <<< n else 0#32
    some (s.set .eax ((s.regs .eax).extractLsb' 16 16 ++ 0#16 ||| (bit s.codes.c0 8 ||| bit s.codes.c2 10 ||| bit s.codes.c3 14)))
  | .sahf =>
    let ax := s.regs .eax
    some { s with flags := { s.flags with cf := ax.getLsbD 8, zf := ax.getLsbD 14, sf := ax.getLsbD 15 } }
  | .fchs => some { s with fpu := w.float.neg (s.st0 w) :: s.fpu.tail }
  | .farith op => some { s with fpu := w.float.arith op (s.st1 w) (s.st0 w) :: s.fpu.tail.tail }
  | .fnstcw disp => some { s with mem := s.mem.write (s.regs .esp + disp) [s.cw.extractLsb' 0 8, s.cw.extractLsb' 8 8] }
  | .fldcw disp => some { s with cw := (s.mem.read32 (s.regs .esp + disp)).setWidth 16 }
  | .orWord disp v =>
    let x := (s.mem.read32 (s.regs .esp + disp)).setWidth 16 ||| v
    some { s with mem := s.mem.write (s.regs .esp + disp) [x.extractLsb' 0 8, x.extractLsb' 8 8], flags := logicFlags (x.setWidth 32) }

/-- The code of a function: instructions and labels, with the jumps of `emit_jmp_label` and `emit_jcc_label`. -/
abbrev Code : Type := List (Item Insn Cond)

/-- The processor as a machine. -/
def machine {F : Type} (w : World F) : TextMachine Insn Cond (Cpu F) := ⟨Insn.exec w, fun c s => c.holds s.flags⟩

end MiniOs32
