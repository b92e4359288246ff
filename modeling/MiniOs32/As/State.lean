import MiniOs32.Lib.Words

/-!
# The assembler: symbols, sections and the output buffers

`as` reads a whole source file into memory and walks it three times: once to size every item and record label offsets, twice to
emit bytes. Its globals are one state record here, and a function of the source is a computation on that record. A computation
returns nothing when the loop it models never ends; every other path returns, errors included, since `err` only counts and
prints.
-/

namespace MiniOs32

/-- `MAX_TEXT`. -/
def maxText : Int := 32768
/-- `MAX_DATA`. -/
def maxData : Int := 16384
/-- `MAX_SYM`. -/
def maxSym : Nat := 512
/-- `MAX_LINE`. -/
def maxLine : Nat := 256
/-- `MAX_OPS`. -/
def maxOps : Nat := 3
/-- `ELF_HDR_SIZE`. -/
def elfHdrSize : Int := 84

/-- `SEC_TEXT`, `SEC_DATA`, `SEC_BSS`. -/
inductive Sec where
  | text
  | data
  | bss
  deriving DecidableEq

/-- The two values `pass` takes. -/
inductive Pass where
  | one
  | two
  deriving DecidableEq

/-- `Sym`: a label with its place, or a `.equ` value. -/
structure Sym where
  name : List Byte
  sec : Sec
  offset : Int
  addr : U32
  isAbs : Bool
  defined : Bool
  deriving DecidableEq

/-- A line `err` prints: the line number, the message and the detail. -/
structure Diag where
  lineNo : Nat
  msg : String
  detail : List Byte
  deriving DecidableEq

/-- The three section lengths when a source line is reached. -/
structure Lens where
  text : Int
  data : Int
  bss : Int
  deriving DecidableEq

/-- A label met in the source, with the section and the offset the pass has reached there. -/
structure Mark where
  name : List Byte
  sec : Sec
  offset : Int
  deriving DecidableEq

/-- `Expr`. -/
structure Expr where
  val : U32
  hasSym : Bool
  deriving DecidableEq

/-- What a line asks of the symbols. -/
structure LineNote where
  /-- The names its expressions refer to, latest first. -/
  refs : List (List Byte)
  /-- Whether it emits a byte other than padding. -/
  emits : Bool
  /-- Whether an alignment or a scale factor on it has an operand that names a symbol. -/
  sized : Bool
  /-- The names it defines by `.equ`, with their expressions. -/
  equs : List (List Byte × Expr)
  deriving DecidableEq

/-- The note on a line that has just been reached. -/
def LineNote.empty : LineNote := ⟨[], false, false, []⟩

/-- What a pass does, kept for the statements about it. No function of the assembler reads it. -/
structure Trace where
  /-- The names expressions refer to, latest first. -/
  refs : List (List Byte)
  /-- How many scale factors that name a symbol were encoded. -/
  symScales : Nat
  /-- Whether an alignment directive had an operand that names a symbol. -/
  symAlign : Bool
  /-- Whether the cursor moved past the NUL that ends the line. -/
  pastEnd : Bool
  /-- Whether a character literal was begun that the end of the line cuts off. -/
  cutLit : Bool
  /-- The lines reached, latest first, each with the names referred to and the symbolic scales encoded before it. -/
  visits : List (Lens × List (List Byte) × Nat)
  /-- The labels met, latest first. -/
  labels : List Mark
  /-- The notes on the lines reached, latest first. -/
  notes : List LineNote
  deriving DecidableEq

/-- The trace at the start of a pass. -/
def Trace.empty : Trace := ⟨[], 0, false, false, false, [], [], []⟩

/-- A note on the current line. -/
def Trace.note (t : Trace) (f : LineNote → LineNote) : Trace := { t with notes := t.notes.modifyHead f }

/-- The globals of `as`. -/
structure Asm where
  lineNo : Nat
  errCount : Nat
  diags : List Diag
  syms : List Sym
  /-- `text_buf` up to what this pass has written. -/
  textBuf : List Byte
  /-- `data_buf` up to what this pass has written. -/
  dataBuf : List Byte
  textLen : Int
  dataLen : Int
  bssLen : Int
  curSec : Sec
  pass : Pass
  baseText : Int
  baseData : Int
  baseBss : Int
  /-- The bytes from the cursor on: the rest of the line, its NUL, and whatever lies behind it. -/
  lp : List Byte
  trace : Trace

/-- Computations of the assembler. -/
abbrev AsmM : Type → Type := StateT Asm Option

/-- `err`. -/
def Asm.err (s : Asm) (msg : String) (detail : List Byte) : Asm :=
  { s with errCount := s.errCount + 1, diags := s.diags ++ [⟨s.lineNo, msg, detail⟩] }

/-- `err`, as a computation. -/
def err (msg : String) (detail : List Byte) : AsmM Unit := modify fun s => s.err msg detail

/-- A loop that does not end. -/
def spin {α : Type} : AsmM α := fun _ => none

/-! ## Symbols -/

/-- `sym_find`. -/
def symFind (syms : List Sym) (name : List Byte) : Option Sym := syms.find? (fun s => s.name = name)

/-- Whether a name has a definition in the symbol table. -/
def Asm.defines (s : Asm) (name : List Byte) : Bool := (symFind s.syms name).any Sym.defined

/-- The cleared entry `sym_intern` starts a symbol with. A name has at most 31 characters, so `strncpy` copies it whole. -/
def Sym.fresh (name : List Byte) : Sym := ⟨name, .text, 0, 0#32, false, false⟩

/-- `sym_intern`: `false` where it returns no symbol. -/
def Asm.symIntern (s : Asm) (name : List Byte) : Bool × Asm :=
  if (symFind s.syms name).isSome then (true, s)
  else if s.syms.length ≥ maxSym then (false, s.err "too many symbols" name)
  else (true, { s with syms := s.syms ++ [Sym.fresh name] })

/-- Stores through the pointer to the symbol of a name. -/
def Asm.symStore (s : Asm) (name : List Byte) (f : Sym → Sym) : Asm :=
  { s with syms := s.syms.map fun y => if y.name = name then f y else y }

/-! ## Output buffers -/

/-- `sec_len`. -/
def Asm.secLen (s : Asm) : Sec → Int
  | .text => s.textLen
  | .data => s.dataLen
  | .bss => s.bssLen

/-- `sec_len(cur_sec)`. -/
def Asm.curLen (s : Asm) : Int := s.secLen s.curSec

/-- `cur_sec`, as a computation. -/
def currentSec : AsmM Sec := do return (← get).curSec

/-- `sec_len(cur_sec)`, as a computation. -/
def currentLen : AsmM Int := do return (← get).curLen

/-- The base address of a section, zero until the first pass is over. -/
def Asm.base (s : Asm) : Sec → Int
  | .text => s.baseText
  | .data => s.baseData
  | .bss => s.baseBss

/-- `cur_addr`. -/
def Asm.curAddr (s : Asm) : U32 := BitVec.ofInt 32 (s.base s.curSec + s.curLen)

/-- `cur_addr`, as a computation. -/
def currentAddr : AsmM U32 := do return (← get).curAddr

/-- `emit8`: the first pass counts the byte, the second stores it while the buffer has room. -/
def Asm.emit8 (s : Asm) (b : Byte) : Asm :=
  match s.curSec, s.pass with
  | .text, .one => { s with textLen := s.textLen + 1 }
  | .text, .two =>
    if s.textLen ≥ maxText then s.err "text overflow" []
    else { s with textBuf := s.textBuf ++ [b], textLen := s.textLen + 1 }
  | .data, .one => { s with dataLen := s.dataLen + 1 }
  | .data, .two =>
    if s.dataLen ≥ maxData then s.err "data overflow" []
    else { s with dataBuf := s.dataBuf ++ [b], dataLen := s.dataLen + 1 }
  | .bss, _ => s.err "cannot emit data in .bss (use .space)" []

/-- Notes that the line emits. -/
def Asm.noteEmit (s : Asm) : Asm := { s with trace := s.trace.note fun l => { l with emits := true } }

/-- `emit8`, as a computation. -/
def emit8 (b : Byte) : AsmM Unit := modify fun s => s.noteEmit.emit8 b

/-- `emit16`. -/
def emit16 (v : U32) : AsmM Unit := do
  emit8 (v.extractLsb' 0 8)
  emit8 (v.extractLsb' 8 8)

/-- `emit32`. -/
def emit32 (v : U32) : AsmM Unit := do
  emit16 (v &&& 0xFFFF#32)
  emit16 (v.sshiftRight 16 &&& 0xFFFF#32)

/-- A count of `emit8` of one byte. -/
def emitFill (b : Byte) : Nat → AsmM Unit
  | 0 => pure ()
  | n + 1 => do
    emit8 b
    emitFill b n

end MiniOs32
