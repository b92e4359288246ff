import MiniOs32.As.Insn

/-!
# The assembler: directives, lines and passes

`run_pass` cuts the source into lines of at most 255 characters, copies each into one buffer that it never clears, and hands it
to `asm_line`. `main` runs the first pass, places the sections one after the other, gives every label its address, and runs the
second pass twice.
-/

namespace MiniOs32

/-! ## Directives -/

/-- The characters of a string literal, up to its closing quote. -/
def emitChars : Nat → AsmM Unit
  | 0 => spin
  | k + 1 => do
    let c ← peek
    if c = 0#8 ∨ c = Char.byte '"' then pure ()
    else do
      advance
      let d ← peek
      if c = Char.byte '\\' ∧ d ≠ 0#8 then do
        advance
        emit8 ((escChar d).setWidth 8)
        emitChars k
      else do
        emit8 c
        emitChars k

/-- The characters of a string literal at the cursor. -/
def stringChars : AsmM Unit := do emitChars ((← get).lp.length + 1)

/-- `emit_string`: the list of literals from the cursor on. -/
def emitString (terminate : Bool) : Nat → AsmM Unit
  | 0 => spin
  | k + 1 => do
    skipWs
    if (← peek) ≠ Char.byte '"' then err "expected string" []
    else do
      advance
      stringChars
      skipCh (Char.byte '"')
      emitFill 0#8 (if terminate then 1 else 0)
      skipWs
      if (← peek) = Char.byte ',' then do
        advance
        emitString terminate k
      else pure ()

/-- One item of `.byte`, `.word` or `.long`. -/
def emitItem (w : Nat) (v : U32) : AsmM Unit :=
  if w = 1 then emit8 (v.setWidth 8)
  else if w = 2 then emit16 (v &&& 0xFFFF#32)
  else emit32 v

/-- The item list of `.byte`, `.word` or `.long`. -/
def emitItems (w : Nat) : Nat → AsmM Unit
  | 0 => spin
  | k + 1 => do
    let e ← expr
    emitItem w e.val
    skipWs
    if (← peek) = Char.byte ',' then do
      advance
      emitItems w k
    else pure ()

/-- The fill value of `.space`. -/
def parseFill : AsmM U32 := do
  skipWs
  if (← peek) = Char.byte ',' then do
    advance
    let f ← expr
    pure f.val
  else pure 0#32

/-- `.space` and `.skip`. -/
def doSpace : AsmM Unit := do
  let n ← expr
  if n.hasSym then err ".space needs a constant size" []
  else do
    let fill ← parseFill
    if (← currentSec) = .bss then modify fun s => { s with bssLen := s.bssLen + n.val.toInt }
    else emitFill (fill.setWidth 8) n.val.toInt.toNat

/-- One doubled so many times, in 32 bits. -/
def doubled : Nat → U32
  | 0 => 1#32
  | n + 1 => doubled n * 2#32

/-- One padding byte of an alignment. -/
def Asm.padOne (s : Asm) : Asm :=
  match s.curSec with
  | .bss => { s with bssLen := s.bssLen + 1 }
  | .text => s.emit8 0x90#8
  | .data => s.emit8 0x00#8

/-- The padding loop. It ends within `align` rounds, unless the full output buffer keeps the length from growing. -/
def padTo (align : Int) : Nat → AsmM Unit
  | 0 => spin
  | k + 1 => do
    if (← currentLen).tmod align = 0 then pure ()
    else do
      modify Asm.padOne
      padTo align k

/-- Notes the operand of an alignment. -/
def Asm.noteAlign (s : Asm) (a : Expr) : Asm :=
  { s with trace :=
    { s.trace.note (fun l => { l with sized := l.sized || a.hasSym }) with symAlign := s.trace.symAlign || a.hasSym } }

/-- The padding of an alignment, for the value its operand has. -/
def padFor (pow2 : Bool) (v : U32) : AsmM Unit :=
  let align := if pow2 then (doubled v.toInt.toNat).toInt else v.toInt
  if align ≤ 1 then pure () else padTo align (align.toNat + 1)

/-- `.align`, `.balign` and `.p2align`, once the operand is read. -/
def alignBy (pow2 : Bool) (a : Expr) : AsmM Unit := do
  modify fun s => s.noteAlign a
  padFor pow2 a.val

/-- `.align`, `.balign` and `.p2align`. -/
def doAlign (pow2 : Bool) : AsmM Unit := do
  let a ← expr
  alignBy pow2 a

/-- Notes the operands of a `.equ`. -/
def Asm.noteEqu (s : Asm) (name : List Byte) (v : Expr) : Asm :=
  { s with trace := s.trace.note fun l => { l with equs := (name, v) :: l.equs } }

/-- The definition `.equ` makes, where the symbol table has room. -/
def Asm.define (s : Asm) (name : List Byte) (v : Expr) : Asm :=
  match (s.noteEqu name v).symIntern name with
  | (true, s) => s.symStore name fun y => { y with isAbs := true, defined := true, addr := v.val }
  | (false, s) => s

/-- `.equ` and `.set`. -/
def doEqu : AsmM Unit := do
  let name ← readName
  if name = [] then err "expected symbol name" []
  else if ← eat (Char.byte ',') then do
    let v ← expr
    modify fun s => s.define name v
  else err "expected , after symbol" []

/-- The section a directive switches to. -/
def sectionDirs : List (String × Sec) := [(".text", .text), (".data", .data), (".bss", .bss)]

/-- The directives accepted and ignored. -/
def ignoredDirs : List String :=
  [".globl", ".global", ".extern", ".type", ".size", ".section", ".code32", ".file", ".ident"]

/-- The width of the items of a data directive. -/
def itemDirs : List (String × Nat) := [(".byte", 1), (".word", 2), (".short", 2), (".long", 4), (".int", 4)]

/-- Whether the literals of a string directive get a NUL. -/
def stringDirs : List (String × Bool) := [(".ascii", false), (".asciz", true), (".string", true)]

/-- Whether the operand of an alignment directive is an exponent. -/
def alignDirs : List (String × Bool) := [(".align", false), (".balign", false), (".p2align", true)]

/-- The directives of `do_directive` that reserve space, align or define. -/
def doPlacement (d : List Byte) : AsmM Unit :=
  if d = asciiBytes ".space" ∨ d = asciiBytes ".skip" then doSpace
  else match tableFind alignDirs d with
    | some pow2 => doAlign pow2
    | none =>
      if d = asciiBytes ".equ" ∨ d = asciiBytes ".set" then doEqu
      else err "unknown directive" d

/-- `do_directive`. -/
def doDirective (d : List Byte) : AsmM Unit :=
  match tableFind sectionDirs d with
  | some sec => modify fun s => { s with curSec := sec }
  | none =>
    if ignoredDirs.any (fun n => asciiBytes n = d) then pure ()
    else match tableFind itemDirs d with
      | some w => do emitItems w ((← get).lp.length + 1)
      | none => match tableFind stringDirs d with
        | some terminate => do emitString terminate ((← get).lp.length + 1)
        | none => doPlacement d

/-! ## One line -/

/-- A label in the first pass: a second definition is an error, and the place is recorded all the same. -/
def Asm.recordLabel (s : Asm) (name : List Byte) : Asm :=
  match s.symIntern name with
  | (true, s) =>
    let t := if (symFind s.syms name).any Sym.defined then s.err "duplicate label" name else s
    t.symStore name fun y => { y with defined := true, sec := s.curSec, offset := s.curLen }
  | (false, s) => s

/-- The label branch of `asm_line`. -/
def Asm.placeLabel (s : Asm) (name : List Byte) : Asm :=
  let s := { s with trace := { s.trace with labels := ⟨name, s.curSec, s.curLen⟩ :: s.trace.labels } }
  match s.pass with
  | .one => s.recordLabel name
  | .two => s

/-- The cursor is at the end of the line or at a comment. -/
def atLineEnd : AsmM Bool := do
  let c ← peek
  return c == 0#8 || c == Char.byte '#' || (← looksAt (Char.byte '/') (Char.byte '/'))

/-- The label loop of `asm_line`: `true` when an instruction or a directive is left on the line. -/
def parseLabels : Nat → AsmM Bool
  | 0 => spin
  | k + 1 => do
    skipWs
    if ← atLineEnd then pure false
    else if isSymStart (← peek) then do
      let save ← cursor
      let name ← readName
      skipWs
      if (← peek) = Char.byte ':' then do
        advance
        modify fun s => s.placeLabel name
        parseLabels k
      else do
        setCursor save
        pure true
    else pure true

/-- The stems a size suffix may be taken off. -/
def stems : List String :=
  ["mov", "add", "or", "adc", "sbb", "and", "sub", "xor", "cmp", "test", "lea", "push", "pop", "inc", "dec", "not", "neg", "mul",
   "imul", "div", "idiv", "shl", "sal", "shr", "sar", "rol", "ror", "xchg", "cmp"]

/-- The width a last character stands for. -/
def suffixSize (c : Byte) : Nat :=
  if c = Char.byte 'l' then 4 else if c = Char.byte 'w' then 2 else if c = Char.byte 'b' then 1 else 0

/-- The stem of a mnemonic and the width its suffix gives, zero for none. -/
def splitSuffix (mnem : List Byte) : List Byte × Nat :=
  let cand := suffixSize (mnem.getLastD 0#8)
  if 2 < mnem.length ∧ cand ≠ 0 ∧ mnem.take 4 ≠ asciiBytes "movz" ∧ mnem.take 4 ≠ asciiBytes "movs" ∧
      stems.any (fun n => asciiBytes n = mnem.dropLast) then (mnem.dropLast, cand)
  else (mnem, 0)

/-- The operand loop of `asm_line`, with the operands read so far: nothing where the line is given up. -/
def parseOperands (stem : List Byte) : Nat → List Operand → AsmM (Option (List Operand))
  | 0, _ => spin
  | k + 1, ops => do
    if ← atLineEnd then pure (some ops)
    else if ops.length ≥ maxOps then do
      err "too many operands" stem
      pure none
    else match ← parseOperand with
      | none => pure none
      | some o => do
        skipWs
        if (← peek) = Char.byte ',' then do
          advance
          parseOperands stem k (ops ++ [o])
        else pure (some (ops ++ [o]))

/-- The width taken from the last register operand, four when there is none. -/
def inferSize (ops : List Operand) : Nat :=
  match ops.reverse.find? (fun o => o.kind = .reg) with
  | some o => o.size
  | none => 4

/-- The instruction branch of `asm_line`. -/
def asmMnemonic (mnem : List Byte) : AsmM Unit := do
  let (stem, size) := splitSuffix mnem
  skipWs
  match ← parseOperands stem (maxOps + 1) [] with
  | none => pure ()
  | some ops => asmInsn stem ops (if size = 0 then inferSize ops else size)

/-- `asm_line`. -/
def asmLine (line : List Byte) : AsmM Unit := do
  setCursor line
  if ← parseLabels (line.length + 1) then do
    let mnem ← readName
    if mnem = [] then err "expected instruction" []
    else if mnem.headD 0#8 = Char.byte '.' then doDirective mnem
    else asmMnemonic mnem
  else pure ()

/-! ## The driver -/

/-- The part of the source `run_pass` copies as one line: up to a newline, a NUL or 255 characters. -/
def lineOf (p : List Byte) : List Byte := (span (fun c => c != 0#8 && c != Char.byte '\n') (maxLine - 1) p).1

/-- The source after the line, and after its newline if that is what ended it. -/
def restOf (p : List Byte) : List Byte :=
  let rest := (span (fun c => c != 0#8 && c != Char.byte '\n') (maxLine - 1) p).2
  if rest.headD 0#8 = Char.byte '\n' then rest.tail else rest

/-- `line[n] = 0` after the copy: the bytes behind it are what the buffer held before. -/
def fillLine (line buf : List Byte) : List Byte := line ++ 0#8 :: buf.drop (line.length + 1)

/-- Notes a line and the lengths at which it is reached. -/
def visit : AsmM Unit :=
  modify fun s => { s with trace := { s.trace with
    visits := (⟨s.textLen, s.dataLen, s.bssLen⟩, s.trace.refs, s.trace.symScales) :: s.trace.visits
    notes := LineNote.empty :: s.trace.notes } }

/-- One round of the loop of `run_pass`. -/
def runLine (line : List Byte) : AsmM Unit := do
  visit
  asmLine line
  modify fun s => { s with lineNo := s.lineNo + 1 }

/-- The loop of `run_pass`, over the rest of the source and the line buffer. -/
def runLines : Nat → List Byte → List Byte → AsmM Unit
  | 0, _, _ => spin
  | k + 1, p, buf =>
    if p.headD 0#8 = 0#8 then pure ()
    else do
      runLine (fillLine (lineOf p) buf)
      if (← get).errCount > 20 then pure ()
      else runLines k (restOf p) (fillLine (lineOf p) buf)

/-- The state at the start of a pass. -/
def startPass (which : Pass) (s : Asm) : Asm :=
  { s with
    pass := which, curSec := .text, textLen := 0, dataLen := 0, bssLen := 0, textBuf := [], dataBuf := [], lineNo := 1,
    trace := Trace.empty }

/-- `run_pass` on a source, with what the line buffer holds at first and what lies behind it. -/
def runPass (which : Pass) (src buf : List Byte) (s : Asm) : Option Asm :=
  (runLines (src.length + 1) src buf (startPass which s)).map Prod.snd

/-- The globals when `main` starts. -/
def Asm.initial : Asm := ⟨1, 0, [], [], [], [], 0, 0, 0, .text, .one, 0, 0, 0, [], Trace.empty⟩

/-- The address `main` gives a symbol, once the bases are set. -/
def Asm.linkSym (s : Asm) (y : Sym) : Sym :=
  if y.isAbs || !y.defined then y else { y with addr := BitVec.ofInt 32 (s.base y.sec + y.offset) }

/-- The section bases `main` sets between the passes. -/
def Asm.setBases (s : Asm) : Asm :=
  { s with baseText := elfHdrSize, baseData := elfHdrSize + s.textLen, baseBss := elfHdrSize + s.textLen + s.dataLen }

/-- The bases and the label addresses `main` sets between the passes. -/
def assignAddrs (s : Asm) : Asm := { s.setBases with syms := s.syms.map s.setBases.linkSym }

/-- The emit passes of `main`: the second of them starts with the error count cleared. -/
def emitPasses (src buf₂ buf₃ : List Byte) (s : Asm) : Option (Asm × Asm) := do
  let s₂ ← runPass .two src buf₂ (assignAddrs s)
  let s₃ ← runPass .two src buf₃ { s₂ with errCount := 0 }
  return (s₂, s₃)

end MiniOs32
