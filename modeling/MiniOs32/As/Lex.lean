import MiniOs32.As.State

/-!
# The assembler: the cursor, expressions and operands

`lp` walks one line. Every parser reads the byte under it and steps over what it consumes. An expression is a value with a note
on whether a symbol took part, because the first pass does not know the symbols' values. The recursive parsers take a bound
on their depth, which their callers set from the bytes left.
-/

namespace MiniOs32

/-! ## The cursor -/

/-- `*lp`. -/
def peek : AsmM Byte := do return (← get).lp.headD 0#8

/-- `lp`, to be put back later. -/
def cursor : AsmM (List Byte) := do return (← get).lp

/-- `lp = p`. -/
def setCursor (p : List Byte) : AsmM Unit := modify fun s => { s with lp := p }

/-- `lp[0] == a && lp[1] == b`. -/
def looksAt (a b : Byte) : AsmM Bool := do
  let s ← get
  return s.lp.headD 0#8 == a && s.lp.tail.headD 0#8 == b

/-- `lp++`. -/
def Asm.advance (s : Asm) : Asm :=
  { s with lp := s.lp.tail, trace := { s.trace with pastEnd := s.trace.pastEnd || s.lp.headD 0#8 == 0#8 } }

/-- `lp++`, as a computation. -/
def advance : AsmM Unit := modify Asm.advance

/-- The bytes that satisfy a test, `n` at most, and the bytes after them. -/
def span (p : Byte → Bool) : Nat → List Byte → List Byte × List Byte
  | 0, l => ([], l)
  | _ + 1, [] => ([], [])
  | n + 1, c :: l => if p c then (c :: (span p n l).1, (span p n l).2) else ([], c :: l)

theorem span_cons (p : Byte → Bool) (n : Nat) (c : Byte) (l : List Byte) :
    span p (n + 1) (c :: l) = if p c then (c :: (span p n l).1, (span p n l).2) else ([], c :: l) := rfl

/-- Steps over the bytes that satisfy a test, `n` at most. -/
def takeSpan (p : Byte → Bool) (n : Nat) : AsmM (List Byte) := do
  let s ← get
  set { s with lp := (span p n s.lp).2 }
  return (span p n s.lp).1

/-- Steps over all the bytes that satisfy a test. -/
def takeAll (p : Byte → Bool) : AsmM (List Byte) := do takeSpan p (← get).lp.length

/-- `is_space_ch`. -/
def isSpaceCh (c : Byte) : Bool := c == Char.byte ' ' || c == Char.byte '\t' || c == Char.byte '\r'

/-- `is_dig`. -/
def isDig (c : Byte) : Bool := Char.byte '0' ≤ c && c ≤ Char.byte '9'

/-- `is_sym_start`. -/
def isSymStart (c : Byte) : Bool :=
  (Char.byte 'a' ≤ c && c ≤ Char.byte 'z') || (Char.byte 'A' ≤ c && c ≤ Char.byte 'Z') ||
    c == Char.byte '_' || c == Char.byte '.' || c == Char.byte '$'

/-- `is_sym_ch`. -/
def isSymCh (c : Byte) : Bool := isSymStart c || isDig c

/-- `skip_ws`. -/
def skipWs : AsmM Unit := do let _ ← takeAll isSpaceCh

/-- `eat`. -/
def eat (c : Byte) : AsmM Bool := do
  skipWs
  if (← peek) = c then do
    advance
    pure true
  else pure false

/-- Steps over a character if the cursor is at it. -/
def skipCh (c : Byte) : AsmM Unit := do
  if (← peek) = c then advance else pure ()

/-- `read_name` into a buffer of 32: at most 31 characters, and none at all where it returns 0. -/
def readName : AsmM (List Byte) := do
  skipWs
  if isSymStart (← peek) then takeSpan isSymCh 31 else pure []

/-- `esc_char`. -/
def escChar (c : Byte) : U32 :=
  if c = Char.byte 'n' then 10#32
  else if c = Char.byte 't' then 9#32
  else if c = Char.byte 'r' then 13#32
  else if c = Char.byte '0' then 0#32
  else if c = Char.byte 'b' then 8#32
  else if c = Char.byte 'f' then 12#32
  else if c = Char.byte 'v' then 11#32
  else if c = Char.byte 'a' then 7#32
  else c.signExtend 32

/-! ## Expressions -/

/-- The value of a digit character, in any base up to sixteen. -/
def digitOf (c : Byte) : Option Nat :=
  if isDig c then some (c.toNat - 48)
  else if Char.byte 'a' ≤ c && c ≤ Char.byte 'f' then some (c.toNat - 97 + 10)
  else if Char.byte 'A' ≤ c && c ≤ Char.byte 'F' then some (c.toNat - 65 + 10)
  else none

/-- A digit below the base. -/
def isDigitOf (base : Nat) (c : Byte) : Bool :=
  match digitOf c with
  | some d => d < base
  | none => false

/-- The value of a string of digits, in 32 bits. -/
def digitsVal (base : Nat) (ds : List Byte) : U32 :=
  ds.foldl (fun v c => v * BitVec.ofNat 32 base + BitVec.ofNat 32 ((digitOf c).getD 0)) 0#32

/-- The base of a number, with the cursor moved over a `0x` or `0b` that names it. -/
def parseRadix : AsmM Nat := do
  let x ← looksAt (Char.byte '0') (Char.byte 'x')
  let X ← looksAt (Char.byte '0') (Char.byte 'X')
  let b ← looksAt (Char.byte '0') (Char.byte 'b')
  let B ← looksAt (Char.byte '0') (Char.byte 'B')
  if x || X then do
    advance
    advance
    pure 16
  else if b || B then do
    advance
    advance
    pure 2
  else pure 10

/-- The number branch of `parse_atom`. -/
def parseNumber : AsmM Expr := do
  let base ← parseRadix
  let ds ← takeAll (isDigitOf base)
  return ⟨digitsVal base ds, false⟩

/-- Behind the quote of a literal the line ends, or it ends behind the backslash there. -/
def litCut (l : List Byte) : Bool := l.headD 0#8 == 0#8 || (l.headD 0#8 == Char.byte '\\' && l.tail.headD 0#8 == 0#8)

/-- Notes whether the literal whose quote has been stepped over is cut off. -/
def Asm.noteLit (s : Asm) : Asm := { s with trace := { s.trace with cutLit := s.trace.cutLit || litCut s.lp } }

/-- The character of a literal, after its opening quote. At the end of the line it is the NUL, and the cursor passes it. -/
def parseEscaped : AsmM U32 := do
  let c ← peek
  advance
  if c = Char.byte '\\' then do
    let d ← peek
    advance
    pure (escChar d)
  else pure (c.signExtend 32)

/-- The character branch of `parse_atom`. -/
def parseCharLit : AsmM Expr := do
  advance
  modify Asm.noteLit
  let v ← parseEscaped
  skipCh (Char.byte '\'')
  return ⟨v, false⟩

/-- `*lp == '.' && !is_sym_ch(lp[1])`: the location counter. -/
def atDot : AsmM Bool := do
  let s ← get
  return s.lp.headD 0#8 == Char.byte '.' && !isSymCh (s.lp.tail.headD 0#8)

/-- Notes a name an expression refers to. -/
def Asm.noteRef (s : Asm) (name : List Byte) : Asm :=
  { s with trace := { s.trace.note (fun l => { l with refs := name :: l.refs }) with refs := name :: s.trace.refs } }

/-- The value of a symbol in an expression: unknown, so zero, in the first pass. -/
def Asm.symValue (s : Asm) (name : List Byte) : U32 × Asm :=
  match s.pass with
  | .one => (0#32, s.noteRef name)
  | .two =>
    match (symFind s.syms name).filter Sym.defined with
    | some y => (y.addr, s.noteRef name)
    | none => (0#32, (s.noteRef name).err "undefined symbol" name)

/-- The value of a symbol, as a computation. -/
def symValue (name : List Byte) : AsmM U32 := fun s => some (s.symValue name)

mutual

/-- `parse_atom`. -/
def parseAtom : Nat → AsmM Expr
  | 0 => spin
  | k + 1 => do
    skipWs
    let c ← peek
    if c = Char.byte '(' then do
      advance
      let e ← parseExpr k
      if ← eat (Char.byte ')') then pure e else do
        err "expected )" []
        pure e
    else if c = Char.byte '-' then do
      advance
      let e ← parseAtom k
      pure ⟨-e.val, e.hasSym⟩
    else if c = Char.byte '+' then do
      advance
      parseAtom k
    else if c = Char.byte '\'' then parseCharLit
    else if isDig c then parseNumber
    else if ← atDot then do
      advance
      let v ← currentAddr
      pure ⟨v, true⟩
    else if isSymStart c then do
      let name ← readName
      let v ← symValue name
      pure ⟨v, true⟩
    else do
      err "bad expression" []
      if (← peek) ≠ 0#8 then do
        advance
        pure ⟨0#32, false⟩
      else pure ⟨0#32, false⟩

/-- `parse_expr`. -/
def parseExpr : Nat → AsmM Expr
  | 0 => spin
  | k + 1 => do
    let e ← parseAtom k
    parseTerms k e

/-- The loop of `parse_expr` over the further terms of a sum. -/
def parseTerms : Nat → Expr → AsmM Expr
  | 0, _ => spin
  | k + 1, e => do
    skipWs
    let c ← peek
    if c = Char.byte '+' ∨ c = Char.byte '-' then do
      advance
      let r ← parseAtom k
      parseTerms k ⟨if c = Char.byte '-' then e.val - r.val else e.val + r.val, e.hasSym || r.hasSym⟩
    else pure e

end

/-- `parse_expr` at the cursor, with a depth bound that the rest of the line cannot reach. -/
def expr : AsmM Expr := do parseExpr (3 * (← get).lp.length + 3)

/-! ## Registers and operands -/

/-- The number of a register or of an opcode extension. -/
abbrev RegNum : Type := BitVec 3

/-- `reg32`, `reg8` and `reg16`, in the order of the register numbers. -/
def regNames : List (Nat × List String) :=
  [(4, ["eax", "ecx", "edx", "ebx", "esp", "ebp", "esi", "edi"]),
   (1, ["al", "cl", "dl", "bl", "ah", "ch", "dh", "bh"]),
   (2, ["ax", "cx", "dx", "bx", "sp", "bp", "si", "di"])]

/-- `reg_lookup`: the number and the size in bytes. -/
def regLookup (name : List Byte) : Option (RegNum × Nat) :=
  regNames.findSome? fun (size, names) =>
    (names.findIdx? fun r => asciiBytes r = name).map fun i => (BitVec.ofNat 3 i, size)

/-- `OpKind`. -/
inductive OpKind where
  | none
  | reg
  | imm
  | mem
  deriving DecidableEq

/-- `Operand`. The source keeps only the value of the scale factor. -/
structure Operand where
  kind : OpKind
  reg : RegNum
  size : Nat
  base : Option RegNum
  index : Option RegNum
  scale : Expr
  disp : Expr
  deriving DecidableEq

/-- The cleared operand `parse_operand` starts from. -/
def Operand.clear : Operand := ⟨.none, 0#3, 0, none, none, ⟨1#32, false⟩, ⟨0#32, false⟩⟩

/-- `parse_reg_operand`: the register's number and size, or nothing where it returns 0. -/
def parseRegOperand : AsmM (Option (RegNum × Nat)) := do
  let name ← readName
  if name = [] then do
    err "expected register" []
    pure none
  else match regLookup name with
    | some r => pure (some r)
    | none => do
      err "unknown register" name
      pure none

/-- A base register of a memory operand, if the cursor is at one: the outer `none` is the failure. -/
def parseBase : AsmM (Option (Option RegNum)) := do
  skipWs
  if (← peek) = Char.byte '%' then do
    advance
    match ← parseRegOperand with
    | none => pure none
    | some (r, size) =>
      if size ≠ 4 then do
        err "base register must be 32-bit" []
        pure none
      else pure (some (some r))
  else pure (some none)

/-- An index register of a memory operand, if the cursor is at one: the outer `none` is the failure. -/
def parseIndex : AsmM (Option (Option RegNum)) := do
  skipWs
  if (← peek) = Char.byte '%' then do
    advance
    match ← parseRegOperand with
    | none => pure none
    | some (r, size) =>
      if size ≠ 4 then do
        err "index register must be 32-bit" []
        pure none
      else if r = 4#3 then do
        err "%esp cannot be an index register" []
        pure none
      else pure (some (some r))
  else pure (some none)

/-- The scale factor of a memory operand, one when there is none. -/
def parseScale : AsmM Expr := do
  skipWs
  if (← peek) = Char.byte ',' then do
    advance
    expr
  else pure ⟨1#32, false⟩

/-- The index and the scale of a memory operand, after its base. -/
def parseIndexScale : AsmM (Option (Option RegNum × Expr)) := do
  skipWs
  if (← peek) = Char.byte ',' then do
    advance
    match ← parseIndex with
    | none => pure none
    | some i => do
      let sc ← parseScale
      pure (some (i, sc))
  else pure (some (none, ⟨1#32, false⟩))

/-- The parenthesised part of a memory operand. -/
def parseParens (disp : Expr) : AsmM (Option Operand) := do
  advance
  match ← parseBase with
  | none => pure none
  | some b =>
    match ← parseIndexScale with
    | none => pure none
    | some (i, sc) => do
      if ← eat (Char.byte ')') then pure (some { Operand.clear with kind := .mem, base := b, index := i, scale := sc, disp := disp })
      else do
        err "expected )" []
        pure none

/-- The displacement or symbol a memory operand may start with. -/
def parseDisp : AsmM Expr := do
  skipWs
  if (← peek) ≠ Char.byte '(' then expr else pure ⟨0#32, false⟩

/-- The memory branch of `parse_operand`. -/
def parseMem : AsmM (Option Operand) := do
  let disp ← parseDisp
  skipWs
  if (← peek) = Char.byte '(' then parseParens disp
  else pure (some { Operand.clear with kind := .mem, disp := disp })

/-- `parse_operand`: nothing where it returns 0. -/
def parseOperandAt : Nat → AsmM (Option Operand)
  | 0 => spin
  | k + 1 => do
    skipWs
    let c ← peek
    if c = 0#8 then pure none
    else if c = Char.byte '%' then do
      advance
      match ← parseRegOperand with
      | none => pure none
      | some (r, size) => pure (some { Operand.clear with kind := .reg, reg := r, size := size })
    else if c = Char.byte '$' then do
      advance
      let e ← expr
      pure (some { Operand.clear with kind := .imm, disp := e })
    else if c = Char.byte '*' then do
      advance
      parseOperandAt k
    else parseMem

/-- `parse_operand` at the cursor. -/
def parseOperand : AsmM (Option Operand) := do parseOperandAt ((← get).lp.length + 1)

end MiniOs32
