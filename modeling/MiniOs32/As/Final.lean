import MiniOs32.As.Pass

/-!
# The assembler: what the output should hold

The final values of the symbols are a solution of the source: a label is its section base plus its offset, and a `.equ` symbol is
the value its expression has when every symbol has its final value. `emitWith` emits the source under given values for the `.equ`
symbols, and `FinalValues` says that they are such a solution. When the emit passes of `main` reach these values depends only on
which line refers to which names, which the first pass already sees.
-/

namespace MiniOs32

/-! ## Emitting under given values -/

/-- The table with given values for the `.equ` symbols. -/
def Asm.withValues (s : Asm) (V : List Byte → U32) : Asm :=
  { s with syms := s.syms.map fun y => if y.isAbs then { y with addr := V y.name } else y }

/-- Every line of the source in turn, whatever errors there are. -/
def emitLines : Nat → List Byte → List Byte → AsmM Unit
  | 0, _, _ => spin
  | k + 1, p, buf =>
    if p.headD 0#8 = 0#8 then pure ()
    else do
      runLine (fillLine (lineOf p) buf)
      emitLines k (restOf p) (fillLine (lineOf p) buf)

/-- The source emitted with the addresses `main` gives to labels and the given values of the `.equ` symbols. -/
def emitWith (V : List Byte → U32) (src buf : List Byte) (s : Asm) : Option Asm :=
  (emitLines (src.length + 1) src buf (startPass .two ((assignAddrs s).withValues V))).map Prod.snd

/-- Every `.equ` met has the value that its symbol was given. -/
def FinalValues (V : List Byte → U32) (s : Asm) : Prop := ∀ l ∈ s.trace.notes, ∀ d ∈ l.equs, V d.1 = d.2.val

/-! ## Settled names -/

/-- The names settled after a line whose references are all settled, or are not: a `.equ` settles its name when its expression is
a number or all it refers to is settled, and unsettles it otherwise. -/
def LineNote.current (l : LineNote) (exact : Bool) (S : List Byte → Bool) : List Byte → Bool :=
  l.equs.foldr (fun d S' x => if x = d.1 then !d.2.hasSym || exact else S' x) S

/-- The names settled after a line. -/
def LineNote.after (l : LineNote) (S : List Byte → Bool) : List Byte → Bool := l.current (l.refs.all S) S

/-- The names settled after a run over the lines. -/
def settle (ls : List LineNote) (S : List Byte → Bool) : List Byte → Bool := ls.foldl (fun S l => l.after S) S

/-- In a run over the lines, alignments and scale factors refer to settled names only. -/
def sizesSettled : List LineNote → (List Byte → Bool) → Bool
  | [], _ => true
  | l :: ls, S => (!l.sized || l.refs.all S) && sizesSettled ls (l.after S)

/-- In a run over the lines, those that emit refer to settled names only. -/
def usesSettled : List LineNote → (List Byte → Bool) → Bool
  | [], _ => true
  | l :: ls, S => (!l.emits || l.refs.all S) && usesSettled ls (l.after S)

/-- The names whose value is right when the first pass is over: the labels, and what `.equ` defines as a number. -/
def Asm.settledAtOnce (s : Asm) (x : List Byte) : Bool :=
  s.defines x && s.trace.notes.all fun l => l.equs.all fun d => d.1 != x || !d.2.hasSym

/-- What the first pass has to see for the output to hold final values: alignments and scale factors use names settled in the
first emit run, the lines that emit use names settled in the second, and no character literal is cut off by the end of its line. -/
structure RefsSettled (s : Asm) : Prop where
  line : s.trace.pastEnd = false
  sizes : sizesSettled s.trace.notes.reverse s.settledAtOnce = true
  uses : usesSettled s.trace.notes.reverse (settle s.trace.notes.reverse s.settledAtOnce) = true

instance (s : Asm) : Decidable (RefsSettled s) :=
  decidable_of_iff (s.trace.pastEnd = false ∧ sizesSettled s.trace.notes.reverse s.settledAtOnce = true ∧
    usesSettled s.trace.notes.reverse (settle s.trace.notes.reverse s.settledAtOnce) = true)
    ⟨fun ⟨h₁, h₂, h₃⟩ => ⟨h₁, h₂, h₃⟩, fun ⟨h₁, h₂, h₃⟩ => ⟨h₁, h₂, h₃⟩⟩

end MiniOs32
