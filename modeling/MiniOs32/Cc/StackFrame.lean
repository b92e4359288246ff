import MiniOs32.Cc.Scope

/-!
# The compiler: stack frames

What `add_local`, `add_param` and `gen_stmt` reserve in the stack frame of a function, and the size that `parse_function_def` puts into the
prologue. Offsets are from `ebp` and wrap, as all `int`s do. Of a type its size and alignment count, as they are when the declaration is
read; they are given by the number at the declarator.
-/

namespace MiniOs32

/-- `type_size`, `type_align` and `is_record` of a type. -/
structure VarType where
  size : U32
  align : U32
  record : Bool
  alignOk : align = 1#32 ∨ align = 2#32 ∨ align = 4#32

/-- Bytes of the stack, from an offset on. -/
structure Span where
  offset : U32
  size : U32
  deriving DecidableEq

/-- A byte is one of them. -/
def Span.Has (s : Span) (b : U32) : Prop := b - s.offset < s.size

/-- The storage of a variable or of a temporary. -/
structure StackSlot extends Span where
  align : U32
  deriving DecidableEq

/-- `locals_len`, `local_offset`, and what is reserved: the slots that are live, and all that were live when a slot was reserved. -/
structure FrameState where
  localsLen : Nat
  localOffset : U32
  live : List StackSlot
  moments : List (List StackSlot)

/-- `MAX_SYM`. -/
def maxCcSym : Nat := 1024

/-- `MAX_PARAM`. -/
def maxParam : Nat := 16

/-- The places in `switch_stack`. -/
def maxSwitch : Nat := 8

/-- `arg_slot_bytes`. -/
def VarType.argSlotBytes (t : VarType) : U32 := if t.record then (t.size + 3#32) &&& ~~~3#32 else 4#32

namespace FrameState

/-- A slot below all others. -/
def reserve (s : FrameState) (size align : U32) : FrameState :=
  let a := if align.slt 4#32 then 4#32 else align
  let off := (s.localOffset - size) &&& ~~~(a - 1#32)
  let live := ⟨⟨off, size⟩, align⟩ :: s.live
  { s with localOffset := off, live := live, moments := live :: s.moments }

/-- `add_local`. -/
def addLocal (s : FrameState) (t : VarType) : Option FrameState :=
  if maxCcSym ≤ s.localsLen then none else some { s.reserve t.size t.align with localsLen := s.localsLen + 1 }

/-- `add_local_alias`. -/
def addLocalAlias (s : FrameState) : Option FrameState :=
  if maxCcSym ≤ s.localsLen then none else some { s with localsLen := s.localsLen + 1 }

section Declarations

variable (ty : Nat → VarType)

/-- The variables of a declaration: those that are `static` have their storage elsewhere. -/
def declarators (static : Bool) : FrameState → List Declarator → Option FrameState
  | s, [] => some s
  | s, d :: ds => (if static then s.addLocalAlias else s.addLocal (ty d.id)).bind fun s => declarators static s ds

/-- `parse_decl_stmt`. -/
def decl (s : FrameState) : Decl → Option FrameState
  | .vars static _ ds => declarators ty static s ds
  | .externs _ _ | .types _ => some s

/-- The first clause of a `for`. -/
def forInit (s : FrameState) : ForInit → Option FrameState
  | .none | .expr _ => some s
  | .decl d => s.decl ty d

/-- `locals_len` put back: the variables declared since are dead. -/
def restore (s old : FrameState) : FrameState := { s with localsLen := old.localsLen, live := old.live }

/-- The temporary of a `switch`: four bytes. -/
def switchTemp (s : FrameState) : FrameState := s.reserve 4#32 4#32

/-- The end of a `switch`, where its temporary is dead. -/
def switchEnd (s old : FrameState) : FrameState := { s with live := s.live.erase ⟨⟨old.switchTemp.localOffset, 4#32⟩, 4#32⟩ }

mutual

/-- `gen_stmt`, inside so many `switch`es. -/
def stmt (switchDepth : Nat) (s : FrameState) : Stmt → Option FrameState
  | .block ss => (stmts switchDepth s ss).map fun s' => s'.restore s
  | .decl d => s.decl ty d
  | .expr _ | .ret _ | .jump | .case _ | .default => some s
  | .label b | .ifThen _ b | .whileLoop _ b | .doLoop b _ => stmt switchDepth s b
  | .ifElse _ b c => (stmt switchDepth s b).bind fun s => stmt switchDepth s c
  | .forLoop init _ _ b => ((s.forInit ty init).bind fun s => stmt switchDepth s b).map fun s' => s'.restore s
  | .switch _ ss => if maxSwitch ≤ switchDepth then none else (stmts (switchDepth + 1) s.switchTemp ss).map fun s' => s'.switchEnd s

/-- Statements one after the other. -/
def stmts (switchDepth : Nat) (s : FrameState) : List Stmt → Option FrameState
  | [] => some s
  | b :: bs => (stmt switchDepth s b).bind fun s => stmts switchDepth s bs

end

end Declarations

end FrameState

/-- `add_param` for each parameter, from an offset on. -/
def addParams (ty : Nat → VarType) : U32 → List Enumerator → List Span
  | _, [] => []
  | poff, p :: ps => ⟨poff, (ty p.2).argSlotBytes⟩ :: addParams ty (poff + (ty p.2).argSlotBytes) ps

/-- `stack_size`, the immediate of the `sub esp` in the prologue. -/
def stackSize (localOffset : U32) : U32 := if (-localOffset).slt 0#32 then 0#32 else -localOffset

/-- The frame of a function: its parameters, what was live at a time, and the size in the prologue. -/
structure StackFrame where
  params : List Span
  moments : List (List StackSlot)
  size : U32

/-- `parse_function_def`. -/
def parseFunctionDef (ty : Nat → VarType) (ps : List Enumerator) (body : Stmt) : Option StackFrame :=
  if maxParam < ps.length then none
  else (FrameState.stmt ty 0 ⟨ps.length, 0#32, [], []⟩ body).map fun s => ⟨addParams ty 8#32 ps, s.moments, stackSize s.localOffset⟩

/-! ## Frames that are right -/

/-- Slots that are live at the same time have no byte in common; each is inside the frame, apart from the parameters and the saved `ebp`, and
aligned. -/
structure StackFrame.Right (f : StackFrame) : Prop where
  disjoint : ∀ live ∈ f.moments, live.Pairwise fun s t => ∀ b, ¬(s.Has b ∧ t.Has b)
  inside : ∀ live ∈ f.moments, ∀ s ∈ live, ∀ b, s.Has b → Span.Has ⟨-f.size, f.size⟩ b
  params : ∀ live ∈ f.moments, ∀ s ∈ live, ∀ p ∈ f.params, ∀ b, ¬(s.Has b ∧ p.Has b)
  savedEbp : ∀ live ∈ f.moments, ∀ s ∈ live, ∀ b, ¬(s.Has b ∧ Span.Has ⟨0#32, 4#32⟩ b)
  aligned : ∀ live ∈ f.moments, ∀ s ∈ live, s.offset.toNat % s.align.toNat = 0

/-- Bytes rounded up to words. -/
def wordsUp (n : Nat) : Nat := (n + 3) / 4 * 4

section Depth

variable (ty : Nat → VarType)

/-- The bytes for a declaration. -/
def Decl.depth : Decl → Nat
  | .vars true _ _ | .externs _ _ | .types _ => 0
  | .vars false _ ds => (ds.map fun d => wordsUp (ty d.id).size.toNat).sum

/-- The bytes for the first clause of a `for`. -/
def ForInit.depth : ForInit → Nat
  | .none | .expr _ => 0
  | .decl d => d.depth ty

mutual

/-- The bytes for all variables and temporaries of a statement. -/
def Stmt.depth : Stmt → Nat
  | .block ss => Stmt.depths ss
  | .decl d => d.depth ty
  | .expr _ | .ret _ | .jump | .case _ | .default => 0
  | .label b | .ifThen _ b | .whileLoop _ b | .doLoop b _ => b.depth
  | .ifElse _ b c => b.depth + c.depth
  | .forLoop init _ _ b => init.depth ty + b.depth
  | .switch _ ss => 4 + Stmt.depths ss

/-- The same for a list. -/
def Stmt.depths : List Stmt → Nat
  | [] => 0
  | b :: bs => b.depth + Stmt.depths bs

end

/-- Where the parameters end. -/
def paramsEnd (ps : List Enumerator) : Nat := 8 + (ps.map fun p => (ty p.2).argSlotBytes.toNat).sum

end Depth

end MiniOs32
