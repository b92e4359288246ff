import MiniOs32.Kernel.Exec

/-!
# The heap of a program

`user_brk_off` starts behind the highest segment that `exec_user` loads, and `SYS_SBRK` moves it up. The one check compares the
increment with what is left below the stack guard page, in 32 bits.
-/

namespace MiniOs32

/-- `SYS_SBRK`: the break it moves to, none where it returns -1 and moves nothing. What it returns otherwise is the break before. -/
def sysSbrk (brk inc : U32) : Option U32 :=
  if BitVec.ofNat 32 userStackGuardOff - brk < inc then none else some (brk + inc)

/-- A call of `SYS_SBRK`, with the break before it. -/
structure SbrkCall where
  brk : U32
  inc : U32
  deriving DecidableEq

namespace SbrkCall

/-- What the call returns. -/
def result (c : SbrkCall) : Option U32 := (sysSbrk c.brk c.inc).map fun _ => c.brk

/-- The break behind the call. -/
def after (c : SbrkCall) : U32 := (sysSbrk c.brk c.inc).getD c.brk

end SbrkCall

/-- Calls in a row. -/
def sbrkCalls (brk : U32) : List U32 → List SbrkCall
  | [] => []
  | inc :: incs => ⟨brk, inc⟩ :: sbrkCalls (SbrkCall.after ⟨brk, inc⟩) incs

/-- The offset and the length of what `exec_user` writes for the segments of an image. -/
def Loaded.segments (l : Loaded) : List (U32 × U32) := l.accesses.filterMap fun
  | .write off len => some (off, len)
  | .read _ _ => none

end MiniOs32
