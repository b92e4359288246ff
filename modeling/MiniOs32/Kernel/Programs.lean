import MiniOs32.Kernel.Calls
import MiniOs32.Kernel.Exec

/-!
# One program after another

`kmain` runs the shell, then the program the shell asked for, and the shell again. A program leaves the kernel in five ways;
all of them come to `after_user`, which clears `exit_requested` and jumps back to `kmain`. Neither `after_user` nor
`exec_user` looks at `ofiles`.
-/

namespace MiniOs32

/-- How a program ends: `SYS_EXIT`; `SYS_EXEC`, with the name it leaves in `next_prog`; `SYS_TEXIT` of its last thread; a fault
or Ctrl+C, which send it to the trampoline and from there to `SYS_EXIT`. -/
inductive Ending where
  | exit
  | exec (name : List Byte)
  | lastTexit
  | fault
  | ctrlC

/-- The kernel with what `kmain` keeps between programs: whether the shell is running, and `next_prog` when it is set. -/
structure Kmain where
  k : Kernel
  shell : Bool
  nextProg : Option (List Byte)

/-- The name of the shell, as `kmain` passes it. -/
def shellName : List Byte := asciiBytes "shell"

/-- The kernel after `exec_user`, and whether a program was entered. -/
def Kernel.exec (k : Kernel) (name : List Byte) (mem : Nat → Byte) : Kernel × Bool :=
  ({ k with fs := (execUser k.fs name mem).1 }, (execUser k.fs name mem).2.isSome)

/-- `next_prog` after a program has ended. -/
def Ending.nextProg (old : Option (List Byte)) : Ending → Option (List Byte)
  | .exec name => some name
  | _ => old

/-- From the end of one program to the start of the next: `after_user` and the loop of `kmain`. A program that cannot be loaded
is passed over for the shell. -/
def Kmain.endProgram (m : Kmain) (e : Ending) (mem : Nat → Byte) : Kmain :=
  match m.shell, e.nextProg m.nextProg with
  | true, some name =>
    let (k, entered) := m.k.exec name mem
    if entered then ⟨k, false, none⟩ else ⟨(k.exec shellName mem).1, true, none⟩
  | true, none => ⟨(m.k.exec shellName mem).1, true, none⟩
  | false, next => ⟨(m.k.exec shellName mem).1, true, next⟩

/-- What happens on the machine, as far as files are concerned. -/
inductive Event where
  | call (r : Request)
  | ends (e : Ending) (mem : Nat → Byte)

/-- One event. -/
def Kmain.step (m : Kmain) : Event → Kmain
  | .call r => { m with k := m.k.step r }
  | .ends e mem => m.endProgram e mem

end MiniOs32
