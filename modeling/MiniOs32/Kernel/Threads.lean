import MiniOs32.Kernel.User

/-!
# Threads

A program has up to eight threads. The timer interrupt builds a `fault_frame` of the interrupted thread on the kernel stack,
`thread_schedule` saves it and puts the frame of the next runnable thread in its place; `SYS_TEXIT` ends the current thread and
`thread_exit_switch` puts the registers of the next one into the frame of the system call. A sleeping thread has a wake-up tick
in `sleep_until`.

The state of the x87 unit belongs to no frame: it is part of the machine and stays in the unit across a switch. It is a
parameter `X`; user code changes it, the kernel never does. Ctrl+C and faults are not among the events here.
-/

namespace MiniOs32

/-- `MAX_THREADS`. -/
def maxThreads : Nat := 8

instance : NeZero maxThreads := ⟨by decide⟩

/-- `USER_CS`. -/
def userCs : U32 := 0x1B#32
/-- `USER_DS`. -/
def userDs : U32 := 0x23#32

/-- The registers a thread sees. -/
structure Regs where
  gs : U32
  fs : U32
  es : U32
  ds : U32
  edi : U32
  esi : U32
  ebp : U32
  ebx : U32
  edx : U32
  ecx : U32
  eax : U32
  eip : U32
  cs : U32
  eflags : U32
  esp : U32
  ss : U32
  deriving DecidableEq

/-- `struct fault_frame`. -/
structure FaultFrame where
  gs : U32
  fs : U32
  es : U32
  ds : U32
  edi : U32
  esi : U32
  ebp : U32
  esp : U32
  ebx : U32
  edx : U32
  ecx : U32
  eax : U32
  intNo : U32
  err : U32
  eip : U32
  cs : U32
  eflags : U32
  useresp : U32
  ss : U32
  deriving DecidableEq

/-- The frame the processor and `irq_common` push for a thread interrupted in user mode; `kesp` is the kernel stack pointer
`pusha` stores. -/
def Regs.frame (r : Regs) (kesp intNo : U32) : FaultFrame :=
  ⟨r.gs, r.fs, r.es, r.ds, r.edi, r.esi, r.ebp, kesp, r.ebx, r.edx, r.ecx, r.eax, intNo, 0#32, r.eip, r.cs, r.eflags, r.esp, r.ss⟩

/-- The registers after the pops and the `iret` of `irq_common`; `popa` skips the stack pointer. -/
def FaultFrame.regs (f : FaultFrame) : Regs :=
  ⟨f.gs, f.fs, f.es, f.ds, f.edi, f.esi, f.ebp, f.ebx, f.edx, f.ecx, f.eax, f.eip, f.cs, f.eflags, f.useresp, f.ss⟩

/-- `thread_t`. -/
structure Thread where
  used : Bool
  ctx : FaultFrame
  sleepUntil : U32
  deriving DecidableEq

/-- The context `thread_init_main` and `thread_create` set up. -/
def newCtx (entry stack : U32) : FaultFrame :=
  ⟨userDs, userDs, userDs, userDs, 0#32, 0#32, 0#32, 0#32, 0#32, 0#32, 0#32, 0#32, 0#32, 0#32, entry, userCs, 0x202#32, stack, userDs⟩

/-- `threads`, `current_tid`, `thread_count` and `timer_ticks`. -/
structure Threads where
  slots : Fin maxThreads → Thread
  currentTid : Fin maxThreads
  threadCount : Nat
  ticks : U32

/-- A thread replaced. -/
def Threads.set (t : Threads) (i : Fin maxThreads) (th : Thread) : Threads :=
  { t with slots := fun j => if j = i then th else t.slots j }

/-- `thread_init_main`, over whatever the slots held. -/
def threadInitMain (old : Fin maxThreads → Thread) (ticks entry stack : U32) : Threads :=
  { slots := fun j => if j = 0 then ⟨true, newCtx entry stack, 0#32⟩ else { old j with used := false }
    currentTid := 0
    threadCount := 1
    ticks := ticks }

/-- `thread_create`; `none` for -1. -/
def Threads.create (t : Threads) (entry stack : U32) : Threads × Option (Fin maxThreads) :=
  if maxThreads ≤ t.threadCount then (t, none)
  else match (List.finRange maxThreads).find? (fun i => !(t.slots i).used) with
    | none => (t, none)
    | some tid => ({ t.set tid ⟨true, newCtx entry stack, 0#32⟩ with threadCount := t.threadCount + 1 }, some tid)

/-- `thread_kill`. -/
def Threads.kill (t : Threads) (tid : Fin maxThreads) : Threads :=
  if !(t.slots tid).used then t
  else { t.set tid { t.slots tid with used := false, sleepUntil := 0#32 } with threadCount := t.threadCount - 1 }

/-- `thread_is_runnable`: a thread whose time has come is woken on the way. -/
def Threads.isRunnable (t : Threads) (tid : Fin maxThreads) : Threads × Bool :=
  if !(t.slots tid).used then (t, false)
  else if (t.slots tid).sleepUntil = 0#32 then (t, true)
  else if 0 ≤ (t.ticks - (t.slots tid).sleepUntil).toInt then (t.set tid { t.slots tid with sleepUntil := 0#32 }, true)
  else (t, false)

/-- The loop that looks for the next runnable thread, `n` more slots after `next`. -/
def Threads.findNext : Nat → Threads → Fin maxThreads → Threads × Fin maxThreads
  | 0, t, next => (t, next)
  | n + 1, t, next =>
    match t.isRunnable (next + 1) with
    | (t, true) => (t, next + 1)
    | (t, false) => Threads.findNext n t (next + 1)

/-- `thread_schedule` saves the frame of the current thread, if it is in use. -/
def Threads.saveCtx (t : Threads) (f : FaultFrame) : Threads :=
  if (t.slots t.currentTid).used then t.set t.currentTid { t.slots t.currentTid with ctx := f } else t

/-- `thread_schedule` from the search for the next thread on. -/
def Threads.switchFrom (t : Threads) (curUsed : Bool) (f : FaultFrame) : Threads × FaultFrame :=
  let (t, next) := Threads.findNext maxThreads t t.currentTid
  let (t, ok) := t.isRunnable next
  if !ok then (t, f)
  else
    -- the current thread is asked again only when the search came back to it
    let (t, stay) := if next = t.currentTid ∧ curUsed = true then t.isRunnable t.currentTid else (t, false)
    if stay then (t, f) else ({ t with currentTid := next }, (t.slots next).ctx)

/-- `thread_schedule` on a frame. -/
def Threads.schedule (t : Threads) (f : FaultFrame) : Threads × FaultFrame :=
  if t.threadCount = 0 then (t, f)
  else if f.cs ≠ userCs then (t, f)
  else (t.saveCtx f).switchFrom (t.slots t.currentTid).used f

/-- `thread_exit_switch`: the threads and the registers to go on with, or `none` when it requests the end of the program. -/
def Threads.exitSwitch (t : Threads) : Threads × Option Regs :=
  let t := t.kill t.currentTid
  if t.threadCount = 0 then (t, none)
  else
    let (t, next) := Threads.findNext maxThreads t t.currentTid
    let (t, ok) := t.isRunnable next
    if !ok then (t, none) else ({ t with currentTid := next }, some (t.slots next).ctx.regs)

/-- The loop of `SYS_SLEEPF` that looks for another runnable thread. -/
def Threads.othersRunnable : List (Fin maxThreads) → Threads → Threads × Bool
  | [], t => (t, false)
  | i :: is, t =>
    if i = t.currentTid then Threads.othersRunnable is t
    else match t.isRunnable i with
      | (t, true) => (t, true)
      | (t, false) => Threads.othersRunnable is t

/-- `timer_ticks` once the busy wait for a target is over. -/
def waitTicks (ticks target : U32) : U32 := if (ticks - target).toInt < 0 then target else ticks

/-- `SYS_SLEEPF`, with a timer that ticks or without. -/
def Threads.sleepf (t : Threads) (timerAlive : Bool) (ms : U32) : Threads :=
  if ms = 0#32 then t
  else if !timerAlive then t
  else
    let target := t.ticks + (ms + 9#32) / 10#32
    let t := t.set t.currentTid { t.slots t.currentTid with sleepUntil := target }
    let (t, other) := Threads.othersRunnable (List.finRange maxThreads) t
    if other then t
    else
      let t := { t with ticks := waitTicks t.ticks target }
      t.set t.currentTid { t.slots t.currentTid with sleepUntil := 0#32 }

/-- `SYS_SLEEP`, which waits in the kernel. -/
def Threads.sleep (t : Threads) (timerAlive : Bool) (ms : U32) : Threads :=
  if ms = 0#32 then t
  else if !timerAlive then t
  else { t with ticks := waitTicks t.ticks (t.ticks + (ms + 9#32) / 10#32) }

/-! ## The running program -/

/-- A program with the registers of the processor and the x87 unit. -/
structure Program (X : Type*) where
  threads : Threads
  regs : Regs
  x87 : X
  timerAlive : Bool
  exited : Bool

/-- What can happen while a program runs: its current thread executes instructions; the timer ticks in user mode or in the
kernel; or a thread system call is made. -/
inductive ThreadEvent (X : Type*) where
  | user (regs : Regs) (x87 : X)
  | tick (kesp intNo : U32)
  | tickInKernel
  | tcreate (entry stack : U32)
  | texit
  | sleepf (ms : U32)

variable {X : Type*}

/-- A program that `exec_user` has just entered. -/
def Program.start (old : Fin maxThreads → Thread) (ticks entry : U32) (x87 : X) (timerAlive : Bool) : Program X :=
  ⟨threadInitMain old ticks entry (BitVec.ofNat 32 userFbOffset), (newCtx entry (BitVec.ofNat 32 userFbOffset)).regs, x87,
    timerAlive, false⟩

/-- The registers after a system call: `eax` holds the result. -/
def Program.returns (p : Program X) (eax : U32) : Program X := { p with regs := { p.regs with eax := eax } }

/-- A tick in user mode: `irq_handler` counts it and schedules. -/
def Program.tick (p : Program X) (kesp intNo : U32) : Program X :=
  let t := { p.threads with ticks := p.threads.ticks + 1#32 }
  let (t, f) := t.schedule (p.regs.frame kesp intNo)
  { p with threads := t, regs := f.regs }

/-- `SYS_TCREATE`. -/
def Program.tcreate (p : Program X) (entry stack : U32) : Program X :=
  if !userRangeOk entry 1#32 then p.returns (-1#32)
  else if !userRangeOk stack 1#32 then p.returns (-1#32)
  else match p.threads.create entry stack with
    | (t, none) => { p with threads := t }.returns (-1#32)
    | (t, some tid) => { p with threads := t }.returns (BitVec.ofNat 32 tid.val)

/-- `SYS_TEXIT` and the way back through `syscall_entry`. -/
def Program.texit (p : Program X) : Program X :=
  match p.threads.exitSwitch with
  | (t, none) => { p with threads := t, exited := true }
  | (t, some regs) => { p with threads := t, regs := regs }

/-- One event; nothing happens to a program that has ended. User code cannot leave its code segment. -/
def Program.step (p : Program X) (ev : ThreadEvent X) : Program X :=
  if p.exited then p
  else match ev with
    | .user regs x87 => { p with regs := { regs with cs := userCs }, x87 := x87 }
    | .tick kesp intNo => p.tick kesp intNo
    | .tickInKernel => { p with threads := { p.threads with ticks := p.threads.ticks + 1#32 } }
    | .tcreate entry stack => p.tcreate entry stack
    | .texit => p.texit
    | .sleepf ms => { p with threads := p.threads.sleepf p.timerAlive ms }.returns 0#32

end MiniOs32
