import MiniOs32.Theorems.ThreadExit

/-!
# A context switch and what a thread sees of it

A ghost state records the registers and the x87 state of every thread when it was last interrupted, or, until it has run, those
it was created with. The registers of the frame come back unchanged in every run. The x87 state is not part of any frame: a
thread comes back to whatever the others left in the unit, which is what it left itself only if all of them leave the unit in
the same state.
-/

namespace MiniOs32

variable {X : Type*}

/-- A program and what each of its threads saw last. -/
structure Observed (X : Type*) where
  p : Program X
  seen : Fin maxThreads → Regs × X

/-- The thread a call of `SYS_TCREATE` creates. -/
def Program.created (p : Program X) (entry stack : U32) : Option (Fin maxThreads) :=
  if userRangeOk entry 1#32 ∧ userRangeOk stack 1#32 then (p.threads.create entry stack).2 else none

/-- What the threads saw last, after an event. -/
def Observed.seenAfter (s : Observed X) (ev : ThreadEvent X) (i : Fin maxThreads) : Regs × X :=
  match ev with
  | .tick _ _ => if i = s.p.threads.currentTid then (s.p.regs, s.p.x87) else s.seen i
  | .tcreate entry stack => if s.p.created entry stack = some i then ((newCtx entry stack).regs, s.p.x87) else s.seen i
  | _ => s.seen i

/-- One event. -/
def Observed.step (s : Observed X) (ev : ThreadEvent X) : Observed X :=
  if s.p.exited then s else ⟨s.p.step ev, s.seenAfter ev⟩

/-- A program just entered. -/
def Observed.start (old : Fin maxThreads → Thread) (ticks entry : U32) (x87 : X) (alive : Bool) : Observed X :=
  ⟨Program.start old ticks entry x87 alive, fun _ => ((newCtx entry (BitVec.ofNat 32 userFbOffset)).regs, x87)⟩

/-- An event after which `thread_schedule` or `thread_exit_switch` has resumed a thread. -/
def Resumes (s : Observed X) (ev : ThreadEvent X) : Prop :=
  s.p.exited = false ∧ (s.step ev).p.exited = false ∧ (ev = .texit ∨ ∃ kesp intNo, ev = .tick kesp intNo)

/-- The thread resumed has the registers it saw last. -/
def RegsKept (s : Observed X) (ev : ThreadEvent X) : Prop :=
  Resumes s ev → (s.step ev).p.regs = ((s.step ev).seen (s.step ev).p.threads.currentTid).1

/-- The thread resumed has the x87 state it saw last. -/
def X87Kept (s : Observed X) (ev : ThreadEvent X) : Prop :=
  Resumes s ev → (s.step ev).p.x87 = ((s.step ev).seen (s.step ev).p.threads.currentTid).2

/-- The thread resumed finds the x87 unit as the thread before it left it. -/
def X87Shared (s : Observed X) (ev : ThreadEvent X) : Prop :=
  Resumes s ev → (s.step ev).p.x87 = s.p.x87

/-- The x87 unit is in the state `c` whenever a thread is created and whenever one of several threads is interrupted or ends. -/
def LeavesX87 (c : X) (s : Observed X) (ev : ThreadEvent X) : Prop :=
  s.p.exited = false → match ev with
    | .tick _ _ => 2 ≤ s.p.threads.threadCount → s.p.x87 = c
    | .texit => 2 ≤ s.p.threads.threadCount → s.p.x87 = c
    | .tcreate _ _ => s.p.x87 = c
    | _ => True

/-! ## Saved registers -/

/-- The threads that are not running have what they saw last in their saved contexts. -/
structure Observed.RegsSaved (s : Observed X) : Prop where
  ok : s.p.Ok
  saved : s.p.exited = false → ∀ i, (s.p.threads.slots i).used = true → i ≠ s.p.threads.currentTid →
    (s.p.threads.slots i).ctx.regs = (s.seen i).1

/-- The threads that are not running saw the x87 unit in the state `c` last. -/
def Observed.X87Saved (c : X) (s : Observed X) : Prop :=
  s.p.exited = false → ∀ i, (s.p.threads.slots i).used = true → i ≠ s.p.threads.currentTid → (s.seen i).2 = c

@[simp] theorem regs_frame (r : Regs) (kesp intNo : U32) : (r.frame kesp intNo).regs = r := rfl

/-- Two threads in use are counted as two. -/
theorem Program.Ok.two_le {p : Program X} (h : p.Ok) {i j : Fin maxThreads} (hi : (p.threads.slots i).used = true)
    (hj : (p.threads.slots j).used = true) (hij : i ≠ j) : 2 ≤ p.threads.threadCount := by
  rw [h.count, Threads.usedCount]
  exact Finset.one_lt_card.2 ⟨i, by simp [hi], j, by simp [hj], hij⟩

/-- A tick, as far as the threads and the registers go: the current thread goes on, or another one that is in use does, with its
saved context. -/
theorem Program.tick_cases {p : Program X} (h : p.Ok) (he : p.exited = false) (kesp intNo : U32) :
    (∀ i, ((p.tick kesp intNo).threads.slots i).used = (p.threads.slots i).used) ∧
    (∀ i, ((p.tick kesp intNo).threads.slots i).ctx =
      if i = p.threads.currentTid then p.regs.frame kesp intNo else (p.threads.slots i).ctx) ∧
    ((p.tick kesp intNo).threads.currentTid = p.threads.currentTid ∧ (p.tick kesp intNo).regs = p.regs ∨
      ∃ next, (p.threads.slots next).used = true ∧ next ≠ p.threads.currentTid ∧
        (p.tick kesp intNo).threads.currentTid = next ∧ (p.tick kesp intNo).regs = (p.threads.slots next).ctx.regs) := by
  set t : Threads := { p.threads with ticks := p.threads.ticks + 1#32 } with ht
  have hcounted : t.Counted := ⟨h.count, h.current he⟩
  have hcs : (p.regs.frame kesp intNo).cs = userCs := h.cs he
  obtain ⟨t', hsame, hres⟩ := Threads.schedule_spec hcounted hcs
  have hused : ∀ i, (t'.slots i).used = (p.threads.slots i).used := by
    intro i
    rw [hsame.used, Threads.saveCtx_used]
  have hctx : ∀ i, (t'.slots i).ctx = if i = p.threads.currentTid then p.regs.frame kesp intNo else (p.threads.slots i).ctx := by
    intro i
    rw [hsame.ctx, Threads.saveCtx_ctx hcounted]
  have hcur : t'.currentTid = p.threads.currentTid := hsame.currentTid.trans (t.saveCtx_same _).1
  have htick : ∀ q, t.schedule (p.regs.frame kesp intNo) = q → p.tick kesp intNo = { p with threads := q.1, regs := q.2.regs } := by
    intro q hq
    unfold Program.tick
    dsimp only
    rw [← ht, hq]
  rcases hres with heq | ⟨next, hnext, heq⟩
  · rw [htick _ heq]
    exact ⟨hused, hctx, Or.inl ⟨hcur, rfl⟩⟩
  · rw [htick _ heq]
    refine ⟨hused, hctx, ?_⟩
    by_cases hn : next = p.threads.currentTid
    · refine Or.inl ⟨hn, ?_⟩
      dsimp only
      rw [hctx, if_pos hn, regs_frame]
    · refine Or.inr ⟨next, ?_, hn, rfl, ?_⟩
      · rw [← hused, hsame.used]
        exact hnext.1
      · dsimp only
        rw [hctx, if_neg hn]

/-- `SYS_TEXIT` of one of several threads: the program ends, or another thread that is in use goes on with its saved context. -/
theorem Program.texit_cases {p : Program X} (h : p.Ok) (he : p.exited = false) :
    p.texit.exited = true ∨
    (∀ i, (p.texit.threads.slots i).used = if i = p.threads.currentTid then false else (p.threads.slots i).used) ∧
    (∀ i ≠ p.threads.currentTid, (p.texit.threads.slots i).ctx = (p.threads.slots i).ctx) ∧
    p.texit.x87 = p.x87 ∧ (p.threads.slots p.texit.threads.currentTid).used = true ∧
    p.texit.threads.currentTid ≠ p.threads.currentTid ∧ p.texit.regs = (p.threads.slots p.texit.threads.currentTid).ctx.regs := by
  have hcounted := h.counted he
  obtain ⟨-, -, hused, hslots, -⟩ := hcounted.kill
  obtain ⟨t', hsame, hres⟩ := Threads.exitSwitch_spec hcounted
  unfold Program.texit
  rcases hres with ⟨-, heq⟩ | ⟨next, hnext, heq⟩ <;> rw [heq] <;> dsimp only
  · exact Or.inl rfl
  · obtain ⟨hne, hawake⟩ := (hcounted.kill_awake next).1 hnext
    have hctx : ∀ i ≠ p.threads.currentTid, (t'.slots i).ctx = (p.threads.slots i).ctx := by
      intro i hi
      rw [hsame.ctx, hslots i hi]
    refine Or.inr ⟨fun i => ?_, hctx, rfl, hawake.1, hne, by rw [hctx next hne]⟩
    rw [hsame.used, hused]

/-- `SYS_TCREATE`: nothing changes for the other threads, and the one created, if any, was free and has its first context. -/
theorem Program.tcreate_cases (p : Program X) (entry stack : U32) :
    (p.created entry stack = none ∧ (p.tcreate entry stack).threads = p.threads) ∨
    ∃ tid, p.created entry stack = some tid ∧ (p.threads.slots tid).used = false ∧
      (p.tcreate entry stack).threads.currentTid = p.threads.currentTid ∧
      ∀ i, (p.tcreate entry stack).threads.slots i = if i = tid then ⟨true, newCtx entry stack, 0#32⟩ else p.threads.slots i := by
  unfold Program.created Program.tcreate
  by_cases h1 : userRangeOk entry 1#32 = true
  · by_cases h2 : userRangeOk stack 1#32 = true
    · simp only [h1, h2, Bool.not_true, Bool.false_eq_true, if_false, and_self, if_true]
      rcases Threads.create_spec p.threads entry stack with heq | ⟨tid, hfree, heq⟩ <;> rw [heq]
      · exact Or.inl ⟨rfl, rfl⟩
      · exact Or.inr ⟨tid, rfl, hfree, rfl, fun i => rfl⟩
    · exact Or.inl (by simp [h1, h2, Program.returns])
  · exact Or.inl (by simp [h1, Program.returns])

/-- Instructions of the current thread, ticks in the kernel and `SYS_SLEEPF` change neither the threads in use nor their saved
contexts. -/
theorem Program.step_quiet {p : Program X} (he : p.exited = false) {ev : ThreadEvent X}
    (hev : (∃ r x, ev = .user r x) ∨ ev = .tickInKernel ∨ ∃ ms, ev = .sleepf ms) :
    (p.step ev).threads.currentTid = p.threads.currentTid ∧
    ∀ i, ((p.step ev).threads.slots i).used = (p.threads.slots i).used ∧
      ((p.step ev).threads.slots i).ctx = (p.threads.slots i).ctx := by
  unfold Program.step
  rw [he]
  rcases hev with ⟨r, x, rfl⟩ | rfl | ⟨ms, rfl⟩
  · exact ⟨rfl, fun _ => ⟨rfl, rfl⟩⟩
  · exact ⟨rfl, fun _ => ⟨rfl, rfl⟩⟩
  · obtain ⟨h1, h2, -⟩ := p.threads.sleepf_spec p.timerAlive ms
    exact ⟨h2, h1⟩

/-- One event of a program that has not ended. -/
theorem Observed.step_eq {s : Observed X} (he : s.p.exited = false) (ev : ThreadEvent X) :
    s.step ev = ⟨s.p.step ev, s.seenAfter ev⟩ := by
  exact if_neg (by simp [he])

/-- The program's own step for each event. -/
theorem Program.step_eq {p : Program X} (he : p.exited = false) :
    (∀ kesp intNo, p.step (.tick kesp intNo) = p.tick kesp intNo) ∧ p.step .texit = p.texit ∧
    ∀ entry stack, p.step (.tcreate entry stack) = p.tcreate entry stack := by
  exact ⟨fun _ _ => if_neg (by simp [he]), if_neg (by simp [he]), fun _ _ => if_neg (by simp [he])⟩

/-- Every event keeps the registers of the threads that are not running. -/
theorem Observed.RegsSaved.step (s : Observed X) (ev : ThreadEvent X) (h : s.RegsSaved) : (s.step ev).RegsSaved := by
  by_cases hx : s.p.exited = true
  · have heq : s.step ev = s := if_pos hx
    rw [heq]
    exact h
  have he : s.p.exited = false := by simpa using hx
  have hok := h.ok.step s.p ev
  rw [Observed.step_eq he]
  refine ⟨hok, ?_⟩
  intro he' i hi hne
  have hold := h.saved he
  obtain ⟨htick, htexit, htcreate⟩ := s.p.step_eq he
  cases ev with
  | tick kesp intNo =>
    obtain ⟨hused, hctx, -⟩ := Program.tick_cases h.ok he kesp intNo
    dsimp only [Observed.seenAfter] at hi hne ⊢
    rw [htick] at hi hne ⊢
    rw [hused] at hi
    rw [hctx]
    by_cases hic : i = s.p.threads.currentTid
    · rw [if_pos hic, if_pos hic, regs_frame]
    · rw [if_neg hic, if_neg hic]
      exact hold i hi hic
  | texit =>
    dsimp only [Observed.seenAfter] at hi hne he' ⊢
    rw [htexit] at hi hne he' ⊢
    rcases Program.texit_cases h.ok he with hend | ⟨hused, hctx, -, -, -, -⟩
    · rw [hend] at he'
      cases he'
    · rw [hused] at hi
      split at hi
      · cases hi
      · rename_i hic
        rw [hctx i hic]
        exact hold i hi hic
  | tcreate entry stack =>
    dsimp only [Observed.seenAfter] at hi hne ⊢
    rw [htcreate] at hi hne ⊢
    rcases Program.tcreate_cases s.p entry stack with ⟨hno, hsame⟩ | ⟨tid, hnew, hfree, hcur, hslots⟩
    · rw [hsame] at hi hne ⊢
      rw [hno]
      exact hold i hi hne
    · rw [hcur] at hne
      rw [hslots] at hi ⊢
      rw [hnew]
      by_cases hit : i = tid
      · rw [if_pos hit, if_pos (by rw [hit])]
      · rw [if_neg hit] at hi ⊢
        rw [if_neg (fun hc => hit (Option.some.inj hc).symm)]
        exact hold i hi hne
  | user r x =>
    obtain ⟨hcur, hslots⟩ := Program.step_quiet he (Or.inl ⟨r, x, rfl⟩)
    dsimp only [Observed.seenAfter] at hi hne ⊢
    rw [(hslots i).1] at hi
    rw [hcur] at hne
    rw [(hslots i).2]
    exact hold i hi hne
  | tickInKernel =>
    obtain ⟨hcur, hslots⟩ := Program.step_quiet he (Or.inr (Or.inl rfl))
    dsimp only [Observed.seenAfter] at hi hne ⊢
    rw [(hslots i).1] at hi
    rw [hcur] at hne
    rw [(hslots i).2]
    exact hold i hi hne
  | sleepf ms =>
    obtain ⟨hcur, hslots⟩ := Program.step_quiet he (Or.inr (Or.inr ⟨ms, rfl⟩))
    dsimp only [Observed.seenAfter] at hi hne ⊢
    rw [(hslots i).1] at hi
    rw [hcur] at hne
    rw [(hslots i).2]
    exact hold i hi hne

/-- Every thread resumed has its registers. -/
theorem regsKept (s : Observed X) (ev : ThreadEvent X) (h : s.RegsSaved) : RegsKept s ev := by
  rintro ⟨he, he', hev⟩
  have hold := h.saved he
  obtain ⟨htick, htexit, -⟩ := s.p.step_eq he
  rw [Observed.step_eq he] at he' ⊢
  rcases hev with rfl | ⟨kesp, intNo, rfl⟩
  · dsimp only [Observed.seenAfter] at he' ⊢
    rw [htexit] at he' ⊢
    rcases Program.texit_cases h.ok he with hend | ⟨-, -, -, hused, hne, hregs⟩
    · rw [hend] at he'
      cases he'
    · rw [hregs]
      exact hold _ hused hne
  · dsimp only [Observed.seenAfter]
    rw [htick]
    obtain ⟨-, -, ⟨hcur, hregs⟩ | ⟨next, hused, hne, hcur, hregs⟩⟩ := Program.tick_cases h.ok he kesp intNo
    · rw [hcur, hregs, if_pos rfl]
    · rw [hcur, hregs, if_neg hne]
      exact hold next hused hne

/-! ## The x87 unit -/

/-- Neither a tick nor `SYS_TEXIT` touches the x87 unit. -/
theorem Program.switch_x87 (p : Program X) : (∀ kesp intNo, (p.tick kesp intNo).x87 = p.x87) ∧ p.texit.x87 = p.x87 := by
  refine ⟨fun kesp intNo => rfl, ?_⟩
  unfold Program.texit
  rcases p.threads.exitSwitch with ⟨t, _ | regs⟩
  · rfl
  · rfl

/-- No switch touches the x87 unit. -/
theorem x87Shared (s : Observed X) (ev : ThreadEvent X) : X87Shared s ev := by
  rintro ⟨he, -, hev⟩
  obtain ⟨htick, htexit, -⟩ := s.p.step_eq he
  obtain ⟨hx, hx'⟩ := s.p.switch_x87
  rw [Observed.step_eq he]
  dsimp only
  rcases hev with rfl | ⟨kesp, intNo, rfl⟩
  · rw [htexit, hx']
  · rw [htick, hx]

/-- Threads that leave the x87 unit in the state `c` have all seen it in that state last. -/
theorem Observed.X87Saved.step {c : X} (s : Observed X) (ev : ThreadEvent X) (hok : s.p.Ok) (h : s.X87Saved c)
    (hg : LeavesX87 c s ev) : (s.step ev).X87Saved c := by
  by_cases hx : s.p.exited = true
  · have heq : s.step ev = s := if_pos hx
    rw [heq]
    exact h
  have he : s.p.exited = false := by simpa using hx
  rw [Observed.step_eq he]
  intro he' i hi hne
  have hold := h he
  have hleaves := hg he
  obtain ⟨htick, htexit, htcreate⟩ := s.p.step_eq he
  cases ev with
  | tick kesp intNo =>
    obtain ⟨hused, -, hres⟩ := Program.tick_cases hok he kesp intNo
    dsimp only [Observed.seenAfter] at hi hne ⊢
    rw [htick] at hi hne
    rw [hused] at hi
    by_cases hic : i = s.p.threads.currentTid
    · rw [if_pos hic]
      -- the thread interrupted is not the one that goes on, so there are two
      rcases hres with ⟨hcur, -⟩ | ⟨next, hnext, hncur, -, -⟩
      · exact absurd (hic.trans hcur.symm) hne
      · exact hleaves (hok.two_le hnext (hok.current he) hncur)
    · rw [if_neg hic]
      exact hold i hi hic
  | texit =>
    dsimp only [Observed.seenAfter] at hi hne he' ⊢
    rw [htexit] at hi hne he'
    rcases Program.texit_cases hok he with hend | ⟨hused, -, -, -, -, -⟩
    · rw [hend] at he'
      cases he'
    · rw [hused] at hi
      split at hi
      · cases hi
      · rename_i hic
        exact hold i hi hic
  | tcreate entry stack =>
    dsimp only [Observed.seenAfter] at hi hne ⊢
    rw [htcreate] at hi hne
    rcases Program.tcreate_cases s.p entry stack with ⟨hno, hsame⟩ | ⟨tid, hnew, -, hcur, hslots⟩
    · rw [hsame] at hi hne
      rw [hno]
      exact hold i hi hne
    · rw [hcur] at hne
      rw [hslots] at hi
      rw [hnew]
      by_cases hit : i = tid
      · rw [if_pos (by rw [hit])]
        exact hleaves
      · rw [if_neg hit] at hi
        rw [if_neg (fun hc => hit (Option.some.inj hc).symm)]
        exact hold i hi hne
  | user r x =>
    obtain ⟨hcur, hslots⟩ := Program.step_quiet he (Or.inl ⟨r, x, rfl⟩)
    dsimp only [Observed.seenAfter] at hi hne ⊢
    rw [(hslots i).1] at hi
    rw [hcur] at hne
    exact hold i hi hne
  | tickInKernel =>
    obtain ⟨hcur, hslots⟩ := Program.step_quiet he (Or.inr (Or.inl rfl))
    dsimp only [Observed.seenAfter] at hi hne ⊢
    rw [(hslots i).1] at hi
    rw [hcur] at hne
    exact hold i hi hne
  | sleepf ms =>
    obtain ⟨hcur, hslots⟩ := Program.step_quiet he (Or.inr (Or.inr ⟨ms, rfl⟩))
    dsimp only [Observed.seenAfter] at hi hne ⊢
    rw [(hslots i).1] at hi
    rw [hcur] at hne
    exact hold i hi hne

/-- A thread resumed among threads that leave the x87 unit in the state `c` finds it as it left it. -/
theorem x87Kept {c : X} (s : Observed X) (ev : ThreadEvent X) (hok : s.p.Ok) (h : s.X87Saved c) (hg : LeavesX87 c s ev) :
    X87Kept s ev := by
  intro hres
  have hshared := x87Shared s ev hres
  obtain ⟨he, he', hev⟩ := hres
  have hold := h he
  have hleaves := hg he
  obtain ⟨htick, htexit, -⟩ := s.p.step_eq he
  rw [hshared]
  rw [Observed.step_eq he] at he' ⊢
  rcases hev with rfl | ⟨kesp, intNo, rfl⟩
  · dsimp only [Observed.seenAfter] at he' ⊢
    rw [htexit] at he' ⊢
    rcases Program.texit_cases hok he with hend | ⟨-, -, -, hused, hne, -⟩
    · rw [hend] at he'
      cases he'
    · rw [hold _ hused hne]
      exact hleaves (hok.two_le hused (hok.current he) hne)
  · dsimp only [Observed.seenAfter]
    rw [htick]
    obtain ⟨-, -, ⟨hcur, -⟩ | ⟨next, hused, hne, hcur, -⟩⟩ := Program.tick_cases hok he kesp intNo
    · rw [hcur, if_pos rfl]
    · rw [hcur, if_neg hne, hold next hused hne]
      exact hleaves (hok.two_le hused (hok.current he) hne)

/-! ## Whole runs -/

/-- A program just entered has one thread, which runs. -/
theorem Observed.start_alone (old : Fin maxThreads → Thread) (ticks entry : U32) (x87 : X) (alive : Bool) (i : Fin maxThreads)
    (hi : ((Observed.start old ticks entry x87 alive).p.threads.slots i).used = true) : i = 0 := by
  by_contra h0
  simp [Observed.start, Program.start, threadInitMain, h0] at hi

/-- Along every run, a thread resumed has the registers of its frame as it saw them last and finds the x87 unit as the thread
before it left it; if the threads of the run all leave the unit in one state, that is how it left it itself. -/
theorem switch_keeps_registers_and_shares_x87 (old : Fin maxThreads → Thread) (ticks entry : U32) (x87 : X) (alive : Bool)
    (evs : List (ThreadEvent X)) :
    Meets Observed.step RegsKept (Observed.start old ticks entry x87 alive) evs ∧
    Meets Observed.step X87Shared (Observed.start old ticks entry x87 alive) evs ∧
    ∀ c, Meets Observed.step (LeavesX87 c) (Observed.start old ticks entry x87 alive) evs →
      Meets Observed.step X87Kept (Observed.start old ticks entry x87 alive) evs := by
  have hregs : (Observed.start old ticks entry x87 alive).RegsSaved :=
    ⟨.start old ticks entry x87 alive, fun _ i hi hne => absurd (Observed.start_alone old ticks entry x87 alive i hi) hne⟩
  refine ⟨?_, ?_, ?_⟩
  · exact meets_of_inv_all Observed.RegsSaved (fun s ev h => h.step s ev) (fun s ev h => regsKept s ev h) hregs evs
  · exact meets_of_inv_all (fun _ => True) (fun _ _ _ => trivial) (fun s ev _ => x87Shared s ev) trivial evs
  · intro c hc
    refine meets_of_inv (fun s => s.RegsSaved ∧ s.X87Saved c) ?_ ?_ ⟨hregs, ?_⟩ hc
    · rintro s ev ⟨h, hx⟩ hg
      exact ⟨h.step s ev, hx.step s ev h.ok hg⟩
    · rintro s ev ⟨h, hx⟩ hg
      exact x87Kept s ev h.ok hx hg
    · exact fun _ i hi hne => absurd (Observed.start_alone old ticks entry x87 alive i hi) hne

/-- The main thread puts 1 into the x87 unit and is interrupted, the second thread puts 2 there and is interrupted. -/
def twoFloatThreads : List (ThreadEvent Nat) :=
  [.tcreate 4096#32 8192#32, .user (newCtx 4096#32 8192#32).regs 1, .tick 0#32 32#32,
    .user (newCtx 4096#32 8192#32).regs 2, .tick 0#32 32#32]

/-- A thread resumed does not always find its registers and the x87 unit as it left them. -/
theorem switch_invisible_false :
    ¬∀ (old : Fin maxThreads → Thread) (ticks entry : U32) (evs : List (ThreadEvent Nat)),
      Meets Observed.step (fun s ev => RegsKept s ev ∧ X87Kept s ev) (Observed.start old ticks entry 0 true) evs := by
  intro h
  have hm := h (fun _ => ⟨false, newCtx 0#32 0#32, 0#32⟩) 100#32 4096#32 twoFloatThreads
  have hlast := hm.2.2.2.2.1.2 ⟨by decide, by decide, Or.inr ⟨0#32, 32#32, rfl⟩⟩
  revert hlast
  decide

end MiniOs32
