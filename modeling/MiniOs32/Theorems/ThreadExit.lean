import MiniOs32.Kernel.Threads
import MiniOs32.Lib.Run

/-!
# When a program ends

`thread_count` counts the threads in use and the current thread is one of them, along every run. `SYS_TEXIT` should end the
program with its last thread; `thread_exit_switch` ends it as soon as none of the remaining threads is runnable, so a thread
that exits while the others are asleep takes the program with it.
-/

namespace MiniOs32

/-! ## Runnable threads -/

/-- The thread is in use and not asleep. -/
def Threads.Awake (t : Threads) (i : Fin maxThreads) : Prop :=
  (t.slots i).used = true ∧ ((t.slots i).sleepUntil = 0#32 ∨ 0 ≤ (t.ticks - (t.slots i).sleepUntil).toInt)

instance (t : Threads) (i : Fin maxThreads) : Decidable (t.Awake i) := by unfold Threads.Awake; infer_instance

/-- The number of threads in use. -/
def Threads.usedCount (t : Threads) : Nat := (Finset.univ.filter fun i => (t.slots i).used = true).card

/-- Two thread tables that differ only in the wake-up ticks of threads that are awake anyway. -/
structure Threads.SameButWoken (t t' : Threads) : Prop where
  used : ∀ i, (t'.slots i).used = (t.slots i).used
  ctx : ∀ i, (t'.slots i).ctx = (t.slots i).ctx
  awake : ∀ i, t'.Awake i ↔ t.Awake i
  currentTid : t'.currentTid = t.currentTid
  threadCount : t'.threadCount = t.threadCount
  ticks : t'.ticks = t.ticks

theorem Threads.SameButWoken.refl (t : Threads) : t.SameButWoken t :=
  ⟨fun _ => rfl, fun _ => rfl, fun _ => Iff.rfl, rfl, rfl, rfl⟩

theorem Threads.SameButWoken.trans {a b c : Threads} (h : a.SameButWoken b) (h' : b.SameButWoken c) : a.SameButWoken c :=
  ⟨fun i => (h'.used i).trans (h.used i), fun i => (h'.ctx i).trans (h.ctx i), fun i => (h'.awake i).trans (h.awake i),
    h'.currentTid.trans h.currentTid, h'.threadCount.trans h.threadCount, h'.ticks.trans h.ticks⟩

/-- `thread_is_runnable` tells whether a thread is awake, and at most clears its wake-up tick. -/
theorem Threads.isRunnable_spec (t : Threads) (i : Fin maxThreads) :
    t.SameButWoken (t.isRunnable i).1 ∧ ((t.isRunnable i).2 = true ↔ t.Awake i) := by
  unfold Threads.isRunnable
  cases hu : (t.slots i).used with
  | false => exact ⟨.refl t, by simp [Threads.Awake, hu]⟩
  | true =>
    simp only [Bool.not_true, Bool.false_eq_true, if_false]
    by_cases hz : (t.slots i).sleepUntil = 0#32
    · rw [if_pos hz]
      exact ⟨.refl t, by simp [Threads.Awake, hu, hz]⟩
    · rw [if_neg hz]
      by_cases hw : 0 ≤ (t.ticks - (t.slots i).sleepUntil).toInt
      · rw [if_pos hw]
        have hself : t.Awake i := ⟨hu, Or.inr hw⟩
        refine ⟨⟨fun j => ?_, fun j => ?_, fun j => ?_, rfl, rfl, rfl⟩, by simp [hself]⟩
        · by_cases hj : j = i
          · simp [Threads.set, hj]
          · simp [Threads.set, hj]
        · by_cases hj : j = i
          · simp [Threads.set, hj]
          · simp [Threads.set, hj]
        · by_cases hj : j = i
          · subst hj
            exact ⟨fun _ => hself, fun _ => ⟨by simp [Threads.set, hu], Or.inl (by simp [Threads.set])⟩⟩
          · simp [Threads.Awake, Threads.set, hj]
      · rw [if_neg hw]
        exact ⟨.refl t, fun h => (Bool.false_ne_true h).elim, fun h => (h.2.elim hz hw).elim⟩

/-- The search for the next thread changes nothing but wake-up ticks. -/
theorem Threads.findNext_same (n : Nat) : ∀ (t : Threads) (next : Fin maxThreads), t.SameButWoken (Threads.findNext n t next).1 := by
  induction n with
  | zero => intro t next; exact .refl t
  | succ n ih =>
    intro t next
    have hspec := t.isRunnable_spec (next + 1)
    simp only [Threads.findNext]
    rcases hr : t.isRunnable (next + 1) with ⟨t', _ | _⟩ <;> rw [hr] at hspec <;> dsimp only
    · exact hspec.1.trans (ih t' (next + 1))
    · exact hspec.1

/-- The search ends at an awake thread when it meets one. -/
theorem Threads.findNext_awake (n : Nat) : ∀ (t : Threads) (next : Fin maxThreads) (d : Nat), d < n →
    t.Awake (next + 1 + Fin.ofNat maxThreads d) → t.Awake (Threads.findNext n t next).2 := by
  induction n with
  | zero => intro t next d hd; omega
  | succ n ih =>
    intro t next d hd ha
    have hspec := t.isRunnable_spec (next + 1)
    simp only [Threads.findNext]
    rcases hr : t.isRunnable (next + 1) with ⟨t', _ | _⟩ <;> rw [hr] at hspec <;> dsimp only
    · cases d with
      | zero =>
        have h0 : next + 1 + Fin.ofNat maxThreads 0 = next + 1 := by simp
        rw [h0] at ha
        exact absurd (hspec.2.2 ha) Bool.false_ne_true
      | succ d =>
        have hshift : next + 1 + Fin.ofNat maxThreads (d + 1) = next + 1 + 1 + Fin.ofNat maxThreads d := by
          have hsucc : Fin.ofNat maxThreads (d + 1) = 1 + Fin.ofNat maxThreads d := by
            apply Fin.ext
            simp [Fin.val_add, Nat.add_comm]
          rw [hsucc, add_assoc (next + 1)]
        rw [hshift] at ha
        refine (hspec.1.awake _).1 (ih t' (next + 1) d (by omega) ?_)
        exact (hspec.1.awake _).2 ha
    · exact hspec.2.1 rfl

/-- The search over all slots ends at an awake thread when there is one. -/
theorem Threads.findNext_all {t : Threads} {i : Fin maxThreads} (h : t.Awake i) (next : Fin maxThreads) :
    t.Awake (Threads.findNext maxThreads t next).2 := by
  have hreach : ∀ next i : Fin maxThreads, ∃ d < maxThreads, next + 1 + Fin.ofNat maxThreads d = i := by decide
  obtain ⟨d, hd, hi⟩ := hreach next i
  exact Threads.findNext_awake maxThreads t next d hd (hi ▸ h)

/-- The search of `SYS_SLEEPF` changes nothing but wake-up ticks. -/
theorem Threads.othersRunnable_same (is : List (Fin maxThreads)) : ∀ t : Threads, t.SameButWoken (Threads.othersRunnable is t).1 := by
  induction is with
  | nil => intro t; exact .refl t
  | cons i is ih =>
    intro t
    have hspec := t.isRunnable_spec i
    simp only [Threads.othersRunnable]
    split
    · exact ih t
    · rcases hr : t.isRunnable i with ⟨t', _ | _⟩ <;> rw [hr] at hspec <;> dsimp only
      · exact hspec.1.trans (ih t')
      · exact hspec.1

/-! ## Counting -/

/-- The thread count is right and the current thread is in use. -/
structure Threads.Counted (t : Threads) : Prop where
  count : t.threadCount = t.usedCount
  current : (t.slots t.currentTid).used = true

theorem Threads.usedCount_congr {t t' : Threads} (h : ∀ i, (t'.slots i).used = (t.slots i).used) : t'.usedCount = t.usedCount := by
  simp only [Threads.usedCount, h]

/-- One thread less is in use once a thread is marked unused. -/
theorem Threads.usedCount_erase {t t' : Threads} {i : Fin maxThreads} (hi : (t.slots i).used = true)
    (h : ∀ j, (t'.slots j).used = if j = i then false else (t.slots j).used) : t'.usedCount + 1 = t.usedCount := by
  have hset : (Finset.univ.filter fun j => (t'.slots j).used = true) =
      (Finset.univ.filter fun j => (t.slots j).used = true).erase i := by
    ext j
    by_cases hj : j = i <;> simp [h, hj]
  rw [Threads.usedCount, hset]
  exact Finset.card_erase_add_one (by simp [hi])

/-- One thread more is in use once a free slot is taken. -/
theorem Threads.usedCount_insert {t t' : Threads} {i : Fin maxThreads} (hi : (t.slots i).used = false)
    (h : ∀ j, (t'.slots j).used = if j = i then true else (t.slots j).used) : t'.usedCount = t.usedCount + 1 := by
  have hset : (Finset.univ.filter fun j => (t'.slots j).used = true) =
      insert i (Finset.univ.filter fun j => (t.slots j).used = true) := by
    ext j
    by_cases hj : j = i <;> simp [h, hj]
  rw [Threads.usedCount, hset]
  exact Finset.card_insert_of_notMem (by simp [hi])

/-- No thread is in use when none is counted. -/
theorem Threads.usedCount_eq_zero {t : Threads} : t.usedCount = 0 ↔ ∀ i, (t.slots i).used = false := by
  simp [Threads.usedCount, Finset.filter_eq_empty_iff]

/-- Work that wakes threads at most keeps the count and the current thread. -/
theorem Threads.Counted.woken {t t' : Threads} (h : t.Counted) (hs : t.SameButWoken t') : t'.Counted := by
  refine ⟨?_, ?_⟩
  · rw [hs.threadCount, h.count, Threads.usedCount_congr hs.used]
  · rw [hs.currentTid, hs.used]
    exact h.current

/-- Looking for the next thread and asking it again: at most wake-ups, and an answer that is right. -/
theorem Threads.findNext_isRunnable (t : Threads) :
    let r := Threads.findNext maxThreads t t.currentTid
    t.SameButWoken (r.1.isRunnable r.2).1 ∧ ((r.1.isRunnable r.2).2 = true ↔ t.Awake r.2) := by
  intro r
  have hsame := Threads.findNext_same maxThreads t t.currentTid
  have hspec := r.1.isRunnable_spec r.2
  exact ⟨hsame.trans hspec.1, hspec.2.trans (hsame.awake r.2)⟩

/-- What scheduling does after the save: sleepers may wake, and the thread that goes on is awake and goes on with its saved
context, or it is the current one with the frame it came with. -/
theorem Threads.switchFrom_spec (t : Threads) (f : FaultFrame) :
    ∃ t', t.SameButWoken t' ∧ (t.switchFrom true f = (t', f) ∨
      ∃ next, t.Awake next ∧ t.switchFrom true f = ({ t' with currentTid := next }, (t'.slots next).ctx)) := by
  obtain ⟨hsame, hok⟩ := Threads.findNext_isRunnable t
  unfold Threads.switchFrom
  generalize Threads.findNext maxThreads t t.currentTid = r at hsame hok ⊢
  obtain ⟨t1, next⟩ := r
  dsimp only at hsame hok ⊢
  rcases hq : t1.isRunnable next with ⟨t2, ok⟩
  rw [hq] at hsame hok
  dsimp only at hsame hok ⊢
  cases ok with
  | false => exact ⟨t2, hsame, Or.inl rfl⟩
  | true =>
    have hawake : t.Awake next := hok.1 rfl
    simp only [Bool.not_true, Bool.false_eq_true, if_false, and_true]
    by_cases hsc : next = t2.currentTid
    · have hstay := t2.isRunnable_spec t2.currentTid
      rw [if_pos hsc]
      have hbool : (t2.isRunnable t2.currentTid).2 = true := by
        rw [hstay.2, hsame.awake, ← hsc]
        exact hawake
      exact ⟨(t2.isRunnable t2.currentTid).1, hsame.trans hstay.1, Or.inl (by rw [if_pos hbool])⟩
    · rw [if_neg hsc]
      exact ⟨t2, hsame, Or.inr ⟨next, hawake, rfl⟩⟩

/-- What scheduling does with the frame of the current thread. -/
theorem Threads.schedule_spec {t : Threads} (h : t.Counted) {f : FaultFrame} (hf : f.cs = userCs) :
    ∃ t', (t.saveCtx f).SameButWoken t' ∧ (t.schedule f = (t', f) ∨
      ∃ next, (t.saveCtx f).Awake next ∧ t.schedule f = ({ t' with currentTid := next }, (t'.slots next).ctx)) := by
  have hcount : t.threadCount ≠ 0 := by
    intro h0
    rw [h.count, Threads.usedCount_eq_zero] at h0
    exact Bool.false_ne_true ((h0 t.currentTid).symm.trans h.current)
  unfold Threads.schedule
  rw [if_neg hcount, if_neg (not_not_intro hf), h.current]
  exact (t.saveCtx f).switchFrom_spec f

/-- Killing the current thread, which is in use. -/
theorem Threads.Counted.kill {t : Threads} (h : t.Counted) :
    (t.kill t.currentTid).currentTid = t.currentTid ∧ (t.kill t.currentTid).threadCount = (t.kill t.currentTid).usedCount ∧
    (∀ j, ((t.kill t.currentTid).slots j).used = if j = t.currentTid then false else (t.slots j).used) ∧
    (∀ j ≠ t.currentTid, (t.kill t.currentTid).slots j = t.slots j) ∧ (t.kill t.currentTid).ticks = t.ticks := by
  have heq : t.kill t.currentTid = { t.set t.currentTid { t.slots t.currentTid with used := false, sleepUntil := 0#32 } with
      threadCount := t.threadCount - 1 } := by
    unfold Threads.kill
    rw [h.current]
    rfl
  have hused : ∀ j, ((t.kill t.currentTid).slots j).used = if j = t.currentTid then false else (t.slots j).used := by
    intro j
    rw [heq]
    by_cases hj : j = t.currentTid <;> simp [Threads.set, hj]
  have herase := Threads.usedCount_erase h.current hused
  refine ⟨by rw [heq]; rfl, ?_, hused, ?_, by rw [heq]; rfl⟩
  · have hc := h.count
    rw [show (t.kill t.currentTid).threadCount = t.threadCount - 1 by rw [heq]]
    omega
  · intro j hj
    rw [heq]
    exact if_neg hj

/-- What ending the current thread does: nobody left is awake, and the program ends; or an awake thread goes on with its saved
context. -/
theorem Threads.exitSwitch_spec {t : Threads} (h : t.Counted) :
    ∃ t', (t.kill t.currentTid).SameButWoken t' ∧
      (((∀ i, ¬(t.kill t.currentTid).Awake i) ∧ t.exitSwitch = (t', none)) ∨
        ∃ next, (t.kill t.currentTid).Awake next ∧
          t.exitSwitch = ({ t' with currentTid := next }, some (t'.slots next).ctx.regs)) := by
  obtain ⟨-, hcount, -, -, -⟩ := h.kill
  unfold Threads.exitSwitch
  dsimp only
  generalize t.kill t.currentTid = t1 at hcount ⊢
  by_cases hzero : t1.threadCount = 0
  · rw [if_pos hzero]
    rw [hcount, Threads.usedCount_eq_zero] at hzero
    exact ⟨t1, .refl t1, Or.inl ⟨fun i hi => Bool.false_ne_true ((hzero i).symm.trans hi.1), rfl⟩⟩
  · rw [if_neg hzero]
    obtain ⟨hsame, hok⟩ := Threads.findNext_isRunnable t1
    have hall : ∀ i, t1.Awake i → t1.Awake (Threads.findNext maxThreads t1 t1.currentTid).2 :=
      fun i hi => Threads.findNext_all hi t1.currentTid
    generalize Threads.findNext maxThreads t1 t1.currentTid = r at hsame hok hall ⊢
    obtain ⟨t2, next⟩ := r
    dsimp only at hsame hok hall ⊢
    rcases hq : t2.isRunnable next with ⟨t3, ok⟩
    rw [hq] at hsame hok
    dsimp only at hsame hok ⊢
    cases ok with
    | false => exact ⟨t3, hsame, Or.inl ⟨fun i hi => Bool.false_ne_true (hok.2 (hall i hi)), rfl⟩⟩
    | true => exact ⟨t3, hsame, Or.inr ⟨next, hok.1 rfl, rfl⟩⟩

/-! ## One event -/

variable {X : Type*}

/-- While a program runs, its threads are counted and the current one is in use, and it runs in its code segment; after its end
they are still counted. -/
structure Program.Ok (p : Program X) : Prop where
  count : p.threads.threadCount = p.threads.usedCount
  current : p.exited = false → (p.threads.slots p.threads.currentTid).used = true
  cs : p.exited = false → p.regs.cs = userCs
  saved : ∀ i, (p.threads.slots i).used = true → (p.threads.slots i).ctx.cs = userCs

theorem Program.Ok.counted {p : Program X} (h : p.Ok) (he : p.exited = false) : p.threads.Counted := ⟨h.count, h.current he⟩

/-- A program starts with one thread. -/
theorem Program.Ok.start (old : Fin maxThreads → Thread) (ticks entry : U32) (x87 : X) (alive : Bool) :
    (Program.start old ticks entry x87 alive).Ok := by
  refine ⟨?_, fun _ => rfl, fun _ => rfl, ?_⟩
  · have hset : (Finset.univ.filter fun i =>
        ((Program.start old ticks entry x87 alive).threads.slots i).used = true) = {0} := by
      ext i
      by_cases hi : i = 0 <;> simp [Program.start, threadInitMain, hi]
    rw [Threads.usedCount, hset]
    rfl
  · intro i hi
    by_cases h0 : i = 0
    · subst h0
      rfl
    · simp [Program.start, threadInitMain, h0] at hi

/-- Saving the frame of the current thread changes its context only. -/
theorem Threads.saveCtx_used (t : Threads) (f : FaultFrame) (i : Fin maxThreads) :
    ((t.saveCtx f).slots i).used = (t.slots i).used := by
  unfold Threads.saveCtx
  split
  · by_cases hi : i = t.currentTid <;> simp [Threads.set, hi]
  · rfl

/-- The contexts after the save. -/
theorem Threads.saveCtx_ctx {t : Threads} (h : t.Counted) (f : FaultFrame) (i : Fin maxThreads) :
    ((t.saveCtx f).slots i).ctx = if i = t.currentTid then f else (t.slots i).ctx := by
  unfold Threads.saveCtx
  rw [if_pos h.current]
  by_cases hi : i = t.currentTid <;> simp [Threads.set, hi]

theorem Threads.saveCtx_same (t : Threads) (f : FaultFrame) :
    (t.saveCtx f).currentTid = t.currentTid ∧ (t.saveCtx f).threadCount = t.threadCount := by
  unfold Threads.saveCtx
  split <;> exact ⟨rfl, rfl⟩

/-- A tick keeps a program in order. -/
theorem Program.Ok.tick {p : Program X} (h : p.Ok) (he : p.exited = false) (kesp intNo : U32) : (p.tick kesp intNo).Ok := by
  set t : Threads := { p.threads with ticks := p.threads.ticks + 1#32 } with ht
  have hcounted : t.Counted := ⟨h.count, h.current he⟩
  have hcs : (p.regs.frame kesp intNo).cs = userCs := h.cs he
  obtain ⟨t', hsame, hres⟩ := Threads.schedule_spec hcounted hcs
  have hused : ∀ i, (t'.slots i).used = (p.threads.slots i).used := by
    intro i
    rw [hsame.used, Threads.saveCtx_used]
  have hsaved : ∀ i, (t'.slots i).used = true → (t'.slots i).ctx.cs = userCs := by
    intro i hi
    rw [hsame.ctx, Threads.saveCtx_ctx hcounted]
    split
    · exact hcs
    · exact h.saved i (hused i ▸ hi)
  have hcount : t'.threadCount = t'.usedCount := by
    rw [hsame.threadCount, (t.saveCtx_same _).2, Threads.usedCount_congr hused]
    exact h.count
  have hcur : t'.currentTid = p.threads.currentTid := hsame.currentTid.trans (t.saveCtx_same _).1
  unfold Program.tick
  dsimp only
  rw [← ht]
  rcases hres with heq | ⟨next, hnext, heq⟩ <;> rw [heq] <;> dsimp only
  · refine ⟨hcount, fun _ => ?_, fun _ => h.cs he, hsaved⟩
    dsimp only
    rw [hcur, hused]
    exact h.current he
  · have hnext' : (t'.slots next).used = true := by
      rw [hsame.used]
      exact hnext.1
    exact ⟨hcount, fun _ => hnext', fun _ => hsaved next hnext', hsaved⟩

/-- Creating a thread takes a free slot. -/
theorem Threads.create_spec (t : Threads) (entry stack : U32) :
    t.create entry stack = (t, none) ∨ ∃ tid, (t.slots tid).used = false ∧ t.create entry stack =
      ({ t.set tid ⟨true, newCtx entry stack, 0#32⟩ with threadCount := t.threadCount + 1 }, some tid) := by
  unfold Threads.create
  split
  · exact Or.inl rfl
  · cases hf : (List.finRange maxThreads).find? (fun i => !(t.slots i).used) with
    | none => exact Or.inl rfl
    | some tid => exact Or.inr ⟨tid, by simpa using List.find?_some hf, rfl⟩

/-- `SYS_TCREATE` keeps a program in order. -/
theorem Program.Ok.tcreate {p : Program X} (h : p.Ok) (entry stack : U32) : (p.tcreate entry stack).Ok := by
  have hsame : ∀ eax, (p.returns eax).Ok := fun eax => ⟨h.count, h.current, h.cs, h.saved⟩
  unfold Program.tcreate
  split
  · exact hsame _
  · split
    · exact hsame _
    · rcases Threads.create_spec p.threads entry stack with heq | ⟨tid, hfree, heq⟩ <;> rw [heq] <;> dsimp only
      · exact hsame _
      · have hused : ∀ j, ((p.threads.set tid ⟨true, newCtx entry stack, 0#32⟩).slots j).used =
            if j = tid then true else (p.threads.slots j).used := by
          intro j
          by_cases hj : j = tid <;> simp [Threads.set, hj]
        refine ⟨?_, fun he => ?_, h.cs, fun i hi => ?_⟩
        · have hins : (p.threads.set tid ⟨true, newCtx entry stack, 0#32⟩).usedCount = p.threads.usedCount + 1 :=
            Threads.usedCount_insert hfree hused
          change p.threads.threadCount + 1 = _
          rw [h.count]
          exact hins.symm
        · change ((p.threads.set tid ⟨true, newCtx entry stack, 0#32⟩).slots p.threads.currentTid).used = true
          rw [hused]
          split
          · rfl
          · exact h.current he
        · change ((p.threads.set tid ⟨true, newCtx entry stack, 0#32⟩).slots i).ctx.cs = userCs
          replace hi : ((p.threads.set tid ⟨true, newCtx entry stack, 0#32⟩).slots i).used = true := hi
          by_cases hit : i = tid
          · simp [Threads.set, hit, newCtx]
          · rw [hused, if_neg hit] at hi
            simpa [Threads.set, hit] using h.saved i hi

/-- `SYS_TEXIT` keeps a program in order. -/
theorem Program.Ok.texit {p : Program X} (h : p.Ok) (he : p.exited = false) : p.texit.Ok := by
  obtain ⟨hcur, hcount, hused, hslots, -⟩ := (h.counted he).kill
  obtain ⟨t', hsame, hres⟩ := Threads.exitSwitch_spec (h.counted he)
  have hcount' : t'.threadCount = t'.usedCount := by
    rw [hsame.threadCount, hcount, Threads.usedCount_congr hsame.used]
  have hsaved : ∀ i, (t'.slots i).used = true → (t'.slots i).ctx.cs = userCs := by
    intro i hi
    rw [hsame.used, hused] at hi
    rw [hsame.ctx]
    split at hi
    · cases hi
    · rename_i hic
      rw [hslots i hic]
      exact h.saved i hi
  unfold Program.texit
  rcases hres with ⟨-, heq⟩ | ⟨next, hnext, heq⟩ <;> rw [heq] <;> dsimp only
  · exact ⟨hcount', fun hc => Bool.noConfusion hc, fun hc => Bool.noConfusion hc, hsaved⟩
  · have hnext' : (t'.slots next).used = true := by
      rw [hsame.used]
      exact hnext.1
    exact ⟨hcount', fun _ => hnext', fun _ => hsaved next hnext', hsaved⟩

/-- `SYS_SLEEPF` changes wake-up ticks only. -/
theorem Threads.sleepf_spec (t : Threads) (alive : Bool) (ms : U32) :
    (∀ i, ((t.sleepf alive ms).slots i).used = (t.slots i).used ∧ ((t.sleepf alive ms).slots i).ctx = (t.slots i).ctx) ∧
    (t.sleepf alive ms).currentTid = t.currentTid ∧ (t.sleepf alive ms).threadCount = t.threadCount := by
  have hset : ∀ (t : Threads) w i, ((t.set t.currentTid { t.slots t.currentTid with sleepUntil := w }).slots i).used =
      (t.slots i).used ∧ ((t.set t.currentTid { t.slots t.currentTid with sleepUntil := w }).slots i).ctx = (t.slots i).ctx := by
    intro t w i
    by_cases hi : i = t.currentTid <;> simp [Threads.set, hi]
  unfold Threads.sleepf
  split
  · exact ⟨fun _ => ⟨rfl, rfl⟩, rfl, rfl⟩
  · split
    · exact ⟨fun _ => ⟨rfl, rfl⟩, rfl, rfl⟩
    · dsimp only
      set t1 := t.set t.currentTid { t.slots t.currentTid with sleepUntil := t.ticks + (ms + 9#32) / 10#32 } with ht1
      have hsame := Threads.othersRunnable_same (List.finRange maxThreads) t1
      generalize Threads.othersRunnable (List.finRange maxThreads) t1 = r at hsame ⊢
      obtain ⟨t2, other⟩ := r
      dsimp only at hsame ⊢
      have h2 : ∀ i, (t2.slots i).used = (t.slots i).used ∧ (t2.slots i).ctx = (t.slots i).ctx :=
        fun i => ⟨(hsame.used i).trans (hset t _ i).1, (hsame.ctx i).trans (hset t _ i).2⟩
      split
      · exact ⟨h2, hsame.currentTid, hsame.threadCount⟩
      · refine ⟨fun i => ?_, hsame.currentTid, hsame.threadCount⟩
        have h3 := hset { t2 with ticks := waitTicks t2.ticks (t.ticks + (ms + 9#32) / 10#32) } 0#32 i
        exact ⟨h3.1.trans (h2 i).1, h3.2.trans (h2 i).2⟩

/-- Every event keeps a program in order. -/
theorem Program.Ok.step (p : Program X) (ev : ThreadEvent X) (h : p.Ok) : (p.step ev).Ok := by
  unfold Program.step
  by_cases he : p.exited = true
  · rw [if_pos he]
    exact h
  · rw [if_neg he]
    replace he : p.exited = false := by simpa using he
    cases ev with
    | user regs x87 => exact ⟨h.count, h.current, fun _ => rfl, h.saved⟩
    | tick kesp intNo => exact h.tick he kesp intNo
    | tickInKernel => exact ⟨h.count, h.current, h.cs, h.saved⟩
    | tcreate entry stack => exact h.tcreate entry stack
    | texit => exact h.texit he
    | sleepf ms =>
      obtain ⟨h1, h2, h3⟩ := p.threads.sleepf_spec p.timerAlive ms
      refine ⟨?_, fun _ => ?_, h.cs, fun i hi => ?_⟩
      · change (p.threads.sleepf p.timerAlive ms).threadCount = _
        rw [h3, h.count]
        exact (Threads.usedCount_congr fun i => (h1 i).1).symm
      · change ((p.threads.sleepf p.timerAlive ms).slots (p.threads.sleepf p.timerAlive ms).currentTid).used = true
        rw [h2, (h1 _).1]
        exact h.current he
      · replace hi : ((p.threads.sleepf p.timerAlive ms).slots i).used = true := hi
        change ((p.threads.sleepf p.timerAlive ms).slots i).ctx.cs = userCs
        rw [(h1 i).2]
        exact h.saved i ((h1 i).1 ▸ hi)

/-! ## The end of a program -/

/-- `SYS_TEXIT` requests the end of the program if and only if no thread in use remains. -/
def TexitRight (p : Program X) (ev : ThreadEvent X) : Prop :=
  p.exited = false → ev = .texit → ((p.step ev).exited = true ↔ ∀ i, ((p.step ev).threads.slots i).used = false)

/-- A thread exits only when no other thread is in use, or when one of the others is awake. -/
def LeavesAwake (p : Program X) (ev : ThreadEvent X) : Prop :=
  p.exited = false → ev = .texit →
    (∀ i ≠ p.threads.currentTid, (p.threads.slots i).used = false) ∨ ∃ i ≠ p.threads.currentTid, p.threads.Awake i

/-- A thread that is left after the current one is killed is awake if it was. -/
theorem Threads.Counted.kill_awake {t : Threads} (h : t.Counted) (i : Fin maxThreads) :
    (t.kill t.currentTid).Awake i ↔ i ≠ t.currentTid ∧ t.Awake i := by
  obtain ⟨-, -, hused, hslots, hticks⟩ := h.kill
  by_cases hi : i = t.currentTid
  · refine ⟨fun ha => ?_, fun ha => absurd hi ha.1⟩
    have := ha.1
    rw [hused, if_pos hi] at this
    cases this
  · simp only [Threads.Awake, hslots i hi, hticks, ne_eq, hi, not_false_eq_true, true_and]

/-- `SYS_TEXIT` decides rightly exactly when it leaves nobody or somebody awake. -/
theorem texitRight_iff_leavesAwake (p : Program X) (ev : ThreadEvent X) (h : p.Ok) : TexitRight p ev ↔ LeavesAwake p ev := by
  unfold TexitRight LeavesAwake
  refine forall_congr' fun he => forall_congr' fun hev => ?_
  subst hev
  have hcounted := h.counted he
  obtain ⟨-, -, hused, -, -⟩ := hcounted.kill
  obtain ⟨t', hsame, hres⟩ := Threads.exitSwitch_spec hcounted
  have hstep : p.step .texit = p.texit := by
    unfold Program.step
    rw [he]
    rfl
  have hleft : (∀ i, (t'.slots i).used = false) ↔ ∀ i ≠ p.threads.currentTid, (p.threads.slots i).used = false := by
    refine forall_congr' fun i => ?_
    rw [hsame.used, hused]
    by_cases hi : i = p.threads.currentTid <;> simp [hi]
  rw [hstep]
  unfold Program.texit
  rcases hres with ⟨hnone, heq⟩ | ⟨next, hnext, heq⟩ <;> rw [heq] <;> dsimp only
  · have hno : ¬∃ i ≠ p.threads.currentTid, p.threads.Awake i := by
      rintro ⟨i, hi, ha⟩
      exact hnone i ((hcounted.kill_awake i).2 ⟨hi, ha⟩)
    rw [hleft]
    exact ⟨fun hr => Or.inl (hr.1 rfl), fun hc => ⟨fun _ => hc.resolve_right hno, fun _ => rfl⟩⟩
  · have hsome : ∃ i ≠ p.threads.currentTid, p.threads.Awake i := by
      obtain ⟨h1, h2⟩ := (hcounted.kill_awake next).1 hnext
      exact ⟨next, h1, h2⟩
    have hused' : (t'.slots next).used = true := by
      rw [hsame.used]
      exact hnext.1
    refine ⟨fun _ => Or.inr hsome, fun _ => ⟨fun hx => ?_, fun hall => ?_⟩⟩
    · rw [he] at hx
      cases hx
    · exact absurd ((hall next).symm.trans hused') Bool.false_ne_true

/-! ## Whole runs -/

/-- Along every run of a program, the thread count is the number of threads in use and, until its end, the current thread is one
of them; and `SYS_TEXIT` decides rightly throughout if and only if no thread exits while all the remaining ones are asleep. -/
theorem program_ends_with_last_thread_iff_leavesAwake (old : Fin maxThreads → Thread) (ticks entry : U32) (x87 : X) (alive : Bool)
    (evs : List (ThreadEvent X)) :
    let p0 := Program.start old ticks entry x87 alive
    let p := runFrom Program.step p0 evs
    p.threads.threadCount = p.threads.usedCount ∧
    (p.exited = false → (p.threads.slots p.threads.currentTid).used = true) ∧
    (Meets Program.step TexitRight p0 evs ↔ Meets Program.step LeavesAwake p0 evs) := by
  intro p0 p
  have h0 : p0.Ok := .start old ticks entry x87 alive
  have hok : p.Ok := inv_runFrom_all Program.Ok Program.Ok.step h0 evs
  refine ⟨hok.count, hok.current, ?_, ?_⟩
  · exact meets_of_inv Program.Ok (fun q ev h _ => h.step q ev) (fun q ev h hr => (texitRight_iff_leavesAwake q ev h).1 hr) h0
  · exact meets_of_inv Program.Ok (fun q ev h _ => h.step q ev) (fun q ev h hr => (texitRight_iff_leavesAwake q ev h).2 hr) h0

/-- The main thread creates a second one and goes to sleep for a second; the second thread exits. -/
def sleepThenExit : List (ThreadEvent Unit) :=
  [.tcreate 4096#32 8192#32, .sleepf 1000#32, .tick 0#32 32#32, .texit]

/-- The sleeping main thread does not keep its program alive. -/
theorem program_ends_with_last_thread_false :
    ¬∀ (old : Fin maxThreads → Thread) (ticks entry : U32) (evs : List (ThreadEvent Unit)),
      Meets Program.step TexitRight (Program.start old ticks entry () true) evs := by
  intro h
  have hm := h (fun _ => ⟨false, newCtx 0#32 0#32, 0#32⟩) 100#32 4096#32 sleepThenExit
  have hused := (hm.2.2.2.1 (by decide) rfl).1 (by decide) 0
  revert hused
  decide

end MiniOs32
