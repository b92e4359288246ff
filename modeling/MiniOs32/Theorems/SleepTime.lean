import MiniOs32.Theorems.ThreadExit

/-!
# Sleeping

With a live timer a thread that calls `SYS_SLEEP` or `SYS_SLEEPF` runs no user code for the time it asked for, whatever the tick counter
and the other threads do, if and only if the rounding of the time does not wrap and, for `SYS_SLEEPF`, no other thread is runnable
(`sleep_iff`): with another one runnable the call returns to the thread itself, which goes on until the next tick. Two threads and a
sleep of 100 ms show it (`sleep_false`).
-/

namespace MiniOs32

/-- `SYS_SLEEP` or `SYS_SLEEPF`. -/
inductive SleepCall where
  | sleep
  | sleepf
  deriving DecidableEq

variable {X : Type*}

/-- The program after the call. -/
def Program.sleeps (p : Program X) (c : SleepCall) (ms : U32) : Program X :=
  match c with
  | .sleep => { p with threads := p.threads.sleep p.timerAlive ms }.returns 0#32
  | .sleepf => p.step (.sleepf ms)

/-- The ticks of an event, and of a run. -/
def Program.ticksOf (p : Program X) (ev : ThreadEvent X) : Nat := ((p.step ev).threads.ticks - p.threads.ticks).toNat

def Program.ticksIn (p : Program X) : List (ThreadEvent X) → Nat
  | [] => 0
  | ev :: evs => p.ticksOf ev + Program.ticksIn (p.step ev) evs

/-- Whenever the thread that has called is in user code again, the time it asked for, in ticks rounded up, has passed. -/
def SleepsEnough (p : Program X) (c : SleepCall) (ms : U32) : Prop :=
  ∀ evs, (runFrom Program.step (p.sleeps c ms) evs).exited = false →
    (runFrom Program.step (p.sleeps c ms) evs).threads.currentTid = p.threads.currentTid →
    (ms.toNat + 9) / 10 ≤ ((p.sleeps c ms).threads.ticks - p.threads.ticks).toNat + (p.sleeps c ms).ticksIn evs

/-! ## Waiting -/

/-- The wait for a tick less than half the range away takes as many ticks. -/
theorem waitTicks_elapsed {ticks n : U32} (hn : n.toNat < 2 ^ 31) : (waitTicks ticks (ticks + n) - ticks).toNat = n.toNat := by
  have hdiff : ticks - (ticks + n) = -n := by
    apply BitVec.eq_of_toNat_eq
    rw [BitVec.toNat_sub, BitVec.toNat_add, BitVec.toNat_neg]
    have hlt := ticks.isLt
    omega
  have hback : ticks + n - ticks = n := by rw [BitVec.add_comm, BitVec.add_sub_cancel]
  unfold waitTicks
  rw [hdiff]
  by_cases hzero : n = 0#32
  · subst hzero
    simp
  · have hpos : 0 < n.toNat := Nat.pos_of_ne_zero fun h => hzero (BitVec.eq_of_toNat_eq h)
    have hneg : (-n).toInt < 0 := by
      rw [BitVec.toInt_eq_toNat_cond, BitVec.toNat_neg]
      split <;> omega
    rw [if_pos hneg, hback]

/-- The ticks asked for, rounded up: none where the sum wraps. -/
theorem round_up (ms : U32) : ((ms + 9#32) / 10#32).toNat < 2 ^ 31 ∧
    (ms.toNat + 9 < 2 ^ 32 → ((ms + 9#32) / 10#32).toNat = (ms.toNat + 9) / 10) ∧
    (2 ^ 32 ≤ ms.toNat + 9 → ((ms + 9#32) / 10#32).toNat = 0) := by
  have hlt := ms.isLt
  rw [BitVec.toNat_udiv, BitVec.toNat_add, show (9#32).toNat = 9 from rfl, show (10#32).toNat = 10 from rfl]
  omega

/-- The search of `SYS_SLEEPF` finds another thread exactly if one is awake. -/
theorem Threads.othersRunnable_iff (is : List (Fin maxThreads)) (t : Threads) :
    (Threads.othersRunnable is t).2 = true ↔ ∃ i ∈ is, i ≠ t.currentTid ∧ t.Awake i := by
  induction is generalizing t with
  | nil => simp [Threads.othersRunnable]
  | cons i is ih =>
    simp only [Threads.othersRunnable]
    by_cases hi : i = t.currentTid
    · rw [if_pos hi, ih]
      constructor
      · rintro ⟨j, hj, hne, hawake⟩
        exact ⟨j, List.mem_cons_of_mem i hj, hne, hawake⟩
      · rintro ⟨j, hj, hne, hawake⟩
        rcases List.mem_cons.mp hj with rfl | hj
        · exact absurd hi hne
        · exact ⟨j, hj, hne, hawake⟩
    · rw [if_neg hi]
      obtain ⟨hsame, hspec⟩ := t.isRunnable_spec i
      rcases hr : t.isRunnable i with ⟨t', _ | _⟩ <;> rw [hr] at hsame hspec <;> dsimp only at hsame hspec ⊢
      · rw [ih, hsame.currentTid]
        constructor
        · rintro ⟨j, hj, hne, hawake⟩
          exact ⟨j, List.mem_cons_of_mem i hj, hne, (hsame.awake j).mp hawake⟩
        · rintro ⟨j, hj, hne, hawake⟩
          rcases List.mem_cons.mp hj with rfl | hj
          · exact absurd (hspec.mpr hawake) Bool.false_ne_true
          · exact ⟨j, hj, hne, (hsame.awake j).mpr hawake⟩
      · exact iff_of_true rfl ⟨i, List.mem_cons_self, hi, hspec.mp rfl⟩

/-- Another thread than the current one is awake. -/
def Threads.OtherAwake (t : Threads) : Prop := ∃ i, i ≠ t.currentTid ∧ t.Awake i

instance (t : Threads) : Decidable t.OtherAwake := inferInstanceAs (Decidable (∃ i, i ≠ t.currentTid ∧ t.Awake i))

/-- The ticks a call takes: those asked for, or none where `SYS_SLEEPF` leaves the thread to the scheduler. -/
theorem sleeps_elapsed {p : Program X} (halive : p.timerAlive = true) (hrun : p.exited = false) (c : SleepCall) {ms : U32}
    (hms : ms ≠ 0#32) : ((p.sleeps c ms).threads.ticks - p.threads.ticks).toNat =
      if c = .sleepf ∧ p.threads.OtherAwake then 0 else ((ms + 9#32) / 10#32).toNat := by
  have hshort := (round_up ms).1
  cases c with
  | sleep =>
    have hticks : (p.sleeps .sleep ms).threads.ticks = waitTicks p.threads.ticks (p.threads.ticks + (ms + 9#32) / 10#32) := by
      unfold Program.sleeps Program.returns Threads.sleep
      simp only [if_neg hms, halive, Bool.not_true, Bool.false_eq_true, if_false]
    rw [hticks, if_neg (fun h => nomatch h.1), waitTicks_elapsed hshort]
  | sleepf =>
    have hstep : p.sleeps .sleepf ms = ({ p with threads := p.threads.sleepf p.timerAlive ms } : Program X).returns 0#32 := by
      unfold Program.sleeps Program.step
      rw [hrun, if_neg Bool.false_ne_true]
    have hticks : (p.sleeps .sleepf ms).threads.ticks = (p.threads.sleepf true ms).ticks := by
      rw [hstep, halive]
      rfl
    rw [hticks]
    unfold Threads.sleepf
    simp only [if_neg hms, Bool.not_true, Bool.false_eq_true, if_false]
    generalize hmark : p.threads.set p.threads.currentTid { p.threads.slots p.threads.currentTid with
      sleepUntil := p.threads.ticks + (ms + 9#32) / 10#32 } = marked
    have hcur : marked.currentTid = p.threads.currentTid := by rw [← hmark]; rfl
    have hmarked : marked.ticks = p.threads.ticks := by rw [← hmark]; rfl
    have hawake : ∀ i, i ≠ p.threads.currentTid → (marked.Awake i ↔ p.threads.Awake i) := by
      intro i hi
      rw [← hmark]
      simp [Threads.Awake, Threads.set, hi]
    have hsame := Threads.othersRunnable_same (List.finRange maxThreads) marked
    have hfound : (Threads.othersRunnable (List.finRange maxThreads) marked).2 = true ↔ p.threads.OtherAwake := by
      rw [Threads.othersRunnable_iff, hcur]
      constructor
      · rintro ⟨i, -, hi, h⟩
        exact ⟨i, hi, (hawake i hi).mp h⟩
      · rintro ⟨i, hi, h⟩
        exact ⟨i, List.mem_finRange i, hi, (hawake i hi).mpr h⟩
    by_cases hother : p.threads.OtherAwake
    · rw [if_pos (hfound.mpr hother), if_pos ⟨trivial, hother⟩, hsame.ticks, hmarked, BitVec.sub_self]
      rfl
    · rw [if_neg (fun h => hother (hfound.mp h)), if_neg (fun h => hother h.2)]
      change (waitTicks (Threads.othersRunnable (List.finRange maxThreads) marked).1.ticks _ - _).toNat = _
      rw [hsame.ticks, hmarked, waitTicks_elapsed hshort]

/-- The call itself does not switch. -/
theorem sleeps_same {p : Program X} (hrun : p.exited = false) (c : SleepCall) (ms : U32) :
    (p.sleeps c ms).exited = false ∧ (p.sleeps c ms).threads.currentTid = p.threads.currentTid := by
  cases c with
  | sleep =>
    refine ⟨hrun, ?_⟩
    unfold Program.sleeps Program.returns Threads.sleep
    dsimp only
    split_ifs <;> rfl
  | sleepf =>
    have hstep : p.sleeps .sleepf ms = ({ p with threads := p.threads.sleepf p.timerAlive ms } : Program X).returns 0#32 := by
      unfold Program.sleeps Program.step
      rw [if_neg (hrun ▸ Bool.false_ne_true)]
    rw [hstep]
    exact ⟨hrun, (p.threads.sleepf_spec p.timerAlive ms).2.1⟩

/-- A thread sleeps as long as it asked for exactly if rounding the time up does not wrap and, for `SYS_SLEEPF`, no other thread is
awake. -/
theorem sleep_iff {p : Program X} (halive : p.timerAlive = true) (hrun : p.exited = false) (c : SleepCall) {ms : U32}
    (hms : ms ≠ 0#32) : SleepsEnough p c ms ↔ ms.toNat + 9 < 2 ^ 32 ∧ (c = .sleepf → ¬p.threads.OtherAwake) := by
  have helapsed := sleeps_elapsed halive hrun c hms
  obtain ⟨-, hround, hwrap⟩ := round_up ms
  have hpos : 0 < ms.toNat := Nat.pos_of_ne_zero fun h => hms (BitVec.eq_of_toNat_eq h)
  constructor
  · intro h
    obtain ⟨hexited, hcur⟩ := sleeps_same hrun c ms
    have hnow : (ms.toNat + 9) / 10 ≤ ((p.sleeps c ms).threads.ticks - p.threads.ticks).toNat := h [] hexited hcur
    rw [helapsed] at hnow
    split at hnow
    · omega
    · rename_i hother
      refine ⟨?_, fun hc ho => hother ⟨hc, ho⟩⟩
      by_contra hbig
      rw [hwrap (not_lt.mp hbig)] at hnow
      omega
  · rintro ⟨hsmall, hother⟩ evs - -
    rw [helapsed, if_neg (fun h => hother h.1 h.2), hround hsmall]
    exact Nat.le_add_right _ _

/-- A program with a single thread. -/
def oneThread : Program Unit := Program.start (fun _ => ⟨false, newCtx 0#32 0#32, 0#32⟩) 0#32 0#32 () true

theorem sleep_iff_one : SleepsEnough oneThread .sleep 100#32 ↔
    (100#32 : U32).toNat + 9 < 2 ^ 32 ∧ (SleepCall.sleep = .sleepf → ¬oneThread.threads.OtherAwake) :=
  sleep_iff rfl rfl .sleep (by decide)

/-- The only thread creates a second one and asks for 100 ms: it is back before the next tick. -/
theorem sleep_false : ¬∀ (p : Program Unit), p.timerAlive = true → p.exited = false → ∀ (c : SleepCall) (ms : U32), ms ≠ 0#32 →
    SleepsEnough p c ms := by
  intro h
  have hsleep := h (oneThread.step (.tcreate 0#32 4096#32)) rfl rfl .sleepf 100#32 (by decide) [] (by decide) (by decide)
  exact absurd hsleep (by decide)

end MiniOs32
