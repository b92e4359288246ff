import MiniOs32.Kernel.Nvme
import MiniOs32.Lib.Run

/-!
# Whose completion a command gets

`submit` takes whatever stands at the head of the completion queue; it does not look at the command id. As long as every call
finds its queue drained there is at most one command outstanding and the completion is its own. After a call that gave up, the
late completion is still to come and the next call takes it.
-/

namespace MiniOs32

/-! ## The fields of a completion -/

/-- The phase of a completion is read back. -/
theorem dw3Phase_completion (cid : BitVec 16) (phase : Bool) (status : BitVec 15) :
    dw3Phase (completionDw3 cid phase status) = if phase then 1#32 else 0#32 := by
  apply BitVec.eq_of_toNat_eq
  have hc := cid.isLt
  have hs := status.isLt
  unfold dw3Phase completionDw3
  rw [BitVec.toNat_and, BitVec.toNat_ushiftRight, BitVec.toNat_ofNat, Nat.shiftRight_eq_div_pow]
  rw [show (1#32 : U32).toNat = 1 from rfl, Nat.and_one_is_mod]
  cases phase
  · simp only [Bool.false_eq_true, if_false]
    rw [show (0#32 : U32).toNat = 0 from rfl]
    omega
  · simp only [if_true]
    rw [show (1#32 : U32).toNat = 1 from rfl]
    omega

/-- The status of a completion is read back. -/
theorem dw3Status_completion (cid : BitVec 16) (phase : Bool) (status : BitVec 15) :
    (dw3Status (completionDw3 cid phase status)).toNat = status.toNat := by
  have hc := cid.isLt
  have hs := status.isLt
  unfold dw3Status completionDw3
  rw [BitVec.toNat_and, BitVec.toNat_ushiftRight, BitVec.toNat_ofNat, Nat.shiftRight_eq_div_pow]
  rw [show (0x7FFF#32 : U32).toNat = 2 ^ 15 - 1 from rfl, Nat.and_two_pow_sub_one_eq_mod]
  cases phase
  · simp only [Bool.false_eq_true, if_false]
    omega
  · simp only [if_true]
    omega

/-! ## One queue pair -/

/-- The number of entries the controller has taken. -/
def QueuePair.fetched (qp : QueuePair) : Nat := qp.posted.length + qp.inflight.length

/-- A phase as the driver keeps it. -/
def phaseWord (b : Bool) : U32 := if b then 1#32 else 0#32

/-- The driver and the controller are in step: all positions are counts modulo the depth, at most one command is outstanding, and
the commands are completed in the order of their numbers. `rung` commands have been announced with the doorbell. -/
structure QueuePair.InStep (qp : QueuePair) (rung : Nat) : Prop where
  tail : qp.tail = qp.submitted % qdepth
  head : qp.head = qp.consumed % qdepth
  phase : qp.phase = phaseWord (lapPhase qdepth qp.consumed)
  sqDoorbell : qp.sqDoorbell = rung % qdepth
  sqHead : qp.sqHead = qp.fetched % qdepth
  cqTail : qp.cqTail = qp.posted.length % qdepth
  cqPhase : qp.cqPhase = lapPhase qdepth qp.posted.length
  consumed_le : qp.consumed ≤ qp.posted.length
  fetched_le : qp.fetched ≤ rung
  rung_le : rung ≤ qp.submitted
  submitted_le : qp.submitted ≤ qp.consumed + 1
  slot : 0 < qp.submitted → (qp.sq ((qp.submitted - 1) % qdepth)).num = qp.submitted - 1
  inflight : ∀ e ∈ qp.inflight, e.num = qp.submitted - 1
  ring : RingHolds qdepth (fun i => dw3Phase (qp.cq i) = 1#32) (fun i => (dw3Status (qp.cq i)).toNat)
    (qp.posted.map fun c => c.2.toNat)
  numbered : ∀ n (h : n < qp.posted.length), (qp.posted[n]).1 = n

theorem qdepth_pos : 0 < qdepth := by decide

/-- A queue pair just set up is in step. -/
theorem QueuePair.InStep.reset (sq : Nat → SqEntry) : (QueuePair.reset sq).InStep 0 :=
  { tail := rfl, head := rfl, sqDoorbell := rfl, sqHead := rfl, cqTail := rfl
    phase := by simp [QueuePair.reset, phaseWord, lapPhase], cqPhase := by simp [QueuePair.reset, lapPhase]
    consumed_le := Nat.le_refl 0, fetched_le := Nat.le_refl 0, rung_le := Nat.le_refl 0, submitted_le := Nat.zero_le 1
    slot := fun h => absurd h (Nat.lt_irrefl 0)
    inflight := fun e he => absurd he List.not_mem_nil
    ring := .empty fun _ => by simp [QueuePair.reset, dw3Phase]
    numbered := fun n h => absurd h (Nat.not_lt_zero n) }

/-- The controller takes an entry: it is the one command outstanding. -/
theorem QueuePair.InStep.fetch {qp : QueuePair} {rung : Nat} (h : qp.InStep rung) : qp.fetch.InStep rung := by
  unfold QueuePair.fetch
  split
  · exact h
  · rename_i hne
    have hlt : qp.fetched < rung := by
      refine lt_of_le_of_ne h.fetched_le ?_
      intro heq
      rw [h.sqHead, h.sqDoorbell, heq] at hne
      exact hne rfl
    have hfirst : qp.fetched = qp.submitted - 1 := by
      have := h.consumed_le
      have := h.rung_le
      have := h.submitted_le
      unfold QueuePair.fetched at hlt ⊢
      omega
    have hlen : ∀ e, (qp.inflight ++ [e]).length = qp.inflight.length + 1 := by simp
    refine { h with sqHead := ?_, fetched_le := ?_, inflight := ?_ }
    · have := h.sqHead
      unfold QueuePair.fetched at this ⊢
      dsimp only
      rw [hlen, this, Nat.mod_add_mod, Nat.add_assoc]
    · unfold QueuePair.fetched at hlt ⊢
      dsimp only
      rw [hlen]
      omega
    · intro e he
      rcases List.mem_append.1 he with he | he
      · exact h.inflight e he
      · rw [List.mem_singleton.1 he, h.sqHead, hfirst]
        exact h.slot (by have := h.rung_le; omega)

/-- The controller posts a completion: it is the completion of the one command outstanding. -/
theorem QueuePair.InStep.post {qp : QueuePair} {rung : Nat} (h : qp.InStep rung) (i : Nat) (status : BitVec 15) :
    (qp.post i status).InStep rung := by
  unfold QueuePair.post
  split
  · exact h
  · rename_i e he
    split
    · exact h
    · have hmem : e ∈ qp.inflight := List.mem_of_getElem? he
      have hi : i < qp.inflight.length := (List.getElem?_eq_some_iff.1 he).1
      have hlen : (qp.inflight.eraseIdx i).length + 1 = qp.inflight.length := by
        rw [List.length_eraseIdx_of_lt hi]
        omega
      have hnum : e.num = qp.posted.length := by
        have := h.inflight e hmem
        have := h.consumed_le
        have := h.fetched_le
        have := h.rung_le
        have := h.submitted_le
        unfold QueuePair.fetched at *
        omega
      have hposted : (qp.posted ++ [(e.num, status)]).length = qp.posted.length + 1 := by simp
      have hfetched : qp.posted.length + 1 + (qp.inflight.eraseIdx i).length = qp.fetched := by
        unfold QueuePair.fetched
        omega
      refine { h with
        sqHead := ?_, cqTail := ?_, cqPhase := ?_, consumed_le := ?_, fetched_le := ?_, inflight := ?_, ring := ?_, numbered := ?_ }
      · have := h.sqHead
        unfold QueuePair.fetched
        dsimp only
        rw [hposted, hfetched]
        exact this
      · dsimp only
        rw [hposted, h.cqTail, Nat.mod_add_mod]
      · dsimp only
        rw [hposted, lapPhase_succ qdepth_pos, h.cqTail, Nat.mod_add_mod, h.cqPhase]
      · dsimp only
        rw [hposted]
        exact Nat.le_succ_of_le h.consumed_le
      · unfold QueuePair.fetched
        dsimp only
        rw [hposted, hfetched]
        exact h.fetched_le
      · intro e' he'
        exact h.inflight e' (List.mem_of_mem_eraseIdx he')
      · have hpush := h.ring.push qdepth_pos status.toNat
        rw [List.length_map] at hpush
        set dw3 := completionDw3 (e.sqe.cdw0.extractLsb' 16 16) (lapPhase qdepth qp.posted.length) status with hdw3
        have hmark : (fun j => decide (dw3Phase (setSlot qp.cq (qp.posted.length % qdepth) dw3 j) = 1#32)) =
            setSlot (fun j => decide (dw3Phase (qp.cq j) = 1#32)) (qp.posted.length % qdepth)
              (lapPhase qdepth qp.posted.length) := by
          funext j
          unfold setSlot
          by_cases hj : j = qp.posted.length % qdepth
          · rw [if_pos hj, if_pos hj, hdw3, dw3Phase_completion]
            cases lapPhase qdepth qp.posted.length <;> simp
          · rw [if_neg hj, if_neg hj]
        have hentry : (fun j => (dw3Status (setSlot qp.cq (qp.posted.length % qdepth) dw3 j)).toNat) =
            setSlot (fun j => (dw3Status (qp.cq j)).toNat) (qp.posted.length % qdepth) status.toNat := by
          funext j
          unfold setSlot
          by_cases hj : j = qp.posted.length % qdepth
          · rw [if_pos hj, if_pos hj, hdw3, dw3Status_completion]
          · rw [if_neg hj, if_neg hj]
        dsimp only
        rw [h.cqTail, h.cqPhase, ← hdw3, hmark, hentry, List.map_append]
        exact hpush
      · intro n hn
        rw [hposted] at hn
        rcases Nat.lt_or_ge n qp.posted.length with hlt | hge
        · rw [List.getElem_append_left hlt]
          exact h.numbered n hlt
        · have heq : n = qp.posted.length := by omega
          subst heq
          simp [hnum]

/-- A call that finds its queue drained writes its command. -/
theorem QueuePair.InStep.enqueue {qp : QueuePair} (h : qp.InStep qp.submitted) (hd : qp.submitted = qp.consumed)
    (cid : BitVec 16) (cmd : Sqe) : (qp.enqueue cid cmd).InStep qp.submitted := by
  unfold QueuePair.enqueue
  have hnone : qp.inflight = [] := by
    have := h.consumed_le
    have hle := h.fetched_le
    unfold QueuePair.fetched at hle
    exact List.eq_nil_of_length_eq_zero (by omega)
  refine { h with tail := ?_, rung_le := ?_, submitted_le := ?_, slot := ?_, inflight := ?_ }
  · dsimp only
    rw [h.tail, Nat.mod_add_mod]
  · exact Nat.le_succ _
  · dsimp only
    omega
  · intro _
    dsimp only
    rw [h.tail, Nat.add_sub_cancel, setSlot, if_pos rfl]
  · intro e he
    dsimp only at he
    rw [hnone] at he
    cases he

/-- The doorbell announces everything written. -/
theorem QueuePair.InStep.ringSq {qp : QueuePair} {rung : Nat} (h : qp.InStep rung) : qp.ringSq.InStep qp.submitted :=
  { h with sqDoorbell := h.tail, fetched_le := h.fetched_le.trans h.rung_le, rung_le := Nat.le_refl _ }

/-- The driver finds the phase it expects exactly if a completion is there that it has not taken. -/
theorem QueuePair.InStep.ready_iff {qp : QueuePair} {rung : Nat} (h : qp.InStep rung) :
    (qp.ready ↔ qp.consumed < qp.posted.length) ∧
    ∀ hn : qp.consumed < qp.posted.length, (dw3Status (qp.cq qp.head)).toNat = (qp.posted[qp.consumed]).2.toNat := by
  have hle := h.consumed_le
  have hlap : qp.posted.length < qp.consumed + qdepth := by
    have := h.fetched_le
    have := h.rung_le
    have := h.submitted_le
    unfold QueuePair.fetched at *
    unfold qdepth
    lia
  obtain ⟨hmark, hentry⟩ := h.ring.peek qdepth_pos (by simpa using hle) (by simpa using hlap)
  rw [List.length_map] at hmark
  refine ⟨?_, ?_⟩
  · rw [← hmark, QueuePair.ready, h.head, h.phase, phaseWord]
    have hbit : ∀ w : U32, dw3Phase w = 0#32 ∨ dw3Phase w = 1#32 := by
      intro w
      have hlt : (dw3Phase w).toNat < 2 := by
        unfold dw3Phase
        rw [BitVec.toNat_and, show (1#32 : U32).toNat = 1 from rfl, Nat.and_one_is_mod]
        lia
      rcases Nat.lt_or_ge (dw3Phase w).toNat 1 with h0 | h1
      · exact Or.inl (BitVec.eq_of_toNat_eq (by simpa using h0))
      · exact Or.inr (BitVec.eq_of_toNat_eq (by simp; lia))
    rcases hbit (qp.cq (qp.consumed % qdepth)) with hb | hb <;> rw [hb] <;> cases lapPhase qdepth qp.consumed <;> simp
  · intro hn
    have := hentry (by simpa using hn)
    rw [h.head]
    simpa using this

/-- The driver takes a completion. -/
theorem QueuePair.InStep.consume {qp : QueuePair} {rung : Nat} (h : qp.InStep rung) (hr : qp.ready) :
    qp.consume.InStep rung ∧ qp.consume.submitted = qp.consume.consumed ∧ qp.consume.consumed = qp.consumed + 1 := by
  have hlt := h.ready_iff.1.1 hr
  have hsub : qp.submitted = qp.consumed + 1 := by
    have := h.fetched_le
    have := h.rung_le
    have := h.submitted_le
    unfold QueuePair.fetched at *
    lia
  unfold QueuePair.consume
  refine ⟨{ h with head := ?_, phase := ?_, consumed_le := hlt, submitted_le := ?_ }, hsub, rfl⟩
  · dsimp only
    rw [h.head, Nat.mod_add_mod]
  · dsimp only
    rw [h.head, Nat.mod_add_mod, h.phase, lapPhase_succ qdepth_pos]
    split
    · cases lapPhase qdepth qp.consumed <;> rfl
    · rfl
  · dsimp only
    lia

/-! ## The driver -/

@[simp] theorem Nvme.setQueue_same (d : Nvme) (q : Qid) (qp : QueuePair) : (d.setQueue q qp).queue q = qp := if_pos rfl

theorem Nvme.setQueue_other (d : Nvme) {q r : Qid} (qp : QueuePair) (h : r ≠ q) : (d.setQueue q qp).queue r = d.queue r :=
  if_neg h

/-- The commands of a queue the controller has been told of: all but the one about to be announced. -/
def Nvme.rung (d : Nvme) (q : Qid) : Nat :=
  match d.pc with
  | .ring r _ _ => if r = q then (d.queue q).submitted - 1 else (d.queue q).submitted
  | _ => (d.queue q).submitted

/-- The command the driver is at is the last of its queue, which is the I/O queue within `rw`; a read that is about to be copied
has got its completion. -/
def Nvme.Tracks (d : Nvme) : Prop :=
  match d.pc with
  | .idle => True
  | .ring q num job => num + 1 = (d.queue q).submitted ∧ (job ≠ none → q = .io)
  | .spin q num _ job => num + 1 = (d.queue q).submitted ∧ (job ≠ none → q = .io)
  | .copy num _ => num + 1 = (d.queue .io).submitted ∧ (d.queue .io).submitted = (d.queue .io).consumed

/-- Both queues are in step and the driver tracks its command. -/
structure Nvme.InStep (d : Nvme) : Prop where
  queue : ∀ q, (d.queue q).InStep (d.rung q)
  tracks : d.Tracks

/-- Every command written has been announced. -/
def Nvme.Announced (d : Nvme) : Prop := ∀ q, (d.queue q).InStep (d.queue q).submitted

/-- With the driver outside any call, being in step is a matter of the queues. -/
theorem Nvme.Announced.idle {d : Nvme} (h : d.Announced) : { d with pc := .idle }.InStep := ⟨h, trivial⟩

/-- One queue in step, and the other as before. -/
theorem Nvme.Announced.setQueue {d : Nvme} (h : d.Announced) {q : Qid} {qp : QueuePair} (hq : qp.InStep qp.submitted) :
    (d.setQueue q qp).Announced := by
  intro r
  by_cases hr : r = q
  · subst hr
    rw [Nvme.setQueue_same]
    exact hq
  · rw [Nvme.setQueue_other d qp hr]
    exact h r

/-- A call on a drained queue. -/
theorem Nvme.Announced.submit {d : Nvme} (h : d.Announced) {q : Qid} (hd : (d.queue q).submitted = (d.queue q).consumed)
    (cmd : Sqe) (job : Option Rw) (hq : job ≠ none → q = .io) : (d.submit q cmd job).InStep := by
  refine ⟨?_, ?_⟩
  · intro r
    by_cases hr : r = q
    · subst hr
      have hq := (h r).enqueue hd d.nextCid cmd
      simpa [Nvme.submit, Nvme.rung, QueuePair.enqueue] using hq
    · have hq := h r
      rw [← Nvme.setQueue_other d ((d.queue q).enqueue d.nextCid cmd) hr] at hq
      simpa [Nvme.submit, Nvme.rung, Ne.symm hr] using hq
  · refine ⟨?_, hq⟩
    simp [Nvme.submit, QueuePair.enqueue]

/-- The head of the loop of `rw`, on a drained queue. -/
theorem Nvme.Announced.rwNext {d : Nvme} (h : d.Announced) (hd : (d.queue .io).submitted = (d.queue .io).consumed) (rw : Rw) :
    (d.rwNext rw).InStep := by
  unfold Nvme.rwNext
  split
  · exact h.idle
  · dsimp only
    generalize (if rw.write = true then overlay d.bounce rw.data (rw.bytes d.info).toNat else d.bounce) = bounce
    generalize d.fillPrpList ((rw.bytes d.info + 4095#32) / 4096#32) = prpList
    have h' : { d with bounce := bounce, prpList := prpList }.Announced := h
    exact h'.submit hd _ _ fun _ => rfl

/-- `submit` has taken its completion. -/
theorem Nvme.Announced.submitDone {d : Nvme} (h : d.Announced) {num : Nat} {q : Qid} (hn : num + 1 = (d.queue q).submitted)
    (hd : (d.queue q).submitted = (d.queue q).consumed) (job : Option Rw) (hq : job ≠ none → q = .io) (result : Int) :
    (d.submitDone num job result).InStep := by
  unfold Nvme.submitDone
  cases job with
  | none => exact h.idle
  | some rw =>
    have hio : q = .io := hq (by simp)
    subst hio
    dsimp only
    split
    · exact h.idle
    · split
      · exact h.rwNext hd _
      · exact ⟨h, hn, hd⟩

/-- `submit` has given up. -/
theorem Nvme.Announced.giveUp {d : Nvme} (h : d.Announced) (num : Nat) (job : Option Rw) : (d.submitDone num job (-1)).InStep := by
  unfold Nvme.submitDone
  cases job with
  | none => exact h.idle
  | some rw => exact h.idle

/-- The next step of the driver keeps it in step with the controller. -/
theorem Nvme.InStep.hostStep {d : Nvme} (h : d.InStep) (cfs : Bool) : (d.hostStep cfs).InStep := by
  have htracks := h.tracks
  have hqueue := h.queue
  unfold Nvme.Tracks at htracks
  unfold Nvme.rung at hqueue
  unfold Nvme.hostStep
  generalize hpc : d.pc = pc at htracks hqueue ⊢
  cases pc with
  | idle => exact h
  | ring q num job =>
    dsimp only at htracks hqueue ⊢
    have hann : (d.setQueue q (d.queue q).ringSq).Announced := by
      intro r
      have hq := hqueue r
      by_cases hr : r = q
      · subst hr
        rw [Nvme.setQueue_same]
        exact hq.ringSq
      · rw [Nvme.setQueue_other d _ hr]
        rwa [if_neg (Ne.symm hr)] at hq
    refine ⟨hann, ?_, htracks.2⟩
    simpa [QueuePair.ringSq] using htracks.1
  | spin q num n job =>
    dsimp only at htracks hqueue ⊢
    have hann : d.Announced := hqueue
    rcases hres : (d.queue q).submitResult n cfs with _ | r
    · exact ⟨hqueue, htracks⟩
    · dsimp only
      split
      · rename_i hready
        obtain ⟨hstep, hdrained, -⟩ := (hqueue q).consume hready
        refine Nvme.Announced.submitDone (hann.setQueue hstep) ?_ ?_ job htracks.2 r
        · rw [Nvme.setQueue_same]
          exact htracks.1
        · rw [Nvme.setQueue_same]
          exact hdrained
      · rename_i hready
        have hr : r = -1 := by
          unfold QueuePair.submitResult at hres
          rw [if_neg hready] at hres
          split at hres
          · exact (Option.some.inj hres).symm
          · split at hres
            · cases hres
            · exact (Option.some.inj hres).symm
        rw [hr]
        exact hann.giveUp num job
  | copy num rw =>
    have hann : d.Announced := hqueue
    exact hann.rwNext htracks.2 _

/-- A queue pair replaced by one that differs in the controller's side only. -/
theorem Nvme.InStep.controller {d : Nvme} (h : d.InStep) {q : Qid} {qp : QueuePair} (hq : qp.InStep (d.rung q))
    (hs : qp.submitted = (d.queue q).submitted) (hc : qp.consumed = (d.queue q).consumed) : (d.setQueue q qp).InStep := by
  have hsub : ∀ r, ((d.setQueue q qp).queue r).submitted = (d.queue r).submitted := by
    intro r
    by_cases hr : r = q
    · rw [hr, Nvme.setQueue_same, hs]
    · rw [Nvme.setQueue_other d qp hr]
  have hcon : ∀ r, ((d.setQueue q qp).queue r).consumed = (d.queue r).consumed := by
    intro r
    by_cases hr : r = q
    · rw [hr, Nvme.setQueue_same, hc]
    · rw [Nvme.setQueue_other d qp hr]
  have hrung : ∀ r, (d.setQueue q qp).rung r = d.rung r := by
    intro r
    unfold Nvme.rung
    rw [hsub]
    rfl
  refine ⟨?_, ?_⟩
  · intro r
    rw [hrung]
    by_cases hr : r = q
    · subst hr
      rw [Nvme.setQueue_same]
      exact hq
    · rw [Nvme.setQueue_other d qp hr]
      exact h.queue r
  · have htracks := h.tracks
    unfold Nvme.Tracks at htracks ⊢
    simp only [hsub, hcon]
    exact htracks

/-! ## Whole runs -/

/-- Every call finds its queue drained: `*tail` and `*head` are equal, so no earlier call on the queue gave up. -/
def Drained (d : Nvme) (ev : NvmeEvent) : Prop :=
  match ev with
  | .admin _ => d.pc = .idle → (d.queue .admin).tail = (d.queue .admin).head
  | .rw _ _ _ _ => d.pc = .idle → (d.queue .io).tail = (d.queue .io).head
  | _ => True

/-- A non-negative status that `submit` returns is the one the controller posted for the command of the call. -/
def StatusOwn (d : Nvme) (ev : NvmeEvent) : Prop :=
  ∀ cfs q num n job r, ev = .host cfs → d.pc = .spin q num n job → (d.queue q).submitResult n cfs = some r → 0 ≤ r →
    ∃ status, (num, status) ∈ (d.queue q).posted ∧ r = status.toNat ∧
      ∀ status', (num, status') ∈ (d.queue q).posted → status' = status

/-- What a read brought is copied only after its completion was posted. -/
def CopiedAfter (d : Nvme) (ev : NvmeEvent) : Prop :=
  ∀ cfs num rw, ev = .host cfs → d.pc = .copy num rw → ∃ status, (num, status) ∈ (d.queue .io).posted

/-- A queue in step that is drained has no command outstanding. -/
theorem QueuePair.InStep.drained {qp : QueuePair} (h : qp.InStep qp.submitted) (heq : qp.tail = qp.head) :
    qp.submitted = qp.consumed := by
  have hle := h.consumed_le
  have hf := h.fetched_le
  have hs := h.submitted_le
  unfold QueuePair.fetched at hf
  rw [h.tail, h.head] at heq
  unfold qdepth at heq
  omega

/-- Every event keeps the driver in step, given drained queues. -/
theorem Nvme.InStep.step (d : Nvme) (ev : NvmeEvent) (h : d.InStep) (hg : Drained d ev) : (d.step ev).InStep := by
  cases ev with
  | admin cmd =>
    dsimp only [Nvme.step]
    split
    · rename_i hpc
      have hann : d.Announced := by
        have hq := h.queue
        unfold Nvme.rung at hq
        rw [hpc] at hq
        exact hq
      exact hann.submit ((hann .admin).drained (hg hpc)) cmd none (fun hc => absurd rfl hc)
    · exact h
  | rw write lba count data =>
    dsimp only [Nvme.step]
    split
    · rename_i hpc
      have hann : d.Announced := by
        have hq := h.queue
        unfold Nvme.rung at hq
        rw [hpc] at hq
        exact hq
      unfold Nvme.rwStart
      split
      · exact h
      · split
        · exact h
        · exact hann.rwNext ((hann .io).drained (hg hpc)) _
    · exact h
  | host cfs => exact h.hostStep cfs
  | fetch q =>
    refine h.controller (h.queue q).fetch ?_ ?_
    · unfold QueuePair.fetch
      split <;> rfl
    · unfold QueuePair.fetch
      split <;> rfl
  | transfer i data =>
    dsimp only [Nvme.step, Nvme.transfer]
    split
    · exact h
    · split
      · exact ⟨h.queue, h.tracks⟩
      · exact h
  | post q i status =>
    refine h.controller ((h.queue q).post i status) ?_ ?_
    · unfold QueuePair.post
      split
      · rfl
      · split <;> rfl
    · unfold QueuePair.post
      split
      · rfl
      · split <;> rfl

/-- The completions of a queue in step are told apart by their numbers. -/
theorem QueuePair.InStep.posted_unique {qp : QueuePair} {rung : Nat} (h : qp.InStep rung) {num : Nat} {status : BitVec 15}
    (hm : (num, status) ∈ qp.posted) : ∃ hn : num < qp.posted.length, qp.posted[num].2 = status := by
  obtain ⟨n, hn, heq⟩ := List.getElem_of_mem hm
  have hnum := h.numbered n hn
  rw [heq] at hnum
  dsimp only at hnum
  subst hnum
  exact ⟨hn, by rw [heq]⟩

/-- A driver in step returns the status of its own command. -/
theorem Nvme.InStep.statusOwn {d : Nvme} (h : d.InStep) (ev : NvmeEvent) : StatusOwn d ev := by
  rintro cfs q num n job r - hpc hres hr
  have hq : (d.queue q).InStep (d.queue q).submitted := by
    have := h.queue q
    unfold Nvme.rung at this
    rwa [hpc] at this
  have htracks : num + 1 = (d.queue q).submitted := by
    have := h.tracks
    unfold Nvme.Tracks at this
    rw [hpc] at this
    exact this.1
  unfold QueuePair.submitResult at hres
  split at hres
  · rename_i hready
    obtain ⟨hlt, hstatus⟩ := hq.ready_iff
    have hlt := hlt.1 hready
    have hnum : num = (d.queue q).consumed := by
      have hf := hq.fetched_le
      have hs := hq.submitted_le
      unfold QueuePair.fetched at hf
      omega
    have hmem : (num, (d.queue q).posted[(d.queue q).consumed].2) ∈ (d.queue q).posted := by
      have hfst := hq.numbered _ hlt
      rw [hnum]
      nth_rewrite 1 [← hfst]
      exact List.getElem_mem hlt
    refine ⟨_, hmem, ?_, ?_⟩
    · rw [← hstatus hlt]
      exact (Option.some.inj hres).symm
    · intro status' hm
      obtain ⟨hn, heq⟩ := hq.posted_unique hm
      rw [← heq]
      congr 2
  · split at hres
    · have := Option.some.inj hres
      omega
    · split at hres
      · cases hres
      · have := Option.some.inj hres
        omega

/-- A driver in step copies after the completion. -/
theorem Nvme.InStep.copiedAfter {d : Nvme} (h : d.InStep) (ev : NvmeEvent) : CopiedAfter d ev := by
  rintro cfs num rw - hpc
  have hq := h.queue .io
  have htracks := h.tracks
  unfold Nvme.Tracks at htracks
  rw [hpc] at htracks
  have hlt : num < (d.queue .io).posted.length := by
    have := hq.consumed_le
    omega
  refine ⟨(d.queue .io).posted[num].2, ?_⟩
  have hfst := hq.numbered num hlt
  nth_rewrite 1 [← hfst]
  exact List.getElem_mem hlt

/-- Along every run in which every call finds its queue drained, whatever the controller does and when, `submit` returns the
status of its own command and reads are copied after their completion. -/
theorem nvme_own_completion_of_drained (sq : Qid → Nat → SqEntry) (nextCid : BitVec 16) (bounce : Nat → Byte) (prpList : Nat → U64)
    (info : NvmeDrive) (evs : List NvmeEvent) (h : Meets Nvme.step Drained (.start sq nextCid bounce prpList info) evs) :
    Meets Nvme.step (fun d ev => StatusOwn d ev ∧ CopiedAfter d ev) (.start sq nextCid bounce prpList info) evs := by
  refine meets_of_inv Nvme.InStep (fun d ev hd hg => hd.step d ev hg) (fun d ev hd _ => ⟨hd.statusOwn ev, hd.copiedAfter ev⟩) ?_ h
  exact ⟨fun q => .reset (sq q), trivial⟩

/-- A drive of 16 blocks. -/
def idleDrive : Nvme := .start (fun _ _ => ⟨⟨0#32, 0#32, 0#64, 0#64, 0#32, 0#32, 0#32⟩, 0⟩) 1#16 (fun _ => 0#8) (fun _ => 0#64)
  ⟨true, 1#32, 16#64, 512#32, 0x200000#32, 0x220000#32⟩

/-- A read of one block up to the poll: the controller has taken the command. -/
def readTaken (lba : U64) : List NvmeEvent := [.rw false lba 1#32 (fun _ => 0#8), .host false, .fetch .io]

theorem nvme_own_completion_of_drained_read :
    Meets Nvme.step Drained idleDrive (readTaken 0#64 ++ [NvmeEvent.post .io 0 5#15, .host false]) ∧
    Meets Nvme.step (fun d ev => StatusOwn d ev ∧ CopiedAfter d ev) idleDrive
      (readTaken 0#64 ++ [NvmeEvent.post .io 0 5#15, .host false]) := by
  have h : Meets Nvme.step Drained idleDrive (readTaken 0#64 ++ [NvmeEvent.post .io 0 5#15, .host false]) :=
    ⟨fun _ => rfl, trivial, trivial, trivial, trivial, trivial⟩
  exact ⟨h, nvme_own_completion_of_drained _ _ _ _ _ _ h⟩

/-- Turns of the loop of `submit` in which nothing arrives. -/
theorem Nvme.run_spin {d : Nvme} {q : Qid} {num : Nat} {job : Option Rw} (hr : ¬(d.queue q).ready) (k : Nat) :
    ∀ n, d.pc = .spin q num n job → n + k < submitSpins →
      runFrom Nvme.step d (List.replicate k (.host false)) = { d with pc := .spin q num (n + k) job } := by
  induction k generalizing d with
  | zero =>
    intro n hpc _
    rw [List.replicate_zero, runFrom_nil, Nat.add_zero, ← hpc]
  | succ k ih =>
    intro n hpc hlt
    rw [List.replicate_succ, runFrom_cons]
    have hstep : d.step (.host false) = { d with pc := .spin q num (n + 1) job } := by
      have hres : (d.queue q).submitResult n false = none := by
        unfold QueuePair.submitResult
        rw [if_neg hr, if_neg Bool.false_ne_true, if_pos (by omega)]
      simp only [Nvme.step, Nvme.hostStep, hpc, hres]
    rw [hstep, ih (by exact hr) (n + 1) rfl (by omega)]
    simp only [Nat.add_assoc, Nat.add_comm 1 k]

/-- `submit` gives up after its last turn. -/
theorem Nvme.run_giveUp {d : Nvme} {q : Qid} {num : Nat} {job : Option Rw} (hr : ¬(d.queue q).ready)
    (hpc : d.pc = .spin q num 0 job) :
    runFrom Nvme.step d (List.replicate submitSpins (.host false)) = { d with pc := .idle } := by
  have hsplit : List.replicate submitSpins (NvmeEvent.host false) =
      List.replicate (submitSpins - 1) (NvmeEvent.host false) ++ [NvmeEvent.host false] := by
    rw [← List.replicate_succ', show submitSpins = submitSpins - 1 + 1 from rfl, Nat.add_sub_cancel]
  rw [hsplit, runFrom_append, Nvme.run_spin hr _ 0 hpc (by decide)]
  have hres : (d.queue q).submitResult (0 + (submitSpins - 1)) false = some (-1) := by
    unfold QueuePair.submitResult
    rw [if_neg hr, if_neg Bool.false_ne_true, if_neg (by decide)]
  simp only [runFrom_cons, runFrom_nil, Nvme.step, Nvme.hostStep, hres, if_neg hr, Nvme.submitDone]
  cases job with
  | none => rfl
  | some rw => rfl

/-- A call that gives up leaves its completion to the next call. -/
theorem nvme_own_completion_false :
    ¬∀ (sq : Qid → Nat → SqEntry) (nextCid : BitVec 16) (bounce : Nat → Byte) (prpList : Nat → U64) (info : NvmeDrive)
      (evs : List NvmeEvent), Meets Nvme.step (fun d ev => StatusOwn d ev ∧ CopiedAfter d ev)
        (.start sq nextCid bounce prpList info) evs := by
  intro h
  -- the late completion of the first read is posted, and the second read finds it before its own is even taken
  have hm : Meets Nvme.step (fun d ev => StatusOwn d ev ∧ CopiedAfter d ev) idleDrive
      (readTaken 0#64 ++ (List.replicate submitSpins (NvmeEvent.host false) ++
        [NvmeEvent.post .io 0 0#15, .rw false 8#64 1#32 (fun _ => 0#8), .host false, .host false])) := h _ _ _ _ _ _
  have hlate := (meets_append.1 (meets_append.1 hm).2).2
  rw [Nvme.run_giveUp (by decide) rfl] at hlate
  obtain ⟨status, hmem, -, -⟩ := hlate.2.2.2.1.1 false .io 1 0 _ 0 rfl rfl (by decide) le_rfl
  change (1, status) ∈ [(0, 0#15)] at hmem
  simp at hmem

end MiniOs32
