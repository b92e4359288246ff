import MiniOs32.Lib.Words

/-!
# Ring buffers with a phase bit

A producer writes entries into the slots of a ring in order and marks each with the phase of its lap; the phase flips at every
wrap. A consumer that keeps its own position and phase can tell a fresh entry from a stale one by the mark alone, as long as the
producer is less than one lap ahead. The positions are counted without wrapping here; a slot number is a position modulo the
depth.
-/

namespace MiniOs32

variable {α : Type*} {depth : Nat}

/-- The phase of the lap a position is on: set on the first lap and flipped at every wrap. -/
def lapPhase (depth n : Nat) : Bool := n / depth % 2 == 0

/-- A ring into which the entries of `log` have been written: a slot has the phase of the current lap exactly if it was written
on this lap, and the last `depth` entries are still there. -/
structure RingHolds (depth : Nat) (mark : Nat → Bool) (entry : Nat → α) (log : List α) : Prop where
  fresh : ∀ i < depth, mark i = lapPhase depth log.length ↔ i < log.length % depth
  last : ∀ n (h : n < log.length), log.length ≤ n + depth → entry (n % depth) = log[n]

/-- The last `depth` entries of `log` are in the slots of their positions. -/
def KeepsLast (depth : Nat) (entry : Nat → α) (log : List α) : Prop :=
  ∀ n (h : n < log.length), log.length ≤ n + depth → entry (n % depth) = log[n]

/-- A slot of the ring replaced. -/
def setSlot {β : Type*} (slots : Nat → β) (i : Nat) (b : β) : Nat → β := fun j => if j = i then b else slots j

/-- The slot and the lap of the next position. -/
theorem succ_mod_div (hd : 0 < depth) (n : Nat) :
    ((n + 1) % depth = if n % depth + 1 = depth then 0 else n % depth + 1) ∧
    (n + 1) / depth = if n % depth + 1 = depth then n / depth + 1 else n / depth := by
  have hn := Nat.div_add_mod n depth
  have hlt := Nat.mod_lt n hd
  by_cases hw : n % depth + 1 = depth
  · have heq : n + 1 = depth * (n / depth + 1) := by rw [Nat.mul_add, Nat.mul_one]; lia
    rw [if_pos hw, if_pos hw, heq]
    exact ⟨Nat.mul_mod_right _ _, Nat.mul_div_cancel_left _ hd⟩
  · have heq : n + 1 = n % depth + 1 + depth * (n / depth) := by lia
    rw [if_neg hw, if_neg hw, heq, Nat.add_mul_mod_self_left, Nat.add_mul_div_left _ _ hd]
    have hsmall : n % depth + 1 < depth := by lia
    rw [Nat.mod_eq_of_lt hsmall, Nat.div_eq_of_lt hsmall, Nat.zero_add]
    exact ⟨rfl, rfl⟩

/-- The phase flips exactly where the position wraps. -/
theorem lapPhase_succ (hd : 0 < depth) (n : Nat) :
    lapPhase depth (n + 1) = if (n + 1) % depth = 0 then !lapPhase depth n else lapPhase depth n := by
  obtain ⟨hmod, hdiv⟩ := succ_mod_div hd n
  rw [hmod, lapPhase, lapPhase, hdiv]
  by_cases hw : n % depth + 1 = depth
  · rw [if_pos hw, if_pos hw, if_pos rfl]
    rcases Nat.mod_two_eq_zero_or_one (n / depth) with h | h <;> simp [h, Nat.add_mod]
  · rw [if_neg hw, if_neg hw, if_neg (by omega)]

/-- A ring whose marks are all unset is empty. -/
theorem RingHolds.empty {mark : Nat → Bool} {entry : Nat → α} (h : ∀ i, mark i = false) : RingHolds depth mark entry [] := by
  refine ⟨?_, ?_⟩
  · intro i _
    simp [h, lapPhase]
  · intro n hn
    simp at hn

/-- Writing the next slot keeps the last entries. -/
theorem KeepsLast.push {entry : Nat → α} {log : List α} (h : KeepsLast depth entry log) (a : α) :
    KeepsLast depth (setSlot entry (log.length % depth) a) (log ++ [a]) := by
  have hlen : (log ++ [a]).length = log.length + 1 := by simp
  intro n hn hnew
  rw [hlen] at hn hnew
  unfold setSlot
  by_cases hlast : n = log.length
  · simp [hlast]
  · have hne : n % depth ≠ log.length % depth := by
      intro heq
      have hdvd : depth ∣ log.length - n := (Nat.modEq_iff_dvd' (by lia)).1 heq
      have := Nat.le_of_dvd (by lia) hdvd
      lia
    rw [if_neg hne, h n (by lia) (by lia)]
    rw [List.getElem_append_left]

/-- Writing the next slot with the phase of the lap appends an entry. -/
theorem RingHolds.push {mark : Nat → Bool} {entry : Nat → α} {log : List α} (hd : 0 < depth) (h : RingHolds depth mark entry log)
    (a : α) : RingHolds depth (setSlot mark (log.length % depth) (lapPhase depth log.length))
      (setSlot entry (log.length % depth) a) (log ++ [a]) := by
  have hlen : (log ++ [a]).length = log.length + 1 := by simp
  have hlt := Nat.mod_lt log.length hd
  refine ⟨?_, ?_⟩
  · intro i hi
    have hold := h.fresh i hi
    rw [hlen, lapPhase_succ hd, (succ_mod_div hd log.length).1]
    unfold setSlot
    by_cases hw : log.length % depth + 1 = depth
    · rw [if_pos hw, if_pos rfl]
      by_cases hi' : i = log.length % depth
      · simp [hi']
      · rw [if_neg hi', hold.2 (by lia)]
        simp
    · have hpos : log.length % depth + 1 ≠ 0 := by lia
      rw [if_neg hw, if_neg hpos]
      by_cases hi' : i = log.length % depth
      · rw [if_pos hi', hi']
        exact ⟨fun _ => by lia, fun _ => rfl⟩
      · rw [if_neg hi', hold]
        lia
  · exact KeepsLast.push h.last a

/-- A consumer less than a lap behind sees its own phase in its slot exactly if the entry is there, and then it is that entry. -/
theorem RingHolds.peek {mark : Nat → Bool} {entry : Nat → α} {log : List α} (hd : 0 < depth) (h : RingHolds depth mark entry log)
    {n : Nat} (hle : n ≤ log.length) (hlap : log.length < n + depth) :
    (mark (n % depth) = lapPhase depth n ↔ n < log.length) ∧ ∀ hn : n < log.length, entry (n % depth) = log[n] := by
  have hfresh := h.fresh (n % depth) (Nat.mod_lt n hd)
  refine ⟨?_, fun hn => h.last n hn (by lia)⟩
  have hn := Nat.div_add_mod n depth
  have hl := Nat.div_add_mod log.length depth
  have hnlt := Nat.mod_lt n hd
  have hllt := Nat.mod_lt log.length hd
  have hdiv : n / depth ≤ log.length / depth := Nat.div_le_div_right hle
  have hdiv' : log.length / depth ≤ n / depth + 1 := by
    have : log.length / depth ≤ (n + depth) / depth := Nat.div_le_div_right (by lia)
    rwa [Nat.add_div_right _ hd] at this
  rcases Nat.lt_or_ge (n / depth) (log.length / depth) with hlater | hsame
  · -- the producer has wrapped and has not reached the slot again
    have hq : log.length / depth = n / depth + 1 := by lia
    have hphase : lapPhase depth n = !lapPhase depth log.length := by
      rw [lapPhase, lapPhase, hq]
      rcases Nat.mod_two_eq_zero_or_one (n / depth) with h2 | h2 <;> simp [h2, Nat.add_mod]
    rw [hq, Nat.mul_add, Nat.mul_one] at hl
    have hbehind : ¬n % depth < log.length % depth := by lia
    rw [hphase]
    have hmark : mark (n % depth) ≠ lapPhase depth log.length := fun hc => hbehind (hfresh.1 hc)
    constructor
    · intro _
      lia
    · intro _
      rcases hm : mark (n % depth) <;> rcases hp : lapPhase depth log.length <;> simp_all
  · have hq : log.length / depth = n / depth := by lia
    have hphase : lapPhase depth n = lapPhase depth log.length := by rw [lapPhase, lapPhase, hq]
    rw [hphase, hfresh]
    rw [hq] at hl
    lia

end MiniOs32
