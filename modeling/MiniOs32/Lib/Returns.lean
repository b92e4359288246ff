import Mathlib

/-!
# Computations that return

Total correctness for computations that change a state and may fail to return: from every state that satisfies the precondition
the computation returns, and the postcondition holds of its result and the state it leaves. `Keeps` is the partial counterpart for
a property of the state.
-/

namespace MiniOs32

variable {σ α β : Type}

/-- Two computations in a row return when the first returns and the second does on its result. -/
theorem except_bind_eq_ok {ε : Type} {x : Except ε α} {f : α → Except ε β} {r : β} :
    x >>= f = .ok r ↔ ∃ a, x = .ok a ∧ f a = .ok r := by
  cases x with
  | error e => simp [bind, Except.bind]
  | ok a => simp [bind, Except.bind]

/-- From a state in `P` the computation returns, with `Q` of the result and the new state. -/
def Returns (P : σ → Prop) (m : StateT σ Option α) (Q : α → σ → Prop) : Prop :=
  ∀ s, P s → ∃ a s', m s = some (a, s') ∧ Q a s'

namespace Returns

variable {P P' : σ → Prop} {Q Q' : α → σ → Prop} {R : β → σ → Prop} {m m₁ m₂ : StateT σ Option α}
  {k : α → StateT σ Option β}

theorem ret {a : α} (h : ∀ s, P s → Q a s) : Returns P (pure a) Q := fun s hs => ⟨a, s, rfl, h s hs⟩

theorem bind (hm : Returns P m Q) (hk : ∀ a, Returns (Q a) (k a) R) : Returns P (m >>= k) R := by
  intro s hs
  obtain ⟨a, s₁, h₁, hQ⟩ := hm s hs
  obtain ⟨b, s₂, h₂, hR⟩ := hk a s₁ hQ
  exact ⟨b, s₂, by simp [Bind.bind, StateT.bind, h₁, h₂], hR⟩

theorem weaken (hm : Returns P m Q) (hP : ∀ s, P' s → P s) (hQ : ∀ a s, Q a s → Q' a s) : Returns P' m Q' := by
  intro s hs
  obtain ⟨a, s', h, hq⟩ := hm s (hP s hs)
  exact ⟨a, s', h, hQ a s' hq⟩

theorem branch {c : Prop} [Decidable c] (h₁ : c → Returns P m₁ Q) (h₂ : ¬c → Returns P m₂ Q) :
    Returns P (if c then m₁ else m₂) Q := by
  split
  case isTrue h => exact h₁ h
  case isFalse h => exact h₂ h

theorem update {f : σ → σ} {Q : Unit → σ → Prop} (h : ∀ s, P s → Q () (f s)) :
    Returns P (modify f : StateT σ Option Unit) Q := fun s hs => ⟨(), f s, rfl, h s hs⟩

theorem read {f : σ → α} (h : ∀ s, P s → Q (f s) s) : Returns P (do return f (← get)) Q := fun s hs => ⟨f s, s, rfl, h s hs⟩

/-- A computation that goes on from something read off the state. -/
theorem ask {f : σ → α} (hk : ∀ s, P s → ∃ b s', k (f s) s = some (b, s') ∧ R b s') : Returns P (do k (f (← get))) R :=
  fun s hs => hk s hs

end Returns

/-- When the computation returns from a state in `P`, it leaves one. -/
def Keeps (P : σ → Prop) (m : StateT σ Option α) : Prop := ∀ s a s', P s → m s = some (a, s') → P s'

namespace Keeps

variable {P : σ → Prop} {m m₁ m₂ : StateT σ Option α} {k : α → StateT σ Option β}

theorem of_eq {a : σ → α} {f : σ → σ} (hm : ∀ s, m s = some (a s, f s)) (h : ∀ s, P s → P (f s)) : Keeps P m := by
  intro s b s' hs hrun
  obtain ⟨rfl, rfl⟩ : a s = b ∧ f s = s' := by simpa [hm s] using hrun
  exact h s hs

theorem ret (a : α) : Keeps P (pure a : StateT σ Option α) := of_eq (fun _ => rfl) fun _ hs => hs

theorem stuck (hm : ∀ s, m s = none) : Keeps P m := fun s _ _ _ hrun => by simp [hm s] at hrun

theorem bind (hm : Keeps P m) (hk : ∀ a, Keeps P (k a)) : Keeps P (m >>= k) := by
  intro s b s' hs hrun
  simp only [Bind.bind, StateT.bind, Option.bind_eq_some_iff] at hrun
  obtain ⟨⟨a, s₁⟩, h₁, h₂⟩ := hrun
  exact hk a s₁ b s' (hm s a s₁ hs h₁) h₂

theorem branch {c : Prop} [Decidable c] (h₁ : Keeps P m₁) (h₂ : Keeps P m₂) : Keeps P (if c then m₁ else m₂) := by
  split
  · exact h₁
  · exact h₂

end Keeps

end MiniOs32
