import Mathlib

/-!
# Two runs in step

A relational logic for computations that change a state and may fail to return. It compares a run that does nothing unwanted with
another run of the same program from a related state: `clean` says that nothing unwanted has happened so far, and `R` relates the
two states. Once a run is not clean it stays so, which lets every rule assume cleanliness at the end and use it at the start. The
comparison is `total` when it also shows that the second run returns.
-/

namespace MiniOs32

variable {σ α β : Type} {total : Prop} {clean : σ → Prop} {R : σ → σ → Prop} {Q : α → α → Prop} {Q' : β → β → Prop}

/-- No relation on the values at all. -/
def Any (_ _ : α) : Prop := True

instance : Std.Refl (Any (α := α)) := ⟨fun _ => trivial⟩

/-- When the first computation returns cleanly, so it started, and the second, if it returns or the comparison is total, returns
from every related state, with related results in related states. -/
structure Lockstep (total : Prop) (clean : σ → Prop) (R : σ → σ → Prop) (Q : α → α → Prop) (m n : StateT σ Option α) : Prop where
  back : ∀ s a s', m s = some (a, s') → clean s' → clean s
  sim : ∀ s t a s', R s t → m s = some (a, s') → clean s' → total ∨ (n t).isSome →
    ∃ b t', n t = some (b, t') ∧ R s' t' ∧ Q a b

namespace Lockstep

variable {m n : StateT σ Option α} {k l : α → StateT σ Option β}

/-- Related values are returned in step. -/
theorem ret {a b : α} (h : Q a b) : Lockstep total clean R Q (pure a) (pure b) where
  back s a' s' hm hc := by
    obtain ⟨rfl, rfl⟩ : a = a' ∧ s = s' := by simpa [pure, StateT.pure] using hm
    exact hc
  sim s t a' s' hR hm _ _ := by
    obtain ⟨rfl, rfl⟩ : a = a' ∧ s = s' := by simpa [pure, StateT.pure] using hm
    exact ⟨b, t, rfl, hR, h⟩

/-- A computation that never returns is in step with any. -/
theorem stuck (hm : ∀ s, m s = none) : Lockstep total clean R Q m n where
  back s a s' h := by simp [hm s] at h
  sim s t a s' _ h := by simp [hm s] at h

/-- What a sequence of two computations returns, the second returns after the first. -/
theorem bind_inv {s s' : σ} {b : β} (h : (m >>= k) s = some (b, s')) : ∃ a s₁, m s = some (a, s₁) ∧ k a s₁ = some (b, s') := by
  simp only [bind, StateT.bind, Option.bind_eq_some_iff] at h
  obtain ⟨⟨a, s₁⟩, h₁, h₂⟩ := h
  exact ⟨a, s₁, h₁, h₂⟩

/-- A sequence returns only if its first part does. -/
theorem isSome_of_bind {t : σ} (h : ((n >>= l) t).isSome) : (n t).isSome := by
  obtain ⟨⟨b, t'⟩, hb⟩ := Option.isSome_iff_exists.mp h
  obtain ⟨a, t₁, hn, -⟩ := bind_inv hb
  exact Option.isSome_iff_exists.mpr ⟨_, hn⟩

/-- Sequences stay in step when their parts do. The relation on the passed value is reflexive, so that the second part can be
looked at without the second run. -/
theorem bind [Std.Refl Q] (hm : Lockstep total clean R Q m n) (hk : ∀ a b, Q a b → Lockstep total clean R Q' (k a) (l b)) :
    Lockstep total clean R Q' (m >>= k) (n >>= l) where
  back s b s' h hc := by
    obtain ⟨a, s₁, h₁, h₂⟩ := bind_inv h
    exact hm.back s a s₁ h₁ ((hk a a (Std.Refl.refl a)).back s₁ b s' h₂ hc)
  sim s t b s' hR h hc ht := by
    obtain ⟨a, s₁, h₁, h₂⟩ := bind_inv h
    have hc₁ := (hk a a (Std.Refl.refl a)).back s₁ b s' h₂ hc
    obtain ⟨a', t₁, hn, hR₁, hQ⟩ := hm.sim s t a s₁ hR h₁ hc₁ (ht.imp_right isSome_of_bind)
    have hrest : (n >>= l) t = l a' t₁ := by simp [Bind.bind, StateT.bind, hn]
    obtain ⟨b', t', ht', hR', hQ'⟩ := (hk a a' hQ).sim s₁ t₁ b s' hR₁ h₂ hc (by rwa [hrest] at ht)
    exact ⟨b', t', hrest.trans ht', hR', hQ'⟩

/-- Sequences whose first parts return the same value. -/
theorem seq (hm : Lockstep total clean R Eq m n) (hk : ∀ a, Lockstep total clean R Q' (k a) (l a)) :
    Lockstep total clean R Q' (m >>= k) (n >>= l) :=
  hm.bind fun a b h => by subst h; exact hk a

/-- A step followed by another. -/
theorem next {m n : StateT σ Option Unit} {k l : Unit → StateT σ Option β} (hm : Lockstep total clean R Eq m n)
    (hk : Lockstep total clean R Q' (k ()) (l ())) : Lockstep total clean R Q' (m >>= k) (n >>= l) :=
  hm.seq fun _ => hk

/-- A branch on the same condition. -/
theorem ite {c : Prop} [Decidable c] {m₁ m₂ n₁ n₂ : StateT σ Option α} (h₁ : c → Lockstep total clean R Q m₁ n₁)
    (h₂ : ¬c → Lockstep total clean R Q m₂ n₂) : Lockstep total clean R Q (if c then m₁ else m₂) (if c then n₁ else n₂) := by
  split
  case isTrue h => exact h₁ h
  case isFalse h => exact h₂ h

/-- A branch on the same condition, which the branches need not know. -/
theorem branch {c : Prop} [Decidable c] {m₁ m₂ n₁ n₂ : StateT σ Option α} (h₁ : Lockstep total clean R Q m₁ n₁)
    (h₂ : Lockstep total clean R Q m₂ n₂) : Lockstep total clean R Q (if c then m₁ else m₂) (if c then n₁ else n₂) :=
  ite (fun _ => h₁) fun _ => h₂

/-- Computations given by what they return and the state they leave. -/
theorem of_eq {a b : σ → α} {f g : σ → σ} (hm : ∀ s, m s = some (a s, f s)) (hn : ∀ s, n s = some (b s, g s))
    (back : ∀ s, clean (f s) → clean s) (sim : ∀ s t, R s t → clean (f s) → R (f s) (g t) ∧ Q (a s) (b t)) :
    Lockstep total clean R Q m n where
  back s a' s' h hc := by
    obtain ⟨rfl, rfl⟩ : a s = a' ∧ f s = s' := by simpa [hm s] using h
    exact back s hc
  sim s t a' s' hR h hc _ := by
    obtain ⟨rfl, rfl⟩ : a s = a' ∧ f s = s' := by simpa [hm s] using h
    exact ⟨b t, g t, hn t, sim s t hR hc⟩

/-- Computations given by a pair. -/
theorem of_pair {f g : σ → α × σ} (back : ∀ s, clean (f s).2 → clean s)
    (sim : ∀ s t, R s t → clean (f s).2 → R (f s).2 (g t).2 ∧ Q (f s).1 (g t).1) :
    Lockstep total clean R Q (fun s => some (f s) : StateT σ Option α) (fun t => some (g t)) :=
  of_eq (fun _ => rfl) (fun _ => rfl) back sim

/-- Updates of the state. -/
theorem update {f g : σ → σ} (back : ∀ s, clean (f s) → clean s) (sim : ∀ s t, R s t → clean (f s) → R (f s) (g t)) :
    Lockstep total clean R Eq (modify f : StateT σ Option Unit) (modify g) :=
  of_eq (fun _ => rfl) (fun _ => rfl) back fun s t hR hc => ⟨sim s t hR hc, rfl⟩

/-- Readings of the state. -/
theorem read {f g : σ → α} (h : ∀ s t, R s t → clean s → Q (f s) (g t)) :
    Lockstep total clean R Q (do return f (← get)) (do return g (← get)) :=
  of_eq (fun _ => rfl) (fun _ => rfl) (fun _ hc => hc) fun s t hR hc => ⟨hR, h s t hR hc⟩

/-- A computation that goes on from something the states agree on. -/
theorem ask {f g : σ → α} (h : ∀ s t, R s t → clean s → f s = g t) (hk : ∀ a, Lockstep total clean R Q' (k a) (l a)) :
    Lockstep total clean R Q' (do k (f (← get))) (do l (g (← get))) :=
  (read h).seq hk

/-- An update that leaves no clean state is in step with anything, if what comes after it cleans nothing up. -/
theorem dirty {f : σ → σ} {k : Unit → StateT σ Option β} {n : StateT σ Option β} (hf : ∀ s, ¬clean (f s))
    (hk : Lockstep total clean R Q' (k ()) (k ())) : Lockstep total clean R Q' (modify f >>= k) n where
  back s b s' h hc := absurd (hk.back (f s) b s' h hc) (hf s)
  sim s _ b s' _ h hc _ := absurd (hk.back (f s) b s' h hc) (hf s)

/-- The states as they are, with nothing said about them. -/
theorem current : Lockstep total clean R Any (get : StateT σ Option σ) get :=
  of_eq (fun _ => rfl) (fun _ => rfl) (fun _ hc => hc) fun _ _ hR _ => ⟨hR, trivial⟩

end Lockstep

end MiniOs32
