import MiniOs32.Lib.Labelled

/-!
# What every run keeps track of

An abstract value for each place of a text: a function says what an operation makes of it, or that it is not allowed there, and
every label has one value. `Flow` says that a text agrees with that. If the function is right about single operations, then every
run of the text is at a place with the value that holds there.
-/

namespace MiniOs32

variable {ι κ α : Type}

/-- What a straight line of operations makes of a value. -/
def transfers (tr : ι → α → Option α) : List ι → α → Option α
  | [], a => some a
  | i :: is, a => (tr i a).bind (transfers tr is)

section Transfers

variable {tr : ι → α → Option α} {is js : List ι} {a b c : α}

@[simp] theorem transfers_nil : transfers tr [] a = some a := rfl

theorem transfers_append (tr : ι → α → Option α) (is js : List ι) (a : α) :
    transfers tr (is ++ js) a = (transfers tr is a).bind (transfers tr js) := by
  induction is generalizing a with
  | nil => rfl
  | cons i is ih =>
    rw [List.cons_append, transfers, transfers, Option.bind_assoc]
    congr 1
    funext b
    exact ih b

theorem transfers_trans (h : transfers tr is a = some b) (h' : transfers tr js b = some c) :
    transfers tr (is ++ js) a = some c := by
  rw [transfers_append, h, Option.bind_some, h']

end Transfers

/-- A text takes one value to another, with the values `L` at its labels. Behind a jump any value will do. -/
inductive Flow (tr : ι → α → Option α) (L : Nat → α) : List (Item ι κ) → α → α → Prop
  | nil (a : α) : Flow tr L [] a a
  | op {i : ι} {k : List (Item ι κ)} {a a' b : α} (h : tr i a = some a') (hk : Flow tr L k a' b) : Flow tr L (.op i :: k) a b
  | label {l : Nat} {k : List (Item ι κ)} {b : α} (hk : Flow tr L k (L l) b) : Flow tr L (.label l :: k) (L l) b
  | jump {l : Nat} {k : List (Item ι κ)} {a b : α} (hk : Flow tr L k a b) : Flow tr L (.jump l :: k) (L l) b
  | branch {c : κ} {l : Nat} {k : List (Item ι κ)} {b : α} (hk : Flow tr L k (L l) b) : Flow tr L (.branch c l :: k) (L l) b

namespace Flow

variable {tr : ι → α → Option α} {L : Nat → α} {k k' text : List (Item ι κ)} {a b c : α} {l : Nat}

theorem append (h : Flow tr L k a b) (h' : Flow tr L k' b c) : Flow tr L (k ++ k') a c := by
  induction h with
  | nil => exact h'
  | op hi _ ih => exact .op hi (ih h')
  | label _ ih => exact .label (ih h')
  | jump _ ih => exact .jump (ih h')
  | branch _ ih => exact .branch (ih h')

theorem ops {is : List ι} (h : transfers tr is a = some b) : Flow tr L (is.map (.op (κ := κ))) a b := by
  induction is generalizing a with
  | nil =>
    cases h
    exact .nil _
  | cons i is ih =>
    obtain ⟨a', hi, his⟩ := Option.bind_eq_some_iff.mp h
    exact .op hi (ih his)

/-- A label, a jump and a branch, where the label has the value at hand. -/
theorem labelAt (h : L l = a) : Flow tr L [.label (κ := κ) (ι := ι) l] a a := by
  subst h
  exact .label (.nil _)

theorem jumpTo (h : L l = a) (b : α) : Flow tr L [.jump (κ := κ) (ι := ι) l] a b := by
  subst h
  exact .jump (.nil b)

theorem branchTo (cond : κ) (h : L l = a) : Flow tr L [.branch (ι := ι) cond l] a a := by
  subst h
  exact .branch (.nil _)

/-- What stands behind a label has the value of the label. -/
theorem behind (h : Flow tr L text a b) (hk : behind l text = some k) : Flow tr L k (L l) b := by
  induction h with
  | nil => cases hk
  | op _ _ ih => exact ih hk
  | @label l' k₀ b hk₀ ih =>
    simp only [MiniOs32.behind] at hk
    split at hk
    · rename_i hl
      subst hl
      cases hk
      exact hk₀
    · exact ih hk
  | jump _ ih => exact ih hk
  | branch _ ih => exact ih hk

section Runs

variable {σ : Type} {m : TextMachine ι κ σ} {R : α → σ → Prop} {s s' : σ}

/-- One step keeps the value at the place it is at. -/
theorem step (hop : ∀ i a a' s s', tr i a = some a' → R a s → m.exec i s = some s' → R a' s') (ht : ∃ a₀, Flow tr L text a₀ b)
    (h : Flow tr L k a b) (hR : R a s) (hs : m.Step text (k, s) (k', s')) : ∃ a', Flow tr L k' a' b ∧ R a' s' := by
  obtain ⟨a₀, ht⟩ := ht
  cases hs with
  | op hi =>
    cases h with
    | op htr hk => exact ⟨_, hk, hop _ _ _ _ _ htr hR hi⟩
  | label =>
    cases h with
    | label hk => exact ⟨_, hk, hR⟩
  | jump hb =>
    cases h with
    | jump hk => exact ⟨_, ht.behind hb, hR⟩
  | taken hc hb =>
    cases h with
    | branch hk => exact ⟨_, ht.behind hb, hR⟩
  | passed hc =>
    cases h with
    | branch hk => exact ⟨_, hk, hR⟩

/-- Every run of a text is at a place with the value that holds there. -/
theorem runs (hop : ∀ i a a' s s', tr i a = some a' → R a s → m.exec i s = some s' → R a' s') (h : Flow tr L text a b)
    (hR : R a s) (hr : m.Runs text (text, s) (k, s')) : ∃ a', Flow tr L k a' b ∧ R a' s' := by
  generalize hc : (k, s') = c at hr
  induction hr generalizing k s' with
  | refl =>
    cases hc
    exact ⟨a, h, hR⟩
  | @tail c₁ c₂ _ hs ih =>
    subst hc
    obtain ⟨k₁, s₁⟩ := c₁
    obtain ⟨a₁, h₁, hR₁⟩ := ih rfl
    exact h₁.step hop ⟨a, h⟩ hR₁ hs

/-- At the end of the text a run has the value there. -/
theorem runs_end (hop : ∀ i a a' s s', tr i a = some a' → R a s → m.exec i s = some s' → R a' s') (h : Flow tr L text a b)
    (hR : R a s) (hr : m.Runs text (text, s) ([], s')) : R b s' := by
  obtain ⟨a', h', hR'⟩ := h.runs hop hR hr
  cases h'
  exact hR'

end Runs

end Flow

/-! ## Labels drawn from a counter -/

/-- A text whose labels are drawn while a counter goes from `lo` to `hi`: with the values `L₀` at the labels before, there are
values for its own, so that it takes one value to another whatever the labels drawn later have. -/
def DrawnFlow (tr : ι → α → Option α) (lo hi : Nat) (L₀ : Nat → α) (k : List (Item ι κ)) (a b : α) : Prop :=
  ∃ L : Nat → α, (∀ l < lo, L l = L₀ l) ∧ ∀ L' : Nat → α, (∀ l < hi, L' l = L l) → Flow tr L' k a b

namespace DrawnFlow

variable {tr : ι → α → Option α} {lo mid hi : Nat} {L₀ : Nat → α} {k k' : List (Item ι κ)} {a b c : α}

theorem of_flow (h : ∀ L' : Nat → α, (∀ l < lo, L' l = L₀ l) → Flow tr L' k a b) : DrawnFlow tr lo lo L₀ k a b :=
  ⟨L₀, fun _ _ => rfl, h⟩

theorem ops {is : List ι} (h : transfers tr is a = some b) : DrawnFlow tr lo lo L₀ (is.map (.op (κ := κ))) a b :=
  of_flow fun _ _ => .ops h

theorem labelAt {l : Nat} (hl : l < lo) (h : L₀ l = a) : DrawnFlow tr lo lo L₀ [.label (κ := κ) l] a a :=
  of_flow fun _ hL => .labelAt ((hL l hl).trans h)

theorem jumpTo {l : Nat} (hl : l < lo) (h : L₀ l = a) (b : α) : DrawnFlow tr lo lo L₀ [.jump (κ := κ) l] a b :=
  of_flow fun _ hL => .jumpTo ((hL l hl).trans h) b

theorem branchTo {l : Nat} (cond : κ) (hl : l < lo) (h : L₀ l = a) : DrawnFlow tr lo lo L₀ [.branch cond l] a a :=
  of_flow fun _ hL => .branchTo cond ((hL l hl).trans h)

theorem append (hm : mid ≤ hi) (h : DrawnFlow tr lo mid L₀ k a b) (hl : lo ≤ mid)
    (h' : ∀ L₁ : Nat → α, (∀ l < lo, L₁ l = L₀ l) → DrawnFlow tr mid hi L₁ k' b c) : DrawnFlow tr lo hi L₀ (k ++ k') a c := by
  obtain ⟨L₁, hL₁, hk⟩ := h
  obtain ⟨L₂, hL₂, hk'⟩ := h' L₁ hL₁
  refine ⟨L₂, fun l hlo => (hL₂ l (by omega)).trans (hL₁ l hlo), fun L' hL' => ?_⟩
  exact (hk L' fun l hl => (hL' l (by omega)).trans (hL₂ l hl)).append (hk' L' hL')

/-- A label drawn first, with any value. -/
theorem draw (v : α) (h : DrawnFlow tr (lo + 1) hi (Function.update L₀ lo v) k a b) : DrawnFlow tr lo hi L₀ k a b := by
  obtain ⟨L, hL, hk⟩ := h
  refine ⟨L, fun l hl => ?_, hk⟩
  rw [hL l (by omega), Function.update_of_ne (by omega)]

end DrawnFlow

end MiniOs32
