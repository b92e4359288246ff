import MiniOs32.Lib.Words

/-!
# Guarded runs of a deterministic system

A system is a step function on states and inputs. A run is a list of inputs taken in order; a guard is a predicate on the
state before a step and the step's input. The two rules below carry an invariant, and any property of a single step, along
every run whose steps all meet the guard.
-/

namespace MiniOs32

variable {σ ι : Type*} (step : σ → ι → σ)

/-- The state after a run. -/
def runFrom (s : σ) (is : List ι) : σ := is.foldl step s

/-- Every step of the run meets the guard in the state before it. -/
def Meets (guard : σ → ι → Prop) : σ → List ι → Prop
  | _, [] => True
  | s, i :: is => guard s i ∧ Meets guard (step s i) is

@[simp] theorem runFrom_nil (s : σ) : runFrom step s [] = s := rfl

@[simp] theorem runFrom_cons (s : σ) (i : ι) (is : List ι) : runFrom step s (i :: is) = runFrom step (step s i) is := rfl

theorem runFrom_append (s : σ) (is js : List ι) : runFrom step s (is ++ js) = runFrom step (runFrom step s is) js :=
  List.foldl_append

variable {step}

/-- An invariant kept by every step that meets the guard holds after every run whose steps meet it. -/
theorem inv_runFrom {guard : σ → ι → Prop} (inv : σ → Prop) (hstep : ∀ s i, inv s → guard s i → inv (step s i))
    {s : σ} (h : inv s) {is : List ι} (hm : Meets step guard s is) : inv (runFrom step s is) := by
  induction is generalizing s with
  | nil => exact h
  | cons i is ih => exact ih (hstep s i h hm.1) hm.2

/-- An invariant kept by every step holds after every run. -/
theorem inv_runFrom_all (inv : σ → Prop) (hstep : ∀ s i, inv s → inv (step s i)) {s : σ} (h : inv s) (is : List ι) :
    inv (runFrom step s is) := by
  induction is generalizing s with
  | nil => exact h
  | cons i is ih => exact ih (hstep s i h)

/-- A run in two parts. -/
theorem meets_append {prop : σ → ι → Prop} {s : σ} {is js : List ι} :
    Meets step prop s (is ++ js) ↔ Meets step prop s is ∧ Meets step prop (runFrom step s is) js := by
  induction is generalizing s with
  | nil => simp [Meets]
  | cons i is ih =>
    rw [List.cons_append, runFrom_cons]
    simp only [Meets, ih, and_assoc]

/-- A property every guarded step has in an invariant state is had by every step of a run whose steps meet the guard. -/
theorem meets_of_inv {guard prop : σ → ι → Prop} (inv : σ → Prop) (hstep : ∀ s i, inv s → guard s i → inv (step s i))
    (hprop : ∀ s i, inv s → guard s i → prop s i) {s : σ} (h : inv s) {is : List ι} (hm : Meets step guard s is) :
    Meets step prop s is := by
  induction is generalizing s with
  | nil => trivial
  | cons i is ih => exact ⟨hprop s i h hm.1, ih (hstep s i h hm.1) hm.2⟩

/-- A property every step has in an invariant state is had by every step of every run. -/
theorem meets_of_inv_all {prop : σ → ι → Prop} (inv : σ → Prop) (hstep : ∀ s i, inv s → inv (step s i))
    (hprop : ∀ s i, inv s → prop s i) {s : σ} (h : inv s) (is : List ι) : Meets step prop s is := by
  induction is generalizing s with
  | nil => trivial
  | cons i is ih => exact ⟨hprop s i h, ih (hstep s i h)⟩

/-- A property that a step in an invariant state keeps exactly if it meets the guard holds all along a run exactly if every step does. -/
theorem always_iff_meets {guard : σ → ι → Prop} {good : σ → Prop} (inv : σ → Prop) (hstep : ∀ s i, inv s → inv (step s i))
    (hgood : ∀ s i, inv s → good s → (good (step s i) ↔ guard s i)) {s : σ} (h : inv s) (hs : good s) (is : List ι) :
    (∀ n, good (runFrom step s (is.take n))) ↔ Meets step guard s is := by
  induction is generalizing s with
  | nil => simp [Meets, hs]
  | cons i is ih =>
    rw [Meets, ← hgood s i h hs]
    constructor
    · intro hall
      have hnext : good (step s i) := hall 1
      exact ⟨hnext, (ih (hstep s i h) hnext).mp fun n => hall (n + 1)⟩
    · intro hrest n
      cases n with
      | zero => exact hs
      | succ n => exact (ih (hstep s i h) hrest.1).mpr hrest.2 n

end MiniOs32
