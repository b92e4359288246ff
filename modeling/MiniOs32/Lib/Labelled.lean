import Mathlib

/-!
# Code with labels

A program text is a list of operations, labels, jumps to labels and conditional branches. A machine says what an operation does
to its state, or that it stops there, and when a branch is taken. A position in a text is what is left of it, so that a block of
code runs the same wherever it stands, as long as no label stands in the text twice.
-/

namespace MiniOs32

/-- One item of a program text. -/
inductive Item (ι κ : Type) where
  | op (i : ι)
  | label (l : Nat)
  | jump (l : Nat)
  | branch (c : κ) (l : Nat)
  deriving DecidableEq

/-- What operations do, and when branches are taken. -/
structure TextMachine (ι κ σ : Type) where
  exec : ι → σ → Option σ
  test : κ → σ → Bool

section Texts

variable {ι κ : Type}

/-- The labels that stand in a text. -/
def labelsOf : List (Item ι κ) → List Nat
  | [] => []
  | .label l :: k => l :: labelsOf k
  | .op _ :: k | .jump _ :: k | .branch _ _ :: k => labelsOf k

/-- What stands behind a label. -/
def behind (l : Nat) : List (Item ι κ) → Option (List (Item ι κ))
  | [] => none
  | .label l' :: k => if l' = l then some k else behind l k
  | .op _ :: k | .jump _ :: k | .branch _ _ :: k => behind l k

@[simp] theorem labelsOf_nil : labelsOf ([] : List (Item ι κ)) = [] := rfl

@[simp] theorem labelsOf_label (l : Nat) (k : List (Item ι κ)) : labelsOf (.label l :: k) = l :: labelsOf k := rfl

@[simp] theorem labelsOf_op (i : ι) (k : List (Item ι κ)) : labelsOf (.op i :: k) = labelsOf k := rfl

@[simp] theorem labelsOf_jump (l : Nat) (k : List (Item ι κ)) : labelsOf (.jump l :: k) = labelsOf k := rfl

@[simp] theorem labelsOf_branch (c : κ) (l : Nat) (k : List (Item ι κ)) : labelsOf (.branch c l :: k) = labelsOf k := rfl

@[simp] theorem labelsOf_append (k k' : List (Item ι κ)) : labelsOf (k ++ k') = labelsOf k ++ labelsOf k' := by
  induction k with
  | nil => rfl
  | cons i k ih => cases i <;> simp [ih]

@[simp] theorem labelsOf_ops (is : List ι) : labelsOf (is.map (Item.op (κ := κ))) = [] := by
  induction is with
  | nil => rfl
  | cons i is ih => exact ih

/-- A label that stands in the text once is found where it stands. -/
theorem behind_append {l : Nat} {pre k : List (Item ι κ)} (h : l ∉ labelsOf pre) : behind l (pre ++ .label l :: k) = some k := by
  induction pre with
  | nil => exact if_pos rfl
  | cons i pre ih =>
    cases i with
    | label l' =>
      rw [labelsOf_label, List.mem_cons, not_or] at h
      exact (if_neg (Ne.symm h.1)).trans (ih h.2)
    | op i | jump i | branch c i => exact ih h

/-- A text whose labels differ has one place behind each label of a part of it. -/
theorem behind_of_nodup {l : Nat} {text p k : List (Item ι κ)} (hn : (labelsOf text).Nodup)
    (ht : text = p ++ .label l :: k) : behind l text = some k := by
  subst ht
  refine behind_append fun hl => ?_
  rw [labelsOf_append] at hn
  exact (List.nodup_append.mp hn).2.2 l hl l (by simp) rfl

end Texts

/-! ## Labels drawn from a counter -/

/-- Labels that differ and are drawn while a counter goes from one number to another. -/
def Drawn (a b : Nat) (ls : List Nat) : Prop := a ≤ b ∧ (∀ l ∈ ls, a ≤ l ∧ l < b) ∧ ls.Nodup

namespace Drawn

variable {a b c : Nat} {x y : List Nat}

theorem nil (a : Nat) : Drawn a a [] := ⟨le_rfl, by simp, List.nodup_nil⟩

theorem append (hx : Drawn a b x) (hy : Drawn b c y) : Drawn a c (x ++ y) := by
  obtain ⟨hab, hxs, hnx⟩ := hx
  obtain ⟨hbc, hys, hny⟩ := hy
  refine ⟨hab.trans hbc, fun l hl => ?_, List.nodup_append.mpr ⟨hnx, hny, fun l h₁ l' h₂ hll => ?_⟩⟩
  · rcases List.mem_append.mp hl with h | h
    · exact ⟨(hxs l h).1, (hxs l h).2.trans_le hbc⟩
    · exact ⟨hab.trans (hys l h).1, (hys l h).2⟩
  · have := (hxs l h₁).2
    have := (hys l' h₂).1
    omega

/-- A label drawn before all others may stand anywhere among them. -/
theorem first (h : Drawn (a + 1) b (x ++ y)) : Drawn a b (x ++ a :: y) := by
  obtain ⟨hab, hm, hn⟩ := h
  have hp : (x ++ a :: y).Perm (a :: (x ++ y)) := List.perm_middle
  refine ⟨by omega, fun l hl => ?_, hp.nodup_iff.mpr (List.nodup_cons.mpr ⟨fun ha => ?_, hn⟩)⟩
  · rcases List.mem_cons.mp (hp.mem_iff.mp hl) with rfl | hl
    · omega
    · have := hm l hl
      omega
  · have := (hm a ha).1
    omega

/-- So may one drawn after all others. -/
theorem last (h : Drawn a b (x ++ y)) : Drawn a (b + 1) (x ++ b :: y) := by
  obtain ⟨hab, hm, hn⟩ := h
  have hp : (x ++ b :: y).Perm (b :: (x ++ y)) := List.perm_middle
  refine ⟨by omega, fun l hl => ?_, hp.nodup_iff.mpr (List.nodup_cons.mpr ⟨fun hb => ?_, hn⟩)⟩
  · rcases List.mem_cons.mp (hp.mem_iff.mp hl) with rfl | hl
    · omega
    · have := hm l hl
      omega
  · have := (hm b hb).2
    omega

end Drawn

/-! ## Runs -/

section Runs

variable {ι κ σ : Type} {m : TextMachine ι κ σ} {text k k' : List (Item ι κ)} {s s' : σ} {l : Nat}

/-- One step of a machine in a text. -/
inductive TextMachine.Step (m : TextMachine ι κ σ) (text : List (Item ι κ)) : List (Item ι κ) × σ → List (Item ι κ) × σ → Prop
  | op {i : ι} {k : List (Item ι κ)} {s s' : σ} : m.exec i s = some s' → m.Step text (.op i :: k, s) (k, s')
  | label {l : Nat} {k : List (Item ι κ)} {s : σ} : m.Step text (.label l :: k, s) (k, s)
  | jump {l : Nat} {k k' : List (Item ι κ)} {s : σ} : behind l text = some k' → m.Step text (.jump l :: k, s) (k', s)
  | taken {c : κ} {l : Nat} {k k' : List (Item ι κ)} {s : σ} :
      m.test c s = true → behind l text = some k' → m.Step text (.branch c l :: k, s) (k', s)
  | passed {c : κ} {l : Nat} {k : List (Item ι κ)} {s : σ} : m.test c s = false → m.Step text (.branch c l :: k, s) (k, s)

/-- A run of a machine in a text. -/
abbrev TextMachine.Runs (m : TextMachine ι κ σ) (text : List (Item ι κ)) : List (Item ι κ) × σ → List (Item ι κ) × σ → Prop :=
  Relation.ReflTransGen (m.Step text)

/-- A straight line of operations. -/
def TextMachine.execs (m : TextMachine ι κ σ) : List ι → σ → Option σ
  | [], s => some s
  | i :: is, s => (m.exec i s).bind (m.execs is)

theorem TextMachine.execs_append (is js : List ι) (s : σ) : m.execs (is ++ js) s = (m.execs is s).bind (m.execs js) := by
  induction is generalizing s with
  | nil => rfl
  | cons i is ih =>
    rw [List.cons_append, TextMachine.execs, TextMachine.execs, Option.bind_assoc]
    congr 1
    funext s'
    exact ih s'

namespace TextMachine.Runs

theorem ops {is : List ι} (h : m.execs is s = some s') : m.Runs text (is.map .op ++ k, s) (k, s') := by
  induction is generalizing s with
  | nil =>
    cases h
    exact .refl
  | cons i is ih =>
    obtain ⟨s₁, h₁, h₂⟩ := Option.bind_eq_some_iff.mp h
    exact .head (.op h₁) (ih h₂)

theorem label : m.Runs text (.label l :: k, s) (k, s) := .single .label

theorem jump (h : behind l text = some k') : m.Runs text (.jump l :: k, s) (k', s) := .single (.jump h)

theorem taken {c : κ} (hc : m.test c s = true) (h : behind l text = some k') : m.Runs text (.branch c l :: k, s) (k', s) :=
  .single (.taken hc h)

theorem passed {c : κ} (hc : m.test c s = false) : m.Runs text (.branch c l :: k, s) (k, s) := .single (.passed hc)

end TextMachine.Runs

/-- A machine takes one step at most. -/
theorem TextMachine.Step.det {c c₁ c₂ : List (Item ι κ) × σ} (h₁ : m.Step text c c₁) (h₂ : m.Step text c c₂) : c₁ = c₂ := by
  cases h₁ with
  | op h =>
    cases h₂ with
    | op h' =>
      rw [h] at h'
      cases h'
      rfl
  | label =>
    cases h₂
    rfl
  | jump h =>
    cases h₂ with
    | jump h' =>
      rw [h] at h'
      cases h'
      rfl
  | taken hc h =>
    cases h₂ with
    | taken _ h' =>
      rw [h] at h'
      cases h'
      rfl
    | passed hc' => simp [hc] at hc'
  | passed hc =>
    cases h₂ with
    | taken hc' _ => simp [hc] at hc'
    | passed _ => rfl

/-- Two runs to the end of the text end in the same state. -/
theorem TextMachine.Runs.det {c : List (Item ι κ) × σ} {s₁ s₂ : σ} (h₁ : m.Runs text c ([], s₁)) (h₂ : m.Runs text c ([], s₂)) :
    s₁ = s₂ := by
  induction h₁ using Relation.ReflTransGen.head_induction_on with
  | refl =>
    cases h₂ using Relation.ReflTransGen.head_induction_on with
    | refl => rfl
    | head h _ => cases h
  | head h hr ih =>
    cases h₂ using Relation.ReflTransGen.head_induction_on with
    | refl => cases h
    | head h' hr' => exact ih (h.det h' ▸ hr')

end Runs

end MiniOs32
