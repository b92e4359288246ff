import Mathlib

/-!
# Wrapped text

A text laid out on rows of a width: a break ends its row, and so does the last column. The place of an index is the row and the
column at which its item stands. Places grow with the index, row by row, and no row is left out.
-/

namespace MiniOs32

namespace Wrapped

variable {α : Type*} (isBreak : α → Prop) [DecidablePred isBreak] (width : Nat)

/-- The place behind an item. -/
def advance (p : Nat × Nat) (a : α) : Nat × Nat :=
  if isBreak a then (p.1 + 1, 0) else if width ≤ p.2 + 1 then (p.1 + 1, 0) else (p.1, p.2 + 1)

/-- The row and the column of an index. -/
def place (text : Nat → α) : Nat → Nat × Nat
  | 0 => (0, 0)
  | i + 1 => advance isBreak width (place text i) (text i)

theorem advance_cases (p : Nat × Nat) (a : α) :
    advance isBreak width p a = (p.1 + 1, 0) ∨ advance isBreak width p a = (p.1, p.2 + 1) ∧ p.2 + 1 < width := by
  rw [advance]
  split
  · exact .inl rfl
  · split
    · exact .inl rfl
    · exact .inr ⟨rfl, by omega⟩

section Places

variable (text : Nat → α) {i j : Nat}

/-- No column is outside the width. -/
theorem place_col_lt (h : 0 < width) (i : Nat) : (place isBreak width text i).2 < width := by
  cases i with
  | zero => exact h
  | succ i =>
    rw [place]
    rcases advance_cases isBreak width (place isBreak width text i) (text i) with he | ⟨he, hlt⟩
    · rw [he]
      exact h
    · rw [he]
      exact hlt

/-- Each item is on a later row, or on the same one further right. -/
theorem place_lt (h : i < j) : (place isBreak width text i).1 < (place isBreak width text j).1 ∨
    (place isBreak width text i).1 = (place isBreak width text j).1 ∧ (place isBreak width text i).2 < (place isBreak width text j).2 := by
  induction j with
  | zero => exact absurd h (Nat.not_lt_zero _)
  | succ j ih =>
    have hstep : (place isBreak width text (j + 1)) = ((place isBreak width text j).1 + 1, 0) ∨
        (place isBreak width text (j + 1)) = ((place isBreak width text j).1, (place isBreak width text j).2 + 1) := by
      rw [place]
      exact (advance_cases _ _ _ _).imp_right And.left
    rcases Nat.lt_or_eq_of_le (Nat.le_of_lt_succ h) with hlt | rfl
    · rcases ih hlt with hrow | ⟨hrow, hcol⟩ <;> rcases hstep with he | he <;> rw [he] <;> dsimp only <;> omega
    · rcases hstep with he | he <;> rw [he] <;> dsimp only <;> omega

/-- Rows do not go back. -/
theorem place_row_le (h : i ≤ j) : (place isBreak width text i).1 ≤ (place isBreak width text j).1 := by
  rcases Nat.lt_or_eq_of_le h with hlt | rfl
  · rcases place_lt isBreak width text hlt with hrow | ⟨hrow, -⟩ <;> omega
  · exact le_rfl

end Places

variable {isBreak width} {text : Nat → α} {i j : Nat}

/-- Different indices stand at different places. -/
theorem place_injective : Function.Injective (place isBreak width text) := by
  intro i j h
  rcases lt_trichotomy i j with hlt | heq | hlt
  · rcases place_lt isBreak width text hlt with hrow | ⟨-, hcol⟩ <;> rw [h] at * <;> omega
  · exact heq
  · rcases place_lt isBreak width text hlt with hrow | ⟨-, hcol⟩ <;> rw [h] at * <;> omega

/-- Every row up to that of an index has an item at or before it. -/
theorem exists_row {r : Nat} (h : r ≤ (place isBreak width text j).1) : ∃ i ≤ j, (place isBreak width text i).1 = r := by
  induction j with
  | zero => exact ⟨0, le_rfl, (Nat.le_zero.mp h).symm⟩
  | succ j ih =>
    by_cases hr : r ≤ (place isBreak width text j).1
    · obtain ⟨i, hi, he⟩ := ih hr
      exact ⟨i, by omega, he⟩
    · refine ⟨j + 1, le_rfl, ?_⟩
      rw [place] at h ⊢
      rcases advance_cases isBreak width (place isBreak width text j) (text j) with he | ⟨he, -⟩ <;>
        rw [he] at h ⊢ <;> dsimp only at h ⊢ <;> omega

end Wrapped

end MiniOs32
