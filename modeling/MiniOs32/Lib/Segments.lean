import Mathlib

/-!
# Strings cut at a separator

The nonempty pieces between separators, and the string in which every piece is followed by one. Nothing here names a program:
the elements and the separator are arbitrary.
-/

namespace MiniOs32

variable {α : Type*} (sep : α)

/-- Every piece followed by a separator. -/
def closeAll (cs : List (List α)) : List α := cs.flatMap (fun c => c ++ [sep])

@[simp] theorem closeAll_nil : closeAll sep ([] : List (List α)) = [] := rfl

@[simp] theorem closeAll_concat (cs : List (List α)) (c : List α) : closeAll sep (cs ++ [c]) = closeAll sep cs ++ c ++ [sep] := by
  simp [closeAll]

/-- Closed pieces are the pieces joined by separators and one separator at the end. -/
theorem closeAll_eq_intercalate {cs : List (List α)} (h : cs ≠ []) : closeAll sep cs = [sep].intercalate cs ++ [sep] := by
  induction cs with
  | nil => exact absurd rfl h
  | cons c cs ih =>
    cases cs with
    | nil => simp [closeAll]
    | cons d cs =>
      rw [show closeAll sep (c :: d :: cs) = c ++ sep :: closeAll sep (d :: cs) by simp [closeAll], ih (by simp)]
      simp [List.intercalate]

variable [DecidableEq α]

/-- The nonempty pieces of a string between separators. -/
def segments (s : List α) : List (List α) := (s.splitOn sep).filter (fun c => !c.isEmpty)

@[simp] theorem segments_nil : segments sep ([] : List α) = [] := rfl

/-- Leading separators do not count. -/
@[simp] theorem segments_cons_self (s : List α) : segments sep (sep :: s) = segments sep s := by
  simp [segments, List.splitOn_cons_eq_if_modifyHead]

variable {sep}

/-- A piece and the separator behind it. -/
theorem segments_append_cons {c : List α} (hc : sep ∉ c) (hne : c ≠ []) (s : List α) :
    segments sep (c ++ sep :: s) = c :: segments sep s := by
  simp [segments, List.splitOn_append_cons_self_of_not_mem hc, hne]

/-- A piece alone. -/
theorem segments_single {c : List α} (hc : sep ∉ c) (hne : c ≠ []) : segments sep c = [c] := by
  simp [segments, List.splitOn_eq_singleton hc, hne]

theorem segments_dropWhile (s : List α) : segments sep (s.dropWhile (· == sep)) = segments sep s := by
  induction s with
  | nil => rfl
  | cons a s ih =>
    by_cases h : a = sep
    · subst h
      simp [ih]
    · simp [h]

/-- Cutting the first piece off a string that does not start with a separator. -/
theorem segments_span {s : List α} (hne : s ≠ []) (hs : s.head? ≠ some sep) :
    segments sep s = s.takeWhile (· != sep) :: segments sep (s.dropWhile (· != sep)) := by
  obtain ⟨a, t, rfl⟩ := List.exists_cons_of_ne_nil hne
  have ha : a ≠ sep := by simpa using hs
  set c := (a :: t).takeWhile (· != sep) with hc
  set r := (a :: t).dropWhile (· != sep) with hr
  have hsplit : a :: t = c ++ r := (List.takeWhile_append_dropWhile).symm
  have hmem : sep ∉ c := by
    intro h
    have := List.mem_takeWhile_imp h
    simp at this
  have hcne : c ≠ [] := by simp [hc, ha]
  rw [hsplit]
  cases hr' : r with
  | nil => rw [List.append_nil, segments_single hmem hcne, segments_nil]
  | cons b r' =>
    have hb : b = sep := by
      have h0 : 0 < ((a :: t).dropWhile (· != sep)).length := by rw [← hr, hr']; simp
      have := List.dropWhile_get_zero_not (· != sep) (a :: t) h0
      have hget : ((a :: t).dropWhile (· != sep)).get ⟨0, h0⟩ = b := by
        have : (a :: t).dropWhile (· != sep) = b :: r' := hr.symm.trans hr'
        simp [this]
      rw [hget] at this
      simpa using this
    subst hb
    rw [segments_append_cons hmem hcne, segments_cons_self]

/-- A piece of a cut string holds no separator and only elements of the string. -/
theorem mem_splitOn (s : List α) : ∀ c ∈ s.splitOn sep, sep ∉ c ∧ c ⊆ s := by
  induction s with
  | nil => simp
  | cons a s ih =>
    intro c hc
    rw [List.splitOn_cons_eq_if_modifyHead] at hc
    by_cases ha : a = sep
    · simp only [ha, beq_self_eq_true, if_true, List.mem_cons] at hc
      rcases hc with rfl | hc
      · simp
      · exact ⟨(ih c hc).1, List.subset_cons_of_subset a (ih c hc).2⟩
    · simp only [beq_iff_eq, ha, if_false] at hc
      obtain ⟨b, t, hs⟩ := List.exists_cons_of_ne_nil (List.splitOn_ne_nil sep s)
      rw [hs] at hc ih
      rw [List.modifyHead_cons, List.mem_cons] at hc
      rcases hc with rfl | hc
      · have hb := ih b List.mem_cons_self
        refine ⟨?_, List.cons_subset_cons a hb.2⟩
        rw [List.mem_cons, not_or]
        exact ⟨fun h => ha h.symm, hb.1⟩
      · have hc' := ih c (List.mem_cons_of_mem b hc)
        exact ⟨hc'.1, List.subset_cons_of_subset a hc'.2⟩

/-- A piece is nonempty and holds no separator. -/
theorem mem_segments {s c : List α} (h : c ∈ segments sep s) : c ≠ [] ∧ sep ∉ c ∧ c ⊆ s := by
  obtain ⟨hc, hne⟩ := List.mem_filter.1 h
  exact ⟨by simpa using hne, mem_splitOn s c hc⟩

/-- Closed pieces in front of a string are its first pieces. -/
theorem segments_closeAll_append {cs : List (List α)} (h : ∀ c ∈ cs, c ≠ [] ∧ sep ∉ c) (s : List α) :
    segments sep (closeAll sep cs ++ s) = cs ++ segments sep s := by
  induction cs with
  | nil => simp
  | cons c cs ih =>
    obtain ⟨hne, hc⟩ := h c List.mem_cons_self
    rw [show closeAll sep (c :: cs) ++ s = c ++ sep :: (closeAll sep cs ++ s) by simp [closeAll],
      segments_append_cons hc hne, ih (fun d hd => h d (List.mem_cons_of_mem c hd)), List.cons_append]

end MiniOs32
