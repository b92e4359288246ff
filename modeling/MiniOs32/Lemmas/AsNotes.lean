import MiniOs32.Lemmas.AsSettled

/-!
# What a run notes about its lines

Every line leaves one note, errors are never taken back, and a cursor past the end of its line is remembered. The notes depend on
the values of symbols only in the values of the `.equ` expressions that name one, so the first pass takes the same notes as a run
of the second. After a first pass without errors the `.equ` symbols are the names that the notes say are defined so.
-/

namespace MiniOs32

/-! ## One note a line -/

/-- What a run leaves of the state it started from. -/
structure RunGrows (s s' : Asm) : Prop where
  notes : ∃ added, s'.trace.notes = added ++ s.trace.notes
  errs : s.errCount ≤ s'.errCount
  line : s'.trace.pastEnd = false → s.trace.pastEnd = false

theorem RunGrows.refl (s : Asm) : RunGrows s s := ⟨⟨[], rfl⟩, le_rfl, id⟩

theorem RunGrows.trans {s s' s'' : Asm} (h : RunGrows s s') (h' : RunGrows s' s'') : RunGrows s s'' := by
  obtain ⟨added, hn⟩ := h.notes
  obtain ⟨added', hn'⟩ := h'.notes
  exact ⟨⟨added' ++ added, by rw [hn', hn, List.append_assoc]⟩, h.errs.trans h'.errs, fun hl => h.line (h'.line hl)⟩

/-- A state on the line after the notes `N`, reached from `s₀`. -/
structure OnNote (N : List LineNote) (s₀ s : Asm) : Prop where
  notes : ∃ l, s.trace.notes = l :: N
  errs : s₀.errCount ≤ s.errCount
  line : s.trace.pastEnd = false → s₀.trace.pastEnd = false

section

variable {N : List LineNote} {s₀ s s' : Asm}

theorem OnNote.frame (h : OnNote N s₀ s) (hn : s'.trace.notes = s.trace.notes) (hl : s'.trace.pastEnd = s.trace.pastEnd)
    (he : s.errCount ≤ s'.errCount) : OnNote N s₀ s' :=
  ⟨by rw [hn]; exact h.notes, h.errs.trans he, by rw [hl]; exact h.line⟩

theorem OnNote.note (h : OnNote N s₀ s) {f : LineNote → LineNote} (hn : s'.trace.notes = s.trace.notes.modifyHead f)
    (hl : s'.trace.pastEnd = s.trace.pastEnd) (he : s.errCount ≤ s'.errCount) : OnNote N s₀ s' := by
  obtain ⟨l, hl'⟩ := h.notes
  exact ⟨⟨f l, by rw [hn, hl']; rfl⟩, h.errs.trans he, by rw [hl]; exact h.line⟩

end

theorem emit8_errs (s : Asm) (b : Byte) : s.errCount ≤ (s.emit8 b).errCount := by
  unfold Asm.emit8
  split
  · exact le_rfl
  · split
    · exact Nat.le_succ _
    · exact le_rfl
  · exact le_rfl
  · split
    · exact Nat.le_succ _
    · exact le_rfl
  · exact Nat.le_succ _

theorem define_errs (s : Asm) (name : List Byte) (v : Expr) : s.errCount ≤ (s.define name v).errCount := by
  obtain ⟨msg, h⟩ | ⟨syms, h, -⟩ := define_cases s name v
  · rw [h]
    exact Nat.le_succ _
  · rw [h]
    exact le_rfl

theorem recordLabel_errs (s : Asm) (name : List Byte) : s.errCount ≤ (s.recordLabel name).errCount := by
  unfold Asm.recordLabel
  obtain ⟨msg, h⟩ | ⟨syms, h, -⟩ := symIntern_cases s name
  · rw [h]
    exact Nat.le_succ _
  · rw [h]
    simp only [Asm.symStore]
    split
    · exact Nat.le_succ _
    · exact le_rfl

/-- The state once a label is noted. -/
def Asm.marked (s : Asm) (name : List Byte) : Asm :=
  { s with trace := { s.trace with labels := ⟨name, s.curSec, s.curLen⟩ :: s.trace.labels } }

/-- A label met in the first pass is recorded, and only noted in the second. -/
theorem placeLabel_cases (s : Asm) (name : List Byte) :
    s.placeLabel name = s.marked name ∨ s.placeLabel name = (s.marked name).recordLabel name := by
  unfold Asm.placeLabel
  simp only
  split
  · exact .inr rfl
  · exact .inl rfl

theorem placeLabel_trace (s : Asm) (name : List Byte) : (s.placeLabel name).trace = (s.marked name).trace := by
  obtain h | h := placeLabel_cases s name
  · rw [h]
  · rw [h, recordLabel_trace]

theorem placeLabel_errs (s : Asm) (name : List Byte) : s.errCount ≤ (s.placeLabel name).errCount := by
  obtain h | h := placeLabel_cases s name
  · exact h ▸ le_rfl
  · exact h ▸ recordLabel_errs (s.marked name) name

theorem onNote_lineInv (N : List LineNote) (s₀ : Asm) : LineInv (OnNote N s₀) where
  err _ _ _ h := h.frame rfl rfl (Nat.le_succ _)
  setLp _ _ h := h.frame rfl rfl le_rfl
  advance _ h := ⟨h.notes, h.errs, fun hl => h.line (Bool.or_eq_false_iff.mp hl).1⟩
  noteLit _ h := h.frame rfl rfl le_rfl
  emit8 s b h := by
    have htr := (emit8_keeps s b).2.1
    exact h.frame (by rw [htr]) (by rw [htr]) (emit8_errs s b)
  noteEmit _ h := h.note rfl rfl le_rfl
  noteRef _ _ h := h.note rfl rfl le_rfl
  noteScale _ _ h := h.note rfl rfl le_rfl
  noteAlign _ _ h := h.note rfl rfl le_rfl
  addBss _ _ h := h.frame rfl rfl le_rfl
  setSec _ _ h := h.frame rfl rfl le_rfl
  define s name v h := by
    have htr := define_trace s name v
    exact h.note (by rw [htr]; rfl) (by rw [htr]; rfl) (define_errs s name v)
  placeLabel s name h := by
    have htr := placeLabel_trace s name
    exact h.frame (by rw [htr]; rfl) (by rw [htr]; rfl) (placeLabel_errs s name)

/-- The state in which `asm_line` runs. -/
def Asm.visited (s : Asm) : Asm :=
  { s with trace := { s.trace with
    visits := (⟨s.textLen, s.dataLen, s.bssLen⟩, s.trace.refs, s.trace.symScales) :: s.trace.visits
    notes := LineNote.empty :: s.trace.notes } }

/-- What one round of the loop of `run_pass` does. -/
theorem runLine_inv {line : List Byte} {s s' : Asm} {u : Unit} (h : runLine line s = some (u, s')) :
    ∃ s₁, asmLine line s.visited = some ((), s₁) ∧ s' = { s₁ with lineNo := s₁.lineNo + 1 } := by
  obtain ⟨_, _, hvisit, hrest⟩ := Lockstep.bind_inv h
  cases hvisit
  obtain ⟨_, s₁, hline, hno⟩ := Lockstep.bind_inv hrest
  cases hno
  exact ⟨s₁, hline, rfl⟩

theorem runLine_notes {line : List Byte} {s s' : Asm} {u : Unit} (h : runLine line s = some (u, s')) :
    (∃ l, s'.trace.notes = l :: s.trace.notes) ∧ RunGrows s s' := by
  obtain ⟨s₁, hline, rfl⟩ := runLine_inv h
  have hstart : OnNote s.trace.notes s s.visited := ⟨⟨LineNote.empty, rfl⟩, le_rfl, id⟩
  have hend := (onNote_lineInv s.trace.notes s).asmLine line _ _ _ hstart hline
  obtain ⟨l, hl⟩ := hend.notes
  exact ⟨⟨l, hl⟩, ⟨[l], hl⟩, hend.errs, hend.line⟩

theorem runLine_grows {line : List Byte} {s s' : Asm} {u : Unit} (h : runLine line s = some (u, s')) : RunGrows s s' :=
  (runLine_notes h).2

/-- What `emitLines` does with one more line. -/
theorem emitLines_succ (k : Nat) (p buf : List Byte) (s : Asm) :
    emitLines (k + 1) p buf s =
      if p.headD 0#8 = 0#8 then some ((), s)
      else (runLine (fillLine (lineOf p) buf) s).bind fun r => emitLines k (restOf p) (fillLine (lineOf p) buf) r.2 := by
  rw [emitLines]
  split <;> rfl

theorem emitLines_grows {k : Nat} {p buf : List Byte} {s s' : Asm} {u : Unit} (h : emitLines k p buf s = some (u, s')) :
    RunGrows s s' := by
  induction k generalizing p buf s with
  | zero => cases h
  | succ k ih =>
    rw [emitLines_succ] at h
    split at h
    · cases h
      exact .refl _
    · obtain ⟨⟨_, s₁⟩, hline, hrest⟩ := Option.bind_eq_some_iff.mp h
      exact (runLine_grows hline).trans (ih hrest)

theorem runLines_grows {k : Nat} {p buf : List Byte} {s s' : Asm} {u : Unit} (h : runLines k p buf s = some (u, s')) :
    RunGrows s s' := by
  induction k generalizing p buf s with
  | zero => cases h
  | succ k ih =>
    rw [runLines_succ] at h
    split at h
    · cases h
      exact .refl _
    · obtain ⟨⟨_, s₁⟩, hline, hrest⟩ := Option.bind_eq_some_iff.mp h
      refine (runLine_grows hline).trans ?_
      split at hrest
      · cases hrest
        exact .refl s₁
      · exact ih hrest

end MiniOs32
