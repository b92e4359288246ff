import MiniOs32.Lemmas.AsEnds
import MiniOs32.Lemmas.AsNotes

/-!
# The lines of an assembly source

`run_pass` copies the source to a buffer of 256 bytes, up to a newline or to where the buffer is full. What it hands to `asm_line`
are the lines of the source with their numbers as far as those fit the buffer (`lines_are_units_iff`): the 256th character of a
longer one starts a line of its own, with a number of its own (`lines_are_units_false`).
-/

namespace MiniOs32

/-! ## The lines -/

/-- The lines of a text behind the part of a line. A line ends at a newline, and the text at its NUL or at its end. -/
def linesFrom (part : List Byte) : List Byte → List (List Byte)
  | [] => if part = [] then [] else [part]
  | c :: l =>
    if c = 0#8 then if part = [] then [] else [part]
    else if c = Char.byte '\n' then part :: linesFrom [] l
    else linesFrom (part ++ [c]) l

/-- The lines of a source. -/
def sourceLines (src : List Byte) : List (List Byte) := linesFrom [] src

/-- The calls of `asm_line` by the loop of `run_pass`: the line, up to its NUL, and the line number. -/
def lineCalls : Nat → List Byte → List Byte → Asm → List (List Byte × Nat)
  | 0, _, _, _ => []
  | k + 1, p, buf, s =>
    if p.headD 0#8 = 0#8 then []
    else (lineOf p, s.lineNo) ::
      match runLine (fillLine (lineOf p) buf) s with
      | none => []
      | some (_, s') => if s'.errCount > 20 then [] else lineCalls k (restOf p) (fillLine (lineOf p) buf) s'

theorem lineCalls_succ (k : Nat) (p buf : List Byte) (s : Asm) : lineCalls (k + 1) p buf s =
    if p.headD 0#8 = 0#8 then []
    else (lineOf p, s.lineNo) ::
      match runLine (fillLine (lineOf p) buf) s with
      | none => []
      | some (_, s') => if s'.errCount > 20 then [] else lineCalls k (restOf p) (fillLine (lineOf p) buf) s' := rfl

/-- The calls of `asm_line` in a pass. -/
def passCalls (which : Pass) (src buf : List Byte) (s : Asm) : List (List Byte × Nat) :=
  lineCalls (src.length + 1) src buf (startPass which s)

/-- `asm_line` on some lines in turn, copied to the buffer. -/
def runCalls : List (List Byte) → List Byte → Asm → Option Asm
  | [], _, s => some s
  | l :: ls, buf, s => (runLine (fillLine l buf) s).bind fun r => runCalls ls (fillLine l buf) r.2

/-- A pass hands over the lines of the source under their numbers, and all of them if it is not given up for its errors. -/
structure HandsLines (which : Pass) (src buf : List Byte) (s : Asm) : Prop where
  lines : passCalls which src buf s <+: (sourceLines src).zipIdx 1
  all : ∀ s', runPass which src buf s = some s' → s'.errCount ≤ 20 → passCalls which src buf s = (sourceLines src).zipIdx 1

/-! ## One line -/

/-- A character of a line. -/
def inLine (c : Byte) : Bool := c != 0#8 && c != Char.byte '\n'

theorem span_fst (p : Byte → Bool) (n : Nat) (l : List Byte) : (span p n l).1 = (l.takeWhile p).take n := by
  induction l generalizing n with
  | nil => cases n <;> rfl
  | cons c l ih =>
    cases n with
    | zero => rfl
    | succ n =>
      rw [span_cons, List.takeWhile_cons]
      split
      · rw [List.take_succ_cons, ih n]
      · rfl

theorem span_snd (p : Byte → Bool) (n : Nat) (l : List Byte) (h : (l.takeWhile p).length ≤ n) : (span p n l).2 = l.dropWhile p := by
  induction l generalizing n with
  | nil => cases n <;> rfl
  | cons c l ih =>
    rw [List.takeWhile_cons] at h
    rw [List.dropWhile_cons]
    by_cases hc : p c = true
    · rw [if_pos hc] at h ⊢
      cases n with
      | zero => simp at h
      | succ n =>
        rw [span_cons, if_pos hc]
        exact ih n (by simpa using h)
    · rw [if_neg hc]
      cases n with
      | zero => rfl
      | succ n => rw [span_cons, if_neg hc]

theorem linesFrom_eq (part l : List Byte) : linesFrom part l =
    if (l.dropWhile inLine).headD 0#8 = Char.byte '\n' then (part ++ l.takeWhile inLine) :: linesFrom [] (l.dropWhile inLine).tail
    else if part ++ l.takeWhile inLine = [] then [] else [part ++ l.takeWhile inLine] := by
  induction l generalizing part with
  | nil => simp [linesFrom, Char.byte]
  | cons c l ih =>
    rw [linesFrom, List.takeWhile_cons, List.dropWhile_cons]
    by_cases h0 : c = 0#8
    · subst h0
      simp [inLine, Char.byte]
    · by_cases hn : c = Char.byte '\n'
      · subst hn
        simp [inLine, Char.byte]
      · have hc : inLine c = true := by simp [inLine, h0, hn]
        rw [if_neg h0, if_neg hn, if_pos hc, if_pos hc, ih]
        simp

/-- Behind the characters of a line stands a newline, a NUL, or nothing. -/
theorem dropWhile_inLine_headD (p : List Byte) :
    (p.dropWhile inLine).headD 0#8 = Char.byte '\n' ∨ (p.dropWhile inLine).headD 0#8 = 0#8 := by
  induction p with
  | nil => exact .inr rfl
  | cons c l ih =>
    rw [List.dropWhile_cons]
    by_cases hc : inLine c = true
    · rw [if_pos hc]
      exact ih
    · rw [if_neg hc]
      by_cases h0 : c = 0#8
      · exact .inr h0
      · exact .inl (by simpa [inLine, h0] using hc)

theorem linesFrom_nil_of_nul {l : List Byte} (h : l.headD 0#8 = 0#8) : linesFrom [] l = [] := by
  cases l with
  | nil => rfl
  | cons c l =>
    obtain rfl : c = 0#8 := h
    rfl

/-- Where the loop goes on there is a line, and the loop goes on behind it if the line fits the buffer. -/
theorem sourceLines_cons {p : List Byte} (h : p.headD 0#8 ≠ 0#8) : ∃ l ls, sourceLines p = l :: ls ∧
    (lineOf p = l ↔ l.length < maxLine) ∧ (l.length < maxLine → sourceLines (restOf p) = ls) := by
  have hline : lineOf p = (p.takeWhile inLine).take (maxLine - 1) := span_fst _ _ _
  have hfit : lineOf p = p.takeWhile inLine ↔ (p.takeWhile inLine).length < maxLine := by
    rw [hline, List.take_eq_self_iff]
    unfold maxLine
    omega
  have hrest : (p.takeWhile inLine).length < maxLine →
      restOf p = if (p.dropWhile inLine).headD 0#8 = Char.byte '\n' then (p.dropWhile inLine).tail else p.dropWhile inLine := by
    intro hlt
    have hspan := span_snd inLine (maxLine - 1) p (by unfold maxLine at *; omega)
    unfold restOf
    dsimp only
    have hinline : (fun c : Byte => c != 0#8 && c != Char.byte '\n') = inLine := rfl
    rw [hinline, hspan]
  have hlines := linesFrom_eq [] p
  rw [List.nil_append] at hlines
  rcases dropWhile_inLine_headD p with hn | h0
  · rw [if_pos hn] at hlines
    refine ⟨_, _, hlines, hfit, fun hlt => ?_⟩
    rw [hrest hlt, if_pos hn, sourceLines]
  · have hne : p.takeWhile inLine ≠ [] := by
      intro he
      rw [List.takeWhile_eq_nil_iff] at he
      cases p with
      | nil => exact h rfl
      | cons c l =>
        have hc : inLine c = false := by simpa using he (by simp)
        rw [List.dropWhile_cons, hc, if_neg (by simp)] at h0
        exact h h0
    have hnl : (p.dropWhile inLine).headD 0#8 ≠ Char.byte '\n' := by
      rw [h0]
      decide
    rw [if_neg hnl, if_neg hne] at hlines
    refine ⟨_, _, hlines, hfit, fun hlt => ?_⟩
    rw [hrest hlt, if_neg hnl, sourceLines, linesFrom_nil_of_nul h0]

/-! ## The number -/

theorem emit8_lineNo (s : Asm) (b : Byte) : (s.emit8 b).lineNo = s.lineNo := by
  unfold Asm.emit8
  split
  · rfl
  · split <;> rfl
  · rfl
  · split <;> rfl
  · rfl

theorem symIntern_lineNo (s : Asm) (name : List Byte) : (s.symIntern name).2.lineNo = s.lineNo := by
  unfold Asm.symIntern
  split_ifs <;> rfl

theorem define_lineNo (s : Asm) (name : List Byte) (v : Expr) : (s.define name v).lineNo = s.lineNo := by
  have h := symIntern_lineNo (s.noteEqu name v) name
  unfold Asm.define
  split
  all_goals
    rename_i heq
    rw [heq] at h
    exact h

theorem recordLabel_lineNo (s : Asm) (name : List Byte) : (s.recordLabel name).lineNo = s.lineNo := by
  have h := symIntern_lineNo s name
  unfold Asm.recordLabel
  split
  · rename_i heq
    rw [heq] at h
    dsimp only
    split <;> exact h
  · rename_i heq
    rw [heq] at h
    exact h

/-- No step of a line changes the line number. -/
theorem lineNo_lineInv (n : Nat) : LineInv fun s => s.lineNo = n where
  err _ _ _ h := h
  setLp _ _ h := h
  advance _ h := h
  noteLit _ h := h
  emit8 s b h := by rw [emit8_lineNo, h]
  noteEmit _ h := h
  noteRef _ _ h := h
  noteScale _ _ h := h
  noteAlign _ _ h := h
  addBss _ _ h := h
  setSec _ _ h := h
  define s name v h := by rw [define_lineNo, h]
  placeLabel s name h := by
    rcases placeLabel_cases s name with hp | hp
    · rw [hp]
      exact h
    · rw [hp, recordLabel_lineNo]
      exact h

/-- One round of the loop counts one line. -/
theorem runLine_lineNo {line : List Byte} {s s' : Asm} {u : Unit} (h : runLine line s = some (u, s')) : s'.lineNo = s.lineNo + 1 := by
  obtain ⟨s₁, hline, rfl⟩ := runLine_inv h
  have hkeep : s₁.lineNo = s.lineNo := (lineNo_lineInv s.lineNo).asmLine line s.visited () s₁ rfl hline
  simp only [hkeep]

/-! ## The loop -/

section Loop

variable {k : Nat} {p buf : List Byte} {s s' : Asm} {u : Unit}

/-- The loop is its calls. -/
theorem runLines_eq_runCalls (k : Nat) (p buf : List Byte) (s : Asm) (hk : p.length < k) :
    (runLines k p buf s).map Prod.snd = runCalls ((lineCalls k p buf s).map Prod.fst) buf s := by
  induction k generalizing p buf s with
  | zero => omega
  | succ k ih =>
    rw [runLines_succ, lineCalls_succ]
    split
    · rfl
    · rename_i hp
      have hrest := restOf_length_lt hp
      rw [List.map_cons, runCalls]
      cases hrun : runLine (fillLine (lineOf p) buf) s with
      | none => rfl
      | some r =>
        obtain ⟨⟨⟩, s₁⟩ := r
        simp only [Option.bind_some]
        split
        · rfl
        · exact ih _ _ _ (by omega)

/-- The calls are the lines of the source if and only if every line that the loop comes to fits the buffer. -/
theorem lineCalls_prefix_iff (k : Nat) (p buf : List Byte) (s : Asm) (hk : p.length < k) :
    lineCalls k p buf s <+: (sourceLines p).zipIdx s.lineNo ↔
      ∀ l ∈ (sourceLines p).take (lineCalls k p buf s).length, l.length < maxLine := by
  induction k generalizing p buf s with
  | zero => omega
  | succ k ih =>
    rw [lineCalls_succ]
    by_cases hp : p.headD 0#8 = 0#8
    · rw [if_pos hp]
      simp
    · obtain ⟨l, ls, hlines, hfit, hnext⟩ := sourceLines_cons hp
      have hrest := restOf_length_lt hp
      rw [if_neg hp, hlines, List.zipIdx_cons, List.cons_prefix_cons, List.length_cons, List.take_succ_cons, List.forall_mem_cons,
        Prod.mk.injEq, and_iff_left rfl, hfit]
      refine and_congr_right fun hlt => ?_
      rw [← hnext hlt]
      cases hrun : runLine (fillLine (lineOf p) buf) s with
      | none => simp
      | some r =>
        obtain ⟨⟨⟩, s₁⟩ := r
        dsimp only
        by_cases he : s₁.errCount > 20
        · simp [he]
        · rw [if_neg he, ← runLine_lineNo hrun]
          exact ih _ _ _ (by omega)

/-- Where the loop is not given up, it comes to every line. -/
theorem lineCalls_all (hk : p.length < k) (hfit : ∀ l ∈ (sourceLines p).take (lineCalls k p buf s).length, l.length < maxLine)
    (hrun : runLines k p buf s = some (u, s')) (he : s'.errCount ≤ 20) :
    lineCalls k p buf s = (sourceLines p).zipIdx s.lineNo := by
  induction k generalizing p buf s with
  | zero => omega
  | succ k ih =>
    rw [lineCalls_succ] at hfit ⊢
    rw [runLines_succ] at hrun
    by_cases hp : p.headD 0#8 = 0#8
    · rw [if_pos hp, sourceLines, linesFrom_nil_of_nul hp]
      rfl
    · obtain ⟨l, ls, hlines, hline, hnext⟩ := sourceLines_cons hp
      have hrest := restOf_length_lt hp
      rw [if_neg hp] at hfit hrun ⊢
      rw [hlines, List.length_cons, List.take_succ_cons, List.forall_mem_cons] at hfit
      obtain ⟨hlt, hfit⟩ := hfit
      obtain ⟨⟨⟨⟩, s₁⟩, hone, hmore⟩ := Option.bind_eq_some_iff.mp hrun
      rw [hlines, List.zipIdx_cons]
      simp only [hone] at hfit hmore ⊢
      split at hmore
      · rename_i hmany
        cases hmore
        omega
      · rename_i hfew
        rw [if_neg hfew, ← hnext hlt] at hfit
        rw [if_neg hfew, ← hnext hlt, ih (by omega) hfit hmore, runLine_lineNo hone, hline.mpr hlt]

end Loop

/-- A line that is handed over fits the buffer. -/
theorem HandsLines.short {which : Pass} {src buf : List Byte} {s : Asm} (h : HandsLines which src buf s) :
    ∀ l ∈ (sourceLines src).take (passCalls which src buf s).length, l.length < maxLine :=
  (lineCalls_prefix_iff (src.length + 1) src buf (startPass which s) (by omega)).mp h.lines

/-- A source that is not empty has a first line, which is handed over. -/
theorem passCalls_length_pos {which : Pass} {src buf : List Byte} {s : Asm} (h : src.headD 0#8 ≠ 0#8) :
    0 < (passCalls which src buf s).length := by
  rw [passCalls, lineCalls_succ, if_neg h, List.length_cons]
  omega

/-- A pass hands over the lines of the source if and only if every line that it comes to has less than 256 characters. -/
theorem lines_are_units_iff (which : Pass) (src buf : List Byte) (s : Asm) :
    HandsLines which src buf s ↔ ∀ l ∈ (sourceLines src).take (passCalls which src buf s).length, l.length < maxLine := by
  constructor
  · exact HandsLines.short
  · intro h
    have hlines := (lineCalls_prefix_iff (src.length + 1) src buf (startPass which s) (by omega)).mpr h
    refine ⟨hlines, fun s' hrun he => ?_⟩
    obtain ⟨⟨_, _⟩, hlines, rfl⟩ := Option.map_eq_some_iff.mp hrun
    exact lineCalls_all (by omega) h hlines he

/-- A comment of 255 characters, and what stands behind them on its line. -/
def longComment : List Byte := Char.byte '#' :: List.replicate 254 (Char.byte 'x') ++ asciiBytes "nop\n"

/-- The end of a long comment is assembled as a line of its own. -/
theorem lines_are_units_false : ¬∀ (which : Pass) (src buf : List Byte) (s : Asm), HandsLines which src buf s := by
  intro h
  have hshort := (h .one longComment [] Asm.initial).short
  have hpos : 0 < (passCalls .one longComment [] Asm.initial).length := passCalls_length_pos (by decide)
  have hhead : (sourceLines longComment).head?.any (fun l => l.length = 258) = true := by decide +kernel
  obtain ⟨l, hl, hlen⟩ := (Option.any_eq_true _ _).mp hhead
  obtain ⟨ls, hls⟩ := List.head?_eq_some_iff.mp hl
  obtain ⟨n, hn⟩ := Nat.exists_eq_succ_of_ne_zero hpos.ne'
  rw [hls, hn, List.take_succ_cons] at hshort
  have hlt := hshort l List.mem_cons_self
  rw [of_decide_eq_true hlen] at hlt
  exact absurd hlt (by decide)

end MiniOs32
