import MiniOs32.Lib.Lockstep
import MiniOs32.Lemmas.AsForms

/-!
# The two passes in step

The first pass is compared with a run of the second on the same source. What the first pass must not do is in `Clean`; what the two
states share is in `InStep`. The second pass interns no new name and places no label, and pads as the first did when no alignment
names a symbol. One line after the other, it reaches each with the lengths the first pass had there.
-/

namespace MiniOs32

/-- The errors the second pass may report that the first does not: a reference to a name outside `known`, or a scale factor
with a symbol in it. -/
def slips (known : List Byte → Bool) (refs : List (List Byte)) (scales : Nat) : Nat :=
  refs.countP (fun n => !known n) + scales

/-- Nothing has happened in the first pass that the second cannot follow. `known` are the names defined at its end. -/
structure Clean (known : List Byte → Bool) (s : Asm) : Prop where
  errs : s.errCount = 0
  text : s.textLen ≤ maxText
  data : s.dataLen ≤ maxData
  align : s.trace.symAlign = false
  line : s.trace.pastEnd = false
  syms : ∀ name, s.defines name = true → known name = true
  few : ∀ v ∈ s.trace.visits, slips known v.2.1 v.2.2 ≤ 20

/-- What the two passes share between lines. -/
structure InStep (known : List Byte → Bool) (s t : Asm) : Prop where
  one : s.pass = .one
  two : t.pass = .two
  curSec : t.curSec = s.curSec
  textLen : t.textLen = s.textLen
  dataLen : t.dataLen = s.dataLen
  bssLen : t.bssLen = s.bssLen
  errs : t.errCount ≤ slips known s.trace.refs s.trace.symScales
  defs : ∀ name, known name = true → t.defines name = true
  visits : t.trace.visits.map Prod.fst = s.trace.visits.map Prod.fst
  labels : t.trace.labels = s.trace.labels
  placed : ∀ l ∈ s.trace.labels, ∃ y, symFind s.syms l.name = some y ∧ y.defined = true ∧ y.sec = l.sec ∧
    y.offset = l.offset

/-- What the two passes share on a line. -/
structure OnLine (known : List Byte → Bool) (s t : Asm) : Prop extends InStep known s t where
  lp : SameLine s.lp t.lp

/-- Two computations in step on a line. -/
abbrev Follows {α : Type} (known : List Byte → Bool) (Q : α → α → Prop) (m n : AsmM α) : Prop :=
  Lockstep True (Clean known) (OnLine known) Q m n

variable {known : List Byte → Bool}

theorem InStep.secLen {s t : Asm} (h : InStep known s t) (x : Sec) : t.secLen x = s.secLen x := by
  cases x
  · exact h.textLen
  · exact h.dataLen
  · exact h.bssLen

/-! ## Errors and reading -/

theorem err_not_clean {s : Asm} {msg : String} {d : List Byte} : ¬Clean known (s.err msg d) := by
  intro hc
  exact absurd hc.errs (Nat.succ_ne_zero s.errCount)

/-- An error of the first pass ends its clean part, so that nothing is left to follow. -/
theorem err_follows (msg : String) (d : List Byte) : Follows known Eq (err msg d) (err msg d) := by
  refine Lockstep.update ?_ ?_
  · intro s hc
    exact absurd hc err_not_clean
  · intro s t _ hc
    exact absurd hc err_not_clean

theorem peek_follows : Follows known Eq peek peek :=
  Lockstep.read fun _ _ h _ => h.lp.head_eq.symm

theorem looksAt_follows (a b : Byte) (ha : a ≠ 0#8) : Follows known Eq (looksAt a b) (looksAt a b) :=
  Lockstep.read fun _ _ h _ => (h.lp.looksAt_eq b ha).symm

theorem atDot_follows : Follows known Eq atDot atDot := Lockstep.read fun _ _ h _ => h.lp.atDot_eq.symm

theorem currentSec_follows : Follows known Eq currentSec currentSec :=
  Lockstep.read fun _ _ h _ => h.curSec.symm

theorem InStep.curLen {s t : Asm} (h : InStep known s t) : t.curLen = s.curLen := by
  unfold Asm.curLen
  rw [h.curSec, h.secLen]

theorem currentLen_follows : Follows known Eq currentLen currentLen :=
  Lockstep.read fun _ _ h _ => h.curLen.symm

/-- A computation whose depth bound is read off the rest of the line. -/
theorem fuel_follows {α : Type} {Q : α → α → Prop} (f : Nat → Nat) {m n : Nat → AsmM α} (h : ∀ k, Follows known Q (m k) (n k)) :
    Follows known Q (do m (f (← get).lp.length)) (do n (f (← get).lp.length)) :=
  Lockstep.ask (fun _ _ hR _ => congrArg f hR.lp.length_eq.symm) h

/-! ## Moving the cursor -/

theorem advance_follows : Follows known Eq advance advance := by
  refine Lockstep.update ?_ ?_
  · intro s hc
    obtain ⟨h₁, h₂, h₃, h₄, h₅, h₆, h₇⟩ := hc
    exact ⟨h₁, h₂, h₃, h₄, (Bool.or_eq_false_iff.mp h₅).1, h₆, h₇⟩
  · intro s t h hc
    have h0 : s.lp.headD 0#8 ≠ 0#8 := by simpa using (Bool.or_eq_false_iff.mp hc.line).2
    obtain ⟨⟨h₁, h₂, h₃, h₄, h₅, h₆, h₇, h₈, h₉, h₁₀, h₁₁⟩, hl⟩ := h
    exact ⟨⟨h₁, h₂, h₃, h₄, h₅, h₆, h₇, h₈, h₉, h₁₀, h₁₁⟩, hl.tail h0⟩

theorem noteLit_follows : Follows known Eq (modify Asm.noteLit : AsmM Unit) (modify Asm.noteLit) := by
  refine Lockstep.update ?_ ?_
  · intro s hc
    obtain ⟨h₁, h₂, h₃, h₄, h₅, h₆, h₇⟩ := hc
    exact ⟨h₁, h₂, h₃, h₄, h₅, h₆, h₇⟩
  · intro s t h _
    exact ⟨{ h.toInStep with }, h.lp⟩

theorem setLp_clean {s : Asm} {l : List Byte} (hc : Clean known { s with lp := l }) : Clean known s := by
  obtain ⟨h₁, h₂, h₃, h₄, h₅, h₆, h₇⟩ := hc
  exact ⟨h₁, h₂, h₃, h₄, h₅, h₆, h₇⟩

theorem setLp_inStep {s t : Asm} {l l' : List Byte} (h : InStep known s t) :
    InStep known { s with lp := l } { t with lp := l' } := by
  obtain ⟨h₁, h₂, h₃, h₄, h₅, h₆, h₇, h₈, h₉, h₁₀, h₁₁⟩ := h
  exact ⟨h₁, h₂, h₃, h₄, h₅, h₆, h₇, h₈, h₉, h₁₀, h₁₁⟩

theorem takeSpan_follows (p : Byte → Bool) (hp : p 0#8 = false) (n : Nat) :
    Follows known Eq (takeSpan p n) (takeSpan p n) := by
  refine Lockstep.of_eq (fun _ => rfl) (fun _ => rfl) (fun s hc => setLp_clean hc) ?_
  intro s t h _
  obtain ⟨h₁, h₂⟩ := h.lp.span p hp n
  exact ⟨⟨setLp_inStep h.toInStep, h₂⟩, h₁.symm⟩

theorem cursor_follows : Follows known SameLine cursor cursor :=
  Lockstep.read fun _ _ h _ => h.lp

theorem setCursor_follows {l l' : List Byte} (h : SameLine l l') : Follows known Eq (setCursor l) (setCursor l') :=
  Lockstep.update (fun _ hc => setLp_clean hc) fun _ _ hR _ => ⟨setLp_inStep hR.toInStep, h⟩

/-! ## Emitting -/

/-- What is left of a clean state after an update that leaves the trace, the symbols and the errors alone. -/
theorem Clean.of_frame {s s' : Asm} (hc : Clean known s') (he : s'.errCount = s.errCount) (hy : s'.syms = s.syms)
    (ht : s'.trace = s.trace) (h₁ : s.textLen ≤ s'.textLen) (h₂ : s.dataLen ≤ s'.dataLen) : Clean known s := by
  refine ⟨he ▸ hc.errs, le_trans h₁ hc.text, le_trans h₂ hc.data, ht ▸ hc.align, ht ▸ hc.line, ?_, ht ▸ hc.few⟩
  intro name h
  exact hc.syms name (by rw [Asm.defines, hy]; exact h)

theorem emit8_clean (s : Asm) (b : Byte) (hc : Clean known (s.emit8 b)) : Clean known s := by
  unfold Asm.emit8 at hc
  split at hc
  · exact hc.of_frame rfl rfl rfl (by simp) le_rfl
  · split at hc
    · exact absurd hc err_not_clean
    · exact hc.of_frame rfl rfl rfl (by simp) le_rfl
  · exact hc.of_frame rfl rfl rfl le_rfl (by simp)
  · split at hc
    · exact absurd hc err_not_clean
    · exact hc.of_frame rfl rfl rfl le_rfl (by simp)
  · exact absurd hc err_not_clean

/-- A byte counted in the first pass within the buffers is stored by the second. -/
theorem emit8_onLine {s t : Asm} (b b' : Byte) (h : OnLine known s t) (hc : Clean known (s.emit8 b)) :
    OnLine known (s.emit8 b) (t.emit8 b') := by
  cases hsec : s.curSec with
  | text =>
    have hs : s.emit8 b = { s with textLen := s.textLen + 1 } := by unfold Asm.emit8; rw [hsec, h.one]
    rw [hs] at hc ⊢
    have hroom : ¬t.textLen ≥ maxText := by
      have := hc.text
      have := h.textLen
      simp only at *
      omega
    have ht : t.emit8 b' = { t with textBuf := t.textBuf ++ [b'], textLen := t.textLen + 1 } := by
      unfold Asm.emit8; rw [h.curSec, hsec, h.two]; exact if_neg hroom
    rw [ht]
    exact ⟨{ h.toInStep with textLen := congrArg (· + 1) h.textLen }, h.lp⟩
  | data =>
    have hs : s.emit8 b = { s with dataLen := s.dataLen + 1 } := by unfold Asm.emit8; rw [hsec, h.one]
    rw [hs] at hc ⊢
    have hroom : ¬t.dataLen ≥ maxData := by
      have := hc.data
      have := h.dataLen
      simp only at *
      omega
    have ht : t.emit8 b' = { t with dataBuf := t.dataBuf ++ [b'], dataLen := t.dataLen + 1 } := by
      unfold Asm.emit8; rw [h.curSec, hsec, h.two]; exact if_neg hroom
    rw [ht]
    exact ⟨{ h.toInStep with dataLen := congrArg (· + 1) h.dataLen }, h.lp⟩
  | bss =>
    have hs : s.emit8 b = s.err "cannot emit data in .bss (use .space)" [] := by unfold Asm.emit8; rw [hsec]
    exact absurd (hs ▸ hc) err_not_clean

theorem noteEmit_clean {s : Asm} (hc : Clean known s.noteEmit) : Clean known s := by
  obtain ⟨h₁, h₂, h₃, h₄, h₅, h₆, h₇⟩ := hc
  exact ⟨h₁, h₂, h₃, h₄, h₅, h₆, h₇⟩

theorem emit8_follows (b b' : Byte) : Follows known Eq (emit8 b) (emit8 b') := by
  refine Lockstep.update (fun s hc => noteEmit_clean (emit8_clean s.noteEmit b hc)) ?_
  intro s t h hc
  exact emit8_onLine b b' ⟨{ h.toInStep with }, h.lp⟩ hc

/-! ## Symbols and scale factors -/

/-- A reference counts as a slip when its name is not known. -/
theorem slips_ref (known : List Byte → Bool) (name : List Byte) (refs : List (List Byte)) (scales : Nat) :
    slips known (name :: refs) scales = slips known refs scales + (!known name).toNat := by
  unfold slips
  cases h : known name
  · simp only [List.countP_cons, h, Bool.not_false, if_true, Bool.toNat_true]
    omega
  · simp [h]

/-- A note on the names referred to keeps a state clean or not. -/
theorem noteRef_clean {s : Asm} {name : List Byte} (hc : Clean known (s.noteRef name)) : Clean known s := by
  obtain ⟨h₁, h₂, h₃, h₄, h₅, h₆, h₇⟩ := hc
  exact ⟨h₁, h₂, h₃, h₄, h₅, h₆, h₇⟩

theorem symValue_clean (s : Asm) (name : List Byte) (hc : Clean known (s.symValue name).2) : Clean known s := by
  unfold Asm.symValue at hc
  split at hc
  · exact noteRef_clean hc
  · split at hc
    · exact noteRef_clean hc
    · exact absurd hc err_not_clean

/-- A reference is an error of the second pass at most when its name is not known. -/
theorem symValue_onLine {s t : Asm} (name : List Byte) (h : OnLine known s t) :
    OnLine known (s.symValue name).2 (t.symValue name).2 := by
  have hs : (s.symValue name).2 = s.noteRef name := by
    unfold Asm.symValue
    simp only [h.one]
  rw [hs]
  unfold Asm.symValue
  simp only [h.two]
  have herr := h.errs
  have hslip := slips_ref known name s.trace.refs s.trace.symScales
  split
  · refine ⟨{ h.toInStep with errs := ?_ }, h.lp⟩
    simp only [Asm.noteRef, Trace.note, hslip]
    omega
  · rename_i hnone
    -- an undefined name is not one the first pass has defined
    have hk : known name = false := by
      by_contra hk
      have hd := h.defs name (by simpa using hk)
      rw [Asm.defines] at hd
      cases hf : symFind t.syms name with
      | none => simp [hf] at hd
      | some y => simp [hf] at hd hnone; simp [hd] at hnone
    refine ⟨{ h.toInStep with errs := ?_ }, h.lp⟩
    simp only [Asm.err, Asm.noteRef, Trace.note, hslip, hk, Bool.not_false, Bool.toNat_true]
    omega

theorem symValue_follows (name : List Byte) : Follows known (Agree False) (symValue name) (symValue name) :=
  Lockstep.of_eq (fun _ => rfl) (fun _ => rfl) (fun s => symValue_clean s name) fun _ _ h _ =>
    ⟨symValue_onLine name h, nofun⟩

theorem noteScale_clean {s : Asm} {sc : Expr} (hc : Clean known (s.noteScale sc)) : Clean known s := by
  obtain ⟨h₁, h₂, h₃, h₄, h₅, h₆, h₇⟩ := hc
  exact ⟨h₁, h₂, h₃, h₄, h₅, h₆, h₇⟩

/-- The state `scale_bits` leaves: the note on the scale factor, and an error when it is none of the four. -/
theorem scaleBits_state (s : Asm) (sc : Expr) :
    ((s.scaleBits sc).2 = s.noteScale sc ∧ (sc.val = 1#32 ∨ sc.val = 2#32 ∨ sc.val = 4#32 ∨ sc.val = 8#32)) ∨
    ((s.scaleBits sc).2 = (s.noteScale sc).err "scale must be 1, 2, 4 or 8" [] ∧
      ¬(sc.val = 1#32 ∨ sc.val = 2#32 ∨ sc.val = 4#32 ∨ sc.val = 8#32)) := by
  unfold Asm.scaleBits
  split_ifs <;> simp_all

theorem scaleBits_clean (s : Asm) (sc : Expr) (hc : Clean known (s.scaleBits sc).2) : Clean known s := by
  obtain ⟨hs, -⟩ | ⟨hs, -⟩ := scaleBits_state s sc
  · exact noteScale_clean (hs ▸ hc)
  · exact absurd (hs ▸ hc) err_not_clean

/-- A scale factor is an error of the second pass only when a symbol takes part in it. -/
theorem scaleBits_onLine {s t : Asm} {sc sc' : Expr} (hsc : sc.Same False sc') (h : OnLine known s t)
    (hc : Clean known (s.scaleBits sc).2) : OnLine known (s.scaleBits sc).2 (t.scaleBits sc').2 := by
  have herr := h.errs
  unfold slips at herr
  obtain ⟨hs, hval⟩ | ⟨hs, -⟩ := scaleBits_state s sc
  · rw [hs]
    obtain ⟨ht, -⟩ | ⟨ht, hval'⟩ := scaleBits_state t sc'
    · rw [ht]
      refine ⟨{ h.toInStep with errs := ?_ }, h.lp⟩
      simp only [slips, Asm.noteScale, Trace.note]
      omega
    · rw [ht]
      have hsym : sc.hasSym = true := by
        by_contra hn
        exact hval' (hsc.val (.inr (by simpa using hn)) ▸ hval)
      refine ⟨{ h.toInStep with errs := ?_ }, h.lp⟩
      simp only [slips, Asm.err, Asm.noteScale, Trace.note, hsym, Bool.toNat_true]
      omega
  · exact absurd (hs ▸ hc) err_not_clean

theorem scaleBits_follows {sc sc' : Expr} (h : sc.Same False sc') : Follows known (Agree False) (scaleBits sc) (scaleBits sc') :=
  Lockstep.of_eq (fun _ => rfl) (fun _ => rfl) (fun s => scaleBits_clean s sc) fun _ _ hR hc =>
    ⟨scaleBits_onLine h hR hc, nofun⟩

/-! ## The symbol table -/

theorem symFind_name {syms : List Sym} {name : List Byte} {y : Sym} (h : symFind syms name = some y) : y.name = name := by
  simpa using List.find?_some h

/-- A store through one symbol is seen under its name, and nothing else changes. -/
theorem symFind_store (s : Asm) (name : List Byte) (f : Sym → Sym) (hf : ∀ y, (f y).name = y.name) (n : List Byte) :
    symFind (s.symStore name f).syms n = (symFind s.syms n).map fun y => if y.name = name then f y else y := by
  unfold symFind Asm.symStore
  rw [List.find?_map]
  congr 2
  funext y
  simp only [Function.comp]
  split
  · rw [hf]
  · rfl

/-- Interning either finds no room, which is an error, or leaves a table that has the name and all it had before. -/
theorem symIntern_cases (s : Asm) (name : List Byte) :
    (∃ msg, s.symIntern name = (false, s.err msg name)) ∨
    (∃ syms, s.symIntern name = (true, { s with syms := syms }) ∧ (symFind syms name).isSome ∧
      (∀ n y, symFind s.syms n = some y → symFind syms n = some y) ∧
      ∀ n, (symFind syms n).any Sym.defined = s.defines n) := by
  unfold Asm.symIntern
  split_ifs with hfound hroom
  · exact .inr ⟨s.syms, rfl, hfound, fun _ _ h => h, fun _ => rfl⟩
  · exact .inl ⟨_, rfl⟩
  · refine .inr ⟨_, rfl, ?_, ?_, ?_⟩
    · simp [symFind, List.find?_append, Sym.fresh]
    · intro n y h
      unfold symFind at h ⊢
      rw [List.find?_append, h]
      rfl
    · intro n
      unfold Asm.defines symFind
      rw [List.find?_append]
      cases s.syms.find? (fun y => y.name = n) with
      | some y => rfl
      | none =>
        simp only [Option.none_or, List.find?_cons, List.find?_nil]
        split <;> rfl

/-- A definition stored for a name that the table has. -/
theorem defines_store (s : Asm) (name : List Byte) (f : Sym → Sym) (hf : ∀ y, (f y).name = y.name)
    (hd : ∀ y, (f y).defined = true) (n : List Byte) :
    (s.symStore name f).defines n = (s.defines n || ((symFind s.syms name).isSome && n == name)) := by
  unfold Asm.defines
  rw [symFind_store s name f hf n]
  cases h : symFind s.syms n with
  | none =>
    by_cases hn : n = name
    · subst hn
      simp [h]
    · simp [hn]
  | some y =>
    have hy := symFind_name h
    by_cases hn : n = name
    · subst hn
      simp [hy, hd, h]
    · simp [hy, hn]

/-- A state is clean when a later one is, with the same errors and trace, and no name less defined. -/
theorem Clean.of_defines {s s' : Asm} (hc : Clean known s') (he : s'.errCount = s.errCount) (h₁ : s'.textLen = s.textLen)
    (h₂ : s'.dataLen = s.dataLen) (ha : s'.trace.symAlign = s.trace.symAlign) (hl : s'.trace.pastEnd = s.trace.pastEnd)
    (hv : s'.trace.visits = s.trace.visits) (hd : ∀ n, s.defines n = true → s'.defines n = true) : Clean known s :=
  ⟨he ▸ hc.errs, h₁ ▸ hc.text, h₂ ▸ hc.data, ha ▸ hc.align, hl ▸ hc.line, fun n h => hc.syms n (hd n h), hv ▸ hc.few⟩

/-- The store `.equ` makes. -/
def equStore (v : U32) (y : Sym) : Sym := { y with isAbs := true, defined := true, addr := v }

/-- A definition leaves the table with the name defined, or stops for want of room. -/
theorem define_cases (s : Asm) (name : List Byte) (v : Expr) :
    (∃ msg, s.define name v = (s.noteEqu name v).err msg name) ∨
    (∃ syms, s.define name v = Asm.symStore { s.noteEqu name v with syms := syms } name (equStore v.val) ∧
      (symFind syms name).isSome ∧ (∀ n y, symFind s.syms n = some y → symFind syms n = some y) ∧
      ∀ n, (symFind syms n).any Sym.defined = s.defines n) := by
  unfold Asm.define
  obtain ⟨msg, h⟩ | ⟨syms, h, hrest⟩ := symIntern_cases (s.noteEqu name v) name
  · exact .inl ⟨msg, by rw [h]⟩
  · exact .inr ⟨syms, by rw [h]; rfl, hrest⟩

/-- A definition of a name the table has. -/
theorem define_found {s : Asm} {name : List Byte} (v : Expr) (h : (symFind s.syms name).isSome) :
    s.define name v = (s.noteEqu name v).symStore name (equStore v.val) := by
  have hintern : (s.noteEqu name v).symIntern name = (true, s.noteEqu name v) := if_pos h
  unfold Asm.define
  rw [hintern]
  rfl

/-- After interning a name and storing a definition, that name is defined besides those that were. -/
theorem stored_defines (s : Asm) (name : List Byte) (f : Sym → Sym) (hf : ∀ y, (f y).name = y.name)
    (hd : ∀ y, (f y).defined = true) {syms : List Sym} (hsome : (symFind syms name).isSome)
    (hdef : ∀ n, (symFind syms n).any Sym.defined = s.defines n) (n : List Byte) :
    (Asm.symStore { s with syms := syms } name f).defines n = (s.defines n || n == name) := by
  rw [defines_store _ _ f hf hd]
  simp only [Asm.defines] at hdef ⊢
  rw [hdef, hsome, Bool.true_and]

theorem define_clean (s : Asm) (name : List Byte) (v : Expr) (hc : Clean known (s.define name v)) : Clean known s := by
  obtain ⟨msg, h⟩ | ⟨syms, h, hsome, -, hdef⟩ := define_cases s name v
  · exact absurd (h ▸ hc) err_not_clean
  · rw [h] at hc
    refine hc.of_defines rfl rfl rfl rfl rfl rfl ?_
    intro n hn
    rw [stored_defines (s.noteEqu name v) name (equStore v.val) (fun _ => rfl) (fun _ => rfl) hsome hdef]
    exact Bool.or_eq_true_iff.mpr (.inl hn)

/-- A label stays where it was recorded when another part of its symbol is stored. -/
theorem placed_define {s : Asm} {name : List Byte} {v : U32} {syms : List Sym}
    (hkeep : ∀ n y, symFind s.syms n = some y → symFind syms n = some y) {l : Mark}
    (h : ∃ y, symFind s.syms l.name = some y ∧ y.defined = true ∧ y.sec = l.sec ∧ y.offset = l.offset) :
    ∃ y, symFind (Asm.symStore { s with syms := syms } name (equStore v)).syms l.name = some y ∧ y.defined = true ∧
      y.sec = l.sec ∧ y.offset = l.offset := by
  obtain ⟨y, hy, hd, hsec, hoff⟩ := h
  rw [symFind_store _ _ (equStore v) fun _ => rfl]
  simp only [hkeep _ _ hy, Option.map_some]
  split
  · exact ⟨_, rfl, rfl, hsec, hoff⟩
  · exact ⟨_, rfl, hd, hsec, hoff⟩

/-- The second pass finds every name that a `.equ` of the first defined. -/
theorem define_onLine {s t : Asm} (name : List Byte) (v v' : Expr) (h : OnLine known s t) (hc : Clean known (s.define name v)) :
    OnLine known (s.define name v) (t.define name v') := by
  obtain ⟨msg, hs⟩ | ⟨syms, hs, hsome, hkeep, hdef⟩ := define_cases s name v
  · exact absurd (hs ▸ hc) err_not_clean
  · have hd := stored_defines (s.noteEqu name v) name (equStore v.val) (fun _ => rfl) (fun _ => rfl) hsome hdef name
    have hk : known name = true := hc.syms name (by rw [hs, hd]; simp)
    have hfound : (symFind t.syms name).isSome := by
      have := h.defs name hk
      unfold Asm.defines at this
      cases hf : symFind t.syms name with
      | none => simp [hf] at this
      | some y => rfl
    rw [hs, define_found v' hfound]
    refine ⟨{ h.toInStep with defs := ?_, placed := ?_ }, h.lp⟩
    · intro n hn
      rw [defines_store _ _ (equStore v'.val) (fun _ => rfl) (fun _ => rfl)]
      exact Bool.or_eq_true_iff.mpr (.inl (h.defs n hn))
    · intro l hl
      exact placed_define hkeep (h.placed l hl)

theorem define_follows (name : List Byte) (v v' : Expr) :
    Follows known Eq (modify fun s => s.define name v) (modify fun s => s.define name v') :=
  Lockstep.update (fun s => define_clean s name v) fun _ _ => define_onLine name v v'

/-! ## Labels -/

/-- The store a label makes. -/
def labelStore (sec : Sec) (offset : Int) (y : Sym) : Sym := { y with defined := true, sec := sec, offset := offset }

/-- A label that the first pass records without an error is new. -/
theorem recordLabel_cases (s : Asm) (name : List Byte) (hc : Clean known (s.recordLabel name)) :
    ∃ syms, s.recordLabel name = Asm.symStore { s with syms := syms } name (labelStore s.curSec s.curLen) ∧
      (symFind syms name).isSome ∧ s.defines name = false ∧
      (∀ n y, symFind s.syms n = some y → symFind syms n = some y) ∧
      ∀ n, (symFind syms n).any Sym.defined = s.defines n := by
  unfold Asm.recordLabel at hc ⊢
  obtain ⟨msg, h⟩ | ⟨syms, h, hsome, hkeep, hdef⟩ := symIntern_cases s name
  · rw [h] at hc
    exact absurd hc err_not_clean
  · rw [h] at hc ⊢
    simp only at hc ⊢
    by_cases hdup : (symFind syms name).any Sym.defined = true
    · rw [if_pos hdup] at hc
      exact absurd hc.errs (Nat.succ_ne_zero s.errCount)
    · rw [if_neg hdup]
      exact ⟨syms, rfl, hsome, by rw [← hdef]; simpa using hdup, hkeep, hdef⟩

theorem recordLabel_clean (s : Asm) (name : List Byte) (hc : Clean known (s.recordLabel name)) : Clean known s := by
  obtain ⟨syms, h, hsome, -, -, hdef⟩ := recordLabel_cases s name hc
  rw [h] at hc
  refine hc.of_defines rfl rfl rfl rfl rfl rfl ?_
  intro n hn
  rw [stored_defines s name (labelStore s.curSec s.curLen) (fun _ => rfl) (fun _ => rfl) hsome hdef, hn, Bool.true_or]

theorem addLabel_clean {s : Asm} {labels : List Mark} (hc : Clean known { s with trace := { s.trace with labels := labels } }) :
    Clean known s := by
  obtain ⟨h₁, h₂, h₃, h₄, h₅, h₆, h₇⟩ := hc
  exact ⟨h₁, h₂, h₃, h₄, h₅, h₆, h₇⟩

theorem placeLabel_clean (s : Asm) (name : List Byte) (hc : Clean known (s.placeLabel name)) : Clean known s := by
  unfold Asm.placeLabel at hc
  simp only at hc
  split at hc
  · exact addLabel_clean (recordLabel_clean _ name hc)
  · exact addLabel_clean hc

/-- The labels recorded so far stay recorded, the new one at the length reached. -/
theorem placed_record {s : Asm} {name : List Byte} {sec : Sec} {off : Int} {syms : List Sym} (hsome : (symFind syms name).isSome)
    (hnew : s.defines name = false) (hkeep : ∀ n y, symFind s.syms n = some y → symFind syms n = some y)
    (h : ∀ l ∈ s.trace.labels, ∃ y, symFind s.syms l.name = some y ∧ y.defined = true ∧ y.sec = l.sec ∧ y.offset = l.offset)
    (l : Mark) (hl : l ∈ (⟨name, sec, off⟩ : Mark) :: s.trace.labels) :
    ∃ y, symFind (Asm.symStore { s with syms := syms } name (labelStore sec off)).syms l.name = some y ∧ y.defined = true ∧
      y.sec = l.sec ∧ y.offset = l.offset := by
  rw [symFind_store _ _ (labelStore sec off) fun _ => rfl]
  simp only
  rcases List.mem_cons.mp hl with rfl | hold
  · obtain ⟨y, hy⟩ := Option.isSome_iff_exists.mp hsome
    exact ⟨labelStore sec off y, by simp [hy, symFind_name hy], rfl, rfl, rfl⟩
  · obtain ⟨y, hy, hd, hsec, hoff⟩ := h l hold
    -- a label met before is defined, so it is not the new one
    have hne : y.name ≠ name := by
      intro heq
      rw [symFind_name hy] at heq
      rw [Asm.defines, ← heq, hy] at hnew
      simp [hd] at hnew
    exact ⟨y, by simp [hkeep _ _ hy, hne], hd, hsec, hoff⟩

/-- The second pass stands at each label where the first recorded it. -/
theorem placeLabel_onLine {s t : Asm} (name : List Byte) (h : OnLine known s t) (hc : Clean known (s.placeLabel name)) :
    OnLine known (s.placeLabel name) (t.placeLabel name) := by
  have hs : s.placeLabel name =
      Asm.recordLabel { s with trace := { s.trace with labels := ⟨name, s.curSec, s.curLen⟩ :: s.trace.labels } } name := by
    unfold Asm.placeLabel
    simp only [h.one]
  have ht : t.placeLabel name = { t with trace := { t.trace with labels := ⟨name, t.curSec, t.curLen⟩ :: t.trace.labels } } := by
    unfold Asm.placeLabel
    simp only [h.two]
  rw [hs] at hc ⊢
  rw [ht]
  obtain ⟨syms, hr, hsome, hnew, hkeep, -⟩ := recordLabel_cases _ name hc
  rw [hr]
  refine ⟨{ h.toInStep with labels := ?_, placed := ?_ }, h.lp⟩
  · show (_ :: _) = (_ :: _)
    rw [h.curSec, h.curLen, h.labels]
  · exact placed_record hsome hnew hkeep h.placed

theorem placeLabel_follows (name : List Byte) :
    Follows known Eq (modify fun s => s.placeLabel name) (modify fun s => s.placeLabel name) :=
  Lockstep.update (fun s => placeLabel_clean s name) fun _ _ => placeLabel_onLine name

/-! ## Directives -/

theorem addBss_follows (n : Int) :
    Follows known Eq (modify fun s => { s with bssLen := s.bssLen + n }) (modify fun s => { s with bssLen := s.bssLen + n }) := by
  refine Lockstep.update (fun s hc => hc.of_frame rfl rfl rfl le_rfl le_rfl) ?_
  intro s t h _
  exact ⟨{ h.toInStep with bssLen := congrArg (· + n) h.bssLen }, h.lp⟩

theorem padOne_clean (s : Asm) (hc : Clean known s.padOne) : Clean known s := by
  unfold Asm.padOne at hc
  split at hc
  · exact hc.of_frame rfl rfl rfl le_rfl le_rfl
  · exact emit8_clean s _ hc
  · exact emit8_clean s _ hc

theorem padOne_onLine {s t : Asm} (h : OnLine known s t) (hc : Clean known s.padOne) : OnLine known s.padOne t.padOne := by
  have hsec' := h.curSec
  cases hsec : s.curSec with
  | text =>
    have hs : s.padOne = s.emit8 0x90#8 := by unfold Asm.padOne; rw [hsec]
    have ht : t.padOne = t.emit8 0x90#8 := by unfold Asm.padOne; rw [hsec', hsec]
    rw [hs] at hc ⊢
    exact ht ▸ emit8_onLine _ _ h hc
  | data =>
    have hs : s.padOne = s.emit8 0x00#8 := by unfold Asm.padOne; rw [hsec]
    have ht : t.padOne = t.emit8 0x00#8 := by unfold Asm.padOne; rw [hsec', hsec]
    rw [hs] at hc ⊢
    exact ht ▸ emit8_onLine _ _ h hc
  | bss =>
    have hs : s.padOne = { s with bssLen := s.bssLen + 1 } := by unfold Asm.padOne; rw [hsec]
    have ht : t.padOne = { t with bssLen := t.bssLen + 1 } := by unfold Asm.padOne; rw [hsec', hsec]
    rw [hs, ht]
    exact ⟨{ h.toInStep with bssLen := congrArg (· + 1) h.bssLen }, h.lp⟩

theorem padTo_follows (align : Int) (k : Nat) : Follows known Eq (padTo align k) (padTo align k) := by
  induction k with
  | zero => exact .stuck fun _ => rfl
  | succ k ih =>
    refine currentLen_follows.seq fun _ => .branch (.ret rfl) (Lockstep.seq (Lockstep.update ?_ ?_) fun _ => ih)
    · exact fun s => padOne_clean s
    · exact fun _ _ => padOne_onLine

theorem padFor_follows (pow2 : Bool) (v : U32) : Follows known Eq (padFor pow2 v) (padFor pow2 v) :=
  .branch (.ret rfl) (padTo_follows _ _)

/-- An alignment whose operand names no symbol pads both passes alike; the other kind is what `Clean` excludes. -/
theorem alignBy_follows (pow2 : Bool) {a a' : Expr} (ha : a.Same False a') : Follows known Eq (alignBy pow2 a) (alignBy pow2 a') := by
  cases hs : a.hasSym with
  | true =>
    refine Lockstep.dirty (k := fun _ => padFor pow2 a.val) ?_ (padFor_follows pow2 a.val)
    intro s hc
    simpa [Asm.noteAlign, hs] using hc.align
  | false =>
    unfold alignBy
    rw [ha.val (.inr hs)]
    refine Lockstep.next (Lockstep.update ?_ ?_) (padFor_follows pow2 a.val)
    · intro s hc
      refine hc.of_defines rfl rfl rfl ?_ rfl rfl fun _ h => h
      simp [Asm.noteAlign, hs]
    · intro s t h _
      exact ⟨{ h.toInStep with }, h.lp⟩

theorem setSec_follows (sec : Sec) :
    Follows known Eq (modify fun s => { s with curSec := sec }) (modify fun s => { s with curSec := sec }) := by
  refine Lockstep.update (fun s hc => hc.of_frame rfl rfl rfl le_rfl le_rfl) ?_
  intro s t h _
  exact ⟨{ h.toInStep with curSec := rfl }, h.lp⟩

/-! ## Lines -/

/-- The comparison of the two passes on a line. -/
def inStepLogic (known : List Byte → Bool) : AsmLogic where
  exact := False
  rel Q m n := Follows known Q m n
  ret_rel h := .ret h
  bind_rel hm hk := hm.bind hk
  spin_rel := .stuck fun _ => rfl
  err_rel := err_follows
  peek_rel := peek_follows
  looksAt_rel := looksAt_follows
  atDot_rel := atDot_follows
  currentSec_rel := currentSec_follows
  fuel_rel := fuel_follows
  advance_rel := advance_follows
  noteLit_rel := noteLit_follows
  takeSpan_rel := takeSpan_follows
  cursor_rel := cursor_follows
  setCursor_rel := setCursor_follows
  emit8_rel _ := emit8_follows _ _
  symValue_rel := symValue_follows
  currentAddr_rel := Lockstep.read fun _ _ _ _ => nofun
  scaleBits_rel := scaleBits_follows
  relTo_rel _ := Lockstep.read fun _ _ _ _ => nofun
  addBss_rel := addBss_follows
  setSec_rel := setSec_follows
  alignBy_rel := alignBy_follows
  define_rel name v v' _ := define_follows name v v'
  placeLabel_rel := placeLabel_follows

/-- One line, from states that agree between lines. -/
theorem asmLine_inStep {l l' : List Byte} (h : SameLine l l') :
    Lockstep True (Clean known) (InStep known) Eq (asmLine l) (asmLine l') := by
  have hrest : Follows known Eq (asmLine l) (asmLine l') := (inStepLogic known).asmLine_rel h
  -- the line sets the cursor first, so it runs the same from a state whose cursor is already there
  refine ⟨hrest.back, ?_⟩
  intro s t a s' hR hrun hc ht
  obtain ⟨b, t', ht, hR', hQ⟩ := hrest.sim { s with lp := l } { t with lp := l' } a s' ⟨setLp_inStep hR, h⟩ hrun hc ht
  exact ⟨b, t', ht, hR'.toInStep, hQ⟩

/-! ## Passes -/

/-- The characters a scan takes satisfy its test. -/
theorem span_all (p : Byte → Bool) (n : Nat) (l : List Byte) : ∀ c ∈ (span p n l).1, p c = true := by
  induction l generalizing n with
  | nil => cases n <;> nofun
  | cons d l ih =>
    cases n with
    | zero => nofun
    | succ n =>
      rw [span_cons]
      split
      · rename_i hd
        intro c hc
        rcases List.mem_cons.mp hc with rfl | hc
        · exact hd
        · exact ih n c hc
      · simp

/-- The line buffers of the two runs hold the same line, and as many bytes behind it. -/
theorem fillLine_same (p : List Byte) {buf buf' : List Byte} (h : buf'.length = buf.length) :
    SameLine (fillLine (lineOf p) buf) (fillLine (lineOf p) buf') := by
  refine ⟨lineOf p, _, _, ?_, ?_, ?_, ?_, rfl, rfl⟩
  · intro c hc
    have := span_all _ _ _ c hc
    simp only [Bool.and_eq_true, bne_iff_ne] at this
    exact this.1
  · simp [h]
  · rfl
  · rfl

theorem visit_inStep : Lockstep True (Clean known) (InStep known) Eq visit visit := by
  refine Lockstep.update ?_ ?_
  · intro s hc
    obtain ⟨h₁, h₂, h₃, h₄, h₅, h₆, h₇⟩ := hc
    exact ⟨h₁, h₂, h₃, h₄, h₅, h₆, fun v hv => h₇ v (List.mem_cons_of_mem _ hv)⟩
  · intro s t h _
    refine { h with visits := ?_ }
    simp only [List.map_cons, h.visits, h.textLen, h.dataLen, h.bssLen]

theorem lineNo_inStep : Lockstep True (Clean known) (InStep known) Eq (modify fun s : Asm => { s with lineNo := s.lineNo + 1 })
    (modify fun s => { s with lineNo := s.lineNo + 1 }) :=
  Lockstep.update (fun _ hc => hc.of_frame rfl rfl rfl le_rfl le_rfl) fun _ _ h _ => { h with }

theorem runLine_inStep {l l' : List Byte} (h : SameLine l l') :
    Lockstep True (Clean known) (InStep known) Eq (runLine l) (runLine l') :=
  visit_inStep.seq fun _ => (asmLine_inStep h).seq fun _ => lineNo_inStep

/-- What the loop of `run_pass` does with one more line. -/
theorem runLines_succ (k : Nat) (p buf : List Byte) (s : Asm) :
    runLines (k + 1) p buf s =
      if p.headD 0#8 = 0#8 then some ((), s)
      else (runLine (fillLine (lineOf p) buf) s).bind fun r =>
        if r.2.errCount > 20 then some ((), r.2) else runLines k (restOf p) (fillLine (lineOf p) buf) r.2 := by
  rw [runLines]
  split
  · rfl
  · simp only [bind, StateT.bind, get, getThe, MonadStateOf.get, StateT.get, pure, Option.bind_some]
    congr 1
    funext r
    split <;> rfl

theorem runLines_clean (k : Nat) (p buf : List Byte) (s : Asm) (a : Unit) (s' : Asm) (h : runLines k p buf s = some (a, s'))
    (hc : Clean known s') : Clean known s := by
  induction k generalizing p buf s with
  | zero => cases h
  | succ k ih =>
    rw [runLines_succ] at h
    split at h
    · cases h
      exact hc
    · obtain ⟨⟨_, s₁⟩, hline, hrest⟩ := Option.bind_eq_some_iff.mp h
      refine (runLine_inStep (Std.Refl.refl _)).back _ _ _ hline ?_
      split at hrest
      · cases hrest
        exact hc
      · exact ih _ _ _ hrest

/-- At a line the first pass reaches, the second has at most twenty errors behind it. -/
theorem runLines_few (k : Nat) (p buf : List Byte) (s : Asm) (a : Unit) (s' : Asm) (h : runLines k p buf s = some (a, s'))
    (hc : Clean known s') (hp : p.headD 0#8 ≠ 0#8) : slips known s.trace.refs s.trace.symScales ≤ 20 := by
  cases k with
  | zero => cases h
  | succ k =>
    rw [runLines_succ, if_neg hp] at h
    obtain ⟨⟨_, s₁⟩, hline, hrest⟩ := Option.bind_eq_some_iff.mp h
    have hc₁ : Clean known s₁ := by
      split at hrest
      · cases hrest
        exact hc
      · exact runLines_clean _ _ _ _ _ _ hrest hc
    obtain ⟨_, s₂, hvisit, hbody⟩ := Lockstep.bind_inv hline
    have hc₂ := ((asmLine_inStep (Std.Refl.refl _)).seq fun _ => lineNo_inStep).back _ _ _ hbody hc₁
    obtain rfl : s₂ = { s with trace := { s.trace with
      visits := (⟨s.textLen, s.dataLen, s.bssLen⟩, s.trace.refs, s.trace.symScales) :: s.trace.visits
      notes := LineNote.empty :: s.trace.notes } } := by
      cases hvisit
      rfl
    exact hc₂.few _ (List.mem_cons_self ..)

/-- The loops of `run_pass` stay in step to the end of the source. -/
theorem runLines_inStep (k : Nat) (p buf buf' : List Byte) (hbuf : buf'.length = buf.length) (s t : Asm) (hR : InStep known s t)
    (a : Unit) (s' : Asm) (h : runLines k p buf s = some (a, s')) (hc : Clean known s') :
    ∃ t', runLines k p buf' t = some ((), t') ∧ InStep known s' t' := by
  induction k generalizing p buf buf' s t with
  | zero => cases h
  | succ k ih =>
    rw [runLines_succ] at h ⊢
    by_cases hp : p.headD 0#8 = 0#8
    · rw [if_pos hp] at h ⊢
      cases h
      exact ⟨t, rfl, hR⟩
    · rw [if_neg hp] at h ⊢
      obtain ⟨⟨_, s₁⟩, hline, hrest⟩ := Option.bind_eq_some_iff.mp h
      have hsame := fillLine_same p hbuf
      have hc₁ : Clean known s₁ := by
        split at hrest
        · cases hrest
          exact hc
        · exact runLines_clean _ _ _ _ _ _ hrest hc
      obtain ⟨_, t₁, ht, hR₁, -⟩ := (runLine_inStep hsame).sim s t _ s₁ hR hline hc₁ (.inl trivial)
      have hno : ¬s₁.errCount > 20 := by
        rw [hc₁.errs]
        omega
      rw [if_neg hno] at hrest
      rw [ht, Option.bind_some]
      simp only
      split
      · -- the second pass gives up here, which it does only after the last line
        rename_i herr
        have hend : (restOf p).headD 0#8 = 0#8 := by
          by_contra hne
          have hfew : slips known s₁.trace.refs s₁.trace.symScales ≤ 20 := runLines_few _ _ _ _ _ _ hrest hc hne
          have := hR₁.errs
          omega
        cases k with
        | zero => cases hrest
        | succ k =>
          rw [runLines_succ, if_pos hend] at hrest
          cases hrest
          exact ⟨t₁, rfl, hR₁⟩
      · exact ih _ _ _ hsame.length_eq _ _ hR₁ hrest

end MiniOs32
