import MiniOs32.As.Final
import MiniOs32.Lemmas.AsOutput
import MiniOs32.Lemmas.AsPasses

/-!
# An emit run beside the one with final values

The run with final values is compared with a run of the second pass. `W` are the final values, `S` the names settled when the line
is reached. A line that refers to settled names only is followed exactly; on any other line the runs may differ in the values they
read, and so in the bytes they emit, but not in the lengths they reach.
-/

namespace MiniOs32

/-- The value the second pass reads for a name. -/
def Asm.valueOf (s : Asm) (x : List Byte) : Option U32 := ((symFind s.syms x).filter Sym.defined).map Sym.addr

theorem symValue_two {s : Asm} (h : s.pass = .two) (name : List Byte) :
    s.symValue name = ((s.valueOf name).getD 0#32,
      if (s.valueOf name).isSome then s.noteRef name else (s.noteRef name).err "undefined symbol" name) := by
  unfold Asm.symValue Asm.valueOf
  rw [h]
  simp only
  cases (symFind s.syms name).filter Sym.defined with
  | none => rfl
  | some y => rfl

theorem valueOf_isSome (s : Asm) (x : List Byte) : (s.valueOf x).isSome = s.defines x := by
  unfold Asm.valueOf Asm.defines
  cases symFind s.syms x with
  | none => rfl
  | some y => cases hd : y.defined <;> simp [hd]

/-- A `.equ` gives its name a value and changes no other. -/
theorem valueOf_store {s : Asm} {name : List Byte} (v : U32) (hfound : (symFind s.syms name).isSome) (x : List Byte) :
    (s.symStore name (equStore v)).valueOf x = if x = name then some v else s.valueOf x := by
  unfold Asm.valueOf
  rw [symFind_store s name (equStore v) fun _ => rfl]
  by_cases hx : x = name
  · subst hx
    obtain ⟨y, hy⟩ := Option.isSome_iff_exists.mp hfound
    simp [hy, symFind_name hy, equStore]
  · rw [if_neg hx]
    cases hy : symFind s.syms x with
    | none => rfl
    | some y => simp [symFind_name hy, hx]

theorem recordLabel_trace (s : Asm) (name : List Byte) : (s.recordLabel name).trace = s.trace := by
  unfold Asm.recordLabel
  obtain ⟨msg, h⟩ | ⟨syms, h, -⟩ := symIntern_cases s name
  · rw [h]
    rfl
  · rw [h]
    simp only [Asm.symStore]
    split <;> rfl

/-! ## What a line may have noted -/

/-- On a line followed exactly, no settled name becomes unsettled. -/
theorem LineNote.current_of_settled {l : LineNote} {exact : Bool} {S : List Byte → Bool} {x : List Byte} (he : exact = true)
    (h : S x = true) : l.current exact S x = true := by
  unfold LineNote.current
  induction l.equs with
  | nil => exact h
  | cons d ds ih =>
    simp only [List.foldr_cons]
    split
    · rw [he, Bool.or_true]
    · exact ih

section Modes

variable (W : List Byte → Option U32) (full : Prop) (exact : Bool) (S : List Byte → Bool)

/-- The note on the current line. -/
def Trace.line (t : Trace) : LineNote := t.notes.headD LineNote.empty

/-- Nothing has happened that the mode of the line does not allow. -/
structure Allowed (t : Trace) : Prop where
  line : t.pastEnd = false
  log : ∀ l ∈ t.notes, ∀ d ∈ l.equs, W d.1 = some d.2.val
  refs : exact = true → ∀ r ∈ t.line.refs, S r = true
  sized : exact = false → t.line.sized = false
  emits : exact = false → full → t.line.emits = false

/-- A change of a note that takes nothing back. -/
structure NoteGrows (f : LineNote → LineNote) : Prop where
  refs : ∀ l, ∀ r ∈ l.refs, r ∈ (f l).refs
  equs : ∀ l, ∀ d ∈ l.equs, d ∈ (f l).equs
  sized : ∀ l, (f l).sized = false → l.sized = false
  emits : ∀ l, (f l).emits = false → l.emits = false

variable {W full exact S}

theorem Allowed.of_note {t : Trace} {f : LineNote → LineNote} (hf : NoteGrows f) (h : Allowed W full exact S (t.note f)) :
    Allowed W full exact S t := by
  obtain ⟨h₁, h₂, h₃, h₄, h₅⟩ := h
  cases hn : t.notes with
  | nil =>
    refine ⟨h₁, by simp [hn], ?_, ?_, ?_⟩
    · simp [Trace.line, hn, LineNote.empty]
    · simp [Trace.line, hn, LineNote.empty]
    · simp [Trace.line, hn, LineNote.empty]
  | cons l ls =>
    simp only [Trace.note, Trace.line, hn, List.modifyHead_cons, List.headD_cons, List.mem_cons, forall_eq_or_imp] at h₂ h₃ h₄ h₅
    refine ⟨h₁, ?_, ?_, ?_, ?_⟩
    · rw [hn]
      simp only [List.mem_cons, forall_eq_or_imp]
      exact ⟨fun d hd => h₂.1 d (hf.equs l d hd), h₂.2⟩
    · intro he r hr
      rw [Trace.line, hn] at hr
      exact h₃ he r (hf.refs l r hr)
    · intro he
      rw [Trace.line, hn]
      exact hf.sized l (h₄ he)
    · intro he hfull
      rw [Trace.line, hn]
      exact hf.emits l (h₅ he hfull)

/-! ## The two runs -/

variable (W full exact S)

/-- What the run with final values and the other one share between lines. -/
structure Beside (s t : Asm) : Prop where
  one : s.pass = .two
  two : t.pass = .two
  curSec : t.curSec = s.curSec
  textLen : t.textLen = s.textLen
  dataLen : t.dataLen = s.dataLen
  bssLen : t.bssLen = s.bssLen
  baseText : t.baseText = s.baseText
  baseData : t.baseData = s.baseData
  baseBss : t.baseBss = s.baseBss
  errs : t.errCount = s.errCount
  values : ∀ x, s.valueOf x = W x
  defined : ∀ x, (t.valueOf x).isSome = (W x).isSome
  bufs : full → t.textBuf = s.textBuf ∧ t.dataBuf = s.dataBuf

/-- What they share on a line. -/
structure BesideOn (s t : Asm) : Prop extends Beside W full s t where
  lp : SameLine s.lp t.lp
  notes : s.trace.notes ≠ []
  agree : ∀ x, s.trace.line.current exact S x = true → t.valueOf x = W x

/-- Two computations of these runs. -/
abbrev Along {α : Type} (Q : α → α → Prop) (m n : AsmM α) : Prop :=
  Lockstep False (fun s => Allowed W full exact S s.trace) (BesideOn W full exact S) Q m n

variable {W full exact S}

theorem Beside.secLen {s t : Asm} (h : Beside W full s t) (x : Sec) : t.secLen x = s.secLen x := by
  cases x
  · exact h.textLen
  · exact h.dataLen
  · exact h.bssLen

theorem Beside.curLen {s t : Asm} (h : Beside W full s t) : t.curLen = s.curLen := by
  unfold Asm.curLen
  rw [h.curSec, h.secLen]

theorem Beside.curAddr {s t : Asm} (h : Beside W full s t) : t.curAddr = s.curAddr := by
  have hbase : t.base s.curSec = s.base s.curSec := by
    cases s.curSec
    · exact h.baseText
    · exact h.baseData
    · exact h.baseBss
  unfold Asm.curAddr
  rw [h.curSec, hbase, h.curLen]

theorem BesideOn.err {s t : Asm} (h : BesideOn W full exact S s t) (msg : String) (d : List Byte) :
    BesideOn W full exact S (s.err msg d) (t.err msg d) :=
  ⟨{ h.toBeside with errs := congrArg (· + 1) h.errs }, h.lp, h.notes, h.agree⟩

theorem err_along (msg : String) (d : List Byte) : Along W full exact S Eq (err msg d) (err msg d) :=
  Lockstep.update (fun _ hc => hc) fun _ _ h _ => h.err msg d

theorem looksAt_along (a b : Byte) (ha : a ≠ 0#8) : Along W full exact S Eq (looksAt a b) (looksAt a b) :=
  Lockstep.read fun _ _ h _ => (h.lp.looksAt_eq b ha).symm

theorem atDot_along : Along W full exact S Eq atDot atDot := Lockstep.read fun _ _ h _ => h.lp.atDot_eq.symm

theorem setLp_along {s t : Asm} {l l' : List Byte} (h : BesideOn W full exact S s t) (hl : SameLine l l') :
    BesideOn W full exact S { s with lp := l } { t with lp := l' } :=
  ⟨{ h.toBeside with }, hl, h.notes, h.agree⟩

theorem advance_along : Along W full exact S Eq advance advance := by
  refine Lockstep.update ?_ ?_
  · intro s hc
    exact ⟨(Bool.or_eq_false_iff.mp hc.line).1, hc.log, hc.refs, hc.sized, hc.emits⟩
  · intro s t h hc
    have h0 : s.lp.headD 0#8 ≠ 0#8 := by simpa using (Bool.or_eq_false_iff.mp hc.line).2
    exact ⟨{ h.toBeside with }, h.lp.tail h0, h.notes, h.agree⟩

theorem noteLit_along : Along W full exact S Eq (modify Asm.noteLit : AsmM Unit) (modify Asm.noteLit) := by
  refine Lockstep.update ?_ ?_
  · intro s hc
    exact ⟨hc.line, hc.log, hc.refs, hc.sized, hc.emits⟩
  · intro s t h _
    exact ⟨{ h.toBeside with }, h.lp, h.notes, h.agree⟩

theorem takeSpan_along (p : Byte → Bool) (hp : p 0#8 = false) (n : Nat) :
    Along W full exact S Eq (takeSpan p n) (takeSpan p n) := by
  refine Lockstep.of_eq (fun _ => rfl) (fun _ => rfl) (fun _ hc => hc) ?_
  intro s t h _
  obtain ⟨h₁, h₂⟩ := h.lp.span p hp n
  exact ⟨setLp_along h h₂, h₁.symm⟩

/-- Where a note on the line changes nothing else that matters. -/
theorem BesideOn.note {s t s' t' : Asm} (h : BesideOn W full exact S s t) (hs : Beside W full s' t') (hlp : s'.lp = s.lp)
    (hlp' : t'.lp = t.lp) {f : LineNote → LineNote} (hn : s'.trace.notes = (s.trace.note f).notes)
    (ha : ∀ x, (f s.trace.line).current exact S x = true → t'.valueOf x = W x) : BesideOn W full exact S s' t' := by
  have hne := h.notes
  cases hns : s.trace.notes with
  | nil => exact absurd hns hne
  | cons l ls =>
    have hn' : s'.trace.notes = f l :: ls := by rw [hn, Trace.note, hns]; rfl
    refine ⟨hs, by rw [hlp, hlp']; exact h.lp, by rw [hn']; exact List.cons_ne_nil _ _, ?_⟩
    have hline : s'.trace.line = f s.trace.line := by rw [Trace.line, hn', Trace.line, hns]; rfl
    rw [hline]
    exact ha

/-! ## Emitting -/

/-- A byte goes to the same place in both runs, and is the same where the output is compared. -/
theorem Beside.emit8 {s t : Asm} (h : Beside W full s t) {b b' : Byte} (hb : full → b' = b) :
    Beside W full (s.emit8 b) (t.emit8 b') := by
  unfold Asm.emit8
  rw [h.one, h.two, h.curSec]
  cases s.curSec with
  | text =>
    simp only [h.textLen]
    split
    · exact { h with errs := congrArg (· + 1) h.errs }
    · refine { h with one := rfl, two := rfl, curSec := rfl, textLen := rfl, bufs := fun hf => ⟨?_, (h.bufs hf).2⟩ }
      simp only [(h.bufs hf).1, hb hf]
  | data =>
    simp only [h.dataLen]
    split
    · exact { h with errs := congrArg (· + 1) h.errs }
    · refine { h with one := rfl, two := rfl, curSec := rfl, dataLen := rfl, bufs := fun hf => ⟨(h.bufs hf).1, ?_⟩ }
      simp only [(h.bufs hf).2, hb hf]
  | bss => exact { h with errs := congrArg (· + 1) h.errs }

/-- What `emit8` leaves alone. -/
theorem emit8_keeps (s : Asm) (b : Byte) :
    (s.emit8 b).lp = s.lp ∧ (s.emit8 b).trace = s.trace ∧ (s.emit8 b).syms = s.syms ∧ (s.emit8 b).pass = s.pass ∧
      (s.emit8 b).curSec = s.curSec := by
  unfold Asm.emit8
  split
  · exact ⟨rfl, rfl, rfl, rfl, rfl⟩
  · split <;> exact ⟨rfl, rfl, rfl, rfl, rfl⟩
  · exact ⟨rfl, rfl, rfl, rfl, rfl⟩
  · split <;> exact ⟨rfl, rfl, rfl, rfl, rfl⟩
  · exact ⟨rfl, rfl, rfl, rfl, rfl⟩

theorem valueOf_congr {s s' : Asm} (h : s'.syms = s.syms) : s'.valueOf = s.valueOf := by
  funext x
  rw [Asm.valueOf, h]
  rfl

theorem BesideOn.emit8 {s t : Asm} (h : BesideOn W full exact S s t) {b b' : Byte} (hb : full → b' = b) :
    BesideOn W full exact S (s.emit8 b) (t.emit8 b') := by
  obtain ⟨hlp, htr, -, -, -⟩ := emit8_keeps s b
  obtain ⟨hlp', -, hsy', -, -⟩ := emit8_keeps t b'
  refine ⟨h.toBeside.emit8 hb, by rw [hlp, hlp']; exact h.lp, by rw [htr]; exact h.notes, ?_⟩
  rw [htr, valueOf_congr hsy']
  exact h.agree

theorem noteEmit_grows : NoteGrows fun l => { l with emits := true } :=
  ⟨fun _ _ h => h, fun _ _ h => h, fun _ h => h, nofun⟩

theorem emit8_along {b b' : Byte} (hb : Agree (exact = true) b b') : Along W full exact S Eq (emit8 b) (emit8 b') := by
  refine Lockstep.update ?_ ?_
  · intro s hc
    rw [(emit8_keeps s.noteEmit b).2.1] at hc
    exact hc.of_note noteEmit_grows
  · intro s t h hc
    have hnoted : BesideOn W full exact S s.noteEmit t.noteEmit := h.note { h.toBeside with } rfl rfl rfl h.agree
    refine hnoted.emit8 fun hf => hb ?_
    -- on a line that is not followed exactly, an emitted byte is not allowed where the output is compared
    rw [(emit8_keeps s.noteEmit b).2.1] at hc
    by_contra he
    have hemits := hc.emits (by simpa using he) hf
    have hne := h.notes
    cases hn : s.trace.notes with
    | nil => exact hne hn
    | cons l ls => simp [Asm.noteEmit, Trace.note, Trace.line, hn] at hemits

/-! ## Symbols and scale factors -/

theorem noteRef_grows (name : List Byte) : NoteGrows fun l => { l with refs := name :: l.refs } :=
  ⟨fun _ _ h => List.mem_cons_of_mem _ h, fun _ _ h => h, fun _ h => h, fun _ h => h⟩

/-- The notes of a state whose line has refered to a name. -/
theorem Allowed.of_noteRef {s : Asm} {name : List Byte} (hc : Allowed W full exact S (s.noteRef name).trace) :
    Allowed W full exact S s.trace := by
  have hc' : Allowed W full exact S (s.trace.note fun l => { l with refs := name :: l.refs }) :=
    ⟨hc.line, hc.log, hc.refs, hc.sized, hc.emits⟩
  exact hc'.of_note (noteRef_grows name)

theorem symValue_trace (s : Asm) (name : List Byte) : (s.symValue name).2.trace = (s.noteRef name).trace := by
  unfold Asm.symValue
  split
  · rfl
  · split <;> rfl

theorem symValue_along (name : List Byte) : Along W full exact S (Agree (exact = true)) (symValue name) (symValue name) := by
  refine Lockstep.of_pair (f := fun s : Asm => s.symValue name) (g := fun s : Asm => s.symValue name) ?_ ?_
  · intro s hc
    rw [symValue_trace] at hc
    exact hc.of_noteRef
  · intro s t h hc
    rw [symValue_trace] at hc
    have hnoted : BesideOn W full exact S (s.noteRef name) (t.noteRef name) := h.note { h.toBeside with } rfl rfl rfl h.agree
    rw [symValue_two h.one, symValue_two h.two, h.defined, h.values]
    refine ⟨?_, ?_⟩
    · simp only
      split
      · exact hnoted
      · exact hnoted.err _ _
    · intro he
      have hne := h.notes
      cases hn : s.trace.notes with
      | nil => exact absurd hn hne
      | cons l ls =>
        have hset : S name = true := hc.refs he name (by simp [Asm.noteRef, Trace.note, Trace.line, hn])
        simp only [h.agree name (LineNote.current_of_settled he hset)]

/-- A value that a symbol takes part in is the same for the two runs where it decides a size: on a line that is not followed exactly
there is none. -/
theorem Expr.Same.val_of_sized {e e' : Expr} (h : e.Same (exact = true) e') (hs : exact = false → e.hasSym = false) : e'.val = e.val := by
  cases exact with
  | true => exact h.val (.inl rfl)
  | false => exact h.val (.inr (hs rfl))

/-- A line noted for a value of size, when the mode of the line allows it. -/
theorem Allowed.hasSym {t : Trace} {e : Expr} (hn : t.notes ≠ [])
    (hc : Allowed W full exact S (t.note fun l => { l with sized := l.sized || e.hasSym })) : exact = false → e.hasSym = false := by
  intro he
  have hsized := hc.sized he
  cases hns : t.notes with
  | nil => exact absurd hns hn
  | cons l ls =>
    simp only [Trace.note, Trace.line, hns, List.modifyHead_cons, List.headD_cons, Bool.or_eq_false_iff] at hsized
    exact hsized.2

theorem noteSized_grows (b : Bool) : NoteGrows fun l => { l with sized := l.sized || b } :=
  ⟨fun _ _ h => h, fun _ _ h => h, fun _ h => (Bool.or_eq_false_iff.mp h).1, fun _ h => h⟩

/-- The notes of a state whose line has a scale factor. -/
theorem Allowed.of_noteScale {s : Asm} {sc : Expr} (hc : Allowed W full exact S (s.noteScale sc).trace) :
    Allowed W full exact S (s.trace.note fun l => { l with sized := l.sized || sc.hasSym }) :=
  ⟨hc.line, hc.log, hc.refs, hc.sized, hc.emits⟩

theorem scaleBits_trace (s : Asm) (sc : Expr) : (s.scaleBits sc).2.trace = (s.noteScale sc).trace := by
  unfold Asm.scaleBits
  split_ifs <;> rfl

theorem scaleBits_along {sc sc' : Expr} (h : sc.Same (exact = true) sc') :
    Along W full exact S (Agree (exact = true)) (scaleBits sc) (scaleBits sc') := by
  refine Lockstep.of_pair (f := fun s : Asm => s.scaleBits sc) (g := fun s : Asm => s.scaleBits sc') ?_ ?_
  · intro s hc
    rw [scaleBits_trace] at hc
    exact hc.of_noteScale.of_note (noteSized_grows _)
  · intro s t hR hc
    rw [scaleBits_trace] at hc
    have hval : sc'.val = sc.val := h.val_of_sized (hc.of_noteScale.hasSym hR.notes)
    have hnoted : BesideOn W full exact S (s.noteScale sc) (t.noteScale sc') :=
      hR.note { hR.toBeside with } rfl rfl rfl hR.agree
    unfold Asm.scaleBits
    rw [hval]
    split_ifs
    · exact ⟨hnoted, fun _ => rfl⟩
    · exact ⟨hnoted, fun _ => rfl⟩
    · exact ⟨hnoted, fun _ => rfl⟩
    · exact ⟨hnoted, fun _ => rfl⟩
    · exact ⟨hnoted.err _ _, fun _ => rfl⟩

theorem relTo_along {e e' : Expr} (h : e.Same (exact = true) e') :
    Along W full exact S (Agree (exact = true)) (relTo e) (relTo e') := by
  refine Lockstep.read ?_
  intro s t hR _ he
  unfold Asm.relTo
  rw [hR.one, hR.two, hR.curAddr, h.val (.inl he)]

/-! ## Placement -/

theorem padOne_along : Along W full exact S Eq (modify Asm.padOne) (modify Asm.padOne) := by
  refine Lockstep.update ?_ ?_
  · intro s hc
    unfold Asm.padOne at hc
    split at hc
    · exact hc
    · rwa [(emit8_keeps s _).2.1] at hc
    · rwa [(emit8_keeps s _).2.1] at hc
  · intro s t h _
    unfold Asm.padOne
    rw [h.curSec]
    cases s.curSec with
    | text => exact h.emit8 fun _ => rfl
    | data => exact h.emit8 fun _ => rfl
    | bss => exact ⟨{ h.toBeside with curSec := rfl, bssLen := congrArg (· + 1) h.bssLen }, h.lp, h.notes, h.agree⟩

theorem padTo_along (align : Int) (k : Nat) : Along W full exact S Eq (padTo align k) (padTo align k) := by
  induction k with
  | zero => exact .stuck fun _ => rfl
  | succ k ih =>
    have hlen : Along W full exact S Eq currentLen currentLen := Lockstep.read fun _ _ h _ => h.curLen.symm
    exact hlen.seq fun _ => .branch (.ret rfl) (padOne_along.seq fun _ => ih)

theorem alignBy_along (pow2 : Bool) {a a' : Expr} (h : a.Same (exact = true) a') :
    Along W full exact S Eq (alignBy pow2 a) (alignBy pow2 a') := by
  have hpad : ∀ v, Along W full exact S Eq (padFor pow2 v) (padFor pow2 v) := fun v => .branch (.ret rfl) (padTo_along _ _)
  have hnote : ∀ {s : Asm}, Allowed W full exact S (s.noteAlign a).trace →
      Allowed W full exact S (s.trace.note fun l => { l with sized := l.sized || a.hasSym }) :=
    fun hc => ⟨hc.line, hc.log, hc.refs, hc.sized, hc.emits⟩
  refine ⟨?_, ?_⟩
  · intro s u s' hrun hc
    have hmid : Allowed W full exact S (s.noteAlign a).trace := (hpad a.val).back _ _ _ hrun hc
    exact (hnote hmid).of_note (noteSized_grows _)
  · intro s t u s' hR hrun hc ht
    have hmid : Allowed W full exact S (s.noteAlign a).trace := (hpad a.val).back _ _ _ hrun hc
    have hval : a'.val = a.val := h.val_of_sized ((hnote hmid).hasSym hR.notes)
    have hnoted : BesideOn W full exact S (s.noteAlign a) (t.noteAlign a') :=
      hR.note { hR.toBeside with } rfl rfl rfl hR.agree
    have ht' : False ∨ (padFor pow2 a.val (t.noteAlign a')).isSome := by rw [← hval]; exact ht
    obtain ⟨b, t', hn, hrest⟩ := (hpad a.val).sim _ _ _ _ hnoted hrun hc ht'
    exact ⟨b, t', by rw [← hval] at hn; exact hn, hrest⟩

theorem noteEqu_grows (name : List Byte) (v : Expr) : NoteGrows fun l => { l with equs := (name, v) :: l.equs } :=
  ⟨fun _ _ h => h, fun _ _ h => List.mem_cons_of_mem _ h, fun _ h => h, fun _ h => h⟩

theorem define_trace (s : Asm) (name : List Byte) (v : Expr) : (s.define name v).trace = (s.noteEqu name v).trace := by
  obtain ⟨msg, h⟩ | ⟨syms, h, -⟩ := define_cases s name v
  · rw [h]
    rfl
  · rw [h]
    rfl

/-- A `.equ` met with final values gives its name the value it has; the other run follows when the value is settled. -/
theorem define_along (name : List Byte) {v v' : Expr} (h : v.Same (exact = true) v') :
    Along W full exact S Eq (modify fun s => s.define name v) (modify fun s => s.define name v') := by
  refine Lockstep.update ?_ ?_
  · intro s hc
    rw [define_trace] at hc
    exact hc.of_note (noteEqu_grows name v)
  · intro s t hR hc
    rw [define_trace] at hc
    have hW : W name = some v.val := by
      have hne := hR.notes
      cases hn : s.trace.notes with
      | nil => exact absurd hn hne
      | cons l ls =>
        have hmem := hc.log { l with equs := (name, v) :: l.equs } (by simp [Asm.noteEqu, Trace.note, hn]) (name, v)
        exact hmem (List.mem_cons_self ..)
    have hfound : ∀ {u : Asm}, (u.valueOf name).isSome = true → (symFind u.syms name).isSome = true := by
      intro u hu
      rw [valueOf_isSome, Asm.defines] at hu
      cases hf : symFind u.syms name with
      | none => simp [hf] at hu
      | some y => rfl
    have hs : (symFind s.syms name).isSome = true := hfound (by rw [hR.values, hW]; rfl)
    have ht : (symFind t.syms name).isSome = true := hfound (by rw [hR.defined, hW]; rfl)
    rw [define_found v hs, define_found v' ht]
    have hvs : ∀ x, ((s.noteEqu name v).symStore name (equStore v.val)).valueOf x = if x = name then some v.val else s.valueOf x :=
      valueOf_store (s := s.noteEqu name v) v.val hs
    have hvt : ∀ x, ((t.noteEqu name v').symStore name (equStore v'.val)).valueOf x = if x = name then some v'.val else t.valueOf x :=
      valueOf_store (s := t.noteEqu name v') v'.val ht
    refine hR.note { hR.toBeside with values := ?_, defined := ?_ } rfl rfl rfl ?_
    · intro x
      rw [hvs]
      split
      · rename_i hx
        rw [hx, hW]
      · exact hR.values x
    · intro x
      rw [hvt]
      split
      · rename_i hx
        rw [hx, hW]
        rfl
      · exact hR.defined x
    · intro x hx
      rw [hvt]
      simp only [LineNote.current, List.foldr_cons] at hx
      split
      · rename_i hxn
        rw [if_pos hxn] at hx
        have hval : v'.val = v.val := by
          refine h.val_of_sized fun he => ?_
          rw [he, Bool.or_false] at hx
          simpa using hx
        rw [hxn, hW, hval]
      · rename_i hxn
        rw [if_neg hxn] at hx
        exact hR.agree x hx

theorem placeLabel_along (name : List Byte) :
    Along W full exact S Eq (modify fun s => s.placeLabel name) (modify fun s => s.placeLabel name) := by
  refine Lockstep.update ?_ ?_
  · intro s hc
    have htr : (s.placeLabel name).trace = { s.trace with labels := ⟨name, s.curSec, s.curLen⟩ :: s.trace.labels } := by
      unfold Asm.placeLabel
      simp only
      split
      · exact recordLabel_trace _ name
      · rfl
    rw [htr] at hc
    exact ⟨hc.line, hc.log, hc.refs, hc.sized, hc.emits⟩
  · intro s t h _
    have hs : s.placeLabel name = { s with trace := { s.trace with labels := ⟨name, s.curSec, s.curLen⟩ :: s.trace.labels } } := by
      unfold Asm.placeLabel
      simp only [h.one]
    have ht : t.placeLabel name = { t with trace := { t.trace with labels := ⟨name, t.curSec, t.curLen⟩ :: t.trace.labels } } := by
      unfold Asm.placeLabel
      simp only [h.two]
    rw [hs, ht]
    exact ⟨{ h.toBeside with }, h.lp, h.notes, h.agree⟩

/-- The comparison of the two runs on a line. -/
def alongLogic (W : List Byte → Option U32) (full : Prop) (exact : Bool) (S : List Byte → Bool) : AsmLogic where
  exact := exact = true
  rel Q m n := Along W full exact S Q m n
  ret_rel h := .ret h
  bind_rel hm hk := hm.bind hk
  spin_rel := .stuck fun _ => rfl
  err_rel := err_along
  peek_rel := Lockstep.read fun _ _ h _ => h.lp.head_eq.symm
  looksAt_rel := looksAt_along
  atDot_rel := atDot_along
  currentSec_rel := Lockstep.read fun _ _ h _ => h.curSec.symm
  fuel_rel f _ _ hm := Lockstep.ask (fun _ _ h _ => congrArg f h.lp.length_eq.symm) hm
  advance_rel := advance_along
  noteLit_rel := noteLit_along
  takeSpan_rel := takeSpan_along
  cursor_rel := Lockstep.read fun _ _ h _ => h.lp
  setCursor_rel hl := Lockstep.update (fun _ hc => hc) fun _ _ h _ => setLp_along h hl
  emit8_rel := emit8_along
  symValue_rel := symValue_along
  currentAddr_rel := Lockstep.read fun _ _ h _ _ => h.curAddr
  scaleBits_rel := scaleBits_along
  relTo_rel := relTo_along
  addBss_rel n := Lockstep.update (fun _ hc => hc) fun _ _ h _ =>
    ⟨{ h.toBeside with bssLen := congrArg (· + n) h.bssLen }, h.lp, h.notes, h.agree⟩
  setSec_rel _ := Lockstep.update (fun _ hc => hc) fun _ _ h _ => ⟨{ h.toBeside with curSec := rfl }, h.lp, h.notes, h.agree⟩
  alignBy_rel := alignBy_along
  define_rel name _ _ h := define_along name h
  placeLabel_rel := placeLabel_along

end Modes

end MiniOs32
