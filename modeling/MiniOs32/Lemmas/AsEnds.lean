import MiniOs32.Lib.Returns
import MiniOs32.As.Pass

/-!
# Every line ends, on its line

Every loop of the assembler consumes a character, counts down, or pads a length that grows, so the depth bounds of the model are
never reached: a line returns in either pass but for an alignment in the second, and the first pass returns on every source. `Short`
bounds the bytes from the cursor on; a computation that `Ends` returns from every such state and leaves another. What is kept of the
end of the line on the way is a matter of `Care`: nothing, that the cursor passes it only in a character literal it cuts off, that the
cursor has not passed it, or that besides the scan `litsClosed` finds no such literal.
-/

namespace MiniOs32

/-! ## The end of the line -/

/-- `'`. -/
def litQuote : Byte := 39#8

/-- Where a scan for character literals is: outside one, behind its quote, behind a backslash in it, or behind its character. -/
inductive LitScan where
  | outside
  | opened
  | escaped
  | shut
  deriving DecidableEq

/-- The line may end here. -/
def LitScan.complete : LitScan → Bool
  | .outside | .shut => true
  | .opened | .escaped => false

/-- The scan behind one more character. A character literal is a quote, a character or an escape, and a quote if there is one. -/
def LitScan.next : LitScan → Byte → LitScan
  | .outside, c => if c = litQuote then .opened else .outside
  | .opened, c => if c = Char.byte '\\' then .escaped else .shut
  | .escaped, _ => .shut
  | .shut, _ => .outside

/-- No character literal is cut off by the end of the line. -/
def litsClosed : LitScan → List Byte → Bool
  | st, [] => st.complete
  | st, c :: l => if c = 0#8 then st.complete else litsClosed (st.next c) l

/-- The cursor is on a line, with the stale bytes behind its NUL. -/
def BeforeEnd (stale l : List Byte) : Prop := ∃ rest, (∀ c ∈ rest, c ≠ 0#8) ∧ l = rest ++ 0#8 :: stale

/-- What is known of the cursor and the end of the line. -/
inductive Care where
  | any
  | noted (stale : List Byte)
  | line
  | text
  deriving DecidableEq

namespace Care

/-- What is kept of a state. -/
def Holds : Care → Asm → Prop
  | .any, _ => True
  | .noted stale, s => s.trace.pastEnd = s.trace.cutLit ∧ (s.trace.pastEnd = false → BeforeEnd stale s.lp)
  | .line, s => s.trace.pastEnd = false ∧ s.trace.cutLit = false
  | .text, s => (s.trace.pastEnd = false ∧ s.trace.cutLit = false) ∧ litsClosed .outside s.lp = true

/-- The characters that may be stepped over one by one. -/
def Allows : Care → Byte → Prop
  | .any, _ => True
  | .noted _, c => c ≠ 0#8
  | .line, c => c ≠ 0#8
  | .text, c => c ≠ 0#8 ∧ c ≠ litQuote

/-- What is left once a string literal has been read, whose quotes are no character literals. -/
def loose : Care → Care
  | .text => .line
  | care => care

end Care

variable {care : Care} {which : Pass} {s s' : Asm} {α β : Type} {N : Nat} {c : Byte}

/-- A step that leaves the pass and the cursor alone. -/
structure SameCursor (s s' : Asm) : Prop where
  pass : s'.pass = s.pass
  lp : s'.lp = s.lp
  pastEnd : s'.trace.pastEnd = s.trace.pastEnd
  cutLit : s'.trace.cutLit = s.trace.cutLit

theorem SameCursor.refl (s : Asm) : SameCursor s s := ⟨rfl, rfl, rfl, rfl⟩

theorem SameCursor.trans {s'' : Asm} (h : SameCursor s s') (h' : SameCursor s' s'') : SameCursor s s'' :=
  ⟨h'.pass.trans h.pass, h'.lp.trans h.lp, h'.pastEnd.trans h.pastEnd, h'.cutLit.trans h.cutLit⟩

theorem Care.Holds.same (h : SameCursor s s') (hs : care.Holds s) : care.Holds s' := by
  cases care with
  | any => trivial
  | noted stale =>
    refine ⟨h.pastEnd.trans (hs.1.trans h.cutLit.symm), fun hpast => ?_⟩
    rw [h.lp]
    exact hs.2 (h.pastEnd.symm.trans hpast)
  | line => exact ⟨h.pastEnd.trans hs.1, h.cutLit.trans hs.2⟩
  | text => exact ⟨⟨h.pastEnd.trans hs.1.1, h.cutLit.trans hs.1.2⟩, by rw [h.lp]; exact hs.2⟩

theorem Care.Holds.loose (hs : care.Holds s) : care.loose.Holds s := by
  cases care with
  | any => trivial
  | noted stale => exact hs
  | line => exact hs
  | text => exact hs.1

/-- The characters that are neither the end of the line nor a quote may always be stepped over. -/
theorem Care.allows (hc : c ≠ 0#8 ∧ c ≠ litQuote) : care.Allows c := by
  cases care with
  | any => trivial
  | noted stale => exact hc.1
  | line => exact hc.1
  | text => exact hc

theorem Care.allows_of_ne (hcare : care ≠ .text) (hc : c ≠ 0#8) : care.Allows c := by
  cases care with
  | any => trivial
  | noted stale => exact hc
  | line => exact hc
  | text => exact absurd rfl hcare

theorem BeforeEnd.tail {stale l : List Byte} (h0 : l.headD 0#8 ≠ 0#8) (h : BeforeEnd stale l) : BeforeEnd stale l.tail := by
  obtain ⟨rest, hrest, rfl⟩ := h
  cases rest with
  | nil => exact absurd rfl h0
  | cons d rest => exact ⟨rest, fun c hc => hrest c (List.mem_cons_of_mem d hc), rfl⟩

/-- A step over such a character. -/
theorem Care.Holds.advance (ha : care.Allows (s.lp.headD 0#8)) (hs : care.Holds s) : care.Holds s.advance := by
  have hpast : s.lp.headD 0#8 ≠ 0#8 → s.advance.trace.pastEnd = s.trace.pastEnd := by
    intro h0
    simp only [Asm.advance, beq_eq_false_iff_ne.mpr h0, Bool.or_false]
  cases care with
  | any => trivial
  | noted stale => exact ⟨(hpast ha).trans hs.1, fun h => (hs.2 ((hpast ha).symm.trans h)).tail ha⟩
  | line => exact ⟨(hpast ha).trans hs.1, hs.2⟩
  | text =>
    refine ⟨⟨(hpast ha.1).trans hs.1.1, hs.1.2⟩, ?_⟩
    have hclosed := hs.2
    have hlp : s.advance.lp = s.lp.tail := rfl
    rw [hlp]
    cases hl : s.lp with
    | nil => rfl
    | cons d l =>
      rw [hl] at hclosed ha
      have h0 : d ≠ 0#8 := ha.1
      have hq : d ≠ litQuote := ha.2
      rwa [litsClosed, if_neg h0, LitScan.next, if_neg hq] at hclosed

/-- A state of a pass with at most `N` bytes from the cursor on. -/
def Short (care : Care) (which : Pass) (N : Nat) (s : Asm) : Prop := s.pass = which ∧ s.lp.length ≤ N ∧ care.Holds s

/-- The computation returns and moves the cursor only forwards. -/
abbrev Ends {α : Type} (care : Care) (which : Pass) (N : Nat) (m : AsmM α) : Prop :=
  Returns (Short care which N) m fun _ => Short care which N

/-- The computation returns when it starts with the cursor at a given character. -/
abbrev EndsAt {α : Type} (care : Care) (which : Pass) (N : Nat) (c : Byte) (m : AsmM α) : Prop :=
  Returns (fun s => Short care which N s ∧ s.lp.headD 0#8 = c) m fun _ => Short care which N

/-- The computation returns, and may have read string literals. -/
abbrev EndsLoose {α : Type} (care : Care) (which : Pass) (N : Nat) (m : AsmM α) : Prop :=
  Returns (Short care which N) m fun _ => Short care.loose which N

theorem Short.same (h : SameCursor s s') (hs : Short care which N s) : Short care which N s' :=
  ⟨h.pass.trans hs.1, by rw [h.lp]; exact hs.2.1, hs.2.2.same h⟩

theorem Short.mono {M : Nat} (h : M ≤ N) (hs : Short care which M s) : Short care which N s := ⟨hs.1, le_trans hs.2.1 h, hs.2.2⟩

theorem Short.loose (hs : Short care which N s) : Short care.loose which N s := ⟨hs.1, hs.2.1, hs.2.2.loose⟩

theorem Short.advance (ha : care.Allows (s.lp.headD 0#8)) (hs : Short care which N s) : Short care which N s.advance :=
  ⟨hs.1, le_trans (by simp [Asm.advance]) hs.2.1, hs.2.2.advance ha⟩

theorem Ends.seq {m : AsmM α} {k : α → AsmM β} (hm : Ends care which N m) (hk : ∀ a, Ends care which N (k a)) :
    Ends care which N (m >>= k) :=
  Returns.bind hm hk

theorem Ends.next {m : AsmM Unit} {k : Unit → AsmM β} (hm : Ends care which N m) (hk : Ends care which N (k ())) :
    Ends care which N (m >>= k) :=
  hm.seq fun _ => hk

theorem Ends.ret (a : α) : Ends care which N (pure a : AsmM α) := Returns.ret fun _ h => h

theorem Ends.branch {p : Prop} [Decidable p] {m n : AsmM α} (h₁ : Ends care which N m) (h₂ : Ends care which N n) :
    Ends care which N (if p then m else n) :=
  Returns.branch (fun _ => h₁) fun _ => h₂

theorem Ends.loose {m : AsmM α} (h : Ends care which N m) : EndsLoose care which N m := h.weaken (fun _ hs => hs) fun _ _ hs => hs.loose

/-- An update that leaves the pass and the cursor alone. -/
theorem Ends.update {f : Asm → Asm} (h : ∀ s, SameCursor s (f s)) : Ends care which N (modify f) :=
  Returns.update fun s hs => hs.same (h s)

theorem EndsAt.of_ends {m : AsmM α} (h : Ends care which N m) : EndsAt care which N c m := h.weaken (fun _ hs => hs.1) fun _ _ h => h

theorem EndsAt.branch {p : Prop} [Decidable p] {m n : AsmM α} (h₁ : p → EndsAt care which N c m) (h₂ : ¬p → EndsAt care which N c n) :
    EndsAt care which N c (if p then m else n) := Returns.branch h₁ h₂

/-- At a character, a step leaves fewer bytes. -/
theorem EndsAt.step {k : Unit → AsmM α} (hc : c ≠ 0#8) (ha : care.Allows c) (hk : ∀ M < N, Ends care which M (k ())) :
    EndsAt care which N c (advance >>= k) := by
  intro s ⟨hs, hhead⟩
  have hlen : s.lp.tail.length < N := by
    cases hlp : s.lp with
    | nil => exact absurd (hhead.symm.trans (by rw [hlp]; rfl)) hc
    | cons d l =>
      have := hs.2.1
      rw [hlp] at this
      exact this
  obtain ⟨a, s', hrun, hs'⟩ := hk _ hlen s.advance ⟨hs.1, le_rfl, hs.2.2.advance (hhead ▸ ha)⟩
  exact ⟨a, s', hrun, hs'.mono hlen.le⟩

/-- A step whose gain does not matter. -/
theorem EndsAt.go {k : Unit → AsmM α} (ha : care.Allows c) (hk : Ends care which N (k ())) : EndsAt care which N c (advance >>= k) :=
  fun s ⟨hs, hhead⟩ => hk s.advance (hs.advance (hhead ▸ ha))

theorem EndsAt.advance (ha : care.Allows c) : EndsAt care which N c advance :=
  Returns.update fun _ hs => hs.1.advance (hs.2 ▸ ha)

/-- An update that leaves the cursor at its character. -/
theorem EndsAt.update {f : Asm → Asm} {k : Unit → AsmM α} (h : ∀ s, SameCursor s (f s)) (hk : EndsAt care which N c (k ())) :
    EndsAt care which N c (modify f >>= k) :=
  fun s ⟨hs, hhead⟩ => hk (f s) ⟨hs.same (h s), by rw [(h s).lp]; exact hhead⟩

theorem peek_ends {k : Byte → AsmM α} (h : ∀ c, EndsAt care which N c (k c)) : Ends care which N (peek >>= k) :=
  fun s hs => h _ s ⟨hs, rfl⟩

/-- The character at the cursor, looked at again. -/
theorem EndsAt.peek {k : Byte → AsmM α} (h : EndsAt care which N c (k c)) : EndsAt care which N c (peek >>= k) := by
  rintro s ⟨hs, rfl⟩
  exact h s ⟨hs, rfl⟩

/-- The usual loop head: go on after a character, or stop. -/
theorem Ends.at {d : Byte} (hd : d ≠ 0#8 ∧ d ≠ litQuote) {k : Unit → AsmM α} {n : AsmM α} (hk : ∀ M < N, Ends care which M (k ()))
    (hn : Ends care which N n) : Ends care which N (do if (← peek) = d then advance >>= k else n) :=
  peek_ends fun _ => .branch (fun h => .step (h ▸ hd.1) (h ▸ Care.allows hd) hk) fun _ => .of_ends hn

/-! ## The cursor -/

theorem span_length_le (p : Byte → Bool) (n : Nat) (l : List Byte) : (span p n l).2.length ≤ l.length := by
  induction l generalizing n with
  | nil => cases n <;> exact le_rfl
  | cons d l ih =>
    cases n with
    | zero => exact le_rfl
    | succ n =>
      rw [span_cons]
      split
      · exact le_trans (ih n) (Nat.le_succ _)
      · exact le_rfl

/-- A scan over characters other than quotes is outside every literal. -/
theorem litsClosed_span {p : Byte → Bool} (hp : p 0#8 = false ∧ p litQuote = false) (n : Nat) (l : List Byte)
    (h : litsClosed .outside l = true) : litsClosed .outside (span p n l).2 = true := by
  induction l generalizing n with
  | nil => cases n <;> rfl
  | cons d l ih =>
    cases n with
    | zero => exact h
    | succ n =>
      rw [span_cons]
      split
      · rename_i hd
        refine ih n ?_
        have h0 : d ≠ 0#8 := by
          rintro rfl
          exact absurd hd (by rw [hp.1]; exact Bool.false_ne_true)
        have hq : d ≠ litQuote := by
          rintro rfl
          exact absurd hd (by rw [hp.2]; exact Bool.false_ne_true)
        rwa [litsClosed, if_neg h0, LitScan.next, if_neg hq] at h
      · exact h

/-- A scan that stops at the NUL stays on the line. -/
theorem BeforeEnd.span {stale l : List Byte} {p : Byte → Bool} (hp : p 0#8 = false) (n : Nat) (h : BeforeEnd stale l) :
    BeforeEnd stale (span p n l).2 := by
  induction l generalizing n with
  | nil => cases n <;> exact h
  | cons d l ih =>
    cases n with
    | zero => exact h
    | succ n =>
      rw [span_cons]
      split
      · rename_i hd
        have h0 : d ≠ 0#8 := by
          rintro rfl
          exact absurd hd (by rw [hp]; exact Bool.false_ne_true)
        exact ih n (BeforeEnd.tail (l := d :: l) h0 h)
      · exact h

theorem takeSpan_ends {p : Byte → Bool} (hp : p 0#8 = false ∧ p litQuote = false) (n : Nat) : Ends care which N (takeSpan p n) := by
  intro s hs
  refine ⟨_, _, rfl, hs.1, le_trans (span_length_le p n s.lp) hs.2.1, ?_⟩
  have hcare := hs.2.2
  cases care with
  | any => trivial
  | noted stale => exact ⟨hcare.1, fun h => (hcare.2 h).span hp.1 n⟩
  | line => exact hcare
  | text => exact ⟨hcare.1, litsClosed_span hp n s.lp hcare.2⟩

theorem takeAll_ends {p : Byte → Bool} (hp : p 0#8 = false ∧ p litQuote = false) : Ends care which N (takeAll p) :=
  fun s hs => takeSpan_ends hp s.lp.length s hs

theorem skipWs_ends : Ends care which N skipWs := (takeAll_ends (by decide)).seq fun _ => .ret _

theorem eat_ends (d : Byte) (hd : d ≠ 0#8 ∧ d ≠ litQuote) : Ends care which N (eat d) :=
  skipWs_ends.seq fun _ => .at hd (fun _ _ => .ret _) (.ret _)

theorem skipCh_ends (d : Byte) (hd : d ≠ 0#8 ∧ d ≠ litQuote) : Ends care which N (skipCh d) :=
  peek_ends fun _ => .branch (fun h => .advance (h ▸ Care.allows hd)) fun _ => .of_ends (.ret _)

theorem readName_ends : Ends care which N readName :=
  skipWs_ends.seq fun _ => peek_ends fun _ => .of_ends (.branch (takeSpan_ends (by decide) _) (.ret _))

theorem err_same (msg : String) (d : List Byte) (s : Asm) : SameCursor s (s.err msg d) := ⟨rfl, rfl, rfl, rfl⟩

theorem err_ends (msg : String) (d : List Byte) : Ends care which N (err msg d) := .update (err_same msg d)

/-- A computation whose depth bound is read off the rest of the line. -/
theorem fuel_ends {m : Nat → AsmM α} (f : Nat → Nat) (h : ∀ M k, f M ≤ k → Ends care which M (m k)) :
    Ends care which N (do m (f (← get).lp.length)) := by
  intro s hs
  obtain ⟨a, s', hrun, hs'⟩ := h s.lp.length (f s.lp.length) le_rfl s ⟨hs.1, le_rfl, hs.2.2⟩
  exact ⟨a, s', hrun, hs'.mono hs.2.1⟩

/-! ## Emitting -/

theorem emit8_frame (s : Asm) (b : Byte) : (s.emit8 b).pass = s.pass ∧ (s.emit8 b).lp = s.lp := by
  unfold Asm.emit8
  split
  · exact ⟨rfl, rfl⟩
  · split <;> exact ⟨rfl, rfl⟩
  · exact ⟨rfl, rfl⟩
  · split <;> exact ⟨rfl, rfl⟩
  · exact ⟨rfl, rfl⟩

theorem emit8_same (b : Byte) (s : Asm) : SameCursor s (s.emit8 b) := by
  have htrace : (s.emit8 b).trace = s.trace := by
    unfold Asm.emit8
    split
    · rfl
    · split <;> rfl
    · rfl
    · split <;> rfl
    · rfl
  exact ⟨(emit8_frame s b).1, (emit8_frame s b).2, by rw [htrace], by rw [htrace]⟩

theorem emit8_ends (b : Byte) : Ends care which N (emit8 b) :=
  .update fun s =>
    have hnote : SameCursor s s.noteEmit := ⟨rfl, rfl, rfl, rfl⟩
    hnote.trans (emit8_same b s.noteEmit)

theorem emit16_ends (v : U32) : Ends care which N (emit16 v) := (emit8_ends _).seq fun _ => emit8_ends _

theorem emit32_ends (v : U32) : Ends care which N (emit32 v) := (emit16_ends _).seq fun _ => emit16_ends _

theorem emitFill_ends (b : Byte) (n : Nat) : Ends care which N (emitFill b n) := by
  induction n with
  | zero => exact .ret _
  | succ n ih => exact (emit8_ends b).seq fun _ => ih

/-! ## Expressions -/

theorem symValue_same (name : List Byte) (s : Asm) : SameCursor s (s.symValue name).2 := by
  unfold Asm.symValue
  split
  · exact ⟨rfl, rfl, rfl, rfl⟩
  · split <;> exact ⟨rfl, rfl, rfl, rfl⟩

theorem Ends.of_same {f : Asm → α × Asm} (h : ∀ s, SameCursor s (f s).2) : Ends care which N (fun s => some (f s) : AsmM α) :=
  fun s hs => ⟨(f s).1, (f s).2, rfl, hs.same (h s)⟩

theorem symValue_ends (name : List Byte) : Ends care which N (symValue name) := .of_same (symValue_same name)

/-- A computation that asks whether two given characters are at the cursor. -/
theorem looksAt_ends {a b : Byte} {k : Bool → AsmM α} (h₁ : Returns (fun s => Short care which N s ∧ s.lp.headD 0#8 = a ∧
    s.lp.tail.headD 0#8 = b) (k true) fun _ => Short care which N) (h₂ : Ends care which N (k false)) :
    Ends care which N (looksAt a b >>= k) := by
  intro s hs
  have hrun : (looksAt a b >>= k) s = k (s.lp.headD 0#8 == a && s.lp.tail.headD 0#8 == b) s := rfl
  rw [hrun]
  cases hlook : s.lp.headD 0#8 == a && s.lp.tail.headD 0#8 == b with
  | true =>
    simp only [Bool.and_eq_true, beq_iff_eq] at hlook
    exact h₁ s ⟨hs, hlook⟩
  | false => exact h₂ s hs

/-- Whatever else is asked about the cursor. -/
theorem looksAt_then {P : Asm → Prop} {Q : α → Asm → Prop} {a b : Byte} {k : Bool → AsmM α} (h : ∀ x, Returns P (k x) Q) :
    Returns P (looksAt a b >>= k) Q := fun s hs => h _ s hs

/-- A step over two given characters. -/
theorem advance_two {a b : Byte} (ha : a ≠ 0#8 ∧ a ≠ litQuote) (hb : b ≠ 0#8 ∧ b ≠ litQuote) (r : α) :
    Returns (fun s => Short care which N s ∧ s.lp.headD 0#8 = a ∧ s.lp.tail.headD 0#8 = b)
      (advance >>= fun _ => advance >>= fun _ => pure r) fun _ => Short care which N := by
  rintro s ⟨hs, h₁, h₂⟩
  have hone := hs.advance (h₁ ▸ Care.allows ha)
  exact ⟨r, _, rfl, hone.advance (by rw [show s.advance.lp = s.lp.tail from rfl, h₂]; exact Care.allows hb)⟩

theorem parseRadix_ends : Ends care which N parseRadix := by
  have hx : Char.byte 'x' ≠ 0#8 ∧ Char.byte 'x' ≠ litQuote := by decide
  have hX : Char.byte 'X' ≠ 0#8 ∧ Char.byte 'X' ≠ litQuote := by decide
  have hb : Char.byte 'b' ≠ 0#8 ∧ Char.byte 'b' ≠ litQuote := by decide
  have hB : Char.byte 'B' ≠ 0#8 ∧ Char.byte 'B' ≠ litQuote := by decide
  have h0 : Char.byte '0' ≠ 0#8 ∧ Char.byte '0' ≠ litQuote := by decide
  refine looksAt_ends (looksAt_then fun X => looksAt_then fun b => looksAt_then fun B => advance_two h0 hx 16) ?_
  refine looksAt_ends (looksAt_then fun b => looksAt_then fun B => advance_two h0 hX 16) ?_
  refine looksAt_ends (looksAt_then fun B => advance_two h0 hb 2) ?_
  exact looksAt_ends (advance_two h0 hB 2) (Ends.ret _)

theorem isDigitOf_stops (base : Nat) : isDigitOf base 0#8 = false ∧ isDigitOf base litQuote = false := ⟨rfl, rfl⟩

theorem parseNumber_ends : Ends care which N parseNumber :=
  parseRadix_ends.seq fun base => (takeAll_ends (isDigitOf_stops base)).seq fun _ => .ret _

/-- A state of a pass on a line whose rest closes its literals, from where a scan is. -/
def Scanning (st : LitScan) (which : Pass) (N : Nat) (s : Asm) : Prop :=
  s.pass = which ∧ s.lp.length ≤ N ∧ (s.trace.pastEnd = false ∧ s.trace.cutLit = false) ∧ litsClosed st s.lp = true

/-- In a literal there is a character, and the scan steps over it with the cursor. -/
theorem Scanning.advance {st : LitScan} (hst : st.complete = false) (h : Scanning st which N s) :
    Scanning (st.next (s.lp.headD 0#8)) which N s.advance := by
  obtain ⟨hp, hlen, hpast, hclosed⟩ := h
  cases hl : s.lp with
  | nil =>
    rw [hl, litsClosed, hst] at hclosed
    cases hclosed
  | cons c l =>
    have h0 : c ≠ 0#8 := by
      rintro rfl
      rw [hl, litsClosed, if_pos rfl, hst] at hclosed
      cases hclosed
    rw [hl, litsClosed, if_neg h0] at hclosed
    rw [hl] at hlen
    refine ⟨hp, ?_, ⟨?_, hpast.2⟩, ?_⟩
    · rw [show s.advance.lp = s.lp.tail from rfl, hl]
      exact (Nat.le_succ _).trans hlen
    · simp only [Asm.advance, hpast.1, hl, Bool.false_or]
      exact beq_eq_false_iff_ne.mpr h0
    · rw [show s.advance.lp = s.lp.tail from rfl, hl]
      exact hclosed

/-- A literal that is closed is not cut off. -/
theorem litCut_of_closed {l : List Byte} (h : litsClosed .opened l = true) : litCut l = false := by
  cases l with
  | nil => cases h
  | cons c l =>
    by_cases h0 : c = 0#8
    · rw [litsClosed, if_pos h0] at h
      cases h
    · rw [litsClosed, if_neg h0, LitScan.next] at h
      have hhead : (c == 0#8) = false := beq_eq_false_iff_ne.mpr h0
      by_cases hc : c = Char.byte '\\'
      · rw [if_pos hc] at h
        cases l with
        | nil => cases h
        | cons d l =>
          have hd : d ≠ 0#8 := by
            rintro rfl
            rw [litsClosed, if_pos rfl] at h
            cases h
          have hnext : (d == 0#8) = false := beq_eq_false_iff_ne.mpr hd
          simp [litCut, hhead, hnext]
      · have hback : (c == Char.byte '\\') = false := beq_eq_false_iff_ne.mpr hc
        simp [litCut, hhead, hback]

/-- The character of a literal is read past the end of the line if, and only if, the end of the line cuts the literal off. -/
theorem parseEscaped_run (s : Asm) : ∃ v s', parseEscaped s = some (v, s') ∧ s'.pass = s.pass ∧ s'.lp.length ≤ s.lp.length ∧
    s'.trace.cutLit = s.trace.cutLit ∧ s'.trace.pastEnd = (s.trace.pastEnd || litCut s.lp) ∧
    ∀ stale, litCut s.lp = false → BeforeEnd stale s.lp → BeforeEnd stale s'.lp := by
  have hlen : s.advance.lp.length ≤ s.lp.length := by simp [Asm.advance]
  have hhead : litCut s.lp = false → s.lp.headD 0#8 ≠ 0#8 := fun h => beq_eq_false_iff_ne.mp (Bool.or_eq_false_iff.mp h).1
  by_cases hc : s.lp.headD 0#8 = Char.byte '\\'
  · have h0 : (s.lp.headD 0#8 == 0#8) = false := by rw [hc]; rfl
    refine ⟨escChar (s.advance.lp.headD 0#8), s.advance.advance, ?_, rfl, ?_, rfl, ?_, fun stale hcut h => ?_⟩
    · show (if s.lp.headD 0#8 = Char.byte '\\' then _ else _ : AsmM U32) s.advance = _
      rw [if_pos hc]
      rfl
    · exact le_trans (by simp [Asm.advance]) hlen
    · simp only [Asm.advance, litCut, h0, beq_iff_eq.mpr hc, Bool.or_false, Bool.false_or, Bool.true_and]
    · have hnext : s.lp.tail.headD 0#8 ≠ 0#8 := by
        intro hnul
        rw [litCut, beq_iff_eq.mpr hc, beq_iff_eq.mpr hnul, Bool.and_true, Bool.or_true] at hcut
        cases hcut
      exact (h.tail (hhead hcut)).tail hnext
  · have hback : (s.lp.headD 0#8 == Char.byte '\\') = false := beq_eq_false_iff_ne.mpr hc
    refine ⟨(s.lp.headD 0#8).signExtend 32, s.advance, ?_, rfl, hlen, rfl, ?_, fun stale hcut h => h.tail (hhead hcut)⟩
    · show (if s.lp.headD 0#8 = Char.byte '\\' then _ else _ : AsmM U32) s.advance = _
      rw [if_neg hc]
      rfl
    · simp only [Asm.advance, litCut, hback, Bool.false_and, Bool.or_false]

theorem parseEscaped_scans : Returns (Scanning .opened which N) parseEscaped fun _ => Scanning .shut which N := by
  intro s hs
  have hone := hs.advance rfl
  by_cases hc : s.lp.headD 0#8 = Char.byte '\\'
  · rw [hc] at hone
    have htwo := Scanning.advance (s := s.advance) rfl hone
    refine ⟨escChar (s.advance.lp.headD 0#8), s.advance.advance, ?_, htwo⟩
    show (if s.lp.headD 0#8 = Char.byte '\\' then _ else _ : AsmM U32) s.advance = _
    rw [if_pos hc]
    rfl
  · rw [LitScan.next, if_neg hc] at hone
    refine ⟨(s.lp.headD 0#8).signExtend 32, s.advance, ?_, hone⟩
    show (if s.lp.headD 0#8 = Char.byte '\\' then _ else _ : AsmM U32) s.advance = _
    rw [if_neg hc]
    rfl

theorem skipQuote_scans : Returns (Scanning .shut which N) (skipCh litQuote) fun _ => Short .text which N := by
  rintro s ⟨hp, hlen, hpast, hclosed⟩
  by_cases hc : s.lp.headD 0#8 = litQuote
  · refine ⟨(), s.advance, ?_, ?_⟩
    · show (if s.lp.headD 0#8 = litQuote then _ else _ : AsmM Unit) s = _
      rw [if_pos hc]
      rfl
    · cases hl : s.lp with
      | nil =>
        rw [hl] at hc
        cases hc
      | cons c l =>
        rw [hl] at hc hlen hclosed
        have hq : c = litQuote := hc
        rw [hq, litsClosed, if_neg (by decide)] at hclosed
        refine ⟨hp, ?_, ⟨?_, hpast.2⟩, ?_⟩
        · rw [show s.advance.lp = s.lp.tail from rfl, hl]
          exact (Nat.le_succ _).trans hlen
        · simp only [Asm.advance, hpast.1, hl, Bool.false_or, List.headD_cons, hq]
          rfl
        · rw [show s.advance.lp = s.lp.tail from rfl, hl]
          exact hclosed
  · refine ⟨(), s, ?_, hp, hlen, hpast, ?_⟩
    · show (if s.lp.headD 0#8 = litQuote then _ else _ : AsmM Unit) s = _
      rw [if_neg hc]
      rfl
    · cases hl : s.lp with
      | nil => rfl
      | cons c l =>
        rw [hl] at hc hclosed
        have hq : c ≠ litQuote := hc
        rw [litsClosed] at hclosed ⊢
        rwa [LitScan.next, if_neg hq]

/-- Where nothing is kept of the end of the line, every step ends. -/
theorem advance_any : Ends .any which N advance := Returns.update fun _ hs => hs.advance trivial

/-- Behind a literal a quote is stepped over, or nothing. -/
theorem skipQuote_noted {stale : List Byte} : Ends (.noted stale) which N (skipCh litQuote) :=
  peek_ends fun _ => .branch (fun h => .advance (h ▸ (by decide : litQuote ≠ 0#8))) fun _ => .of_ends (.ret _)

/-- A run of `parse_char_lit`, from the runs of its parts. -/
theorem parseCharLit_run {s₁ s₂ : Asm} {v : U32} (h₁ : parseEscaped s.advance.noteLit = some (v, s₁))
    (h₂ : skipCh litQuote s₁ = some ((), s₂)) : parseCharLit s = some (⟨v, false⟩, s₂) := by
  show (parseEscaped >>= fun v => skipCh litQuote >>= fun _ => pure ⟨v, false⟩ : AsmM Expr) s.advance.noteLit = _
  simp only [Bind.bind, StateT.bind, h₁, h₂, Option.bind_some]
  rfl

/-- A literal is read on its line, unless the end of the line cuts it off. -/
theorem parseCharLit_ends (hcare : care ≠ .line) : EndsAt care which N litQuote parseCharLit := by
  cases care with
  | any =>
    refine .of_ends (advance_any.seq fun _ => Ends.next (Returns.update fun _ hs => ⟨hs.1, hs.2.1, trivial⟩) (Ends.seq ?_ fun _ =>
      (Ends.seq ?_ fun _ => .ret _)))
    · refine peek_ends fun _ => .of_ends (advance_any.seq fun _ => .branch ?_ (.ret _))
      exact peek_ends fun _ => .of_ends (advance_any.seq fun _ => .ret _)
    · exact peek_ends fun _ => .of_ends (.branch advance_any (.ret _))
  | noted stale =>
    rintro s ⟨hs, hq⟩
    have hone : Short (.noted stale) which N s.advance := hs.advance (hq ▸ (by decide : litQuote ≠ 0#8))
    obtain ⟨v, s₁, h₁, hp, hlen, hcut, hpast, hon⟩ := parseEscaped_run s.advance.noteLit
    obtain ⟨hnoted, hline⟩ : s.advance.trace.pastEnd = s.advance.trace.cutLit ∧
      (s.advance.trace.pastEnd = false → BeforeEnd stale s.advance.lp) := hone.2.2
    have hs₁ : Short (.noted stale) which N s₁ := by
      refine ⟨hp.trans hone.1, hlen.trans hone.2.1, ?_, fun h => ?_⟩
      · rw [hpast, hcut]
        show (s.advance.trace.pastEnd || litCut s.advance.lp) = (s.advance.trace.cutLit || litCut s.advance.lp)
        rw [hnoted]
      · rw [hpast] at h
        exact hon stale (Bool.or_eq_false_iff.mp h).2 (hline (Bool.or_eq_false_iff.mp h).1)
    obtain ⟨u, s₂, h₂, hs₂⟩ := skipQuote_noted s₁ hs₁
    exact ⟨_, s₂, parseCharLit_run h₁ h₂, hs₂⟩
  | line => exact absurd rfl hcare
  | text =>
    rintro s ⟨⟨hp, hlen, hpast, hclosed⟩, hq⟩
    have hopened : Scanning .opened which N s.advance := by
      cases hl : s.lp with
      | nil =>
        rw [hl] at hq
        cases hq
      | cons c l =>
        rw [hl] at hq hlen hclosed
        have hc : c = litQuote := hq
        rw [hc, litsClosed, if_neg (by decide)] at hclosed
        refine ⟨hp, ?_, ⟨?_, hpast.2⟩, ?_⟩
        · rw [show s.advance.lp = s.lp.tail from rfl, hl]
          exact (Nat.le_succ _).trans hlen
        · simp only [Asm.advance, hpast.1, hl, Bool.false_or, List.headD_cons, hc]
          rfl
        · rw [show s.advance.lp = s.lp.tail from rfl, hl]
          exact hclosed
    have hnoted : Scanning .opened which N s.advance.noteLit := by
      refine ⟨hopened.1, hopened.2.1, ⟨hopened.2.2.1.1, ?_⟩, hopened.2.2.2⟩
      show (s.advance.trace.cutLit || litCut s.advance.lp) = false
      rw [hopened.2.2.1.2, litCut_of_closed hopened.2.2.2]
      rfl
    obtain ⟨v, s₁, h₁, hs₁⟩ := parseEscaped_scans s.advance.noteLit hnoted
    obtain ⟨u, s₂, h₂, hs₂⟩ := skipQuote_scans s₁ hs₁
    exact ⟨_, s₂, parseCharLit_run h₁ h₂, hs₂⟩

/-- The location counter is read at a dot. -/
theorem atDot_ends {m n : AsmM α} (h₁ : c = Char.byte '.' → EndsAt care which N c m) (h₂ : EndsAt care which N c n) :
    EndsAt care which N c (do if ← atDot then m else n) := by
  rintro s ⟨hs, rfl⟩
  have hrun : (do if ← atDot then m else n : AsmM α) s =
      (if (s.lp.headD 0#8 == Char.byte '.' && !isSymCh (s.lp.tail.headD 0#8)) = true then m else n) s := rfl
  rw [hrun]
  split
  · rename_i hdot
    simp only [Bool.and_eq_true, beq_iff_eq] at hdot
    exact h₁ hdot.1 s ⟨hs, rfl⟩
  · exact h₂ s ⟨hs, rfl⟩

/-- The parsers of expressions return when their depth bound exceeds what the rest of the line can nest. -/
theorem parse_ends (hcare : care ≠ .line) (k : Nat) :
    (∀ N, 2 * N + 1 ≤ k → Ends care which N (parseAtom k)) ∧ (∀ N, 2 * N + 2 ≤ k → Ends care which N (parseExpr k)) ∧
      ∀ N e, 2 * N + 1 ≤ k → Ends care which N (parseTerms k e) := by
  have hparen : Char.byte '(' ≠ 0#8 ∧ Char.byte '(' ≠ litQuote := by decide
  have hminus : Char.byte '-' ≠ 0#8 ∧ Char.byte '-' ≠ litQuote := by decide
  have hplus : Char.byte '+' ≠ 0#8 ∧ Char.byte '+' ≠ litQuote := by decide
  have hdot : Char.byte '.' ≠ 0#8 ∧ Char.byte '.' ≠ litQuote := by decide
  induction k with
  | zero => exact ⟨fun N h => by lia, fun N h => by lia, fun N e h => by lia⟩
  | succ k ih =>
    obtain ⟨ihAtom, ihExpr, ihTerms⟩ := ih
    refine ⟨fun N hN => ?_, fun N hN => ?_, fun N e hN => ?_⟩
    · rw [parseAtom]
      refine skipWs_ends.seq fun _ => peek_ends fun c => ?_
      refine .branch (fun h => ?_) fun _ => .branch (fun h => ?_) fun _ => .branch (fun h => ?_) fun _ =>
        .branch (fun h => h ▸ parseCharLit_ends hcare) fun hquote => .branch (fun _ => .of_ends parseNumber_ends) fun _ =>
        atDot_ends (fun h => ?_) (.branch (fun _ => .of_ends ?_) fun _ => ?_)
      · refine .step (h ▸ hparen.1) (h ▸ Care.allows hparen) fun M hM => (ihExpr M (by lia)).seq fun e => ?_
        exact (eat_ends _ (by decide)).seq fun _ => .branch (.ret _) ((err_ends _ _).seq fun _ => .ret _)
      · exact .step (h ▸ hminus.1) (h ▸ Care.allows hminus) fun M hM => (ihAtom M (by lia)).seq fun _ => .ret _
      · exact .step (h ▸ hplus.1) (h ▸ Care.allows hplus) fun M hM => ihAtom M (by lia)
      · exact .go (h ▸ Care.allows hdot) (Ends.seq (Returns.read fun _ hs => hs) fun _ => .ret _)
      · exact readName_ends.seq fun _ => (symValue_ends _).seq fun _ => .ret _
      · -- The character that no atom starts with is stepped over, unless it is the end of the line.
        refine .update (err_same _ _) (.peek (.branch (fun h0 => ?_) fun _ => .of_ends (.ret _)))
        exact .go (Care.allows ⟨h0, hquote⟩) (.ret _)
    · rw [parseExpr]
      exact (ihAtom N (by lia)).seq fun e => ihTerms N e (by lia)
    · rw [parseTerms]
      refine skipWs_ends.seq fun _ => peek_ends fun c => .branch (fun h => ?_) fun _ => .of_ends (.ret _)
      have hc : c ≠ 0#8 ∧ c ≠ litQuote := by
        rcases h with rfl | rfl
        · exact hplus
        · exact hminus
      exact .step hc.1 (Care.allows hc) fun M hM => (ihAtom M (by lia)).seq fun r => ihTerms M _ (by lia)

theorem expr_ends (hcare : care ≠ .line) : Ends care which N expr :=
  fuel_ends (fun n => 3 * n + 3) fun M k hk => (parse_ends hcare k).2.1 M (by omega)


/-! ## Operands and instructions -/

theorem parseRegOperand_ends : Ends care which N parseRegOperand := by
  refine readName_ends.seq fun name => .branch ((err_ends _ _).seq fun _ => .ret _) ?_
  cases regLookup name with
  | none => exact (err_ends _ _).seq fun _ => .ret _
  | some r => exact .ret _

/-- A parser that goes on after a character it looks for, and stops otherwise. -/
theorem Ends.past {d : Byte} (hd : d ≠ 0#8 ∧ d ≠ litQuote) {k : Unit → AsmM α} {n : AsmM α} (hk : Ends care which N (k ()))
    (hn : Ends care which N n) : Ends care which N (do if (← peek) = d then advance >>= k else n) :=
  peek_ends fun _ => .branch (fun h => .go (h ▸ Care.allows hd) hk) fun _ => .of_ends hn

theorem parseBase_ends : Ends care which N parseBase := by
  refine skipWs_ends.seq fun _ => .past (by decide) (parseRegOperand_ends.seq fun r => ?_) (.ret _)
  cases r with
  | none => exact .ret _
  | some r => exact .branch ((err_ends _ _).seq fun _ => .ret _) (.ret _)

theorem parseIndex_ends : Ends care which N parseIndex := by
  refine skipWs_ends.seq fun _ => .past (by decide) (parseRegOperand_ends.seq fun r => ?_) (.ret _)
  cases r with
  | none => exact .ret _
  | some r =>
    exact .branch ((err_ends _ _).seq fun _ => .ret _) (.branch ((err_ends _ _).seq fun _ => .ret _) (.ret _))

theorem parseScale_ends (hcare : care ≠ .line) : Ends care which N parseScale :=
  skipWs_ends.seq fun _ => .past (by decide) (expr_ends hcare) (.ret _)

theorem parseIndexScale_ends (hcare : care ≠ .line) : Ends care which N parseIndexScale := by
  refine skipWs_ends.seq fun _ => .past (by decide) (parseIndex_ends.seq fun i => ?_) (.ret _)
  cases i with
  | none => exact .ret _
  | some i => exact (parseScale_ends hcare).seq fun _ => .ret _

theorem parseParens_ends (hcare : care ≠ .line) (disp : Expr) : EndsAt care which N (Char.byte '(') (parseParens disp) := by
  refine .go (Care.allows (by decide)) (parseBase_ends.seq fun b => ?_)
  cases b with
  | none => exact .ret _
  | some b =>
    refine (parseIndexScale_ends hcare).seq fun p => ?_
    cases p with
    | none => exact .ret _
    | some p => exact (eat_ends _ (by decide)).seq fun _ => .branch (.ret _) ((err_ends _ _).seq fun _ => .ret _)

theorem parseMem_ends (hcare : care ≠ .line) : Ends care which N parseMem := by
  refine Ends.seq ?_ fun disp => skipWs_ends.seq fun _ => peek_ends fun _ =>
    .branch (fun h => h ▸ parseParens_ends hcare disp) fun _ => .of_ends (.ret _)
  exact skipWs_ends.seq fun _ => peek_ends fun _ => .of_ends (.branch (expr_ends hcare) (.ret _))

theorem parseOperandAt_ends (hcare : care ≠ .line) (k : Nat) : ∀ N, N + 1 ≤ k → Ends care which N (parseOperandAt k) := by
  have hpercent : Char.byte '%' ≠ 0#8 ∧ Char.byte '%' ≠ litQuote := by decide
  have hdollar : Char.byte '$' ≠ 0#8 ∧ Char.byte '$' ≠ litQuote := by decide
  have hstar : Char.byte '*' ≠ 0#8 ∧ Char.byte '*' ≠ litQuote := by decide
  induction k with
  | zero => exact fun N h => by omega
  | succ k ih =>
    intro N hN
    refine skipWs_ends.seq fun _ => peek_ends fun c => .branch (fun _ => .of_ends (.ret _)) fun _ => .branch (fun h => ?_) fun _ =>
      .branch (fun h => ?_) fun _ => .branch (fun h => ?_) fun _ => .of_ends (parseMem_ends hcare)
    · refine .go (h ▸ Care.allows hpercent) (parseRegOperand_ends.seq fun r => ?_)
      cases r with
      | none => exact .ret _
      | some r => exact .ret _
    · exact .go (h ▸ Care.allows hdollar) ((expr_ends hcare).seq fun _ => .ret _)
    · exact .step (h ▸ hstar.1) (h ▸ Care.allows hstar) fun M hM => ih M (by omega)

theorem parseOperand_ends (hcare : care ≠ .line) : Ends care which N parseOperand :=
  fuel_ends (fun n => n + 1) fun M k hk => parseOperandAt_ends hcare k M hk

theorem scaleBits_same (sc : Expr) (s : Asm) : SameCursor s (s.scaleBits sc).2 := by
  unfold Asm.scaleBits
  split_ifs <;> exact ⟨rfl, rfl, rfl, rfl⟩

theorem scaleBits_ends (sc : Expr) : Ends care which N (scaleBits sc) := .of_same (scaleBits_same sc)

theorem emitDisp_ends (mod : BitVec 2) (v : U32) : Ends care which N (emitDisp mod v) :=
  .branch (emit8_ends _) (.branch (emit32_ends _) (.ret _))

theorem emitModrm_ends (reg : RegNum) (o : Operand) : Ends care which N (emitModrm reg o) := by
  have hsib : ∀ (b : Byte) (k : BitVec 2 → AsmM Unit), (∀ ss, Ends care which N (k ss)) →
      Ends care which N (do emit8 b; k (← scaleBits o.scale)) :=
    fun b k hk => (emit8_ends b).seq fun _ => (scaleBits_ends _).seq hk
  unfold emitModrm
  refine .branch (emit8_ends _) (.branch (err_ends _ _) ?_)
  cases o.base with
  | none =>
    cases o.index with
    | none => exact (emit8_ends _).seq fun _ => emit32_ends _
    | some i => exact hsib _ _ fun _ => (emit8_ends _).seq fun _ => emit32_ends _
  | some b =>
    cases o.index with
    | none =>
      exact .branch (hsib _ _ fun _ => (emit8_ends _).seq fun _ => emitDisp_ends _ _)
        ((emit8_ends _).seq fun _ => emitDisp_ends _ _)
    | some i => exact hsib _ _ fun _ => (emit8_ends _).seq fun _ => emitDisp_ends _ _

theorem emitRel32_ends (e : Expr) : Ends care which N (emitRel32 e) :=
  Ends.seq (Returns.read fun _ hs => hs) fun _ => emit32_ends _

theorem emitImm_ends (imm : Imm) : Ends care which N (emitImm imm) := by
  cases imm with
  | none => exact .ret _
  | imm8 v => exact emit8_ends _
  | imm32 v => exact emit32_ends _
  | rel32 e => exact emitRel32_ends e

theorem emitOpcode_ends (opcode : List Byte) : Ends care which N (emitOpcode opcode) := by
  induction opcode with
  | nil => exact .ret _
  | cons b bs ih => exact (emit8_ends b).seq fun _ => ih

theorem emitForm_ends (f : Form) : Ends care which N (emitForm f) := by
  cases f with
  | op opcode imm => exact (emitOpcode_ends _).seq fun _ => emitImm_ends _
  | rm opcode reg o imm => exact (emitOpcode_ends _).seq fun _ => (emitModrm_ends _ _).seq fun _ => emitImm_ends _
  | bad msg detail => exact err_ends _ _

/-! ## Directives -/

theorem Care.loose_ne (care : Care) : care.loose ≠ .text := by cases care <;> nofun

/-- What ends with less care, ends loosely. -/
theorem Ends.of_loose {m : AsmM α} (h : Ends care.loose which N m) : EndsLoose care which N m :=
  h.weaken (fun _ hs => hs.loose) fun _ _ hs => hs

theorem emitChars_ends (hcare : care ≠ .text) (k : Nat) : ∀ N, N + 1 ≤ k → Ends care which N (emitChars k) := by
  induction k with
  | zero => exact fun N h => by omega
  | succ k ih =>
    intro N hN
    refine peek_ends fun c => .branch (fun _ => .of_ends (.ret _)) fun h => ?_
    have hc : c ≠ 0#8 := fun hc => h (.inl hc)
    refine .step hc (Care.allows_of_ne hcare hc) fun M hM => peek_ends fun d => .branch (fun hd => ?_) fun _ => .of_ends ?_
    · exact .go (Care.allows_of_ne hcare hd.2) ((emit8_ends _).seq fun _ => ih M (by omega))
    · exact (emit8_ends _).seq fun _ => ih M (by omega)

theorem stringChars_ends (hcare : care ≠ .text) : Ends care which N stringChars :=
  fuel_ends (fun n => n + 1) fun M k hk => emitChars_ends hcare k M hk

theorem emitString_ends (hcare : care ≠ .text) (terminate : Bool) (k : Nat) :
    ∀ N, N + 1 ≤ k → Ends care which N (emitString terminate k) := by
  have hquote : Char.byte '"' ≠ 0#8 ∧ Char.byte '"' ≠ litQuote := by decide
  induction k with
  | zero => exact fun N h => by omega
  | succ k ih =>
    intro N hN
    refine skipWs_ends.seq fun _ => peek_ends fun c => .branch (fun _ => .of_ends (err_ends _ _)) fun h => ?_
    refine .go (not_not.mp h ▸ Care.allows hquote) ((stringChars_ends hcare).seq fun _ => (skipCh_ends _ hquote).seq fun _ => ?_)
    refine (emitFill_ends _ _).seq fun _ => skipWs_ends.seq fun _ => ?_
    exact .at (by decide) (fun M hM => ih M (by omega)) (.ret _)

theorem emitItem_ends (w : Nat) (v : U32) : Ends care which N (emitItem w v) :=
  .branch (emit8_ends _) (.branch (emit16_ends _) (emit32_ends _))

theorem emitItems_ends (hcare : care ≠ .line) (w k : Nat) : ∀ N, N + 1 ≤ k → Ends care which N (emitItems w k) := by
  induction k with
  | zero => exact fun N h => by omega
  | succ k ih =>
    intro N hN
    refine (expr_ends hcare).seq fun _ => (emitItem_ends _ _).seq fun _ => skipWs_ends.seq fun _ => ?_
    exact .at (by decide) (fun M hM => ih M (by omega)) (.ret _)

theorem currentSec_ends : Ends care which N currentSec := Returns.read fun _ hs => hs

theorem doSpace_ends (hcare : care ≠ .line) : Ends care which N doSpace := by
  refine (expr_ends hcare).seq fun n => .branch (err_ends _ _) ?_
  refine Ends.seq ?_ fun _ => currentSec_ends.seq fun _ => .branch (.update fun _ => ⟨rfl, rfl, rfl, rfl⟩) (emitFill_ends _ _)
  exact skipWs_ends.seq fun _ => .past (by decide) ((expr_ends hcare).seq fun _ => .ret _) (.ret _)

theorem padOne_same (s : Asm) : SameCursor s s.padOne := by
  unfold Asm.padOne
  split
  · exact ⟨rfl, rfl, rfl, rfl⟩
  · exact emit8_same _ s
  · exact emit8_same _ s

/-- In the first pass a padding byte makes the section one longer. -/
theorem padOne_counts (s : Asm) (h : s.pass = .one) : s.padOne.curLen = s.curLen + 1 := by
  unfold Asm.padOne
  cases hsec : s.curSec with
  | bss => simp [Asm.curLen, Asm.secLen, hsec]
  | text => simp [Asm.emit8, hsec, h, Asm.curLen, Asm.secLen]
  | data => simp [Asm.emit8, hsec, h, Asm.curLen, Asm.secLen]

/-- The padding loop ends at the next multiple of the alignment. -/
theorem padTo_returns (align : Int) (j k : Nat) (s : Asm) (hs : Short care .one N s) (hdvd : align ∣ s.curLen + j) (hjk : j < k) :
    ∃ a s', padTo align k s = some (a, s') ∧ Short care .one N s' := by
  induction j generalizing k s with
  | zero =>
    obtain ⟨k, rfl⟩ : ∃ n, k = n + 1 := ⟨k - 1, by lia⟩
    refine ⟨(), s, ?_, hs⟩
    have hmod : s.curLen.tmod align = 0 := Int.tmod_eq_zero_of_dvd (by simpa using hdvd)
    show (if s.curLen.tmod align = 0 then pure () else _ : AsmM Unit) s = _
    rw [if_pos hmod]
    rfl
  | succ j ih =>
    obtain ⟨k, rfl⟩ : ∃ n, k = n + 1 := ⟨k - 1, by lia⟩
    show ∃ a s', (if s.curLen.tmod align = 0 then pure () else modify Asm.padOne >>= fun _ => padTo align k : AsmM Unit) s =
      some (a, s') ∧ Short care .one N s'
    split
    · exact ⟨(), s, rfl, hs⟩
    · refine ih k s.padOne (hs.same (padOne_same s)) ?_ (by lia)
      rw [padOne_counts s hs.1]
      push_cast at hdvd
      convert hdvd using 1
      ring

/-- What is missing to the next multiple. -/
theorem dvd_add_gap {align : Int} (h : 1 < align) (len : Int) :
    align ∣ len + ((-len) % align).toNat ∧ ((-len) % align).toNat < align.toNat := by
  have hnonneg : 0 ≤ (-len) % align := Int.emod_nonneg _ (by omega)
  have hlt : (-len) % align < align := Int.emod_lt_of_pos _ (by omega)
  refine ⟨?_, by omega⟩
  rw [Int.toNat_of_nonneg hnonneg]
  refine ⟨-((-len) / align), ?_⟩
  have := Int.mul_ediv_add_emod (-len) align
  linarith

theorem padTo_ends (align : Int) (h : 1 < align) : Ends care .one N (padTo align (align.toNat + 1)) := by
  intro s hs
  obtain ⟨hdvd, hlt⟩ := dvd_add_gap h s.curLen
  exact padTo_returns align _ _ s hs hdvd (by omega)

theorem doAlign_ends (hcare : care ≠ .line) (pow2 : Bool) : Ends care .one N (doAlign pow2) := by
  refine (expr_ends hcare).seq fun a => Ends.next (.update fun _ => ⟨rfl, rfl, rfl, rfl⟩) ?_
  exact Returns.branch (fun _ => Ends.ret _) fun h => padTo_ends _ (by omega)

theorem symIntern_same (name : List Byte) (s : Asm) : SameCursor s (s.symIntern name).2 := by
  unfold Asm.symIntern
  split_ifs <;> exact ⟨rfl, rfl, rfl, rfl⟩

theorem define_same (name : List Byte) (v : Expr) (s : Asm) : SameCursor s (s.define name v) := by
  have hnote : SameCursor s (s.noteEqu name v) := ⟨rfl, rfl, rfl, rfl⟩
  have h := symIntern_same name (s.noteEqu name v)
  unfold Asm.define
  split
  all_goals
    rename_i heq
    rw [heq] at h
    exact hnote.trans ⟨h.pass, h.lp, h.pastEnd, h.cutLit⟩

theorem doEqu_ends (hcare : care ≠ .line) : Ends care which N doEqu := by
  refine readName_ends.seq fun name => .branch (err_ends _ _) ((eat_ends _ (by decide)).seq fun _ => ?_)
  exact .branch ((expr_ends hcare).seq fun v => .update (define_same name v)) (err_ends _ _)

theorem doPlacement_ends (hcare : care ≠ .line) {d : List Byte} (h : tableFind alignDirs d = none ∨ which = .one) :
    Ends care which N (doPlacement d) := by
  refine .branch (doSpace_ends hcare) ?_
  cases hfind : tableFind alignDirs d with
  | some pow2 =>
    have hone : which = .one := h.resolve_left (by rw [hfind]; exact Option.some_ne_none _)
    exact hone ▸ doAlign_ends hcare pow2
  | none => exact .branch (doEqu_ends hcare) (err_ends _ _)

theorem doDirective_ends (hcare : care ≠ .line) {d : List Byte} (h : tableFind alignDirs d = none ∨ which = .one) :
    EndsLoose care which N (doDirective d) := by
  unfold doDirective
  cases tableFind sectionDirs d with
  | some sec => exact Ends.loose (Ends.update (f := fun s => { s with curSec := sec }) fun _ => ⟨rfl, rfl, rfl, rfl⟩)
  | none =>
    refine Returns.branch (fun _ => (Ends.ret _).loose) fun _ => ?_
    cases tableFind itemDirs d with
    | some w => exact (fuel_ends (fun n => n + 1) fun M k hk => emitItems_ends hcare w k M hk).loose
    | none =>
      cases tableFind stringDirs d with
      | some terminate =>
        exact Ends.of_loose (fuel_ends (fun n => n + 1) fun M k hk => emitString_ends care.loose_ne terminate k M hk)
      | none => exact (doPlacement_ends hcare h).loose

/-! ## Lines and the pass -/

theorem recordLabel_same (name : List Byte) (s : Asm) : SameCursor s (s.recordLabel name) := by
  have h := symIntern_same name s
  unfold Asm.recordLabel
  split
  · rename_i heq
    rw [heq] at h
    simp only
    split <;> exact ⟨h.pass, h.lp, h.pastEnd, h.cutLit⟩
  · rename_i heq
    rw [heq] at h
    exact h

theorem placeLabel_same (name : List Byte) (s : Asm) : SameCursor s (s.placeLabel name) := by
  unfold Asm.placeLabel
  simp only
  split
  · have h := recordLabel_same name { s with trace := { s.trace with labels := ⟨name, s.curSec, s.curLen⟩ :: s.trace.labels } }
    exact ⟨h.pass, h.lp, h.pastEnd, h.cutLit⟩
  · exact ⟨rfl, rfl, rfl, rfl⟩

theorem atLineEnd_ends : Ends care which N atLineEnd :=
  peek_ends fun _ => .of_ends (looksAt_then fun _ => Ends.ret _)

/-- Only the cursor has moved. -/
def Moved (s₀ s : Asm) : Prop := ∃ l, s = { s₀ with lp := l }

theorem takeSpan_moves (s₀ : Asm) (p : Byte → Bool) (n : Nat) : Keeps (Moved s₀) (takeSpan p n) := by
  refine Keeps.of_eq (fun _ => rfl) fun s hs => ?_
  obtain ⟨l, rfl⟩ := hs
  exact ⟨_, rfl⟩

theorem skipWs_moves (s₀ : Asm) : Keeps (Moved s₀) skipWs := by
  have hall : Keeps (Moved s₀) (takeAll isSpaceCh) := fun s a s' hs hrun => takeSpan_moves s₀ _ s.lp.length s a s' hs hrun
  exact hall.bind fun _ => Keeps.ret _

theorem readName_moves (s₀ : Asm) : Keeps (Moved s₀) readName := by
  have hpeek : Keeps (Moved s₀) peek := Keeps.of_eq (fun _ => rfl) fun _ hs => hs
  exact (skipWs_moves s₀).bind fun _ => hpeek.bind fun _ => Keeps.branch (takeSpan_moves s₀ _ _) (Keeps.ret _)

/-- A name is read, and unread if no label follows. -/
theorem unread_ends {k : List Byte → AsmM α} {b : α} (hk : ∀ name, ∀ M < N, Ends care which M (k name)) :
    Ends care which N (do
      let save ← cursor
      let name ← readName
      skipWs
      if (← peek) = Char.byte ':' then do
        advance
        k name
      else do
        setCursor save
        pure b) := by
  intro s hs
  obtain ⟨name, s₁, h₁, hs₁⟩ := readName_ends s hs
  obtain ⟨u, s₂, h₂, hs₂⟩ := skipWs_ends s₁ hs₁
  obtain ⟨l, hl⟩ := skipWs_moves s s₁ u s₂ (readName_moves s s name s₁ ⟨s.lp, rfl⟩ h₁) h₂
  have hback : { s₂ with lp := s.lp } = s := by rw [hl]
  have hgo : Ends care which N (do
      if (← peek) = Char.byte ':' then do
        advance
        k name
      else do
        pure b) := .at (by decide) (hk name) (.ret _)
  have hrun : ∀ n : AsmM α, (readName >>= fun name => skipWs >>= fun _ => peek >>= fun c =>
      if c = Char.byte ':' then advance >>= fun _ => k name else n) s =
      (if s₂.lp.headD 0#8 = Char.byte ':' then advance >>= fun _ => k name else n) s₂ := by
    intro n
    simp only [Bind.bind, StateT.bind, h₁, h₂, Option.bind_some]
    rfl
  have hline := hrun (setCursor s.lp >>= fun _ => pure b)
  by_cases hc : s₂.lp.headD 0#8 = Char.byte ':'
  · obtain ⟨a, s', hstep, hs'⟩ := hgo s₂ hs₂
    refine ⟨a, s', hline.trans ?_, hs'⟩
    rw [if_pos hc]
    have hthen : (if s₂.lp.headD 0#8 = Char.byte ':' then advance >>= fun _ => k name else pure b : AsmM α) s₂ = some (a, s') := hstep
    rwa [if_pos hc] at hthen
  · refine ⟨b, s, hline.trans ?_, hs⟩
    rw [if_neg hc]
    show some (b, { s₂ with lp := s.lp }) = _
    rw [hback]

theorem parseLabels_ends (k : Nat) : ∀ N, N + 1 ≤ k → Ends care which N (parseLabels k) := by
  induction k with
  | zero => exact fun N h => by omega
  | succ k ih =>
    intro N hN
    refine skipWs_ends.seq fun _ => atLineEnd_ends.seq fun _ => .branch (.ret _) ?_
    refine peek_ends fun _ => .of_ends (.branch (unread_ends fun name M hM => ?_) (.ret _))
    exact Ends.next (.update (placeLabel_same name)) (ih M (by omega))

theorem parseOperands_ends (hcare : care ≠ .line) (stem : List Byte) (k : Nat) (ops : List Operand) (hops : ops.length ≤ maxOps)
    (h : maxOps < ops.length + k) : Ends care which N (parseOperands stem k ops) := by
  induction k generalizing ops with
  | zero => omega
  | succ k ih =>
    unfold parseOperands
    refine atLineEnd_ends.seq fun _ => .branch (.ret _) (Returns.branch (fun _ => ?_) fun hfull => ?_)
    · exact Ends.seq (err_ends _ _) fun _ => .ret _
    · refine Ends.seq (parseOperand_ends hcare) fun o => ?_
      cases o with
      | none => exact .ret _
      | some o =>
        refine skipWs_ends.seq fun _ => .past (by decide) (ih (ops ++ [o]) ?_ ?_) (.ret _)
        · simp only [List.length_append, List.length_cons, List.length_nil]
          omega
        · simp only [List.length_append, List.length_cons, List.length_nil]
          omega

theorem asmMnemonic_ends (hcare : care ≠ .line) (mnem : List Byte) : Ends care which N (asmMnemonic mnem) := by
  unfold asmMnemonic
  generalize splitSuffix mnem = suffix
  refine skipWs_ends.seq fun _ => (parseOperands_ends hcare suffix.1 _ [] (by simp) (by simp)).seq fun ops => ?_
  cases ops with
  | none => exact .ret _
  | some ops => exact emitForm_ends _

/-- What a line does once its mnemonic is read. -/
def asmRest (mnem : List Byte) : AsmM Unit :=
  if mnem = [] then err "expected instruction" []
  else if mnem.headD 0#8 = Char.byte '.' then doDirective mnem
  else asmMnemonic mnem

theorem asmRest_ends (hcare : care ≠ .line) {mnem : List Byte} (h : tableFind alignDirs mnem = none ∨ which = .one) :
    EndsLoose care which N (asmRest mnem) :=
  Returns.branch (fun _ => (err_ends _ _).loose) fun _ =>
    Returns.branch (fun _ => doDirective_ends hcare h) fun _ => (asmMnemonic_ends hcare mnem).loose

/-- A line is assembled in the first pass whatever it holds. -/
theorem asmLine_ends (line : List Byte) : Returns (fun s => s.pass = .one) (asmLine line) fun _ s => s.pass = .one := by
  have hline : EndsLoose .any .one line.length (do
      if ← parseLabels (line.length + 1) then do
        let mnem ← readName
        asmRest mnem
      else pure ()) :=
    Returns.bind (parseLabels_ends _ _ le_rfl) fun _ => Returns.branch (fun _ => Returns.bind readName_ends fun _ =>
      asmRest_ends (by decide) (.inr rfl)) fun _ => (Ends.ret _).loose
  intro s hs
  obtain ⟨a, s', hrun, hs'⟩ := hline { s with lp := line } ⟨hs, le_rfl, trivial⟩
  exact ⟨a, s', hrun, hs'.1⟩

/-- One round of `run_pass` returns in the first pass, and stays in it. -/
theorem runLine_returns (line : List Byte) : Returns (fun s => s.pass = .one) (runLine line) fun _ s => s.pass = .one := by
  have hvisit : Returns (fun s => s.pass = .one) visit fun _ s => s.pass = .one := Returns.update fun _ hs => hs
  exact hvisit.bind fun _ => (asmLine_ends line).bind fun _ => Returns.update fun s hs => hs

theorem restOf_length_lt {p : List Byte} (hp : p.headD 0#8 ≠ 0#8) : (restOf p).length < p.length := by
  cases p with
  | nil => exact absurd rfl hp
  | cons c l =>
    have hc : c ≠ 0#8 := hp
    by_cases hnl : c = Char.byte '\n'
    · subst hnl
      exact Nat.lt_succ_self l.length
    · have hspan : (span (fun c => c != 0#8 && c != Char.byte '\n') (maxLine - 1) (c :: l)).2.length ≤ l.length := by
        show (if (c != 0#8 && c != Char.byte '\n') = true then _ else _ : List Byte × List Byte).2.length ≤ _
        rw [if_pos (by simp [hc, hnl])]
        exact span_length_le _ _ l
      unfold restOf
      simp only
      split
      · rw [List.length_tail, List.length_cons]
        omega
      · exact Nat.lt_succ_of_le hspan

theorem runLines_returns (k : Nat) (p buf : List Byte) (hk : p.length < k) :
    Returns (fun s => s.pass = .one) (runLines k p buf) fun _ s => s.pass = .one := by
  induction k generalizing p buf with
  | zero => omega
  | succ k ih =>
    refine Returns.branch (fun _ => Returns.ret fun _ hs => hs) fun hp => ?_
    refine Returns.bind (runLine_returns _) fun _ => ?_
    have hrest := ih (restOf p) (fillLine (lineOf p) buf) (lt_of_lt_of_le (restOf_length_lt hp) (by omega))
    intro s hs
    show ∃ a s', (if s.errCount > 20 then pure () else runLines k (restOf p) (fillLine (lineOf p) buf) : AsmM Unit) s =
      some (a, s') ∧ s'.pass = .one
    split
    · exact ⟨(), s, rfl, hs⟩
    · exact hrest s hs

/-- The first pass returns on every source. -/
theorem runPass_one_returns (src buf : List Byte) (s : Asm) : ∃ s₁, runPass .one src buf s = some s₁ := by
  obtain ⟨_, s₁, h, -⟩ := runLines_returns (src.length + 1) src buf (Nat.lt_succ_self _) (startPass .one s) rfl
  exact ⟨s₁, by rw [runPass, h]; rfl⟩

end MiniOs32
