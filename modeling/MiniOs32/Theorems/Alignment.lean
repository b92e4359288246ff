import MiniOs32.Lemmas.AsEnds
import MiniOs32.Lemmas.AsNotes
import MiniOs32.Lemmas.AsOutput

/-!
# Alignment directives

`.align`, `.balign` and `.p2align` pad until the length of the section is a multiple of the alignment. What is aligned so is the
offset in the section: the address is a multiple as well if and only if the address of the section is one (`alignment_iff`). The text
begins behind the 84 bytes of the ELF header, so that nothing in it is aligned to eight (`alignment_false`).
-/

namespace MiniOs32

/-! ## Alignments in a pass -/

/-- `run_pass` comes to a line, in some state. -/
inductive LineReached : List Byte → List Byte → Asm → List Byte → Asm → Prop
  | here {p buf : List Byte} {s : Asm} (hp : p.headD 0#8 ≠ 0#8) : LineReached p buf s (fillLine (lineOf p) buf) s
  | later {p buf line : List Byte} {s s₁ t : Asm} {u : Unit} (hp : p.headD 0#8 ≠ 0#8)
      (hrun : runLine (fillLine (lineOf p) buf) s = some (u, s₁)) (he : s₁.errCount ≤ 20)
      (hrest : LineReached (restOf p) (fillLine (lineOf p) buf) s₁ line t) : LineReached p buf s line t

/-- `asm_line` up to where it pads, if it does: whether the operand is an exponent, and the operand. -/
def lineAlign (line : List Byte) : AsmM (Option (Bool × Expr)) := do
  setCursor line
  if ← parseLabels (line.length + 1) then do
    let mnem ← readName
    match tableFind alignDirs mnem with
    | some pow2 => do
      let a ← expr
      pure (some (pow2, a))
    | none => pure none
  else pure none

/-- An alignment in a pass over a source: what is asked for, and the states before and behind the padding. -/
structure AlignsAt (src buf : List Byte) (s : Asm) (pow2 : Bool) (a : Expr) (u t : Asm) : Prop where
  asks : ∃ line s', LineReached src buf (startPass .two s) line s' ∧ lineAlign line s'.visited = some (some (pow2, a), u)
  pads : alignBy pow2 a u = some ((), t)

/-- A source is assembled without error: by the passes of `main`, of which the last leaves the output. -/
structure Assembled (src buf₁ buf₂ buf₃ : List Byte) (s₂ s₃ : Asm) : Prop where
  passes : ∃ s₁, runPass .one src buf₁ Asm.initial = some s₁ ∧ s₁.errCount = 0 ∧ emitPasses src buf₂ buf₃ s₁ = some (s₂, s₃)
  errs : s₃.errCount = 0

/-- The alignment that is asked for. -/
def alignAsked (pow2 : Bool) (v : U32) : Nat := if pow2 then 2 ^ v.toInt.toNat else v.toInt.toNat

/-- An operand of `.align` and `.balign` is a power of two up to 4096. -/
def AlignOperand (pow2 : Bool) (v : U32) : Prop := pow2 = false → ∃ k ≤ 12, v.toInt = 2 ^ k

/-- Where a section lies in the file, and with it at run time, when the last pass is over. -/
def Asm.sectionBase (s : Asm) : Sec → Int
  | .text => elfHdrSize
  | .data => elfHdrSize + s.textLen
  | .bss => elfHdrSize + s.textLen + s.dataLen

/-- A number of padding bytes. -/
def Asm.padded (s : Asm) (n : Nat) : Asm :=
  match s.curSec with
  | .text => { s with textBuf := s.textBuf ++ List.replicate n 0x90#8, textLen := s.textLen + n }
  | .data => { s with dataBuf := s.dataBuf ++ List.replicate n 0x00#8, dataLen := s.dataLen + n }
  | .bss => { s with bssLen := s.bssLen + n }

/-- Behind the padding, which is `nop` bytes or zeros that stay in the output, the address is a multiple of what is asked for. -/
structure AlignRight (s₃ : Asm) (pow2 : Bool) (a : Expr) (u t : Asm) : Prop where
  pads : ∃ n, t = (u.noteAlign a).padded n
  text : t.textBuf <+: s₃.textBuf
  data : t.dataBuf <+: s₃.dataBuf
  addr : (alignAsked pow2 a.val : Int) ∣ s₃.sectionBase t.curSec + t.curLen

/-- The condition on an alignment: its section lies at a multiple of what is asked for. Where that is beyond an `int` nothing is
padded, and the address has to be a multiple already. -/
def AlignFits (s₃ : Asm) (pow2 : Bool) (a : Expr) (u : Asm) : Prop :=
  (alignAsked pow2 a.val : Int) ∣ s₃.sectionBase u.curSec + if alignAsked pow2 a.val < 2 ^ 31 then 0 else u.curLen

/-! ## Padding -/

section Padding

variable {s s' : Asm} {align : Int} {k : Nat} {u : Unit}

@[simp] theorem padded_zero (s : Asm) : s.padded 0 = s := by
  unfold Asm.padded
  split <;> simp

theorem padded_curSec (s : Asm) (n : Nat) : (s.padded n).curSec = s.curSec := by
  unfold Asm.padded
  cases h : s.curSec <;> rfl

theorem padded_succ (s : Asm) (n : Nat) : (s.padded 1).padded n = s.padded (n + 1) := by
  unfold Asm.padded
  cases h : s.curSec <;> simp [List.replicate_succ, add_comm, add_left_comm]

/-- The buffer of the section has no room. -/
def Asm.Full (s : Asm) : Prop := s.curSec = .text ∧ maxText ≤ s.textLen ∨ s.curSec = .data ∧ maxData ≤ s.dataLen

/-- A padding byte is stored where there is room for it. -/
theorem padOne_of_room (hp : s.pass = .two) (h : ¬s.Full) : s.padOne = s.padded 1 := by
  unfold Asm.Full at h
  unfold Asm.padOne
  cases hsec : s.curSec with
  | bss => simp [Asm.padded, hsec]
  | text =>
    have hroom : ¬maxText ≤ s.textLen := fun hle => h (.inl ⟨hsec, hle⟩)
    simp [Asm.emit8, Asm.padded, hsec, hp, hroom]
  | data =>
    have hroom : ¬maxData ≤ s.dataLen := fun hle => h (.inr ⟨hsec, hle⟩)
    simp [Asm.emit8, Asm.padded, hsec, hp, hroom]

/-- Elsewhere it is an error. -/
theorem padOne_of_full (hp : s.pass = .two) (h : s.Full) : ∃ msg, s.padOne = s.err msg [] := by
  unfold Asm.padOne
  rcases h with ⟨hsec, hle⟩ | ⟨hsec, hle⟩
  · exact ⟨"text overflow", by simp [Asm.emit8, hsec, hp, hle]⟩
  · exact ⟨"data overflow", by simp [Asm.emit8, hsec, hp, hle]⟩

theorem padTo_succ (align : Int) (k : Nat) (s : Asm) :
    padTo align (k + 1) s = if s.curLen.tmod align = 0 then some ((), s) else padTo align k s.padOne := by
  rw [padTo]
  show (if s.curLen.tmod align = 0 then pure () else modify Asm.padOne >>= fun _ => padTo align k : AsmM Unit) s = _
  split <;> rfl

/-- Padding that finds no room does not end. -/
theorem padTo_of_full (k : Nat) (hp : s.pass = .two) (h : s.Full) (hne : s.curLen.tmod align ≠ 0) : padTo align k s = none := by
  induction k generalizing s with
  | zero => rfl
  | succ k ih =>
    obtain ⟨msg, herr⟩ := padOne_of_full hp h
    rw [padTo_succ, if_neg hne, herr]
    exact ih (s := s.err msg []) hp h hne

theorem padded_pass (s : Asm) (n : Nat) : (s.padded n).pass = s.pass := by
  unfold Asm.padded
  split <;> rfl

/-- Padding that ends has stored its bytes, up to a multiple of the alignment. -/
theorem padTo_padded (hp : s.pass = .two) (h : padTo align k s = some (u, s')) :
    ∃ n, s' = s.padded n ∧ s'.curLen.tmod align = 0 := by
  induction k generalizing s with
  | zero => cases h
  | succ k ih =>
    rw [padTo_succ] at h
    split at h
    · rename_i hmod
      cases h
      exact ⟨0, (padded_zero _).symm, hmod⟩
    · rename_i hne
      by_cases hfull : s.Full
      · obtain ⟨msg, herr⟩ := padOne_of_full hp hfull
        rw [herr, padTo_of_full (s := s.err msg []) k hp hfull hne] at h
        cases h
      · rw [padOne_of_room hp hfull] at h
        obtain ⟨n, rfl, hmod⟩ := ih ((padded_pass s 1).trans hp) h
        exact ⟨n + 1, padded_succ s n, hmod⟩

theorem doubled_eq (n : Nat) : doubled n = BitVec.ofNat 32 (2 ^ n) := by
  induction n with
  | zero => rfl
  | succ n ih =>
    rw [doubled, ih]
    apply BitVec.eq_of_toNat_eq
    simp [Nat.pow_succ, BitVec.toNat_mul, Nat.mod_mul_mod]

/-- A power of two in 32 bits is one up to the exponent 30, and then not more than one. -/
theorem doubled_toInt (n : Nat) : (n ≤ 30 → (doubled n).toInt = (2 ^ n : Nat)) ∧ (31 ≤ n → (doubled n).toInt ≤ 1) := by
  have hval : (doubled n).toInt = ((2 ^ n : Nat) : Int).bmod (2 ^ 32) := by
    rw [doubled_eq, BitVec.toInt_ofNat']
  refine ⟨fun hn => ?_, fun hn => ?_⟩
  · have hlt : 2 ^ n < 2 ^ 31 := Nat.pow_lt_pow_right (by decide) (by omega)
    rw [hval]
    generalize 2 ^ n = m at hlt
    exact Int.bmod_eq_of_le (by omega) (by omega)
  · rw [hval]
    obtain ⟨j, rfl⟩ : ∃ j, n = 31 + j := ⟨n - 31, by omega⟩
    cases j with
    | zero => decide
    | succ j =>
      have hdvd : ((2 ^ 32 : Nat) : Int) ∣ ((2 ^ (31 + (j + 1)) : Nat) : Int) :=
        Int.natCast_dvd_natCast.mpr (pow_dvd_pow 2 (by omega))
      rw [Int.bmod_eq_zero_of_dvd hdvd]
      decide

/-- The padding for the operand of an alignment, as an `int`. -/
def padForInt (z : Int) : AsmM Unit := if z ≤ 1 then pure () else padTo z (z.toNat + 1)

theorem padForInt_eq {z : Int} {n : Nat} (h : n < 2 ^ 31 → z = n) (h' : 2 ^ 31 ≤ n → z ≤ 1) :
    padForInt z = if n ≤ 1 ∨ 2 ^ 31 ≤ n then pure () else padTo n (n + 1) := by
  unfold padForInt
  by_cases hn : n < 2 ^ 31
  · rw [h hn]
    by_cases h1 : n ≤ 1
    · rw [if_pos (by omega), if_pos (.inl h1)]
    · rw [if_neg (by omega), if_neg (by omega), Int.toNat_natCast]
  · rw [if_pos (h' (by omega)), if_pos (.inr (by omega))]

/-- The alignment that is padded to, and none beyond what an `int` holds. -/
theorem padFor_eq (pow2 : Bool) (v : U32) : padFor pow2 v =
    if alignAsked pow2 v ≤ 1 ∨ 2 ^ 31 ≤ alignAsked pow2 v then pure ()
    else padTo (alignAsked pow2 v) (alignAsked pow2 v + 1) := by
  cases pow2 with
  | false =>
    have hlt : v.toInt < 2 ^ 31 := BitVec.toInt_lt
    have hasked : alignAsked false v = v.toInt.toNat := rfl
    by_cases h0 : 0 ≤ v.toInt
    · exact padForInt_eq (fun _ => (Int.toNat_of_nonneg h0).symm) fun h => by omega
    · rw [if_pos (.inl (by omega))]
      exact if_pos (by simp only [Bool.false_eq_true, if_false]; omega)
  | true =>
    obtain ⟨hsmall, hbig⟩ := doubled_toInt v.toInt.toNat
    refine padForInt_eq (n := alignAsked true v) (fun h => hsmall ?_) fun h => hbig ?_
    · by_contra hk
      exact absurd h (not_lt.mpr (Nat.pow_le_pow_right (by decide) (by omega)))
    · by_contra hk
      exact absurd h (not_le.mpr (Nat.pow_lt_pow_right (by decide) (by omega)))

end Padding

/-! ## One alignment -/

section Event

variable {src buf : List Byte} {s s₃ u t : Asm} {pow2 : Bool} {a : Expr}

/-- An alignment that is carried out pads to a multiple of what is asked for, unless that is beyond an `int`. -/
theorem alignBy_padded (hp : u.pass = .two) (h : alignBy pow2 a u = some ((), t)) :
    ∃ n, t = (u.noteAlign a).padded n ∧
      if alignAsked pow2 a.val < 2 ^ 31 then (alignAsked pow2 a.val : Int) ∣ t.curLen ∨ alignAsked pow2 a.val = 0 else n = 0 := by
  have hpad : padFor pow2 a.val (u.noteAlign a) = some ((), t) := h
  rw [padFor_eq] at hpad
  split at hpad
  · rename_i hsmall
    cases hpad
    refine ⟨0, (padded_zero _).symm, ?_⟩
    split
    · rcases Nat.le_one_iff_eq_zero_or_eq_one.mp (by omega : alignAsked pow2 a.val ≤ 1) with h0 | h1
      · exact .inr h0
      · exact .inl (by rw [h1]; exact one_dvd _)
    · rfl
  · rename_i hbig
    obtain ⟨n, rfl, hmod⟩ := padTo_padded (s := u.noteAlign a) hp hpad
    refine ⟨n, rfl, ?_⟩
    rw [if_pos (by omega)]
    exact .inl (Int.dvd_of_tmod_eq_zero hmod)

/-- A computation goes on from what its first part returns. -/
theorem run_bind {σ α β : Type} {m : StateT σ Option α} {k : α → StateT σ Option β} {s s₁ : σ} {x : α} (h : m s = some (x, s₁)) :
    (m >>= k) s = k x s₁ := by
  simp [Bind.bind, StateT.bind, h]

/-- The directives that align. -/
theorem doDirective_align {d : List Byte} (h : tableFind alignDirs d = some pow2) :
    doDirective d = doAlign pow2 ∧ d ≠ [] ∧ d.headD 0#8 = Char.byte '.' := by
  obtain ⟨⟨name, q⟩, hfind, rfl⟩ := Option.map_eq_some_iff.mp h
  have hname : asciiBytes name = d := by simpa using List.find?_some hfind
  have hmem := List.mem_of_find?_eq_some hfind
  subst hname
  simp only [alignDirs, List.mem_cons, Prod.mk.injEq, List.not_mem_nil, or_false] at hmem
  rcases hmem with ⟨rfl, rfl⟩ | ⟨rfl, rfl⟩ | ⟨rfl, rfl⟩
  · exact ⟨rfl, by decide, rfl⟩
  · exact ⟨rfl, by decide, rfl⟩
  · exact ⟨rfl, by decide, rfl⟩

/-- A directive that aligns is all there is on its line. -/
theorem asmLine_of_lineAlign {line : List Byte} {s : Asm} (h : lineAlign line s = some (some (pow2, a), u)) :
    asmLine line s = alignBy pow2 a u := by
  obtain ⟨_, s₀, hset, h⟩ := Lockstep.bind_inv h
  obtain ⟨left, s₁, hlabels, h⟩ := Lockstep.bind_inv h
  cases left with
  | false => cases h
  | true =>
    obtain ⟨mnem, s₂, hname, h⟩ := Lockstep.bind_inv h
    cases hfind : tableFind alignDirs mnem with
    | none =>
      rw [hfind] at h
      cases h
    | some q =>
      rw [hfind] at h
      obtain ⟨b, s₃, hexpr, h⟩ := Lockstep.bind_inv h
      cases h
      obtain ⟨hdir, hne, hdot⟩ := doDirective_align hfind
      have hline : asmLine line s = doDirective mnem s₂ := by
        unfold asmLine
        rw [run_bind hset, run_bind hlabels, if_pos rfl, run_bind hname, if_neg hne, if_pos hdot]
      rw [hline, hdir]
      exact run_bind hexpr

/-! ## The pass -/

variable {P : Asm → Prop} {p line : List Byte} {s' : Asm} {k : Nat} {v : Unit}

theorem lineAlign_keeps (h : LineInv P) (line : List Byte) : Keeps P (lineAlign line) := by
  have hset : Keeps P (setCursor line) := h.logic.setCursor_rel (Std.Refl.refl line)
  have hlabels : Keeps P (parseLabels (line.length + 1)) := h.logic.parseLabels_rel _
  have hname : Keeps P readName := h.logic.readName_rel
  have hexpr : Keeps P expr := h.logic.expr_rel
  refine hset.bind fun _ => hlabels.bind fun left => Keeps.branch (hname.bind fun mnem => ?_) (Keeps.ret _)
  cases tableFind alignDirs mnem with
  | none => exact Keeps.ret _
  | some q => exact hexpr.bind fun _ => Keeps.ret _

/-- One round of the loop keeps a property of the output. -/
theorem OutputInv.runLine (h : OutputInv P) (hrun : runLine line s = some (v, s')) (hs : P s) : P s' := by
  obtain ⟨s₁, hline, rfl⟩ := runLine_inv hrun
  have hvisited : P s.visited := h.quiet s _ ⟨rfl, rfl, rfl, rfl, rfl, rfl, rfl, rfl⟩ hs
  exact h.quiet s₁ _ ⟨rfl, rfl, rfl, rfl, rfl, rfl, rfl, rfl⟩ (h.lineInv.asmLine line _ _ _ hvisited hline)

/-- What a pass keeps holds where it comes to a line. -/
theorem LineReached.keeps (hc : LineReached p buf s line t) (h : OutputInv P) (hs : P s) : P t := by
  induction hc with
  | here hp => exact hs
  | later hp hrun he hrest ih => exact ih (h.runLine hrun hs)

/-- The line is assembled, and what a pass keeps holds to its end if it holds behind the line. -/
theorem LineReached.rest (hc : LineReached p buf s line t) (hrun : runLines k p buf s = some (v, s₃)) :
    ∃ t₁, asmLine line t.visited = some ((), t₁) ∧ ∀ P, OutputInv P → P t₁ → P s₃ := by
  induction hc generalizing k with
  | here hp =>
    cases k with
    | zero => cases hrun
    | succ k =>
      rw [runLines_succ, if_neg hp] at hrun
      obtain ⟨⟨⟨⟩, s₁⟩, hone, hmore⟩ := Option.bind_eq_some_iff.mp hrun
      obtain ⟨t₁, hline, rfl⟩ := runLine_inv hone
      refine ⟨t₁, hline, fun P h ht => ?_⟩
      have hnext : P { t₁ with lineNo := t₁.lineNo + 1 } := h.quiet t₁ _ ⟨rfl, rfl, rfl, rfl, rfl, rfl, rfl, rfl⟩ ht
      split at hmore
      · cases hmore
        exact hnext
      · exact h.runLines k _ _ _ _ _ hnext hmore
  | later hp hone he hrest ih =>
    cases k with
    | zero => cases hrun
    | succ k =>
      rw [runLines_succ, if_neg hp, hone, Option.bind_some] at hrun
      dsimp only at hrun
      rw [if_neg (by omega)] at hrun
      exact ih hrun

theorem pass_outputInv : OutputInv fun s => s.pass = .two where
  quiet _ _ h hs := by rw [h.pass, hs]
  emit8 s b hs := (emit8_frame s b).1.trans hs

/-- What is written stays. -/
theorem textBuf_outputInv (bs : List Byte) : OutputInv fun s => bs <+: s.textBuf where
  quiet _ _ h hs := by rw [h.textBuf]; exact hs
  emit8 s b hs := by
    unfold Asm.emit8
    split
    · exact hs
    · split
      · exact hs
      · exact hs.trans (List.prefix_append _ _)
    · exact hs
    · split <;> exact hs
    · exact hs

theorem dataBuf_outputInv (bs : List Byte) : OutputInv fun s => bs <+: s.dataBuf where
  quiet _ _ h hs := by rw [h.dataBuf]; exact hs
  emit8 s b hs := by
    unfold Asm.emit8
    split
    · exact hs
    · split <;> exact hs
    · exact hs
    · split
      · exact hs
      · exact hs.trans (List.prefix_append _ _)
    · exact hs

theorem alignAsked_ne_zero (h : AlignOperand pow2 a.val) : alignAsked pow2 a.val ≠ 0 := by
  cases pow2 with
  | true => exact (Nat.two_pow_pos _).ne'
  | false =>
    obtain ⟨k, -, hk⟩ := h rfl
    have hpos : (0 : Int) < 2 ^ k := by positivity
    simp only [alignAsked, Bool.false_eq_true, if_false]
    omega

/-- One alignment of a pass is right if and only if its section lies right. -/
theorem alignRight_iff (hrun : runPass .two src buf s = some s₃) (h : AlignsAt src buf s pow2 a u t)
    (ha : AlignOperand pow2 a.val) : AlignRight s₃ pow2 a u t ↔ AlignFits s₃ pow2 a u := by
  obtain ⟨⟨line, s', hreached, halign⟩, hpads⟩ := h
  have hpass : u.pass = .two := by
    have hs' : s'.pass = .two := hreached.keeps pass_outputInv rfl
    exact lineAlign_keeps pass_outputInv.lineInv line s'.visited _ u hs' halign
  obtain ⟨n, ht, hlen⟩ := alignBy_padded hpass hpads
  have hsec : t.curSec = u.curSec := by
    rw [ht]
    exact padded_curSec _ _
  have haddr : (alignAsked pow2 a.val : Int) ∣ s₃.sectionBase t.curSec + t.curLen ↔ AlignFits s₃ pow2 a u := by
    unfold AlignFits
    rw [hsec]
    split at hlen
    · rename_i hlt
      have hdvd := hlen.resolve_right (alignAsked_ne_zero ha)
      rw [if_pos hlt, add_zero]
      exact Int.dvd_add_left hdvd
    · rename_i hlt
      subst hlen
      rw [if_neg hlt, ht, padded_zero]
      rfl
  refine ⟨fun hr => haddr.mp hr.addr, fun hf => ?_⟩
  obtain ⟨⟨_, _⟩, hlines, rfl⟩ := Option.map_eq_some_iff.mp hrun
  obtain ⟨t₁, hline, hrest⟩ := hreached.rest hlines
  rw [asmLine_of_lineAlign halign, hpads] at hline
  cases hline
  exact ⟨⟨n, ht⟩, hrest _ (textBuf_outputInv t.textBuf) (List.prefix_refl _), hrest _ (dataBuf_outputInv t.dataBuf) (List.prefix_refl _),
    haddr.mpr hf⟩

end Event

/-- The alignments of a source that is assembled are right if and only if each section lies at a multiple of what is asked for in it. -/
theorem alignment_iff (src buf₁ buf₂ buf₃ : List Byte) (s₂ s₃ : Asm) (h : Assembled src buf₁ buf₂ buf₃ s₂ s₃) :
    (∀ pow2 a u t, AlignsAt src buf₃ { s₂ with errCount := 0 } pow2 a u t → AlignOperand pow2 a.val → AlignRight s₃ pow2 a u t) ↔
      ∀ pow2 a u t, AlignsAt src buf₃ { s₂ with errCount := 0 } pow2 a u t → AlignOperand pow2 a.val → AlignFits s₃ pow2 a u := by
  obtain ⟨⟨s₁, -, -, hemit⟩, -⟩ := h
  have hrun : runPass .two src buf₃ { s₂ with errCount := 0 } = some s₃ := by
    unfold emitPasses at hemit
    simp only [Option.bind_eq_bind, Option.bind_eq_some_iff, Option.pure_def, Option.some.injEq, Prod.mk.injEq] at hemit
    obtain ⟨_, -, _, h₃, rfl, rfl⟩ := hemit
    exact h₃
  constructor
  · exact fun hr pow2 a u t hat ha => (alignRight_iff hrun hat ha).mp (hr pow2 a u t hat ha)
  · exact fun hf pow2 a u t hat ha => (alignRight_iff hrun hat ha).mpr (hf pow2 a u t hat ha)

/-- An alignment at the start of the text. -/
def alignSource (n : String) : List Byte := asciiBytes (".align " ++ n ++ "\nnop\n")

/-- What is found on a source that is assembled. -/
theorem assembled_of_any {src : List Byte} {p : Asm → Asm → Bool}
    (h : (runPass .one src [] Asm.initial).any (fun s₁ => s₁.errCount = 0 && (emitPasses src [] [] s₁).any fun r =>
      r.2.errCount = 0 && p r.1 r.2) = true) : ∃ s₂ s₃, Assembled src [] [] [] s₂ s₃ ∧ p s₂ s₃ = true := by
  obtain ⟨s₁, h₁, hs⟩ := (Option.any_eq_true _ _).mp h
  obtain ⟨he₁, hs⟩ := Bool.and_eq_true_iff.mp hs
  obtain ⟨⟨s₂, s₃⟩, h₂, hs⟩ := (Option.any_eq_true _ _).mp hs
  obtain ⟨he₃, hp⟩ := Bool.and_eq_true_iff.mp hs
  exact ⟨s₂, s₃, ⟨⟨s₁, h₁, of_decide_eq_true he₁, h₂⟩, of_decide_eq_true he₃⟩, hp⟩

theorem alignment_iff_four : ∃ s₂ s₃, Assembled (alignSource "4") [] [] [] s₂ s₃ ∧
    ((∀ pow2 a u t, AlignsAt (alignSource "4") [] { s₂ with errCount := 0 } pow2 a u t → AlignOperand pow2 a.val →
        AlignRight s₃ pow2 a u t) ↔
      ∀ pow2 a u t, AlignsAt (alignSource "4") [] { s₂ with errCount := 0 } pow2 a u t → AlignOperand pow2 a.val →
        AlignFits s₃ pow2 a u) := by
  obtain ⟨s₂, s₃, h, -⟩ := @assembled_of_any (alignSource "4") (fun _ _ => true) (by decide +kernel)
  exact ⟨s₂, s₃, h, alignment_iff (alignSource "4") [] [] [] s₂ s₃ h⟩

/-- What stands behind `.align 8` at the start of the text is at address 84. -/
theorem alignment_false : ¬∀ (src buf₁ buf₂ buf₃ : List Byte) (s₂ s₃ : Asm), Assembled src buf₁ buf₂ buf₃ s₂ s₃ →
    ∀ pow2 a u t, AlignsAt src buf₃ { s₂ with errCount := 0 } pow2 a u t → AlignOperand pow2 a.val → AlignRight s₃ pow2 a u t := by
  intro h
  obtain ⟨s₂, s₃, hs, hfirst⟩ := @assembled_of_any (alignSource "8") (fun s₂ _ =>
    (lineAlign (fillLine (lineOf (alignSource "8")) []) (startPass .two { s₂ with errCount := 0 }).visited).any fun r =>
      r.1 = some (false, ⟨8#32, false⟩) && (alignBy false ⟨8#32, false⟩ r.2).any fun q => q.2.curSec = .text && q.2.curLen = 0)
    (by decide +kernel)
  obtain ⟨⟨_, u⟩, hline, hr⟩ := (Option.any_eq_true _ _).mp hfirst
  obtain ⟨ha, hr⟩ := Bool.and_eq_true_iff.mp hr
  obtain ⟨⟨_, t⟩, hpads, ht⟩ := (Option.any_eq_true _ _).mp hr
  obtain ⟨hsec, hlen⟩ := Bool.and_eq_true_iff.mp ht
  obtain rfl := of_decide_eq_true ha
  have hright := (h _ _ _ _ _ _ hs false ⟨8#32, false⟩ u t ⟨⟨_, _, .here (by decide), hline⟩, hpads⟩ fun _ => ⟨3, by decide, rfl⟩).addr
  rw [of_decide_eq_true hsec, of_decide_eq_true hlen] at hright
  have hbad : ((8 : Nat) : Int) ∣ elfHdrSize + 0 := hright
  exact absurd hbad (by decide)

end MiniOs32
