import MiniOs32.Lib.Returns
import MiniOs32.Lemmas.AsForms

/-!
# What a pass keeps

`LineInv` lists the steps a line is made of; a property they all keep is kept by every line. A line writes output only through
`emit8`: every other step leaves the buffers, their lengths, the pass and the section bases alone. So whatever depends on these
alone and is kept by `emit8` is kept by a whole pass.
-/

namespace MiniOs32

/-- A property that every step a line can take keeps. -/
structure LineInv (P : Asm → Prop) : Prop where
  err : ∀ s msg d, P s → P (s.err msg d)
  setLp : ∀ s l, P s → P { s with lp := l }
  advance : ∀ s, P s → P s.advance
  noteLit : ∀ s, P s → P s.noteLit
  emit8 : ∀ s b, P s → P (s.emit8 b)
  noteEmit : ∀ s, P s → P s.noteEmit
  noteRef : ∀ s name, P s → P (s.noteRef name)
  noteScale : ∀ s sc, P s → P (s.noteScale sc)
  noteAlign : ∀ s a, P s → P (s.noteAlign a)
  addBss : ∀ s n, P s → P { s with bssLen := s.bssLen + n }
  setSec : ∀ s sec, P s → P { s with curSec := sec }
  define : ∀ s name v, P s → P (s.define name v)
  placeLabel : ∀ s name, P s → P (s.placeLabel name)

section

variable {P : Asm → Prop} (h : LineInv P)

include h

theorem LineInv.padTo (align : Int) (k : Nat) : Keeps P (padTo align k) := by
  induction k with
  | zero => exact Keeps.stuck fun _ => rfl
  | succ k ih =>
    have hone : Keeps P (modify Asm.padOne : AsmM Unit) := by
      refine Keeps.of_eq (fun _ => rfl) fun s hs => ?_
      show P s.padOne
      unfold Asm.padOne
      split
      · exact h.addBss s 1 hs
      · exact h.emit8 s _ hs
      · exact h.emit8 s _ hs
    refine Keeps.bind (Keeps.of_eq (fun _ => rfl) fun _ hs => hs) fun _ => Keeps.branch (Keeps.ret _) ?_
    exact hone.bind fun _ => ih

theorem LineInv.alignBy (pow2 : Bool) (a : Expr) : Keeps P (alignBy pow2 a) := by
  have hnote : Keeps P (modify fun s => s.noteAlign a : AsmM Unit) := Keeps.of_eq (fun _ => rfl) fun s => h.noteAlign s a
  exact hnote.bind fun _ => Keeps.branch (Keeps.ret _) (h.padTo _ _)

theorem LineInv.symValue (s : Asm) (name : List Byte) (hs : P s) : P (s.symValue name).2 := by
  unfold Asm.symValue
  split
  · exact h.noteRef s name hs
  · split
    · exact h.noteRef s name hs
    · exact h.err _ _ _ (h.noteRef s name hs)

theorem LineInv.scaleBits (s : Asm) (sc : Expr) (hs : P s) : P (s.scaleBits sc).2 := by
  have hnote := h.noteScale s sc hs
  unfold Asm.scaleBits
  split_ifs
  · exact hnote
  · exact hnote
  · exact hnote
  · exact hnote
  · exact h.err _ _ _ hnote

/-- A line keeps the property, as a comparison of a run with itself. -/
def LineInv.logic : AsmLogic where
  exact := True
  rel _ m _ := Keeps P m
  ret_rel _ := Keeps.ret _
  bind_rel hm hk := hm.bind fun a => hk a a (Std.Refl.refl a)
  spin_rel := Keeps.stuck fun _ => rfl
  err_rel msg d := Keeps.of_eq (fun _ => rfl) fun s => h.err s msg d
  peek_rel := Keeps.of_eq (fun _ => rfl) fun _ hs => hs
  looksAt_rel _ _ _ := Keeps.of_eq (fun _ => rfl) fun _ hs => hs
  atDot_rel := Keeps.of_eq (fun _ => rfl) fun _ hs => hs
  currentSec_rel := Keeps.of_eq (fun _ => rfl) fun _ hs => hs
  fuel_rel f _ _ hm := fun s a s' hs hrun => hm (f s.lp.length) s a s' hs hrun
  advance_rel := Keeps.of_eq (fun _ => rfl) h.advance
  noteLit_rel := Keeps.of_eq (fun _ => rfl) h.noteLit
  takeSpan_rel _ _ _ := Keeps.of_eq (fun _ => rfl) fun s => h.setLp s _
  cursor_rel := Keeps.of_eq (fun _ => rfl) fun _ hs => hs
  setCursor_rel _ := Keeps.of_eq (fun _ => rfl) fun s => h.setLp s _
  emit8_rel _ := Keeps.of_eq (fun _ => rfl) fun s hs => h.emit8 _ _ (h.noteEmit s hs)
  symValue_rel name := Keeps.of_eq (fun _ => rfl) fun s => h.symValue s name
  currentAddr_rel := Keeps.of_eq (fun _ => rfl) fun _ hs => hs
  scaleBits_rel _ := Keeps.of_eq (fun _ => rfl) fun s => h.scaleBits s _
  relTo_rel _ := Keeps.of_eq (fun _ => rfl) fun _ hs => hs
  addBss_rel n := Keeps.of_eq (fun _ => rfl) fun s => h.addBss s n
  setSec_rel sec := Keeps.of_eq (fun _ => rfl) fun s => h.setSec s sec
  alignBy_rel pow2 a _ _ := h.alignBy pow2 a
  define_rel name v _ _ := Keeps.of_eq (fun _ => rfl) fun s => h.define s name v
  placeLabel_rel name := Keeps.of_eq (fun _ => rfl) fun s => h.placeLabel s name

/-- What every step of a line keeps, the line keeps. -/
theorem LineInv.asmLine (line : List Byte) : Keeps P (asmLine line) := h.logic.asmLine_rel (Std.Refl.refl line)

end

/-! ## The output -/

/-- A step that writes no output. -/
structure SameOutput (s s' : Asm) : Prop where
  pass : s'.pass = s.pass
  textBuf : s'.textBuf = s.textBuf
  dataBuf : s'.dataBuf = s.dataBuf
  textLen : s'.textLen = s.textLen
  dataLen : s'.dataLen = s.dataLen
  baseText : s'.baseText = s.baseText
  baseData : s'.baseData = s.baseData
  baseBss : s'.baseBss = s.baseBss

/-- A property of the output that the steps of a line keep. -/
structure OutputInv (P : Asm → Prop) : Prop where
  quiet : ∀ s s', SameOutput s s' → P s → P s'
  emit8 : ∀ s b, P s → P (s.emit8 b)

theorem symIntern_sameOutput (s : Asm) (name : List Byte) : SameOutput s (s.symIntern name).2 := by
  unfold Asm.symIntern
  split_ifs <;> exact ⟨rfl, rfl, rfl, rfl, rfl, rfl, rfl, rfl⟩

theorem symStore_sameOutput {s s' : Asm} (h : SameOutput s s') (name : List Byte) (f : Sym → Sym) :
    SameOutput s (s'.symStore name f) :=
  ⟨h.pass, h.textBuf, h.dataBuf, h.textLen, h.dataLen, h.baseText, h.baseData, h.baseBss⟩

theorem define_sameOutput (s : Asm) (name : List Byte) (v : Expr) : SameOutput s (s.define name v) := by
  obtain ⟨h₁, h₂, h₃, h₄, h₅, h₆, h₇, h₈⟩ := symIntern_sameOutput (s.noteEqu name v) name
  unfold Asm.define
  split
  all_goals
    rename_i heq
    rw [heq] at h₁ h₂ h₃ h₄ h₅ h₆ h₇ h₈
    exact ⟨h₁, h₂, h₃, h₄, h₅, h₆, h₇, h₈⟩

theorem recordLabel_sameOutput (s : Asm) (name : List Byte) : SameOutput s (s.recordLabel name) := by
  obtain ⟨h₁, h₂, h₃, h₄, h₅, h₆, h₇, h₈⟩ := symIntern_sameOutput s name
  unfold Asm.recordLabel
  split
  · rename_i heq
    rw [heq] at h₁ h₂ h₃ h₄ h₅ h₆ h₇ h₈
    refine symStore_sameOutput ?_ _ _
    split <;> exact ⟨h₁, h₂, h₃, h₄, h₅, h₆, h₇, h₈⟩
  · rename_i heq
    rw [heq] at h₁ h₂ h₃ h₄ h₅ h₆ h₇ h₈
    exact ⟨h₁, h₂, h₃, h₄, h₅, h₆, h₇, h₈⟩

theorem placeLabel_sameOutput (s : Asm) (name : List Byte) : SameOutput s (s.placeLabel name) := by
  unfold Asm.placeLabel
  simp only
  split
  · obtain ⟨h₁, h₂, h₃, h₄, h₅, h₆, h₇, h₈⟩ := recordLabel_sameOutput
      { s with trace := { s.trace with labels := ⟨name, s.curSec, s.curLen⟩ :: s.trace.labels } } name
    exact ⟨h₁, h₂, h₃, h₄, h₅, h₆, h₇, h₈⟩
  · exact ⟨rfl, rfl, rfl, rfl, rfl, rfl, rfl, rfl⟩

theorem OutputInv.lineInv {P : Asm → Prop} (h : OutputInv P) : LineInv P where
  err s _ _ := h.quiet s _ ⟨rfl, rfl, rfl, rfl, rfl, rfl, rfl, rfl⟩
  setLp s _ := h.quiet s _ ⟨rfl, rfl, rfl, rfl, rfl, rfl, rfl, rfl⟩
  advance s := h.quiet s _ ⟨rfl, rfl, rfl, rfl, rfl, rfl, rfl, rfl⟩
  noteLit s := h.quiet s _ ⟨rfl, rfl, rfl, rfl, rfl, rfl, rfl, rfl⟩
  emit8 := h.emit8
  noteEmit s := h.quiet s _ ⟨rfl, rfl, rfl, rfl, rfl, rfl, rfl, rfl⟩
  noteRef s _ := h.quiet s _ ⟨rfl, rfl, rfl, rfl, rfl, rfl, rfl, rfl⟩
  noteScale s _ := h.quiet s _ ⟨rfl, rfl, rfl, rfl, rfl, rfl, rfl, rfl⟩
  noteAlign s _ := h.quiet s _ ⟨rfl, rfl, rfl, rfl, rfl, rfl, rfl, rfl⟩
  addBss s _ := h.quiet s _ ⟨rfl, rfl, rfl, rfl, rfl, rfl, rfl, rfl⟩
  setSec s _ := h.quiet s _ ⟨rfl, rfl, rfl, rfl, rfl, rfl, rfl, rfl⟩
  define s name v := h.quiet s _ (define_sameOutput s name v)
  placeLabel s name := h.quiet s _ (placeLabel_sameOutput s name)

theorem OutputInv.runLines {P : Asm → Prop} (h : OutputInv P) (k : Nat) (p buf : List Byte) : Keeps P (runLines k p buf) := by
  have hquiet : ∀ {f : Asm → Asm}, (∀ s, SameOutput s (f s)) → Keeps P (modify f : AsmM Unit) :=
    fun hf => Keeps.of_eq (fun _ => rfl) fun s => h.quiet s _ (hf s)
  induction k generalizing p buf with
  | zero => exact Keeps.stuck fun _ => rfl
  | succ k ih =>
    refine Keeps.branch (Keeps.ret _) (Keeps.bind ?_ fun _ => Keeps.bind ?_ fun s => Keeps.branch (Keeps.ret _) (ih _ _))
    · refine Keeps.bind (hquiet fun _ => ⟨rfl, rfl, rfl, rfl, rfl, rfl, rfl, rfl⟩) fun _ => ?_
      exact (h.lineInv.asmLine _).bind fun _ => hquiet fun _ => ⟨rfl, rfl, rfl, rfl, rfl, rfl, rfl, rfl⟩
    · exact Keeps.of_eq (fun _ => rfl) fun _ hs => hs

/-- A pass keeps a property of the output that holds when it starts. -/
theorem OutputInv.runPass {P : Asm → Prop} (h : OutputInv P) {which : Pass} {src buf : List Byte} {s s' : Asm}
    (hs : P (startPass which s)) (hrun : runPass which src buf s = some s') : P s' := by
  obtain ⟨⟨_, _⟩, hlines, rfl⟩ := Option.map_eq_some_iff.mp hrun
  exact h.runLines _ _ _ _ _ _ hs hlines

end MiniOs32
