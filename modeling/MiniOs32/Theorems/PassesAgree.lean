import MiniOs32.Lemmas.AsPasses

/-!
# The assembler's passes agree

The first pass measures the source and the second must lay it out the same way, or every label after the first difference is
wrong. It does so on every source in which no alignment names a symbol, the sections fit their buffers, the second pass has at most
twenty errors of its own before the last line, and no character literal is cut off by the end of its line.
-/

namespace MiniOs32

/-- What the first pass has to leave behind for the second to follow it. -/
structure Settled (s : Asm) : Prop where
  text : s.textLen ≤ maxText
  data : s.dataLen ≤ maxData
  align : s.trace.symAlign = false
  line : s.trace.pastEnd = false
  few : ∀ v ∈ s.trace.visits, slips s.defines v.2.1 v.2.2 ≤ 20

instance (s : Asm) : Decidable (Settled s) :=
  decidable_of_iff (s.textLen ≤ maxText ∧ s.dataLen ≤ maxData ∧ s.trace.symAlign = false ∧ s.trace.pastEnd = false ∧
    ∀ v ∈ s.trace.visits, slips s.defines v.2.1 v.2.2 ≤ 20)
    ⟨fun ⟨h₁, h₂, h₃, h₄, h₅⟩ => ⟨h₁, h₂, h₃, h₄, h₅⟩, fun ⟨h₁, h₂, h₃, h₄, h₅⟩ => ⟨h₁, h₂, h₃, h₄, h₅⟩⟩

theorem Settled.clean {s : Asm} (h : Settled s) (he : s.errCount = 0) : Clean s.defines s :=
  ⟨he, h.text, h.data, h.align, h.line, fun _ hn => hn, h.few⟩

/-- The two passes start in step when the second finds every known name defined. -/
theorem startPass_inStep {known : List Byte → Bool} (s t : Asm) (he : t.errCount = 0)
    (hd : ∀ name, known name = true → t.defines name = true) : InStep known (startPass .one s) (startPass .two t) :=
  ⟨rfl, rfl, rfl, rfl, rfl, rfl, by simp [startPass, he], hd, rfl, rfl, nofun⟩

theorem linkSym_name (s : Asm) (y : Sym) : (s.linkSym y).name = y.name := by
  unfold Asm.linkSym
  split <;> rfl

theorem linkSym_defined (s : Asm) (y : Sym) : (s.linkSym y).defined = y.defined := by
  unfold Asm.linkSym
  split <;> rfl

/-- The addresses given to labels change no definition. -/
theorem assignAddrs_defines (s : Asm) (name : List Byte) : (assignAddrs s).defines name = s.defines name := by
  have hfind : symFind (assignAddrs s).syms name = (symFind s.syms name).map s.setBases.linkSym := by
    unfold symFind assignAddrs
    simp only [List.find?_map, Function.comp_def, linkSym_name]
  unfold Asm.defines
  rw [hfind]
  cases symFind s.syms name with
  | none => rfl
  | some y => exact linkSym_defined _ y

/-- One run of the second pass, from any state that has the names of the first and no error. -/
theorem runPass_two_agrees (src buf buf' : List Byte) (hbuf : buf'.length = buf.length) {s s₁ : Asm} (t : Asm)
    (h : runPass .one src buf s = some s₁) (he : s₁.errCount = 0) (hs : Settled s₁) (het : t.errCount = 0)
    (hd : ∀ name, s₁.defines name = true → t.defines name = true) :
    ∃ t', runPass .two src buf' t = some t' ∧ InStep s₁.defines s₁ t' := by
  unfold runPass at h ⊢
  obtain ⟨⟨_, s'⟩, hrun, rfl⟩ := Option.map_eq_some_iff.mp h
  obtain ⟨t', ht, hR⟩ := runLines_inStep _ src buf buf' hbuf _ _ (startPass_inStep s t het hd) _ _ hrun (hs.clean he)
  exact ⟨t', by rw [ht]; rfl, hR⟩

/-- A jump to itself, on a line of its own. -/
def loopSource : List Byte := asciiBytes "nop\nfoo: jmp foo\n"

/-- An empty line buffer. -/
def clearBuf : List.Vector Byte 256 := List.Vector.replicate 256 0#8

end MiniOs32
