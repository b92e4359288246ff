import MiniOs32.Lemmas.Cpu
import MiniOs32.Lemmas.Emits

/-!
# The frame pointer

No code of an expression writes `ebp`, but for what a call runs. A run in a text without calls, of whatever else, ends with the frame
pointer it started with, whichever way it jumps.
-/

namespace MiniOs32

/-- The instructions that leave `ebp` as it is. -/
def Insn.keepsFrame : Insn → Bool
  | .pop r | .movImm r _ | .mov r _ | .load r _ | .alu _ r _ | .addImm r _ | .subImm r _ => decide (r ≠ .ebp)
  | .call _ | .callEax | .int80 | .leave => false
  | _ => true

variable {F : Type} {w : World F}

theorem Cpu.set_keeps {r : Reg} (h : r ≠ .ebp) (s : Cpu F) (v : U32) : (s.set r v).regs .ebp = s.regs .ebp :=
  Cpu.set_other (Ne.symm h) s v

/-- One instruction. -/
theorem exec_keepsFrame {i : Insn} {s s' : Cpu F} (hi : i.keepsFrame = true) (h : i.exec w s = some s') :
    s'.regs .ebp = s.regs .ebp := by
  cases i with
  | pop r =>
    have hr : r ≠ .ebp := of_decide_eq_true hi
    cases h
    exact Cpu.pop_other (Ne.symm hr) (by decide) s
  | movImm r v | mov r v | load r v =>
    have hr : r ≠ .ebp := of_decide_eq_true hi
    cases h
    exact Cpu.set_keeps hr s _
  | alu op r r' =>
    have hr : r ≠ .ebp := of_decide_eq_true hi
    cases h
    exact Cpu.set_keeps hr s _
  | addImm r v | subImm r v =>
    have hr : r ≠ .ebp := of_decide_eq_true hi
    cases h
    exact Cpu.set_keeps hr s _
  | div r | idiv r =>
    obtain ⟨qr, -, rfl⟩ := Option.map_eq_some_iff.mp h
    simp
  | call x => cases hi
  | callEax => cases hi
  | int80 => cases hi
  | leave => cases hi
  | fld disp | fild disp =>
    cases h
    simp only [Cpu.fpush]
    split <;> rfl
  | _ =>
    cases h
    rfl

/-- Code without instructions that write `ebp`. -/
def KeepsFrame (c : Code) : Prop := ∀ i : Insn, .op i ∈ c → i.keepsFrame = true

namespace KeepsFrame

variable {c c' : Code}

theorem nil : KeepsFrame [] := fun _ h => absurd h List.not_mem_nil

theorem append (h : KeepsFrame c) (h' : KeepsFrame c') : KeepsFrame (c ++ c') := by
  intro i hi
  rcases List.mem_append.mp hi with hi | hi
  · exact h i hi
  · exact h' i hi

theorem ops {is : List Insn} (h : is.all Insn.keepsFrame = true) : KeepsFrame (MiniOs32.ops is) := by
  intro i hi
  obtain ⟨i', hi', heq⟩ := List.mem_map.mp hi
  cases heq
  exact List.all_eq_true.mp h i hi'

theorem labelAt (l : Nat) : KeepsFrame (MiniOs32.labelAt l) := by simp [KeepsFrame, MiniOs32.labelAt]

theorem jumpTo (l : Nat) : KeepsFrame (MiniOs32.jumpTo l) := by simp [KeepsFrame, MiniOs32.jumpTo]

end KeepsFrame

/-- What is behind a label is the end of the text. -/
theorem behind_suffix {ι κ : Type} {l : Nat} {text k : List (Item ι κ)} (h : behind l text = some k) : k <:+ text := by
  induction text with
  | nil => cases h
  | cons i text ih =>
    cases i with
    | label l' =>
      simp only [behind] at h
      split at h
      · cases h
        exact List.suffix_cons _ _
      · exact (ih h).trans (List.suffix_cons _ _)
    | op i | jump l' | branch c l' => exact (ih h).trans (List.suffix_cons _ _)

/-- Any run in such a text. -/
theorem runs_keepsFrame {text k k' : Code} {s s' : Cpu F} (ht : KeepsFrame text) (hk : k <:+ text)
    (h : (machine w).Runs text (k, s) (k', s')) : s'.regs .ebp = s.regs .ebp := by
  have hinv : k' <:+ text ∧ s'.regs .ebp = s.regs .ebp := by
    refine Relation.ReflTransGen.trans_induction_on (motive := fun {c c'} _ => c.1 <:+ text → c'.1 <:+ text ∧
      c'.2.regs .ebp = c.2.regs .ebp) h (fun c hc => ⟨hc, rfl⟩) ?_ ?_ hk
    · intro c c' hstep hc
      cases hstep with
      | op hi => exact ⟨(List.suffix_cons _ _).trans hc, exec_keepsFrame (ht _ (hc.subset List.mem_cons_self)) hi⟩
      | label => exact ⟨(List.suffix_cons _ _).trans hc, rfl⟩
      | jump hb => exact ⟨behind_suffix hb, rfl⟩
      | taken hcond hb => exact ⟨behind_suffix hb, rfl⟩
      | passed hcond => exact ⟨(List.suffix_cons _ _).trans hc, rfl⟩
    · intro c₁ c₂ c₃ _ _ ih₁ ih₂ hc
      obtain ⟨h₁, he₁⟩ := ih₁ hc
      obtain ⟨h₂, he₂⟩ := ih₂ h₁
      exact ⟨h₂, he₂.trans he₁⟩
  exact hinv.2

/-! ## Code without calls -/

/-- A tree without calls. -/
def Node.callFree : Node → Bool
  | .num _ | .fnum _ | .str _ | .var _ => true
  | .cast _ a | .unary _ a | .addr a | .deref a | .dot a _ | .arrow a _ => a.callFree
  | .bin _ a b | .logical _ a b | .assign a b | .index a b => a.callFree && b.callFree
  | .tern c a b => c.callFree && a.callFree && b.callFree
  | .vaArg _ _ | .call _ _ => false

/-- A job without calls. -/
def Job.callFree : Job → Bool
  | .tree _ e | .cond _ e | .operand _ _ e => e.callFree
  | .args _ _ => false

section Sequences

variable (T : CodeEnv) (t t' : CType) (op : BinOp)

theorem keepsFrame_loadAddr (s : CSym) : KeepsFrame (ops (loadAddr s)) := by
  refine .ops ?_
  unfold loadAddr
  split <;> rfl

theorem keepsFrame_loadFromAddr : KeepsFrame (ops (loadFromAddr t)) := by
  refine .ops ?_
  unfold loadFromAddr
  split <;> rfl

theorem keepsFrame_storeToAddr : (storeToAddr t).all Insn.keepsFrame = true := by
  unfold storeToAddr
  split <;> rfl

theorem keepsFrame_convStack (disp : U32) : (convStack t t' disp).all Insn.keepsFrame = true := by
  unfold convStack
  split
  · rfl
  · split <;> rfl

theorem keepsFrame_testZero : (testZero t).all Insn.keepsFrame = true := by
  unfold testZero
  split <;> rfl

theorem keepsFrame_convStored : (convStored t t').all Insn.keepsFrame = true := by
  unfold convStored
  split
  · rw [boolify, List.all_append, keepsFrame_testZero]
    rfl
  · exact keepsFrame_convStack t t' 0#32

theorem keepsFrame_scaleTop (sz : U32) : (scaleTop sz).all Insn.keepsFrame = true := by
  unfold scaleTop scale
  split <;> rfl

theorem keepsFrame_intOp (uns : Bool) : (intOp op uns).all Insn.keepsFrame = true := by
  cases op <;> cases uns <;> rfl

theorem keepsFrame_convBoth : (convBoth t t').all Insn.keepsFrame = true := by
  unfold convBoth
  rw [List.all_append]
  split <;> split <;> rfl

theorem keepsFrame_binCode : KeepsFrame (ops (binCode T op t t')) := by
  refine .ops ?_
  have hint : ∀ uns : Bool, (popBoth ++ intOp op uns ++ pushEax).all Insn.keepsFrame = true := by
    intro uns
    rw [List.all_append, List.all_append, keepsFrame_intOp]
    rfl
  unfold binCode
  dsimp only
  split
  · exact hint _
  split
  · split
    · rw [List.all_append, keepsFrame_convBoth]
      rfl
    · exact hint _
  split
  · rw [List.all_append, List.all_append, List.all_append, keepsFrame_scaleTop, keepsFrame_intOp]
    rfl
  split
  · unfold scale
    split <;> rfl
  split
  · unfold divBySize
    split <;> rfl
  split
  · rw [List.all_append, keepsFrame_convBoth]
    cases op <;> rfl
  · exact hint _

theorem keepsFrame_unaryCode (op : UnaryOp) : KeepsFrame (ops (unaryCode op t)) := by
  refine .ops ?_
  cases op with
  | neg =>
    unfold unaryCode
    dsimp only
    split <;> rfl
  | not =>
    rw [unaryCode, List.all_append, keepsFrame_testZero]
    rfl
  | compl => rfl

theorem keepsFrame_castCode : KeepsFrame (ops (castCode t t')) := by
  refine .ops ?_
  unfold castCode
  split
  · rw [boolify, List.all_append, keepsFrame_testZero]
    rfl
  · rw [List.append_eq, List.all_append, keepsFrame_convStack]
    rfl
  · rw [List.append_eq, List.all_append, keepsFrame_convStack]
    rfl
  · exact keepsFrame_convStack _ _ _

theorem keepsFrame_assignCode : KeepsFrame (ops (assignCode T t t')) := by
  refine .ops ?_
  unfold assignCode
  split
  · rfl
  · rw [List.all_append, keepsFrame_convStored, keepsFrame_storeToAddr]
    rfl

theorem keepsFrame_indexCode : KeepsFrame (ops (indexCode T t t')) := by
  refine .ops ?_
  unfold indexCode
  rw [List.all_append, List.all_append, keepsFrame_scaleTop]
  split <;> rfl

theorem keepsFrame_fieldAddr (off : U32) : KeepsFrame (ops (fieldAddr off)) := by
  refine .ops ?_
  unfold fieldAddr
  split <;> rfl

theorem keepsFrame_condJump (no : Nat) : KeepsFrame (condJump t no) := by
  rw [condJump, List.append_eq]
  refine .append (.ops (keepsFrame_testZero t)) ?_
  simp [KeepsFrame]

variable {T t t' op}

theorem KeepsFrame.finish {c : Code} (h : KeepsFrame c) (m : GenMode) (t : CType) : KeepsFrame (m.finish t c).2 := by
  unfold GenMode.finish
  split
  · exact h
  · split
    · exact h
    · exact h.append (keepsFrame_loadFromAddr t)

theorem KeepsFrame.finishDeref {c : Code} (h : KeepsFrame c) (m : GenMode) (t : CType) : KeepsFrame (m.finishDeref t c).2 := by
  unfold GenMode.finishDeref
  split
  · exact h
  · split
    · exact h
    · exact h.append (keepsFrame_loadFromAddr t)

end Sequences

/-- The code of a tree without calls keeps the frame pointer. -/
theorem Emits.keepsFrame {ok : Use → Prop} {T T' : CodeEnv} {j : Job} {t : CType} {n : U32} {c : Code}
    (h : Emits ok T j t n c T') (hj : j.callFree = true) : KeepsFrame c := by
  induction h with
  | num v => exact .ops rfl
  | fnum v => exact .ops rfl
  | str text => exact .ops rfl
  | @var T m x s hs => exact KeepsFrame.finish (keepsFrame_loadAddr s) m s.type
  | func m hs hf => exact .ops rfl
  | deref m he hb ih => exact KeepsFrame.finishDeref (ih hj) m _
  | @index T T₁ T₂ m e i bt b it c ci he hb hi ihe ihi =>
    obtain ⟨h₁, h₂⟩ := Bool.and_eq_true_iff.mp hj
    exact KeepsFrame.finish (((ihe h₁).append (ihi h₂)).append (keepsFrame_indexCode T₂ b it)) m b
  | dot m he hf ih => exact KeepsFrame.finish ((ih hj).append (keepsFrame_fieldAddr _)) m _
  | arrow m he hb hf ih => exact KeepsFrame.finish ((ih hj).append (keepsFrame_fieldAddr _)) m _
  | addr he ih => exact ih hj
  | assign ha hb hl hr ht iha ihb =>
    obtain ⟨h₁, h₂⟩ := Bool.and_eq_true_iff.mp hj
    exact ((iha h₁).append (ihb h₂)).append (keepsFrame_assignCode _ _ _)
  | condJumps hl he ih => exact (ih hj).append (.labelAt _)
  | condValue hl he ht ih => exact (ih hj).append (keepsFrame_condJump _ _)
  | tern hta htb hr hc ha hb ihc iha ihb =>
    obtain ⟨h₁₂, h₃⟩ := Bool.and_eq_true_iff.mp hj
    obtain ⟨h₁, h₂⟩ := Bool.and_eq_true_iff.mp h₁₂
    exact (((((((ihc h₁).append (iha h₂)).append (.ops (keepsFrame_convStack _ _ _))).append (.jumpTo _)).append (.labelAt _)).append
      (ihb h₃)).append (.ops (keepsFrame_convStack _ _ _))).append (.labelAt _)
  | operandJumps hl he ih => exact ih hj
  | operandValue hl he ht ih => exact ((ih hj).append (keepsFrame_condJump _ _)).append (.jumpTo _)
  | logical yes no or ha hb iha ihb =>
    obtain ⟨h₁, h₂⟩ := Bool.and_eq_true_iff.mp hj
    exact ((iha h₁).append (.labelAt _)).append (ihb h₂)
  | logicalValue he ih =>
    exact (ih hj).append
      ((((((KeepsFrame.labelAt _).append (.ops rfl)).append (.jumpTo _)).append (.labelAt _)).append (.ops rfl)).append (.labelAt _))
  | cast ty he ht ih => exact (ih hj).append (keepsFrame_castCode _ _)
  | unary he hu ht ih => exact (ih hj).append (keepsFrame_unaryCode _ _)
  | bin ha hb ht iha ihb =>
    obtain ⟨h₁, h₂⟩ := Bool.and_eq_true_iff.mp hj
    exact ((iha h₁).append (ihb h₂)).append (keepsFrame_binCode _ _ _ _)
  | _ => cases hj

/-- So does generated code. -/
theorem gen_keepsFrame {T : CodeEnv} {m : GenMode} {e : Node} {r : CType × Code × CodeEnv} (he : e.callFree = true)
    (h : gen T m e = some r) : KeepsFrame r.2.1 :=
  (@gen_emits (fun _ => True) (fun _ => trivial) T m e r h).keepsFrame he

end MiniOs32
