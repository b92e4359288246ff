import MiniOs32.Lemmas.AsLogic

/-!
# Two runs of the assembler: instructions, directives and lines

Two runs read the same expression with the same note on whether a symbol takes part, and the same value when none does. Every
choice of an encoding looks only at these, so both runs pick the same form, and the form decides the size.
-/

namespace MiniOs32

variable {exact : Prop} (L : AsmLogic)

/-! ## Encodings -/

theorem modOf_same {e e' : Expr} (h : e.Same exact e') (b : RegNum) : modOf e' b = modOf e b := by
  unfold modOf
  rw [h.hasSym]
  split
  · rfl
  · rename_i hs
    rw [h.val (.inr (by simpa using hs))]

theorem Agree.congr {α β : Type} {a a' : α} (h : Agree exact a a') (f : α → β) : Agree exact (f a) (f a') :=
  fun he => congrArg f (h he)

theorem AsmLogic.emit16_rel {v v' : U32} (h : Agree L.exact v v') : L.rel Eq (emit16 v) (emit16 v') :=
  (L.emit8_rel (h.congr (·.extractLsb' 0 8))).seq fun _ => L.emit8_rel (h.congr (·.extractLsb' 8 8))

theorem AsmLogic.emit32_rel {v v' : U32} (h : Agree L.exact v v') : L.rel Eq (emit32 v) (emit32 v') :=
  (L.emit16_rel (h.congr (· &&& 0xFFFF#32))).seq fun _ => L.emit16_rel (h.congr fun v => v.sshiftRight 16 &&& 0xFFFF#32)

theorem AsmLogic.emitFill_rel {b b' : Byte} (h : Agree L.exact b b') (n : Nat) : L.rel Eq (emitFill b n) (emitFill b' n) := by
  induction n with
  | zero => exact .ret rfl
  | succ n ih => exact (L.emit8_rel h).seq fun _ => ih

theorem AsmLogic.emitDisp_rel (mod : BitVec 2) {v v' : U32} (h : Agree L.exact v v') :
    L.rel Eq (emitDisp mod v) (emitDisp mod v') :=
  .branch (L.emit8_rel (h.congr _)) (.branch (L.emit32_rel h) (.ret rfl))

/-- The displacement and scale of an operand may differ, the bytes they take may not. -/
theorem AsmLogic.emitModrm_rel (reg : RegNum) {o o' : Operand} (h : o.Same L.exact o') :
    L.rel Eq (emitModrm reg o) (emitModrm reg o') := by
  unfold emitModrm
  simp only [h.kind, h.base, h.index, h.reg, modOf_same h.disp]
  have hb : ∀ b : Byte, L.rel Eq (emit8 b) (emit8 b) := fun _ => L.emit8_rel fun _ => rfl
  have hsib : ∀ (f : BitVec 2 → Byte) {k k' : Unit → AsmM Unit}, L.rel Eq (k ()) (k' ()) →
      L.rel Eq (scaleBits o.scale >>= fun ss => emit8 (f ss) >>= k) (scaleBits o'.scale >>= fun ss => emit8 (f ss) >>= k') :=
    fun f _ _ hk => (L.scaleBits_rel h.scale).bind fun _ _ hss => (L.emit8_rel (hss.congr f)).seq fun _ => hk
  refine .branch (hb _) (.branch (L.err_rel _ _) ?_)
  cases o.base with
  | none =>
    cases o.index with
    | none => exact (hb _).seq fun _ => L.emit32_rel h.disp.agree
    | some i => exact (hb _).seq fun _ => hsib _ (L.emit32_rel h.disp.agree)
  | some b =>
    cases o.index with
    | none =>
      refine .branch ?_ ((hb _).seq fun _ => L.emitDisp_rel _ h.disp.agree)
      exact (hb _).seq fun _ => hsib _ (L.emitDisp_rel _ h.disp.agree)
    | some i => exact (hb _).seq fun _ => hsib _ (L.emitDisp_rel _ h.disp.agree)

theorem AsmLogic.emitRel32_rel {e e' : Expr} (h : e.Same L.exact e') : L.rel Eq (emitRel32 e) (emitRel32 e') :=
  (L.relTo_rel h).bind fun _ _ hv => L.emit32_rel hv

theorem Operand.Same.immFits8 {o o' : Operand} (h : o.Same exact o') : o'.immFits8 = o.immFits8 := by
  unfold Operand.immFits8
  rw [h.disp.hasSym]
  cases hs : o.disp.hasSym with
  | true => rw [Bool.not_true, Bool.false_and, Bool.false_and]
  | false => rw [h.disp.val (.inr hs)]

theorem Operand.Same.isAbs {o o' : Operand} (h : o.Same exact o') : o'.isAbs = o.isAbs := by
  unfold Operand.isAbs
  rw [h.kind, h.base, h.index]

theorem Operand.Same.isAcc {o o' : Operand} (h : o.Same exact o') : o'.isAcc = o.isAcc := by
  unfold Operand.isAcc
  rw [h.kind, h.reg]

theorem Operand.Same.isOne {o o' : Operand} (h : o.Same exact o') : o'.isOne = o.isOne := by
  unfold Operand.isOne
  rw [h.disp.hasSym]
  cases hs : o.disp.hasSym with
  | true => rw [Bool.not_true, Bool.false_and, Bool.false_and]
  | false => rw [h.disp.val (.inr hs)]

/-! ## Instruction groups -/

/-- Immediates of the same kind, and so of the same size. -/
inductive Imm.Same (exact : Prop) : Imm → Imm → Prop where
  | none : Imm.Same exact .none .none
  | imm8 {v v' : U32} (h : Agree exact v v') : Imm.Same exact (.imm8 v) (.imm8 v')
  | imm32 {v v' : U32} (h : Agree exact v v') : Imm.Same exact (.imm32 v) (.imm32 v')
  | rel32 {e e' : Expr} (h : e.Same exact e') : Imm.Same exact (.rel32 e) (.rel32 e')

/-- The same form, up to the values of symbols. -/
inductive Form.Same (exact : Prop) : Form → Form → Prop where
  | op (opcode : List Byte) {imm imm' : Imm} (h : imm.Same exact imm') : Form.Same exact (.op opcode imm) (.op opcode imm')
  | rm (opcode : List Byte) (reg : RegNum) {o o' : Operand} {imm imm' : Imm} (ho : o.Same exact o') (h : imm.Same exact imm') :
    Form.Same exact (.rm opcode reg o imm) (.rm opcode reg o' imm')
  | bad (msg : String) (detail : List Byte) : Form.Same exact (.bad msg detail) (.bad msg detail)

theorem Form.Same.branch {p : Prop} [Decidable p] {f g f' g' : Form} (h₁ : f.Same exact f') (h₂ : g.Same exact g') :
    Form.Same exact (if p then f else g) (if p then f' else g') := by
  split
  · exact h₁
  · exact h₂

theorem Operand.Same.imm {o o' : Operand} (h : o.Same exact o') (size : Nat) : (o.imm size).Same exact (o'.imm size) := by
  unfold Operand.imm
  split
  · exact .imm8 h.disp.agree
  · exact .imm32 h.disp.agree

theorem AsmLogic.emitImm_rel {imm imm' : Imm} (h : imm.Same L.exact imm') : L.rel Eq (emitImm imm) (emitImm imm') := by
  cases h with
  | none => exact .ret rfl
  | imm8 h => exact L.emit8_rel (h.congr _)
  | imm32 h => exact L.emit32_rel h
  | rel32 h => exact L.emitRel32_rel h

theorem AsmLogic.emitOpcode_rel (opcode : List Byte) : L.rel Eq (emitOpcode opcode) (emitOpcode opcode) := by
  induction opcode with
  | nil => exact .ret rfl
  | cons b bs ih => exact (L.emit8_rel fun _ => rfl).seq fun _ => ih

/-- Forms that differ only in the values of symbols have the same size. -/
theorem AsmLogic.emitForm_rel {f f' : Form} (h : f.Same L.exact f') : L.rel Eq (emitForm f) (emitForm f') := by
  cases h with
  | op opcode h => exact (L.emitOpcode_rel opcode).seq fun _ => L.emitImm_rel h
  | rm opcode reg ho h =>
    exact (L.emitOpcode_rel opcode).seq fun _ => (L.emitModrm_rel reg ho).seq fun _ => L.emitImm_rel h
  | bad msg detail => exact L.err_rel _ _

section Groups

variable {ops ops' : List Operand} (m : List Byte) (h : List.Forall₂ (Operand.Same exact) ops ops')

include h

theorem aluForm_same (base : Byte) (digit : RegNum) (size : Nat) :
    (aluForm m base digit size ops).Same exact (aluForm m base digit size ops') := by
  rcases h with _ | ⟨ha, _ | ⟨hb, _ | ⟨_, _⟩⟩⟩
  case cons.cons.nil =>
    delta aluForm
    simp only [ha.kind, ha.immFits8, hb.isAcc, ha.reg, hb.kind, hb.reg]
    refine .branch (.branch (.branch ?_ ?_) (.branch ?_ (.branch ?_ ?_))) (.branch ?_ (.branch ?_ (.bad _ _)))
    · exact .op _ (.imm8 ha.disp.agree)
    · exact .rm _ _ hb (.imm8 ha.disp.agree)
    · exact .rm _ _ hb (.imm8 ha.disp.agree)
    · exact .op _ (.imm32 ha.disp.agree)
    · exact .rm _ _ hb (.imm32 ha.disp.agree)
    · exact .rm _ _ hb .none
    · exact .rm _ _ ha .none
  all_goals exact .bad _ _

theorem movForm_same (size : Nat) : (movForm m size ops).Same exact (movForm m size ops') := by
  rcases h with _ | ⟨ha, _ | ⟨hb, _ | ⟨_, _⟩⟩⟩
  case cons.cons.nil =>
    delta movForm
    simp only [ha.isAbs, ha.isAcc, hb.isAbs, hb.isAcc, ha.kind, hb.kind, ha.reg, hb.reg]
    refine .branch ?_ (.branch ?_ (.branch (.branch ?_ ?_) (.branch ?_ (.branch ?_ (.bad _ _)))))
    · exact .op _ (.imm32 ha.disp.agree)
    · exact .op _ (.imm32 hb.disp.agree)
    · exact .op _ (ha.imm size)
    · exact .rm _ _ hb (ha.imm size)
    · exact .rm _ _ hb .none
    · exact .rm _ _ ha .none
  all_goals exact .bad _ _

theorem twoByteForm_same (msg : String) (op : Byte) : (twoByteForm msg m op ops).Same exact (twoByteForm msg m op ops') := by
  rcases h with _ | ⟨ha, _ | ⟨hb, _ | ⟨_, _⟩⟩⟩
  case cons.cons.nil =>
    delta twoByteForm
    simp only [hb.kind, hb.reg]
    exact .branch (.bad _ _) (.rm _ _ ha .none)
  all_goals exact .bad _ _

omit m in
theorem leaForm_same : (leaForm ops).Same exact (leaForm ops') := by
  rcases h with _ | ⟨ha, _ | ⟨hb, _ | ⟨_, _⟩⟩⟩
  case cons.cons.nil =>
    delta leaForm
    simp only [ha.kind, hb.kind, hb.reg]
    exact .branch (.bad _ _) (.rm _ _ ha .none)
  all_goals exact .bad _ _

theorem testForm_same (size : Nat) : (testForm m size ops).Same exact (testForm m size ops') := by
  rcases h with _ | ⟨ha, _ | ⟨hb, _ | ⟨_, _⟩⟩⟩
  case cons.cons.nil =>
    delta testForm
    simp only [ha.kind, hb.kind, hb.isAcc, ha.reg, hb.reg]
    refine .branch (.branch ?_ ?_) (.branch (.rm _ _ hb .none) (.branch (.rm _ _ ha .none) (.bad _ _)))
    · exact .op _ (ha.imm size)
    · exact .rm _ _ hb (ha.imm size)
  all_goals exact .bad _ _

theorem xchgForm_same (size : Nat) : (xchgForm m size ops).Same exact (xchgForm m size ops') := by
  rcases h with _ | ⟨ha, _ | ⟨hb, _ | ⟨_, _⟩⟩⟩
  case cons.cons.nil =>
    delta xchgForm
    simp only [ha.kind, hb.kind, ha.reg, hb.reg]
    exact .branch (.op _ .none) (.branch (.rm _ _ hb .none) (.branch (.rm _ _ ha .none) (.bad _ _)))
  all_goals exact .bad _ _

theorem pushForm_same : (pushForm m ops).Same exact (pushForm m ops') := by
  rcases h with _ | ⟨ha, _ | ⟨_, _⟩⟩
  case cons.nil =>
    delta pushForm
    simp only [ha.kind, ha.reg, ha.immFits8]
    refine .branch (.op _ .none) (.branch (.branch ?_ ?_) (.rm _ _ ha .none))
    · exact .op _ (.imm8 ha.disp.agree)
    · exact .op _ (.imm32 ha.disp.agree)
  all_goals exact .bad _ _

theorem popForm_same : (popForm m ops).Same exact (popForm m ops') := by
  rcases h with _ | ⟨ha, _ | ⟨_, _⟩⟩
  case cons.nil =>
    delta popForm
    simp only [ha.kind, ha.reg]
    exact .branch (.op _ .none) (.rm _ _ ha .none)
  all_goals exact .bad _ _

theorem incForm_same (op : Byte) (digit : RegNum) (size : Nat) :
    (incForm m op digit size ops).Same exact (incForm m op digit size ops') := by
  rcases h with _ | ⟨ha, _ | ⟨_, _⟩⟩
  case cons.nil =>
    delta incForm
    simp only [ha.kind, ha.reg]
    exact .branch (.op _ .none) (.rm _ _ ha .none)
  all_goals exact .bad _ _

theorem unaryForm_same (digit : RegNum) (size : Nat) : (unaryForm m digit size ops).Same exact (unaryForm m digit size ops') := by
  rcases h with _ | ⟨ha, _ | ⟨_, _⟩⟩
  case cons.nil => exact .rm _ _ ha .none
  all_goals exact .bad _ _

omit m in
theorem imulForm_same : (imulForm ops).Same exact (imulForm ops') := by
  rcases h with _ | ⟨ha, _ | ⟨hb, _ | ⟨hc, _ | ⟨_, _⟩⟩⟩⟩
  case cons.nil => exact .rm _ _ ha .none
  case cons.cons.nil =>
    delta imulForm
    simp only [hb.kind, hb.reg]
    exact .branch (.rm _ _ ha .none) (.bad _ _)
  case cons.cons.cons.nil =>
    delta imulForm
    simp only [ha.kind, ha.immFits8, hc.kind, hc.reg]
    exact .branch (.branch (.rm _ _ hb (.imm8 ha.disp.agree)) (.rm _ _ hb (.imm32 ha.disp.agree))) (.bad _ _)
  all_goals exact .bad _ _

omit m in
/-- A shift by one written as a number has no immediate byte; one written with a symbol keeps it. -/
theorem shiftForm_same (digit : RegNum) (size : Nat) : (shiftForm digit size ops).Same exact (shiftForm digit size ops') := by
  rcases h with _ | ⟨ha, _ | ⟨hb, _ | ⟨_, _⟩⟩⟩
  case cons.nil => exact .rm _ _ ha .none
  case cons.cons.nil =>
    delta shiftForm
    simp only [ha.kind, ha.reg, ha.size, ha.isOne]
    refine .branch (.branch ?_ ?_) (.branch (.rm _ _ hb .none) (.bad _ _))
    · exact .rm _ _ hb .none
    · exact .rm _ _ hb (.imm8 ha.disp.agree)
  all_goals exact .bad _ _

theorem branchForm_same (op : Byte) (digit : RegNum) : (branchForm m op digit ops).Same exact (branchForm m op digit ops') := by
  rcases h with _ | ⟨ha, _ | ⟨_, _⟩⟩
  case cons.nil =>
    delta branchForm
    simp only [ha.isAbs]
    exact .branch (.op _ (.rel32 ha.disp)) (.rm _ _ ha .none)
  all_goals exact .bad _ _

theorem jccForm_same (cc : Byte) : (jccForm m cc ops).Same exact (jccForm m cc ops') := by
  rcases h with _ | ⟨ha, _ | ⟨_, _⟩⟩
  case cons.nil => exact .op _ (.rel32 ha.disp)
  all_goals exact .bad _ _

theorem setccForm_same (cc : Byte) : (setccForm m cc ops).Same exact (setccForm m cc ops') := by
  rcases h with _ | ⟨ha, _ | ⟨_, _⟩⟩
  case cons.nil => exact .rm _ _ ha .none
  all_goals exact .bad _ _

omit m in
theorem intForm_same : (intForm ops).Same exact (intForm ops') := by
  rcases h with _ | ⟨ha, _ | ⟨_, _⟩⟩
  case cons.nil =>
    delta intForm
    simp only [ha.kind]
    exact .branch (.bad _ _) (.op _ (.imm8 ha.disp.agree))
  all_goals exact .bad _ _

theorem controlForm_same : (controlForm m ops).Same exact (controlForm m ops') := by
  unfold controlForm
  cases tableFind branchOps m with
  | some p => exact branchForm_same m h _ _
  | none =>
    cases ccAfter "j" m with
    | some cc => exact jccForm_same m h cc
    | none =>
      cases ccAfter "set" m with
      | some cc => exact setccForm_same m h cc
      | none =>
        cases ccAfter "cmov" m with
        | some cc => exact twoByteForm_same m h _ _
        | none =>
          cases tableFind plainOps m with
          | some op => exact .op _ .none
          | none => exact .branch (intForm_same h) (.bad _ _)

theorem stackForm_same (size : Nat) : (stackForm m ops size).Same exact (stackForm m ops' size) := by
  refine .branch (pushForm_same m h) (.branch (popForm_same m h) ?_)
  cases tableFind incOps m with
  | some p => exact incForm_same m h _ _ _
  | none =>
    cases tableFind unaryOps m with
    | some digit => exact unaryForm_same m h _ _
    | none =>
      refine .branch (imulForm_same h) ?_
      cases tableFind shiftOps m with
      | some digit => exact shiftForm_same h _ _
      | none => exact controlForm_same m h

/-- The two passes pick the same form for every line. -/
theorem insnForm_same (size : Nat) : (insnForm m ops size).Same exact (insnForm m ops' size) := by
  unfold insnForm
  cases tableFind aluOps m with
  | some p => exact aluForm_same m h _ _ _
  | none =>
    refine .branch (movForm_same m h size) ?_
    cases tableFind movxOps m with
    | some op => exact twoByteForm_same m h _ _
    | none =>
      exact .branch (leaForm_same h) (.branch (testForm_same m h size)
        (.branch (xchgForm_same m h size) (stackForm_same m h size)))

end Groups

theorem AsmLogic.asmInsn_rel (m : List Byte) {ops ops' : List Operand} (h : List.Forall₂ (Operand.Same L.exact) ops ops')
    (size : Nat) : L.rel Eq (asmInsn m ops size) (asmInsn m ops' size) :=
  L.emitForm_rel (insnForm_same m h size)

/-! ## Directives -/

theorem AsmLogic.emitChars_rel (k : Nat) : L.rel Eq (emitChars k) (emitChars k) := by
  induction k with
  | zero => exact L.spin_rel
  | succ k ih =>
    refine L.peek_rel.seq fun c => .branch (.ret rfl) ?_
    refine L.advance_rel.seq fun _ => L.peek_rel.seq fun d => .branch ?_ ?_
    · exact L.advance_rel.seq fun _ => (L.emit8_rel fun _ => rfl).seq fun _ => ih
    · exact (L.emit8_rel fun _ => rfl).seq fun _ => ih

theorem AsmLogic.stringChars_rel : L.rel Eq stringChars stringChars :=
  L.fuel_rel (fun n => n + 1) L.emitChars_rel

theorem AsmLogic.emitString_rel (terminate : Bool) (k : Nat) : L.rel Eq (emitString terminate k) (emitString terminate k) := by
  induction k with
  | zero => exact L.spin_rel
  | succ k ih =>
    refine L.skipWs_rel.seq fun _ => L.peek_rel.seq fun _ => .branch (L.err_rel _ _) ?_
    refine L.advance_rel.seq fun _ => L.stringChars_rel.seq fun _ => (L.skipCh_rel _).seq fun _ => ?_
    refine (L.emitFill_rel (fun _ => rfl) _).seq fun _ => L.skipWs_rel.seq fun _ => ?_
    exact L.peek_rel.seq fun _ => .branch (L.advance_rel.seq fun _ => ih) (.ret rfl)

theorem AsmLogic.emitItem_rel (w : Nat) {v v' : U32} (h : Agree L.exact v v') : L.rel Eq (emitItem w v) (emitItem w v') :=
  .branch (L.emit8_rel (h.congr _)) (.branch (L.emit16_rel (h.congr (· &&& 0xFFFF#32))) (L.emit32_rel h))

theorem AsmLogic.emitItems_rel (w k : Nat) : L.rel Eq (emitItems w k) (emitItems w k) := by
  induction k with
  | zero => exact L.spin_rel
  | succ k ih =>
    refine L.expr_rel.bind fun _ _ h => (L.emitItem_rel w h.agree).seq fun _ => L.skipWs_rel.seq fun _ => ?_
    exact L.peek_rel.seq fun _ => .branch (L.advance_rel.seq fun _ => ih) (.ret rfl)

theorem AsmLogic.parseFill_rel : L.rel (Agree L.exact) parseFill parseFill :=
  L.skipWs_rel.seq fun _ => L.peek_rel.seq fun _ =>
    .branch (L.advance_rel.seq fun _ => L.expr_rel.bind fun _ _ h => .ret h.agree) (.ret fun _ => rfl)

/-- A size that names a symbol is refused, so the sizes reserved are the same. -/
theorem AsmLogic.doSpace_rel : L.rel Eq doSpace doSpace := by
  refine L.expr_rel.bind fun n n' hn => ?_
  rw [hn.hasSym]
  refine .ite (fun _ => L.err_rel _ _) fun hs => ?_
  rw [hn.val (.inr (by simpa using hs))]
  refine L.parseFill_rel.bind fun _ _ hf => L.currentSec_rel.seq fun _ => .branch (L.addBss_rel _) ?_
  exact L.emitFill_rel (hf.congr _) _

theorem AsmLogic.doEqu_rel : L.rel Eq doEqu doEqu := by
  refine L.readName_rel.seq fun name => .branch (L.err_rel _ _) ((L.eat_rel _).seq fun _ => ?_)
  exact .branch (L.expr_rel.bind fun v v' h => L.define_rel name h) (L.err_rel _ _)

theorem AsmLogic.doPlacement_rel (d : List Byte) : L.rel Eq (doPlacement d) (doPlacement d) := by
  refine .branch L.doSpace_rel ?_
  cases tableFind alignDirs d with
  | some pow2 => exact L.expr_rel.bind fun _ _ h => L.alignBy_rel pow2 h
  | none => exact .branch L.doEqu_rel (L.err_rel _ _)

theorem AsmLogic.doDirective_rel (d : List Byte) : L.rel Eq (doDirective d) (doDirective d) := by
  unfold doDirective
  cases tableFind sectionDirs d with
  | some sec => exact L.setSec_rel sec
  | none =>
    refine .branch (.ret rfl) ?_
    cases tableFind itemDirs d with
    | some w => exact L.fuel_rel (fun n => n + 1) (L.emitItems_rel w)
    | none =>
      cases tableFind stringDirs d with
      | some terminate => exact L.fuel_rel (fun n => n + 1) (L.emitString_rel terminate)
      | none => exact L.doPlacement_rel d

/-! ## Lines -/

theorem AsmLogic.atLineEnd_rel : L.rel Eq atLineEnd atLineEnd :=
  L.peek_rel.seq fun _ => (L.looksAt_rel _ _ (by decide)).seq fun _ => .ret rfl

theorem AsmLogic.parseLabels_rel (k : Nat) : L.rel Eq (parseLabels k) (parseLabels k) := by
  induction k with
  | zero => exact L.spin_rel
  | succ k ih =>
    refine L.skipWs_rel.seq fun _ => L.atLineEnd_rel.seq fun _ => .branch (.ret rfl) ?_
    refine L.peek_rel.seq fun _ => .branch ?_ (.ret rfl)
    refine L.cursor_rel.bind fun save save' hsave => L.readName_rel.seq fun name => L.skipWs_rel.seq fun _ => ?_
    refine L.peek_rel.seq fun _ => .branch ?_ ?_
    · exact L.advance_rel.seq fun _ => (L.placeLabel_rel name).seq fun _ => ih
    · exact (L.setCursor_rel hsave).seq fun _ => .ret rfl

theorem AsmLogic.parseOperands_rel (stem : List Byte) (k : Nat) {ops ops' : List Operand}
    (h : List.Forall₂ (Operand.Same L.exact) ops ops') :
    L.rel (Option.Rel (List.Forall₂ (Operand.Same L.exact))) (parseOperands stem k ops) (parseOperands stem k ops') := by
  induction k generalizing ops ops' with
  | zero => exact L.spin_rel
  | succ k ih =>
    unfold parseOperands
    rw [h.length_eq]
    refine L.atLineEnd_rel.seq fun _ => .branch (.ret (.some h)) (.branch ?_ ?_)
    · exact (L.err_rel _ _).seq fun _ => .ret .none
    · refine L.parseOperand_rel.bind fun o o' ho => ?_
      cases ho with
      | none => exact .ret .none
      | some ho =>
        have hops := List.rel_append h (List.Forall₂.cons ho .nil)
        refine L.skipWs_rel.seq fun _ => L.peek_rel.seq fun _ => .branch ?_ (.ret (.some hops))
        exact L.advance_rel.seq fun _ => ih hops

/-- The width taken from the operands is the same for the two runs. -/
theorem inferSize_same {ops ops' : List Operand} (h : List.Forall₂ (Operand.Same exact) ops ops') : inferSize ops' = inferSize ops := by
  have hfind : ∀ {l l' : List Operand}, List.Forall₂ (Operand.Same exact) l l' →
      (l'.find? fun o => o.kind = .reg).map Operand.size = (l.find? fun o => o.kind = .reg).map Operand.size := by
    intro l l' hl
    induction hl with
    | nil => rfl
    | cons ho _ ih =>
      simp only [List.find?_cons, ho.kind]
      split
      · exact congrArg some ho.size
      · exact ih
  have := hfind (List.rel_reverse h)
  unfold inferSize
  cases h₁ : ops.reverse.find? (fun o => o.kind = .reg) <;> cases h₂ : ops'.reverse.find? (fun o => o.kind = .reg) <;>
    simp_all

theorem AsmLogic.asmMnemonic_rel (mnem : List Byte) : L.rel Eq (asmMnemonic mnem) (asmMnemonic mnem) := by
  unfold asmMnemonic
  generalize splitSuffix mnem = suffix
  refine L.skipWs_rel.seq fun _ => (L.parseOperands_rel suffix.1 _ .nil).bind fun ops ops' h => ?_
  cases h with
  | none => exact .ret rfl
  | some h =>
    simp only [inferSize_same h]
    exact L.asmInsn_rel _ h _

/-- Two runs stay comparable over every line. -/
theorem AsmLogic.asmLine_rel {l l' : List Byte} (h : SameLine l l') : L.rel Eq (asmLine l) (asmLine l') := by
  refine (L.setCursor_rel h).seq fun _ => ?_
  rw [h.length_eq]
  refine (L.parseLabels_rel _).seq fun _ => .branch ?_ (.ret rfl)
  refine L.readName_rel.seq fun mnem => .branch (L.err_rel _ _) (.branch (L.doDirective_rel mnem) (L.asmMnemonic_rel mnem))

end MiniOs32
