import MiniOs32.Cc.Fold
import MiniOs32.Lemmas.Cpu

/-!
# The code of constant expressions

The code of a constant expression leaves on the stack the word the expression means (`ConstCode.runs`). An operand of `&&` and
`||` jumps instead where it is one itself (`OperandCode`). The code writes only under the stack pointer, no further than the
number of nodes in words, which keeps the left operand while the right one is evaluated.
-/

namespace MiniOs32

variable {F : Type} {w : World F} {s : Cpu F} {lt rt t : CType} {op : BinOp} {v : U32}

/-! ## Operations on words -/

/-- The condition `l` is the signed order. -/
theorem slt_eq_flags (a b : U32) : ((subFlags a b).sf != (subFlags a b).of) = a.slt b := by
  have ha := a.isLt
  have hb := b.isLt
  have ham : a.msb = decide (2 ^ 31 ≤ a.toNat) := BitVec.msb_eq_decide a
  have hbm : b.msb = decide (2 ^ 31 ≤ b.toNat) := BitVec.msb_eq_decide b
  have hdm : (a - b).msb = decide (2 ^ 31 ≤ (a - b).toNat) := BitVec.msb_eq_decide (a - b)
  have hs : a.slt b = true ↔ if 2 ^ 31 ≤ a.toNat then 2 ^ 31 ≤ b.toNat → a.toNat < b.toNat
      else b.toNat < 2 ^ 31 ∧ a.toNat < b.toNat := by
    rw [BitVec.slt_eq_decide, decide_eq_true_eq, BitVec.toInt_eq_toNat_cond, BitVec.toInt_eq_toNat_cond]
    split_ifs <;> omega
  have hd : (a - b).toNat = a.toNat - b.toNat ∧ b.toNat ≤ a.toNat ∨
      (a - b).toNat = 2 ^ 32 + a.toNat - b.toNat ∧ a.toNat < b.toNat := by bv_omega
  rw [Bool.eq_iff_iff, hs]
  simp only [subFlags, ham, hbm, hdm, bne_iff_ne, ne_eq, decide_eq_decide]
  by_cases c1 : 2 ^ 31 ≤ a.toNat <;> by_cases c2 : 2 ^ 31 ≤ b.toNat <;> by_cases c3 : 2 ^ 31 ≤ (a - b).toNat <;>
    simp only [c1, c2, c3, if_true, if_false] <;> simp <;> omega

theorem zf_subFlags (a b : U32) : (subFlags a b).zf = decide (a = b) := by
  have h : a - b = 0#32 ↔ a = b := by
    constructor <;> intro h <;> bv_omega
  simp only [subFlags, h]

/-- A comparison that is not strict is a strict one or an equality. -/
theorem ule_eq_ult_or (a b : U32) : a.ule b = (a.ult b || decide (a = b)) := by
  rw [Bool.eq_iff_iff]
  simp only [BitVec.ule_eq_decide, BitVec.ult_eq_decide, Bool.or_eq_true, decide_eq_true_eq, ← BitVec.toNat_inj]
  omega

theorem sle_eq_slt_or (a b : U32) : a.sle b = (a.slt b || decide (a = b)) := by
  rw [Bool.eq_iff_iff]
  simp only [BitVec.sle_eq_decide, BitVec.slt_eq_decide, Bool.or_eq_true, decide_eq_true_eq, ← BitVec.toInt_inj]
  omega

/-- The conditions a comparison of two words is followed by are the comparison. -/
theorem holds_subFlags (op : BinOp) (h : op.isCmp = true) (uns : Bool) (a b : U32) :
    op.word uns a b = some (boolWord ((op.cond uns).holds (subFlags a b))) := by
  have hz := zf_subFlags a b
  have hs := slt_eq_flags a b
  have hse : ((subFlags a b).sf == (subFlags a b).of) = !a.slt b := by
    rw [← hs, bne, Bool.not_not]
  have hc : (subFlags a b).cf = a.ult b := rfl
  have hgt : (!a.ult b && !decide (a = b)) = b.ult a := by
    rw [← Bool.not_or, ← ule_eq_ult_or, BitVec.ule_eq_not_ult, Bool.not_not]
  have hsgt : (!decide (a = b) && !a.slt b) = b.slt a := by
    rw [← Bool.not_or, Bool.or_comm, ← sle_eq_slt_or, BitVec.sle_eq_not_slt, Bool.not_not]
  cases op with
  | lt => cases uns <;> simp [BinOp.word, BinOp.cond, Cond.holds, hs, hc]
  | le => cases uns <;> simp [BinOp.word, BinOp.cond, Cond.holds, hs, hc, hz, ule_eq_ult_or, sle_eq_slt_or, Bool.or_comm]
  | gt => cases uns <;> simp [BinOp.word, BinOp.cond, Cond.holds, hse, hc, hz, hgt, hsgt]
  | ge => cases uns <;> simp [BinOp.word, BinOp.cond, Cond.holds, hse, hc, BitVec.ule_eq_not_ult, BitVec.sle_eq_not_slt]
  | eq => cases uns <;> simp [BinOp.word, BinOp.cond, Cond.holds, hz]
  | ne => cases uns <;> simp [BinOp.word, BinOp.cond, Cond.holds, hz]
  | _ => cases h
/-- Without a high word, `div` is the division of two words. -/
theorem divU_eq (a d : U32) : divU 0#32 a d = if d = 0#32 then none else some (a / d, a % d) := by
  unfold divU
  by_cases h : d = 0#32
  · simp [h]
  · have hd : 0 < d.toNat := by
      rcases Nat.eq_zero_or_pos d.toNat with h0 | h0
      · exact absurd (BitVec.eq_of_toNat_eq (by simpa using h0)) h
      · exact h0
    have hq : a.toNat / d.toNat < 2 ^ 32 := lt_of_le_of_lt (Nat.div_le_self _ _) a.isLt
    have h0 : (0#32).toNat * 2 ^ 32 + a.toNat = a.toNat := by simp
    simp only [h, h0, false_or, if_neg (Nat.not_le.mpr hq), if_false, Option.some.injEq, Prod.mk.injEq]
    constructor <;> apply BitVec.eq_of_toNat_eq
    · rw [BitVec.toNat_ofNat, Nat.mod_eq_of_lt hq, BitVec.toNat_udiv]
    · rw [BitVec.toNat_ofNat, Nat.mod_eq_of_lt (lt_of_lt_of_le (Nat.mod_lt _ hd) (le_of_lt d.isLt)), BitVec.toNat_umod]

/-- Behind `cdq`, `idiv` is the signed one, with its one overflow. -/
theorem divS_eq (a d : U32) : divS (if a.msb then BitVec.allOnes 32 else 0#32) a d =
    if d = 0#32 then none else if a = intMin ∧ d = -1#32 then none else some (a.sdiv d, a.srem d) := by
  have hn : ((if a.msb then BitVec.allOnes 32 else 0#32) ++ a : BitVec 64).toInt = a.toInt := by
    have ha := a.isLt
    rw [BitVec.toInt_eq_toNat_cond, BitVec.toInt_eq_toNat_cond, BitVec.toNat_append]
    cases hm : a.msb with
    | true =>
      have h31 : 2 ^ 31 ≤ a.toNat := by simpa [BitVec.msb_eq_decide] using hm
      rw [if_pos rfl, ← Nat.shiftLeft_add_eq_or_of_lt ha, BitVec.toNat_allOnes, Nat.shiftLeft_eq]
      split_ifs <;> omega
    | false =>
      have h31 : a.toNat < 2 ^ 31 := by simpa [BitVec.msb_eq_decide] using hm
      rw [if_neg Bool.false_ne_true, ← Nat.shiftLeft_add_eq_or_of_lt ha, BitVec.toNat_ofNat, Nat.shiftLeft_eq]
      split_ifs <;> omega
  unfold divS
  simp only [hn]
  by_cases h : d = 0#32
  · simp [h]
  · by_cases hm : a = intMin ∧ d = -1#32
    · obtain ⟨rfl, rfl⟩ := hm
      decide
    · have hq : (a.sdiv d).toInt = a.toInt.tdiv d.toInt := by
        apply BitVec.toInt_sdiv_of_ne_or_ne
        rw [← Classical.not_and_iff_not_or_not]
        exact hm
      have hlo := (a.sdiv d).le_toInt
      have hhi := (a.sdiv d).toInt_lt
      rw [hq] at hlo hhi
      have hc : ¬(d = 0#32 ∨ a.toInt.tdiv d.toInt < -2 ^ 31 ∨ 2 ^ 31 ≤ a.toInt.tdiv d.toInt) := by
        simp only [h, false_or, not_or, not_lt, not_le]
        exact ⟨hlo, hhi⟩
      rw [if_neg hc, if_neg h, if_neg hm, ← hq, ← BitVec.toInt_srem, BitVec.ofInt_toInt, BitVec.ofInt_toInt]
/-- An integer type promoted is one, and decays to itself. -/
theorem promote_of_isInteger (h : t.isInteger = true) : t.decay.promote = t.promote ∧ t.promote.isInteger = true := by
  cases t with
  | int u | short u | char u => exact ⟨rfl, rfl⟩
  | bool => exact ⟨rfl, rfl⟩
  | _ => cases h

theorem execs_cmp (s : Cpu F) (c : Cond) : ∃ s', (machine w).execs [.alu .cmp .eax .ebx, .set c, .extend .byte true] s = some s' ∧
    s'.regs .eax = boolWord (c.holds (subFlags (s.regs .eax) (s.regs .ebx))) ∧ s'.regs .esp = s.regs .esp ∧ s'.mem = s.mem := by
  refine ⟨_, rfl, ?_, ?_, ?_⟩
  · simp only [Cpu.set_reg, Width.extend_set, boolWord]
  · simp
  · rfl

/-- The quotient and remainder of two words. -/
def divPair (uns : Bool) (a b : U32) : Option (U32 × U32) :=
  if uns then divU 0#32 a b else divS (if a.msb then BitVec.allOnes 32 else 0#32) a b

theorem word_div (uns : Bool) (a b : U32) : BinOp.div.word uns a b = (divPair uns a b).map (·.1) := by
  simp only [BinOp.word, divWord, divPair, divU_eq, divS_eq]
  cases uns <;> simp only [if_true, Bool.false_eq_true, if_false] <;> split_ifs <;> rfl

theorem word_mod (uns : Bool) (a b : U32) : BinOp.mod.word uns a b = (divPair uns a b).map (·.2) := by
  simp only [BinOp.word, divWord, divPair, divU_eq, divS_eq]
  cases uns <;> simp only [if_true, Bool.false_eq_true, if_false] <;> split_ifs <;> rfl

theorem execs_division (uns : Bool) (s : Cpu F) {q : U32 × U32} (h : divPair uns (s.regs .eax) (s.regs .ebx) = some q) :
    ∃ s', (machine w).execs (if uns then [.alu .xor .edx .edx, .div .ebx] else [.cdq, .idiv .ebx]) s = some s' ∧
      s'.regs .eax = q.1 ∧ s'.regs .edx = q.2 ∧ s'.regs .esp = s.regs .esp ∧ s'.mem = s.mem := by
  cases uns with
  | true =>
    refine ⟨(({ s.set .edx 0#32 with flags := logicFlags 0#32 } : Cpu F).set .eax q.1).set .edx q.2, ?_, ?_⟩
    · have hx : (machine w).exec (.alu .xor .edx .edx) s = some { s.set .edx 0#32 with flags := logicFlags 0#32 } := by
        simp [machine, Insn.exec, AluOp.apply]
      have hd : (machine w).exec (.div .ebx) { s.set .edx 0#32 with flags := logicFlags 0#32 } =
          some ((({ s.set .edx 0#32 with flags := logicFlags 0#32 } : Cpu F).set .eax q.1).set .edx q.2) := by
        have h' : divU 0#32 (s.regs .eax) (s.regs .ebx) = some q := h
        simp [machine, Insn.exec, Cpu.set, h']
      rw [if_pos rfl, TextMachine.execs_cons hx, TextMachine.execs_cons hd, TextMachine.execs_nil]
    · simp [Cpu.set]
  | false =>
    let s₁ := s.set .edx (if (s.regs .eax).msb then BitVec.allOnes 32 else 0#32)
    refine ⟨(s₁.set .eax q.1).set .edx q.2, ?_, ?_⟩
    · have hx : (machine w).exec .cdq s = some s₁ := rfl
      have hd : (machine w).exec (.idiv .ebx) s₁ = some ((s₁.set .eax q.1).set .edx q.2) := by
        have h' : divS (s₁.regs .edx) (s₁.regs .eax) (s₁.regs .ebx) = some q := by
          simpa [s₁, divPair] using h
        simp only [machine, Insn.exec, h', Option.map_some]
      rw [if_neg Bool.false_ne_true, TextMachine.execs_cons hx, TextMachine.execs_cons hd, TextMachine.execs_nil]
    · simp [s₁, Cpu.set]

/-- An operation on two words leaves the word it is of them. -/
theorem execs_intOp (uns : Bool) (s : Cpu F) {v : U32} (h : op.word uns (s.regs .eax) (s.regs .ebx) = some v) :
    ∃ s', (machine w).execs (intOp op uns) s = some s' ∧ s'.regs .eax = v ∧ s'.regs .esp = s.regs .esp ∧ s'.mem = s.mem := by
  by_cases hc : op.isCmp = true
  · obtain ⟨s', hs, hv, hr⟩ := execs_cmp (w := w) s (op.cond uns)
    have hi : intOp op uns = [.alu .cmp .eax .ebx, .set (op.cond uns), .extend .byte true] := by
      cases op <;> first
        | rfl
        | exact absurd hc (by decide)
    rw [holds_subFlags op hc] at h
    exact ⟨s', by rw [hi, hs], by rw [hv, Option.some.inj h], hr⟩
  · cases op with
    | add | sub | mul | band | bor | bxor =>
      cases h
      exact ⟨_, rfl, by simp, by simp, rfl⟩
    | shl =>
      cases h
      exact ⟨_, rfl, by simp [ShiftOp.apply], by simp, rfl⟩
    | shr =>
      cases h
      exact ⟨_, rfl, by cases uns <;> simp [ShiftOp.apply], by simp, rfl⟩
    | div =>
      obtain ⟨q, hq, rfl⟩ := Option.map_eq_some_iff.mp ((word_div _ _ _).symm.trans h)
      obtain ⟨s', hs, ha, -, hr⟩ := execs_division (w := w) uns s hq
      exact ⟨s', hs, ha, hr⟩
    | mod =>
      obtain ⟨q, hq, rfl⟩ := Option.map_eq_some_iff.mp ((word_mod _ _ _).symm.trans h)
      obtain ⟨s', hs, -, hd, he, hm⟩ := execs_division (w := w) uns s hq
      have hi : intOp .mod uns = (if uns then [Insn.alu .xor .edx .edx, .div .ebx] else [.cdq, .idiv .ebx]) ++ [Insn.mov .eax .edx] := by
        cases uns <;> rfl
      refine ⟨s'.set .eax (s'.regs .edx), ?_, by simp [hd], by simp [he], hm⟩
      rw [hi, TextMachine.execs_append, hs, Option.bind_some]
      rfl
    | _ => exact absurd rfl hc


/-! ## Operations on the stack -/

/-- What an operator on integers leaves in place of its operands. -/
theorem execs_binCode (T : CodeEnv) (s : Cpu F) (hl : lt.isInteger = true) (hr : rt.isInteger = true)
    (h : op.word (isUnsignedPair lt rt) s.second s.top = some v) :
    ∃ s', (machine w).execs (binCode T op lt.decay.promote rt.decay.promote) s = some s' ∧ s'.top = v ∧
      s'.regs .esp = s.regs .esp + 4#32 ∧ s.OnlyTop s' := by
  let s₁ := (s.pop .ebx).pop .eax
  have hb : s₁.regs .ebx = s.top := by simp [s₁]
  have ha : s₁.regs .eax = s.second := by simp [s₁]
  have he : s₁.regs .esp = s.regs .esp + 4#32 + 4#32 := by simp [s₁]
  rw [← ha, ← hb] at h
  obtain ⟨s₂, h₂, hv, he₂, hm₂⟩ := execs_intOp (w := w) _ s₁ h
  have h₁ : (machine w).execs popBoth s = some s₁ := rfl
  have hesp : (s₂.push (s₂.regs .eax)).regs .esp = s.regs .esp + 4#32 := by
    rw [Cpu.push_esp, he₂, he, BitVec.add_sub_cancel]
  refine ⟨s₂.push (s₂.regs .eax), ?_, by rw [Cpu.top_push, hv], hesp, .of_write (v := s₂.regs .eax) ?_⟩
  · obtain ⟨el, il⟩ := promote_of_isInteger hl
    obtain ⟨er, ir⟩ := promote_of_isInteger hr
    have hc : binCode T op lt.decay.promote rt.decay.promote = popBoth ++ intOp op (isUnsignedPair lt rt) ++ pushEax := by
      rw [el, er, binCode_int il ir]
      rfl
    rw [hc, TextMachine.execs_append, TextMachine.execs_append, h₁, Option.bind_some, h₂, Option.bind_some]
    rfl
  · rw [Cpu.push_esp, Cpu.push_mem, hm₂]
    rfl

/-- What a unary operator on an integer leaves in place of its operand. -/
theorem execs_unaryCode (op : UnaryOp) (s : Cpu F) (ht : t.isFloat = false) :
    ∃ s', (machine w).execs (unaryCode op t) s = some s' ∧ s'.top = op.fold s.top ∧ s'.regs .esp = s.regs .esp ∧ s.OnlyTop s' := by
  cases op with
  | neg =>
    have hc : unaryCode .neg t = [.pop .eax, .neg, .push .eax] := by rw [unaryCode, ht, if_neg (by decide)]
    rw [hc]
    exact ⟨_, rfl, by simp [UnaryOp.fold], by simp, .of_write rfl⟩
  | compl => exact ⟨_, rfl, by simp [UnaryOp.fold], by simp, .of_write rfl⟩
  | not =>
    obtain ⟨s₁, h₁, hf, he, hm⟩ := execs_testInt w s
    obtain ⟨s₂, h₂, ht₂, he₂, -, hm₂⟩ := execs_pushSet (w := w) s₁ .e
    refine ⟨s₂, ?_, ?_, by rw [he₂, he, BitVec.add_sub_cancel], ?_⟩
    · rw [unaryCode, testZero, ht, if_neg (by decide), TextMachine.execs_append, h₁, Option.bind_some, h₂]
    · rw [ht₂, hf]
      by_cases h0 : s.top = 0#32 <;> simp [Cond.holds, subFlags, UnaryOp.fold, boolWord, h0]
    · intro x hx
      rw [hm₂ x hx, hm]

/-- What a cast to an integer type leaves in place of its operand. -/
theorem execs_castCode (s : Cpu F) (hf : lt.isFloat = false) (ht : t.isInteger = true) :
    ∃ s', (machine w).execs (castCode lt t) s = some s' ∧ s'.top = t.convert s.top ∧ s'.regs .esp = s.regs .esp ∧ s.OnlyTop s' := by
  have hconv : convStack lt t 0#32 = [] := by
    rw [convStack, hf]
    cases t <;> first
      | rfl
      | cases ht
  cases t with
  | bool => exact execs_boolify w s hf
  | int u =>
    have hc : castCode lt (.int u) = [] := hconv
    exact ⟨s, by rw [hc, TextMachine.execs_nil], rfl, rfl, .of_eq rfl⟩
  | short u | char u =>
    rw [castCode, hconv]
    exact ⟨_, rfl, by simp [CType.convert], by simp, .of_write rfl⟩
  | _ => cases ht

/-- Two integers are converted to nothing else. -/
theorem convStack_int (hl : lt.isFloat = false) (ht : t.isFloat = false) (disp : U32) : convStack lt t disp = [] := by
  rw [convStack, hl, ht]
  rfl

/-! ## What code may write -/

/-- Memory is as before but for the words under the stack pointer, to a number of them. -/
def Cpu.Kept (n : Nat) (s s' : Cpu F) : Prop := ∀ x, 4 * n ≤ (s.regs .esp - 1#32 - x).toNat → s'.mem x = s.mem x

/-- Code has left a word on the stack. -/
structure Cpu.Left (n : Nat) (s s' : Cpu F) (v : U32) : Prop where
  esp : s'.regs .esp = s.regs .esp - 4#32
  top : s'.top = v
  kept : s.Kept n s'

namespace Cpu

variable {n m : Nat} {s₁ s₂ s₃ : Cpu F} {a b : U32}

theorem Kept.refl (n : Nat) (s : Cpu F) : s.Kept n s := fun _ _ => rfl

theorem Kept.mono (h : s₁.Kept n s₂) (hnm : n ≤ m) : s₁.Kept m s₂ := fun x hx => h x (by omega)

theorem Left.mono (h : s₁.Left n s₂ a) (hnm : n ≤ m) : s₁.Left m s₂ a := ⟨h.esp, h.top, h.kept.mono hnm⟩

theorem Kept.trans (h : s₁.Kept n s₂) (h' : s₂.Kept n s₃) (he : s₂.regs .esp = s₁.regs .esp) : s₁.Kept n s₃ := by
  intro x hx
  rw [h' x (by rwa [he]), h x hx]

/-- A word that is pushed. -/
theorem Left.push (s : Cpu F) (v : U32) {s' : Cpu F} (hn : 1 ≤ n) (hm : s'.mem = (s.push v).mem)
    (he : s'.regs .esp = (s.push v).regs .esp) : s.Left n s' v := by
  have ht : s'.top = v := by
    rw [Cpu.top, hm, he]
    exact top_push s v
  refine ⟨by rw [he, push_esp], ht, fun x hx => ?_⟩
  rw [hm, push_mem]
  refine Mem.write_of_le ?_
  simp only [le32_length]
  bv_omega

/-- A word that is replaced. -/
theorem Left.replace (h : s₁.Left n s₂ a) (ht : s₃.top = b) (he : s₃.regs .esp = s₂.regs .esp) (hm : s₂.OnlyTop s₃)
    (hn : 1 ≤ n) : s₁.Left n s₃ b := by
  refine ⟨by rw [he, h.esp], ht, fun x hx => ?_⟩
  rw [hm x, h.kept x hx]
  rw [he, h.esp]
  bv_omega

/-- A word that is taken. -/
theorem Left.take (h : s₁.Left n s₂ a) (he : s₃.regs .esp = s₂.regs .esp + 4#32) (hm : s₃.mem = s₂.mem) :
    s₃.regs .esp = s₁.regs .esp ∧ s₁.Kept n s₃ := by
  refine ⟨by rw [he, h.esp, BitVec.sub_add_cancel], fun x hx => ?_⟩
  rw [hm, h.kept x hx]

/-- The left operand is still there when the right one is evaluated. -/
theorem Left.second (h : s₁.Left n s₂ a) (h' : s₂.Left m s₃ b) (hm : m ≤ maxNode) : s₃.second = a := by
  have hk : ∀ i : U32, i.toNat < 4 → s₃.mem (s₂.regs .esp + i) = s₂.mem (s₂.regs .esp + i) := by
    intro i hi
    apply h'.kept
    unfold maxNode at hm
    bv_omega
  have h0 := hk 0#32 (by decide)
  rw [BitVec.add_zero] at h0
  rw [Cpu.second, h'.esp, BitVec.sub_add_cancel, ← h.top, Cpu.top]
  simp only [Mem.read32, h0, hk 1#32 (by decide), hk 2#32 (by decide), hk 3#32 (by decide)]

/-- Two words of which one is left. -/
theorem Left.combine {c : U32} (h : s₁.Left n s₂ a) (h' : s₂.Left m s₃ b) {s₄ : Cpu F} (ht : s₄.top = c)
    (he : s₄.regs .esp = s₃.regs .esp + 4#32) (hm : s₃.OnlyTop s₄) : s₁.Left (1 + n + m) s₄ c := by
  refine ⟨by rw [he, h'.esp, BitVec.sub_add_cancel, h.esp], ht, fun x hx => ?_⟩
  rw [hm x, h'.kept x, h.kept x (by omega)]
  · rw [h.esp]
    bv_omega
  · rw [he, h'.esp, h.esp, BitVec.sub_add_cancel]
    bv_omega

/-- What is left by code behind code that leaves nothing. -/
theorem Left.after (h : s₁.Kept n s₂) (he : s₂.regs .esp = s₁.regs .esp) (h' : s₂.Left m s₃ a) (hn : n ≤ m) : s₁.Left m s₃ a :=
  ⟨by rw [h'.esp, he], h'.top, (h.mono hn).trans h'.kept he⟩

end Cpu

/-! ## Types of constant expressions -/

theorem decay_of_isInteger (h : t.isInteger = true) : t.decay = t := by
  cases t with
  | array b n => cases h
  | _ => rfl

theorem ternaryCommonType_int {ta tb : CType} (ha : ta.isInteger = true) (hb : tb.isInteger = true) :
    (ternaryCommonType ta tb).isInteger = true := by
  obtain ⟨fa, pa, -, -⟩ := CType.isInteger_not ha
  obtain ⟨fb, -, -, -⟩ := CType.isInteger_not hb
  rw [ternaryCommonType, decay_of_isInteger ha, decay_of_isInteger hb, pa, fa, fb]
  rfl

theorem genUnary_int (op : UnaryOp) (h : t.isInteger = true) : genUnary op t = some (op.intType t) := by
  have hf := (CType.isInteger_not h).1
  cases op <;> simp [genUnary, UnaryOp.intType, hf]

theorem genBin_promoted {zero : Bool} (hl : lt.isInteger = true) (hr : rt.isInteger = true)
    (hz : ¬((op = .div ∨ op = .mod) ∧ zero = true)) :
    genBin op lt.decay.promote rt.decay.promote zero = some (op.intType lt rt) := by
  obtain ⟨el, il⟩ := promote_of_isInteger hl
  obtain ⟨er, ir⟩ := promote_of_isInteger hr
  obtain ⟨fl, pl, -, -⟩ := CType.isInteger_not il
  obtain ⟨fr, pr, -, -⟩ := CType.isInteger_not ir
  rw [el, er]
  simp only [genBin, if_neg hz, fl, fr, pl, pr, Bool.or_false, Bool.and_false, Bool.false_eq_true, if_false, false_and, and_false,
    BinOp.intType, isUnsignedPair]
  cases op <;> rfl

/-- The type read off a constant expression does not depend on the tables. -/
theorem inferType_const {e : Node} (he : e.isConst = true) : ∃ t : CType, t.isInteger = true ∧ ∀ env, inferType env e = some t := by
  induction e using Node.isConst.induct with
  | case1 v => exact ⟨.int false, rfl, fun env => by rw [inferType]⟩
  | case2 ty a ih =>
    simp only [Node.isConst, Bool.and_eq_true] at he
    exact ⟨ty, he.1, fun env => by rw [inferType]⟩
  | case3 op a ih =>
    obtain ⟨t, -, ht⟩ := ih he
    exact ⟨.int t.isUnsigned, rfl, fun env => by simp [inferType, ht]⟩
  | case4 c a b _ iha ihb =>
    rw [Node.isConst_tern] at he
    obtain ⟨ta, ha, hta⟩ := iha he.1.2
    obtain ⟨tb, hb, htb⟩ := ihb he.2
    exact ⟨ternaryCommonType ta tb, ternaryCommonType_int ha hb, fun env => by simp [inferType, hta, htb]⟩
  | case5 or a b iha ihb | case6 op a b iha ihb =>
    simp only [Node.isConst, Bool.and_eq_true] at he
    obtain ⟨ta, -, hta⟩ := iha (by tauto)
    exact ⟨.int ta.isUnsigned, rfl, fun env => by simp [inferType, hta]⟩
  | case7 e => simp [Node.isConst] at he

/-- The type of a constant expression is an integer type. -/
theorem constType_isInteger {e : Node} (he : e.isConst = true) : e.constType.isInteger = true := by
  cases e with
  | cast ty a =>
    simp only [Node.isConst, Bool.and_eq_true] at he
    exact he.1
  | unary op a => cases op <;> rfl
  | tern c a b =>
    rw [Node.isConst_tern] at he
    obtain ⟨ta, ha, hta⟩ := inferType_const he.1.2
    obtain ⟨tb, hb, htb⟩ := inferType_const he.2
    simpa [Node.constType, hta, htb] using ternaryCommonType_int ha hb
  | bin op a b =>
    simp only [Node.constType, BinOp.intType]
    split <;> rfl
  | _ => rfl

/-! ## Runs -/

/-- Code of the value of a constant expression. -/
structure ConstCode (w : World F) (e : Node) (T : CodeEnv) (c : Code) (T' : CodeEnv) : Prop where
  gen : gen T .value e = some (e.constType, c, T')
  labels : Drawn T.labels T'.labels (labelsOf c)
  runs : ∀ (text pre k : Code) (s : Cpu F) (v : U32), text = pre ++ c ++ k → (labelsOf text).Nodup → e.word = some v →
    ∃ s', (machine w).Runs text (c ++ k, s) (k, s') ∧ s.Left e.count s' v

/-- Code of an operand of `&&` and `||`: it jumps to one label where the operand is true and to another where it is false. -/
structure OperandCode (w : World F) (e : Node) (T : CodeEnv) (yes no : Nat) (t : CType) (c : Code) (T' : CodeEnv) : Prop where
  gen : gen T (if e.isLogical then .jumps yes no else .value) e = some (t, c, T')
  labels : Drawn T.labels T'.labels (labelsOf (logicalJump e t c yes no))
  runs : ∀ (text pre k ky kn : Code) (s : Cpu F) (v : U32), text = pre ++ logicalJump e t c yes no ++ k → (labelsOf text).Nodup →
    e.word = some v → behind yes text = some ky → behind no text = some kn →
    ∃ s', (machine w).Runs text (logicalJump e t c yes no ++ k, s) (if v = 0#32 then kn else ky, s') ∧
      s'.regs .esp = s.regs .esp ∧ s.Kept e.count s'

@[simp] theorem labelsOf_condJump (t : CType) (no : Nat) : labelsOf (condJump t no) = [] := by
  simp [condJump, ops, List.append_eq]

@[simp] theorem labelsOf_ops' (is : List Insn) : labelsOf (ops is) = [] := labelsOf_ops is

/-- The jump on a word on top of the stack. -/
theorem runs_condJump {text k kn : Code} {no : Nat} (s : Cpu F) (ht : t.isFloat = false) (hn : behind no text = some kn) :
    ∃ s', (machine w).Runs text (condJump t no ++ k, s) (if s.top = 0#32 then kn else k, s') ∧
      s'.regs .esp = s.regs .esp + 4#32 ∧ s'.mem = s.mem := by
  obtain ⟨s₁, h₁, hf, he, hm⟩ := execs_testInt w s
  have hz : (machine w).test .e s₁ = decide (s.top = 0#32) := by
    have : s₁.flags.zf = decide (s.top = 0#32) := by simp [hf, subFlags]
    exact this
  have hc : condJump t no ++ k = ops testInt ++ .branch .e no :: k := by
    simp [condJump, testZero, ht, List.append_eq]
  refine ⟨s₁, ?_, he, hm⟩
  rw [hc]
  refine (TextMachine.Runs.ops h₁).trans ?_
  by_cases h0 : s.top = 0#32
  · rw [if_pos h0]
    exact TextMachine.Runs.taken (by rw [hz, decide_eq_true h0]) hn
  · rw [if_neg h0]
    exact TextMachine.Runs.passed (by rw [hz, decide_eq_false h0])

/-- An operand that is no `&&` or `||` itself is a value and the jump on it. -/
theorem ConstCode.operand {e : Node} {T T' : CodeEnv} {c : Code} (h : ConstCode w e T c T') (he : e.isConst = true)
    (hl : e.isLogical = false) (yes no : Nat) : OperandCode w e T yes no e.constType c T' := by
  have hc : logicalJump e e.constType c yes no = c ++ condJump e.constType no ++ jumpTo yes := by simp [logicalJump, hl]
  refine ⟨by rw [hl]; exact h.gen, ?_, fun text pre k ky kn s v ht hn hv hy hno => ?_⟩
  · rw [hc]
    simpa [jumpTo] using h.labels
  · rw [hc] at ht ⊢
    obtain ⟨s₁, h₁, hl₁⟩ := h.runs text pre (condJump e.constType no ++ (jumpTo yes ++ k)) s v (by simp [ht]) hn hv
    obtain ⟨s₂, h₂, he₂, hm₂⟩ := runs_condJump (w := w) (k := jumpTo yes ++ k) s₁ (CType.isInteger_not (constType_isInteger he)).1 hno
    obtain ⟨he, hk⟩ := hl₁.take he₂ hm₂
    refine ⟨s₂, ?_, he, hk⟩
    simp only [List.append_assoc]
    refine h₁.trans (h₂.trans ?_)
    rw [hl₁.top]
    by_cases h0 : v = 0#32
    · simp only [if_pos h0]
      exact .refl
    · simp only [if_neg h0]
      exact TextMachine.Runs.jump hy

/-- Code of a condition: it falls through where the condition is true and jumps where it is false. -/
structure CondCode (w : World F) (e : Node) (T : CodeEnv) (no : Nat) (c : Code) (T' : CodeEnv) : Prop where
  gen : genCond T no e = some (c, T')
  labels : Drawn T.labels T'.labels (labelsOf c)
  runs : ∀ (text pre k kn : Code) (s : Cpu F) (v : U32), text = pre ++ c ++ k → (labelsOf text).Nodup → e.word = some v →
    behind no text = some kn → ∃ s', (machine w).Runs text (c ++ k, s) (if v = 0#32 then kn else k, s') ∧
      s'.regs .esp = s.regs .esp ∧ s.Kept e.count s'

theorem ConstCode.cond {e : Node} {T T' : CodeEnv} {c : Code} (h : ConstCode w e T c T') (he : e.isConst = true)
    (hl : e.isLogical = false) (no : Nat) : CondCode w e T no (c ++ condJump e.constType no) T' := by
  refine ⟨by simp [genCond, hl, h.gen], by simpa using h.labels, fun text pre k kn s v ht hn hv hno => ?_⟩
  obtain ⟨s₁, h₁, hl₁⟩ := h.runs text pre (condJump e.constType no ++ k) s v (by simp [ht]) hn hv
  obtain ⟨s₂, h₂, he₂, hm₂⟩ := runs_condJump (w := w) (k := k) s₁ (CType.isInteger_not (constType_isInteger he)).1 hno
  rw [hl₁.top] at h₂
  refine ⟨s₂, ?_, hl₁.take he₂ hm₂⟩
  rw [List.append_assoc]
  exact h₁.trans h₂

/-- A condition that is `&&` or `||` jumps behind itself where it is true. -/
theorem OperandCode.cond {e : Node} {T T' : CodeEnv} {c : Code} {no : Nat} (h : OperandCode w e T.newLabel.2 T.labels no t c T')
    (hl : e.isLogical = true) : CondCode w e T no (c ++ labelAt T.labels) T' := by
  have hc : logicalJump e t c T.labels no = c := by simp [logicalJump, hl]
  have hgen := h.gen
  have hlab := h.labels
  rw [hc] at hlab
  rw [hl, if_pos rfl] at hgen
  have hd : Drawn T.labels T'.labels (labelsOf (c ++ labelAt T.labels)) := by
    have := Drawn.first (a := T.labels) (b := T'.labels) (x := labelsOf c) (y := []) (by simpa [CodeEnv.newLabel] using hlab)
    simpa [labelAt] using this
  refine ⟨?_, hd, fun text pre k kn s v ht hn hv hno => ?_⟩
  · simp only [genCond, hl, if_true]
    have : T.newLabel.1 = T.labels := rfl
    rw [this, hgen]
    rfl
  · have hy : behind T.labels text = some k := behind_of_nodup hn (p := pre ++ c) (by simp [ht, labelAt])
    have hr := h.runs text pre (labelAt T.labels ++ k) k kn s v (by simp [ht, hc]) hn hv hy hno
    rw [hc] at hr
    simpa only [List.append_assoc] using hr

/-- Code of `&&` or `||` with labels to jump to. -/
structure LogicalCode (w : World F) (or : Bool) (a b : Node) (T : CodeEnv) (yes no : Nat) (c : Code) (T' : CodeEnv) : Prop where
  gen : ∀ m T₀, GenMode.targets m T₀ = some ((yes, no), T) → MiniOs32.gen T₀ m (.logical or a b) = some (m.finishLogical yes no c T')
  labels : Drawn T.labels T'.labels (labelsOf c)
  runs : ∀ (text pre k ky kn : Code) (s : Cpu F) (v : U32), text = pre ++ c ++ k → (labelsOf text).Nodup →
    (Node.logical or a b).word = some v → behind yes text = some ky → behind no text = some kn →
    ∃ s', (machine w).Runs text (c ++ k, s) (if v = 0#32 then kn else ky, s') ∧
      s'.regs .esp = s.regs .esp ∧ s.Kept (a.count + b.count) s'

/-- The left operand decides, or the right one does. -/
theorem OperandCode.logical {or : Bool} {a b : Node} {T T₁ T₂ : CodeEnv} {yes no : Nat} {ta tb : CType} {ca cb : Code}
    (ha : OperandCode w a T.newLabel.2 (if or then yes else T.labels) (if or then T.labels else no) ta ca T₁)
    (hb : OperandCode w b T₁ yes no tb cb T₂) :
    LogicalCode w or a b T yes no (logicalJump a ta ca (if or then yes else T.labels) (if or then T.labels else no) ++
      labelAt T.labels ++ logicalJump b tb cb yes no) T₂ := by
  refine ⟨fun m T₀ hT => gen_logical hT ha.gen hb.gen, ?_, fun text pre k ky kn s v ht hn hv hy hno => ?_⟩
  · have h := Drawn.first (ha.labels.append hb.labels)
    simpa [labelAt] using h
  · set ja := logicalJump a ta ca (if or then yes else T.labels) (if or then T.labels else no) with hja
    set jb := logicalJump b tb cb yes no with hjb
    have hmid : behind T.labels text = some (jb ++ k) := behind_of_nodup hn (p := pre ++ ja) (by simp [ht, labelAt])
    obtain ⟨x, hx, hv⟩ := Option.bind_eq_some_iff.mp (show (a.word.bind _) = some v from hv)
    have hy₁ : behind (if or then yes else T.labels) text = some (if or then ky else jb ++ k) := by
      cases or
      · exact hmid
      · exact hy
    have hn₁ : behind (if or then T.labels else no) text = some (if or then jb ++ k else kn) := by
      cases or
      · exact hno
      · exact hmid
    obtain ⟨s₁, h₁, he₁, hk₁⟩ := ha.runs text pre (labelAt T.labels ++ jb ++ k) _ _ s x (by simp [ht, hja]) hn hx hy₁ hn₁
    simp only [List.append_assoc] at h₁ ⊢
    by_cases hd : decide (x = 0#32) = or
    · rw [if_pos hd] at hv
      obtain ⟨y, hyv, rfl⟩ := Option.map_eq_some_iff.mp hv
      obtain ⟨s₂, h₂, he₂, hk₂⟩ := hb.runs text (pre ++ ja ++ labelAt T.labels) k ky kn s₁ y (by simp [ht, hjb]) hn hyv hy hno
      have hmidk : (if x = 0#32 then (if or then jb ++ k else kn) else (if or then ky else jb ++ k)) = jb ++ k := by
        cases or
        · simp only [decide_eq_false_iff_not] at hd
          simp [hd]
        · simp only [decide_eq_true_eq] at hd
          simp [hd]
      rw [hmidk] at h₁
      have hz : (boolWord (decide (y ≠ 0#32)) = 0#32) = (y = 0#32) := by
        by_cases h0 : y = 0#32 <;> simp [boolWord, h0]
      refine ⟨s₂, h₁.trans ?_, by rw [he₂, he₁], (hk₁.mono (by omega)).trans (hk₂.mono (by omega)) he₁⟩
      simpa only [hz] using h₂
    · rw [if_neg hd] at hv
      cases hv
      refine ⟨s₁, ?_, he₁, hk₁.mono (by omega)⟩
      have hk : (if x = 0#32 then (if or then jb ++ k else kn) else (if or then ky else jb ++ k)) =
          if boolWord or = 0#32 then kn else ky := by
        cases or
        · have h0 : x = 0#32 := by simpa using hd
          simp [h0, boolWord]
        · have h0 : x ≠ 0#32 := by simpa using hd
          simp [h0, boolWord]
      rwa [hk] at h₁

/-- An `&&` or `||` that jumps. -/
theorem LogicalCode.operand {or : Bool} {a b : Node} {T T' : CodeEnv} {yes no : Nat} {c : Code}
    (h : LogicalCode w or a b T yes no c T') : OperandCode w (.logical or a b) T yes no (.int false) c T' := by
  refine ⟨h.gen (.jumps yes no) T rfl, h.labels, fun text pre k ky kn s v ht hn hv hy hno => ?_⟩
  obtain ⟨s', hr, he, hk⟩ := h.runs text pre k ky kn s v ht hn hv hy hno
  exact ⟨s', hr, he, hk.mono (by simp [Node.count, Nat.add_assoc])⟩

/-- An `&&` or `||` whose value is asked for. -/
theorem LogicalCode.value {or : Bool} {a b : Node} {T T₀ T' : CodeEnv} {c : Code} (hT : T₀ = T.newLabel.2.newLabel.2)
    (h : LogicalCode w or a b T₀ T.labels (T.labels + 1) c T') :
    ConstCode w (.logical or a b) T (c ++ labelAt T.labels ++ ops [.pushImm 1#32] ++ jumpTo T'.labels ++ labelAt (T.labels + 1) ++
      ops [.pushImm 0#32] ++ labelAt T'.labels) T'.newLabel.2 := by
  subst hT
  have hg := h.gen .value T rfl
  refine ⟨hg, ?_, fun text pre k s v ht hn hv => ?_⟩
  · have h₁ := Drawn.first (a := T.labels + 1) (x := labelsOf c) (y := []) (by simpa [CodeEnv.newLabel] using h.labels)
    have h₂ := Drawn.first (a := T.labels) (x := labelsOf c) (y := [T.labels + 1]) (by simpa using h₁)
    have h₃ := Drawn.last (x := labelsOf c ++ [T.labels, T.labels + 1]) (y := []) (by simpa using h₂)
    simpa [labelAt, jumpTo, ops, CodeEnv.newLabel] using h₃
  · have hy : behind T.labels text = some (ops [.pushImm 1#32] ++ (jumpTo T'.labels ++ (labelAt (T.labels + 1) ++
        (ops [.pushImm 0#32] ++ (labelAt T'.labels ++ k))))) :=
      behind_of_nodup hn (p := pre ++ c) (by simp [ht, labelAt])
    have hno : behind (T.labels + 1) text = some (ops [.pushImm 0#32] ++ (labelAt T'.labels ++ k)) :=
      behind_of_nodup hn (p := pre ++ c ++ labelAt T.labels ++ ops [.pushImm 1#32] ++ jumpTo T'.labels) (by simp [ht, labelAt])
    have hd : behind T'.labels text = some k :=
      behind_of_nodup hn (p := pre ++ c ++ labelAt T.labels ++ ops [.pushImm 1#32] ++ jumpTo T'.labels ++ labelAt (T.labels + 1) ++
        ops [.pushImm 0#32]) (by simp [ht, labelAt])
    obtain ⟨s₁, h₁, he₁, hk₁⟩ := h.runs text pre (labelAt T.labels ++ (ops [.pushImm 1#32] ++ (jumpTo T'.labels ++
      (labelAt (T.labels + 1) ++ (ops [.pushImm 0#32] ++ (labelAt T'.labels ++ k)))))) _ _ s v (by simp [ht]) hn hv hy hno
    have hpush : ∀ (x : U32) (k' : Code), (machine w).Runs text (ops [.pushImm x] ++ k', s₁) (k', s₁.push x) :=
      fun x k' => by
        have h : (machine w).execs [.pushImm x] s₁ = some (s₁.push x) := rfl
        exact TextMachine.Runs.ops h
    have hleft : ∀ x, s.Left (Node.logical or a b).count (s₁.push x) x := fun x =>
      .after (hk₁.mono (by simp [Node.count, Nat.add_assoc])) he₁ (.push s₁ x (by simp [Node.count, Nat.add_assoc]) rfl rfl) le_rfl
    have hv01 : v = 0#32 ∨ v = 1#32 := by
      obtain ⟨x, -, hv⟩ := Option.bind_eq_some_iff.mp (show (a.word.bind _) = some v from hv)
      split at hv
      · obtain ⟨y, -, rfl⟩ := Option.map_eq_some_iff.mp hv
        cases decide (y ≠ 0#32) <;> simp [boolWord]
      · cases hv
        cases or <;> simp [boolWord]
    simp only [List.append_assoc]
    rcases hv01 with rfl | rfl
    · rw [if_pos rfl] at h₁
      exact ⟨s₁.push 0#32, h₁.trans ((hpush _ _).trans TextMachine.Runs.label), hleft _⟩
    · rw [if_neg (by decide)] at h₁
      exact ⟨s₁.push 1#32, h₁.trans ((hpush _ _).trans (TextMachine.Runs.jump hd)), hleft _⟩

/-- What replaces the value of an operand. -/
theorem ConstCode.replaced {a : Node} {T T' : CodeEnv} {c : Code} (h : ConstCode w a T c T') {is : List Insn} {f : U32 → U32}
    (his : ∀ s : Cpu F, ∃ s', (machine w).execs is s = some s' ∧ s'.top = f s.top ∧ s'.regs .esp = s.regs .esp ∧ s.OnlyTop s')
    {text pre k : Code} {s : Cpu F} (ht : text = pre ++ (c ++ ops is) ++ k) (hn : (labelsOf text).Nodup) (hv : a.word = some v) :
    ∃ s', (machine w).Runs text (c ++ ops is ++ k, s) (k, s') ∧ s.Left (1 + a.count) s' (f v) := by
  obtain ⟨s₁, h₁, hl₁⟩ := h.runs text pre (ops is ++ k) s v (by simp [ht]) hn hv
  obtain ⟨s₂, h₂, ht₂, he₂, hm₂⟩ := his s₁
  rw [hl₁.top] at ht₂
  refine ⟨s₂, ?_, (hl₁.replace ht₂ he₂ hm₂ (count_pos a)).mono (by omega)⟩
  rw [List.append_assoc]
  exact h₁.trans (TextMachine.Runs.ops h₂)

theorem ConstCode.cast {a : Node} {T T' : CodeEnv} {c : Code} {ty : CType} (h : ConstCode w a T c T') (ha : a.isConst = true)
    (hty : ty.isInteger = true) : ConstCode w (.cast ty a) T (c ++ ops (castCode a.constType ty)) T' := by
  refine ⟨gen_cast ty h.gen, by simpa using h.labels, fun text pre k s v ht hn hv => ?_⟩
  obtain ⟨x, hx, rfl⟩ := Option.map_eq_some_iff.mp (show a.word.map ty.convert = some v from hv)
  exact h.replaced (fun s => execs_castCode s (CType.isInteger_not (constType_isInteger ha)).1 hty) ht hn hx

theorem ConstCode.unary {op : UnaryOp} {a : Node} {T T' : CodeEnv} {c : Code} (h : ConstCode w a T c T') (ha : a.isConst = true) :
    ConstCode w (.unary op a) T (c ++ ops (unaryCode op a.constType)) T' := by
  have hi := constType_isInteger ha
  refine ⟨gen_unary h.gen (genUnary_int op hi), by simpa using h.labels, fun text pre k s v ht hn hv => ?_⟩
  obtain ⟨x, hx, rfl⟩ := Option.map_eq_some_iff.mp (show a.word.map op.fold = some v from hv)
  exact h.replaced (fun s => execs_unaryCode op s (CType.isInteger_not hi).1) ht hn hx

theorem ConstCode.bin {a b : Node} {T T₁ T₂ : CodeEnv} {ca cb : Code} (ha : ConstCode w a T ca T₁) (hb : ConstCode w b T₁ cb T₂)
    (he : (Node.bin op a b).isConst = true) (hc : b.count ≤ maxNode) :
    ConstCode w (.bin op a b) T (ca ++ cb ++ ops (binCode T₂ op a.constType.decay.promote b.constType.decay.promote)) T₂ := by
  simp only [Node.isConst, Bool.and_eq_true, Bool.not_eq_true', Bool.and_eq_false_iff, decide_eq_false_iff_not] at he
  have hta := constType_isInteger he.1.1
  have htb := constType_isInteger he.1.2
  have hz : ¬((op = .div ∨ op = .mod) ∧ b.isZero = true) := by
    rintro ⟨h₁, h₂⟩
    rcases he.2 with h | h
    · exact h h₁
    · exact absurd h₂ (by simp [h])
  refine ⟨gen_bin ha.gen hb.gen (genBin_promoted hta htb hz), by simpa using ha.labels.append hb.labels, fun text pre k s v ht hn hv => ?_⟩
  obtain ⟨x, hx, hv⟩ := Option.bind_eq_some_iff.mp (show (a.word.bind _) = some v from hv)
  obtain ⟨y, hy, hv⟩ := Option.bind_eq_some_iff.mp hv
  set is := binCode T₂ op a.constType.decay.promote b.constType.decay.promote with his
  obtain ⟨s₁, h₁, hl₁⟩ := ha.runs text pre (cb ++ (ops is ++ k)) s x (by simp [ht]) hn hx
  obtain ⟨s₂, h₂, hl₂⟩ := hb.runs text (pre ++ ca) (ops is ++ k) s₁ y (by simp [ht]) hn hy
  have hw : op.word (isUnsignedPair a.constType b.constType) s₂.second s₂.top = some v := by rw [hl₁.second hl₂ hc, hl₂.top, hv]
  obtain ⟨s₃, h₃, ht₃, he₃, hm₃⟩ := execs_binCode (w := w) T₂ s₂ hta htb hw
  refine ⟨s₃, ?_, hl₁.combine hl₂ ht₃ he₃ hm₃⟩
  simp only [List.append_assoc]
  exact h₁.trans (h₂.trans (TextMachine.Runs.ops h₃))

/-- The chosen operand of `?:` is left as it is. -/
theorem ConstCode.tern {e a b : Node} {T T₁ T₂ T₃ : CodeEnv} {cc ca cb : Code}
    (hc : CondCode w e T.newLabel.2.newLabel.2 T.labels cc T₁) (ha : ConstCode w a T₁ ca T₂) (hb : ConstCode w b T₂ cb T₃)
    (hca : a.isConst = true) (hcb : b.isConst = true) :
    ConstCode w (.tern e a b) T (cc ++ ca ++ jumpTo (T.labels + 1) ++ labelAt T.labels ++ cb ++ labelAt (T.labels + 1)) T₃ := by
  obtain ⟨ta, hta, hia⟩ := inferType_const hca
  obtain ⟨tb, htb, hib⟩ := inferType_const hcb
  have hct := (CType.isInteger_not (ternaryCommonType_int hta htb)).1
  have hfa := (CType.isInteger_not (constType_isInteger hca)).1
  have hfb := (CType.isInteger_not (constType_isInteger hcb)).1
  have hrec : (ta.decay.isRecord || tb.decay.isRecord) = false := by
    rw [decay_of_isInteger hta, decay_of_isInteger htb, (CType.isInteger_not hta).2.2.1, (CType.isInteger_not htb).2.2.1]
    rfl
  refine ⟨?_, ?_, fun text pre k s v ht hn hv => ?_⟩
  · have hg := gen_tern (hia T.env) (hib T.env) hrec hc.gen ha.gen hb.gen
    rw [hg]
    simp [convStack_int hfa hct, convStack_int hfb hct, Node.constType, hia, hib, ops]
  · have h := hc.labels.append (ha.labels.append hb.labels)
    have h₁ := Drawn.first (a := T.labels + 1) (x := labelsOf cc ++ (labelsOf ca ++ labelsOf cb)) (y := [])
      (by simpa [CodeEnv.newLabel] using h)
    have h₂ := Drawn.first (a := T.labels) (x := labelsOf cc ++ labelsOf ca) (y := labelsOf cb ++ [T.labels + 1]) (by simpa using h₁)
    simpa [labelAt, jumpTo] using h₂
  · obtain ⟨x, hx, hv⟩ := Option.bind_eq_some_iff.mp (show (e.word.bind _) = some v from hv)
    have hno : behind T.labels text = some (cb ++ (labelAt (T.labels + 1) ++ k)) :=
      behind_of_nodup hn (p := pre ++ cc ++ ca ++ jumpTo (T.labels + 1)) (by simp [ht, labelAt])
    have hd : behind (T.labels + 1) text = some k :=
      behind_of_nodup hn (p := pre ++ cc ++ ca ++ jumpTo (T.labels + 1) ++ labelAt T.labels ++ cb) (by simp [ht, labelAt])
    obtain ⟨s₁, h₁, he₁, hk₁⟩ := hc.runs text pre (ca ++ (jumpTo (T.labels + 1) ++ (labelAt T.labels ++ (cb ++
      (labelAt (T.labels + 1) ++ k))))) _ s x (by simp [ht]) hn hx hno
    simp only [List.append_assoc]
    have hcount : (Node.tern e a b).count = 1 + e.count + a.count + b.count := rfl
    by_cases h0 : x = 0#32
    · rw [if_pos h0] at h₁
      rw [if_neg (by simp [h0])] at hv
      obtain ⟨s₂, h₂, hl₂⟩ := hb.runs text (pre ++ cc ++ ca ++ jumpTo (T.labels + 1) ++ labelAt T.labels)
        (labelAt (T.labels + 1) ++ k) s₁ v (by simp [ht]) hn hv
      exact ⟨s₂, h₁.trans (h₂.trans TextMachine.Runs.label), .after (hk₁.mono (by omega)) he₁ (hl₂.mono (by omega)) le_rfl⟩
    · rw [if_neg h0] at h₁
      rw [if_pos h0] at hv
      obtain ⟨s₂, h₂, hl₂⟩ := ha.runs text (pre ++ cc) (jumpTo (T.labels + 1) ++ (labelAt T.labels ++ (cb ++
        (labelAt (T.labels + 1) ++ k)))) s₁ v (by simp [ht]) hn hv
      exact ⟨s₂, h₁.trans (h₂.trans (TextMachine.Runs.jump hd)), .after (hk₁.mono (by omega)) he₁ (hl₂.mono (by omega)) le_rfl⟩

/-- A constant expression as a value and as an operand. -/
theorem constCode (w : World F) (e : Node) (he : e.isConst = true) (hc : e.count ≤ maxNode) :
    (∀ T, ∃ c T', ConstCode w e T c T') ∧ (∀ T yes no, ∃ t c T', OperandCode w e T yes no t c T') ∧
      ∀ T no, ∃ c T', CondCode w e T no c T' := by
  -- What is no `&&` or `||` is an operand and a condition as it is a value.
  have hval : ∀ e : Node, e.isConst = true → e.isLogical = false → (∀ T, ∃ c T', ConstCode w e T c T') →
      (∀ T, ∃ c T', ConstCode w e T c T') ∧ (∀ T yes no, ∃ t c T', OperandCode w e T yes no t c T') ∧
        ∀ T no, ∃ c T', CondCode w e T no c T' := by
    intro e he hl h
    refine ⟨h, fun T yes no => ?_, fun T no => ?_⟩
    · obtain ⟨c, T', h⟩ := h T
      exact ⟨_, c, T', h.operand he hl yes no⟩
    · obtain ⟨c, T', h⟩ := h T
      exact ⟨_, T', h.cond he hl no⟩
  induction e using Node.isConst.induct with
  | case1 v =>
    refine hval _ he rfl fun T => ⟨ops [.pushImm v], T, rfl, by simpa using Drawn.nil _, fun text pre k s x ht hn hx => ?_⟩
    cases hx
    have h : (machine w).execs [.pushImm v] s = some (s.push v) := rfl
    exact ⟨s.push v, TextMachine.Runs.ops h, .push s v le_rfl rfl rfl⟩
  | case2 ty a ih =>
    obtain ⟨hty, ha⟩ := Bool.and_eq_true_iff.mp he
    refine hval _ he rfl fun T => ?_
    obtain ⟨c, T', h⟩ := (ih ha (by simp only [Node.count] at hc; omega)).1 T
    exact ⟨_, T', h.cast ha hty⟩
  | case3 op a ih =>
    refine hval _ he rfl fun T => ?_
    obtain ⟨c, T', h⟩ := (ih he (by simp only [Node.count] at hc; omega)).1 T
    exact ⟨_, T', h.unary he⟩
  | case4 e a b ihe iha ihb =>
    have hconst := he
    rw [Node.isConst_tern] at hconst
    simp only [Node.count] at hc
    refine hval _ he rfl fun T => ?_
    obtain ⟨cc, T₁, hcc⟩ := (ihe hconst.1.1 (by omega)).2.2 T.newLabel.2.newLabel.2 T.labels
    obtain ⟨ca, T₂, hca⟩ := (iha hconst.1.2 (by omega)).1 T₁
    obtain ⟨cb, T₃, hcb⟩ := (ihb hconst.2 (by omega)).1 T₂
    exact ⟨_, T₃, .tern hcc hca hcb hconst.1.2 hconst.2⟩
  | case5 or a b iha ihb =>
    obtain ⟨ha, hb⟩ := Bool.and_eq_true_iff.mp he
    simp only [Node.count] at hc
    have hlog : ∀ T yes no, ∃ c T', LogicalCode w or a b T yes no c T' := by
      intro T yes no
      obtain ⟨ta, ca, T₁, hca⟩ := (iha ha (by omega)).2.1 T.newLabel.2 (if or then yes else T.labels) (if or then T.labels else no)
      obtain ⟨tb, cb, T₂, hcb⟩ := (ihb hb (by omega)).2.1 T₁ yes no
      exact ⟨_, T₂, hca.logical hcb⟩
    refine ⟨fun T => ?_, fun T yes no => ?_, fun T no => ?_⟩
    · obtain ⟨c, T', h⟩ := hlog T.newLabel.2.newLabel.2 T.labels (T.labels + 1)
      exact ⟨_, _, h.value rfl⟩
    · obtain ⟨c, T', h⟩ := hlog T yes no
      exact ⟨_, c, T', h.operand⟩
    · obtain ⟨c, T', h⟩ := hlog T.newLabel.2 T.labels no
      exact ⟨_, T', h.operand.cond rfl⟩
  | case6 op a b iha ihb =>
    have hconst := he
    rw [Node.isConst_bin] at hconst
    simp only [Node.count] at hc
    refine hval _ he rfl fun T => ?_
    obtain ⟨ca, T₁, hca⟩ := (iha hconst.1.1 (by omega)).1 T
    obtain ⟨cb, T₂, hcb⟩ := (ihb hconst.1.2 (by omega)).1 T₁
    exact ⟨_, T₂, hca.bin hcb he (by omega)⟩
  | case7 e => simp [Node.isConst] at he

end MiniOs32
