import MiniOs32.Lemmas.CodeFlow
import MiniOs32.Lemmas.Cpu

/-!
# The stack pointer and the x87 through generated code

Two analyses. One follows the stack pointer, with the frame pointer fixed: it is right for code whose calls drop what they pushed.
The other follows the number of registers on the x87's stack: it is right for code that tests no float. Neither looks at values.
-/

namespace MiniOs32

/-! ## The stack pointer -/

/-- By how much an instruction moves the stack pointer; `none` where it sets it otherwise, or sets the frame pointer. -/
def Insn.moves : Insn → Option U32
  | .pushImm _ | .push _ => some (-4#32)
  | .pop .esp | .pop .ebp => none
  | .pop _ => some 4#32
  | .movImm .esp _ | .movImm .ebp _ | .mov .esp _ | .mov .ebp _ | .load .esp _ | .load .ebp _ => none
  | .alu _ .esp _ | .alu _ .ebp _ | .addImm .ebp _ | .subImm .ebp _ | .leave | .ret => none
  | .addImm .esp v => some v
  | .subImm .esp v => some (-v)
  | _ => some 0#32

/-- By how much a straight line moves the stack pointer. -/
def moves : List Insn → Option U32
  | [] => some 0#32
  | i :: is => i.moves.bind fun d => (moves is).map (d + ·)

/-- A call drops its arguments where their bytes, as an `int`, are not negative. -/
def Use.Drops : Use → Prop
  | .test _ | .bare _ => True
  | .direct _ n _ => n.slt 0#32 = false
  | .indirect argc => (BitVec.ofNat 32 (4 * argc)).slt 0#32 = false

/-- The analysis of the stack pointer. -/
def stackPointer : Analysis U32 where
  tr i a := i.moves.map (a + ·)
  rest _ := True
  below n a := a - n
  ok := Use.Drops

theorem transfers_stackPointer (is : List Insn) (a : U32) : transfers stackPointer.tr is a = (moves is).map (a + ·) := by
  induction is generalizing a with
  | nil => simp [moves]
  | cons i is ih =>
    simp only [transfers, moves, stackPointer]
    cases i.moves with
    | none => rfl
    | some d =>
      simp only [Option.map_some, Option.bind_some]
      rw [show transfers (fun i a => i.moves.map (a + ·)) is (a + d) = (moves is).map (a + d + ·) from ih (a + d), Option.map_map]
      congr 1
      funext x
      exact BitVec.add_assoc a d x

theorem moves_append (is js : List Insn) : moves (is ++ js) = (moves is).bind fun d => (moves js).map (d + ·) := by
  induction is with
  | nil => simp [moves]
  | cons i is ih =>
    simp only [List.cons_append, moves, ih]
    cases i.moves with
    | none => rfl
    | some d => cases moves is <;> cases moves js <;> simp [BitVec.add_assoc]

theorem moves_trans {is js : List Insn} {x y z : U32} (h : moves is = some x) (h' : moves js = some y) (hz : x + y = z) :
    moves (is ++ js) = some z := by
  rw [moves_append, h, h', Option.bind_some, Option.map_some, hz]

/-- A straight line does what it moves the stack pointer by. -/
theorem stackPointer_does {is : List Insn} {n n' d : U32} (h : moves is = some d) (hd : d + n' = n) :
    stackPointer.Does is n n' := by
  intro a _
  have ha : a - n + d = a - n' := by
    subst hd
    bv_omega
  refine (transfers_stackPointer is (a - n)).trans ?_
  rw [h, Option.map_some, ha]
  rfl

/-- What is dropped is what was pushed. -/
theorem moves_dropBytes {n : U32} (h : n.slt 0#32 = false) : moves (dropBytes n) = some n := by
  by_cases hn : (0#32).slt n = true
  · rw [dropBytes, if_pos hn]
    exact congrArg some (BitVec.add_zero n)
  · have : n = 0#32 := by
      simp only [BitVec.slt_eq_decide, decide_eq_false_iff_not, decide_eq_true_eq] at h hn
      apply BitVec.eq_of_toInt_eq
      have : (0#32).toInt = 0 := by decide
      omega
    subst this
    rfl

theorem moves_convStack (t t' : CType) : moves (convStack t t' 0#32) = some 0#32 := by
  unfold convStack
  split
  · rfl
  · split <;> rfl

theorem moves_scale (sz : U32) : moves (scale sz) = some 0#32 := by
  unfold scale
  split <;> rfl

theorem moves_scaleTop (sz : U32) : moves (scaleTop sz) = some 0#32 := by
  unfold scaleTop
  split
  · exact moves_trans (moves_trans rfl (moves_scale sz) rfl) rfl (by decide)
  · rfl

theorem moves_testZero (t : CType) : moves (testZero t) = some 4#32 := by
  unfold testZero
  split <;> rfl

theorem moves_boolify (t : CType) : moves (boolify t) = some 0#32 := moves_trans (moves_testZero t) rfl (by decide)

theorem moves_storeToAddr (t : CType) : moves (storeToAddr t) = some 4#32 := by
  unfold storeToAddr
  split <;> rfl

theorem moves_convStored (t t' : CType) : moves (convStored t t') = some 0#32 := by
  unfold convStored
  split
  · exact moves_boolify t
  · exact moves_convStack t t'

theorem moves_loadAddr (s : CSym) : moves (loadAddr s) = some (-4#32) := by
  unfold loadAddr
  split <;> rfl

/-- The argument registers of a system call. -/
theorem moves_pops (rs : List Reg) (h : ∀ r ∈ rs, r ≠ .esp ∧ r ≠ .ebp) :
    moves (rs.map .pop) = some (BitVec.ofNat 32 (4 * rs.length)) := by
  induction rs with
  | nil => rfl
  | cons r rs ih =>
    have hr : (Insn.pop r).moves = some 4#32 := by
      have := h r (by simp)
      cases r <;> first | rfl | simp at this
    rw [List.map_cons, moves, hr, ih fun r hr => h r (by simp [hr])]
    simp only [Option.bind_some, Option.map_some, List.length_cons, Nat.mul_add, BitVec.ofNat_add, Option.some.injEq]
    exact BitVec.add_comm _ _

theorem moves_intOp (op : BinOp) (uns : Bool) : moves (intOp op uns) = some 0#32 := by
  cases op <;> cases uns <;> rfl

theorem moves_divBySize (sz : U32) : moves (divBySize sz) = some 0#32 := by
  unfold divBySize
  split <;> rfl

theorem moves_convBoth (lt rt : CType) : moves (convBoth lt rt) = some 0#32 := by
  unfold convBoth
  split <;> split <;> rfl

theorem moves_floatArith (op : BinOp) : moves (floatArith op) = some 4#32 := by
  cases op <;> rfl

theorem moves_binCode (T : CodeEnv) (op : BinOp) (lt rt : CType) : moves (binCode T op lt rt) = some 4#32 := by
  have hint : ∀ uns, moves (popBoth ++ intOp op uns ++ pushEax) = some 4#32 := fun uns =>
    moves_trans (moves_trans rfl (moves_intOp op uns) rfl) rfl (by decide)
  unfold binCode
  simp only
  split
  · exact hint _
  split
  · split
    · exact moves_trans (moves_convBoth lt rt) rfl (by decide)
    · exact hint _
  split
  · exact moves_trans (moves_trans (moves_trans (moves_scaleTop _) rfl rfl) (moves_intOp op true) rfl) rfl (by decide)
  split
  · exact moves_trans (moves_trans (moves_trans rfl (moves_scale _) rfl) (moves_intOp .add true) rfl) rfl (by decide)
  split
  · exact moves_trans (moves_trans (moves_trans rfl (moves_intOp .sub true) rfl) (moves_divBySize _) rfl) rfl (by decide)
  split
  · exact moves_trans (moves_convBoth lt rt) (moves_floatArith op) (by decide)
  · exact hint _

theorem moves_assignCode (T : CodeEnv) (lt rt : CType) : moves (assignCode T lt rt) = some 4#32 := by
  unfold assignCode
  split
  · rfl
  · exact moves_trans (moves_convStored rt lt) (moves_storeToAddr lt) (by decide)

theorem moves_castCode (t ty : CType) : moves (castCode t ty) = some 0#32 := by
  unfold castCode
  split
  · exact moves_boolify t
  · exact moves_trans (moves_convStack _ _) rfl (by decide)
  · exact moves_trans (moves_convStack _ _) rfl (by decide)
  · exact moves_convStack _ _

theorem moves_unaryCode (op : UnaryOp) (t : CType) : moves (unaryCode op t) = some 0#32 := by
  cases op with
  | neg =>
    unfold unaryCode
    split
    · split <;> rfl
    all_goals contradiction
  | not => exact moves_trans (moves_testZero t) rfl (by decide)
  | compl => rfl

theorem moves_vaArgCode (s : CSym) (t : CType) (n : U32) : moves (vaArgCode s t n) = some (-4#32) := by
  unfold vaArgCode
  split
  · exact moves_trans (moves_loadAddr s) rfl (by decide)
  · exact moves_trans (moves_loadAddr s) rfl (by decide)

theorem moves_vaStart (ap last : CSym) (n : U32) : moves (vaStart ap last n) = some (-4#32) :=
  moves_trans (moves_trans (moves_loadAddr ap) (moves_loadAddr last) rfl) rfl (by decide)

theorem moves_indexCode (T : CodeEnv) (b it : CType) : moves (indexCode T b it) = some 4#32 := by
  unfold indexCode
  split
  · exact moves_trans (moves_trans rfl (moves_scaleTop _) rfl) rfl (by decide)
  · exact moves_trans (moves_trans rfl (moves_scaleTop _) rfl) rfl (by decide)

/-- A system call has four arguments at most. -/
theorem argc_of_ok {x : List Byte} {argc : Nat} (h : syscallArgcOk x argc = true) : argc ≤ 4 := by
  unfold syscallArgcOk at h
  split at h
  · exact (of_decide_eq_true h).2
  · have hall : ∀ b ∈ syscallBuiltins, b.2 ≤ 4 := by decide
    cases hf : syscallBuiltins.find? fun b => decide (asciiBytes b.1 = x) with
    | none =>
      rw [hf] at h
      cases h
    | some b =>
      rw [hf] at h
      have : argc = b.2 := of_decide_eq_true h
      exact this ▸ hall b (List.mem_of_find?_eq_some hf)

theorem moves_syscallCode {x : List Byte} {argc : Nat} (h : syscallArgcOk x argc = true) :
    moves (syscallCode x argc) = some (BitVec.ofNat 32 (4 * argc) - 4#32) := by
  have hargc := argc_of_ok h
  have hpops : ∀ rs : List Reg, rs.length = 4 → (∀ r ∈ rs, r ≠ .esp ∧ r ≠ .ebp) →
      moves ((rs.take argc).map .pop) = some (BitVec.ofNat 32 (4 * argc)) := by
    intro rs hl hr
    rw [moves_pops _ fun r h => hr r (List.mem_of_mem_take h), List.length_take, hl, Nat.min_eq_left hargc]
  have hend : ∀ n, moves [.movImm .eax n, .int80, .push .eax] = some (-4#32) := fun n => rfl
  have hend' : moves [.int80, .push .eax] = some (-4#32) := rfl
  unfold syscallCode
  split
  · exact moves_trans (hpops _ rfl (by decide)) hend' (BitVec.sub_eq_add_neg ..).symm
  · exact moves_trans (hpops _ rfl (by decide)) (hend _) (BitVec.sub_eq_add_neg ..).symm

theorem moves_callEaxCode {argc : Nat} (h : (BitVec.ofNat 32 (4 * argc)).slt 0#32 = false) :
    moves (callEaxCode argc) = some (BitVec.ofNat 32 (4 * argc)) := by
  have hpop : moves [.pop .eax, .callEax] = some 4#32 := rfl
  have hdrop : moves (.pop .eax :: .callEax :: dropBytes (BitVec.ofNat 32 (4 * argc))) = _ :=
    moves_trans hpop (moves_dropBytes h) rfl
  have hpush : moves pushEax = some (-4#32) := rfl
  refine moves_trans hdrop hpush ?_
  generalize BitVec.ofNat 32 (4 * argc) = n
  bv_omega

theorem moves_callCode {x : List Byte} {n : U32} (ret : CType) (h : n.slt 0#32 = false) :
    moves (callCode x n ret) = some (n - 4#32) := by
  have hend : moves (if ret.isFloat then [.addImm .esp (-4#32), .fstp 0#32] else pushEax) = some (-4#32) := by
    split <;> rfl
  have hcall : moves [.call x] = some 0#32 := rfl
  refine moves_trans hcall (moves_trans (moves_dropBytes h) hend rfl) ?_
  bv_omega

theorem moves_structPush (size : U32) : moves (structPush size) = some (4#32 - ((size + 3#32) &&& ~~~3#32)) := by
  unfold structPush
  generalize (size + 3#32) &&& ~~~3#32 = n
  have hpop : moves [.pop .esi] = some 4#32 := rfl
  have hroom : moves [.addImm .esp (-n)] = some (-n) := congrArg some (BitVec.add_zero (-n))
  have hcopy : moves [.mov .edi .esp, .movImm .ecx size, .cld, .repMovsb] = some 0#32 := rfl
  exact moves_trans hpop (moves_trans hroom hcopy (BitVec.add_zero _)) (BitVec.sub_eq_add_neg ..).symm

theorem stackPointer_fits : stackPointer.Fits where
  rest_below _ _ _ := trivial
  below_zero a := BitVec.sub_zero a
  below_add m n a := show a - m - n = a - (m + n) by bv_omega
  imm v := stackPointer_does (d := -4#32) rfl (by decide)
  symbol x := stackPointer_does (d := -4#32) rfl (by decide)
  loadAddr s := stackPointer_does (moves_loadAddr s) (by decide)
  loadFromAddr t := by
    refine stackPointer_does (d := 0#32) ?_ (by decide)
    unfold MiniOs32.loadFromAddr
    split <;> rfl
  convStack t t' := stackPointer_does (moves_convStack t t') (by decide)
  indexCode T b it := stackPointer_does (moves_indexCode T b it) (by decide)
  fieldAddr off := by
    refine stackPointer_does (d := 0#32) ?_ (by decide)
    unfold MiniOs32.fieldAddr
    split <;> rfl
  assignCode T lt rt _ := stackPointer_does (moves_assignCode T lt rt) (by decide)
  testZero t _ := stackPointer_does (moves_testZero t) (by decide)
  vaArgCode s t n := stackPointer_does (moves_vaArgCode s t n) (by decide)
  vaStart ap last n := stackPointer_does (moves_vaStart ap last n) (by decide)
  zero := stackPointer_does (d := -4#32) rfl (by decide)
  syscallCode x argc h := stackPointer_does (moves_syscallCode h) (BitVec.sub_add_cancel _ _)
  callEaxCode argc h := stackPointer_does (moves_callEaxCode h) rfl
  callCode x n ret h := stackPointer_does (moves_callCode ret h) (BitVec.sub_add_cancel _ _)
  castCode t ty _ := stackPointer_does (moves_castCode t ty) (by decide)
  unaryCode op t _ := stackPointer_does (moves_unaryCode op t) (by decide)
  binCode T op lt rt := stackPointer_does (moves_binCode T op lt rt) (by decide)
  argCode T t pt := by
    unfold MiniOs32.argCode
    split
    · exact stackPointer_does (d := 0#32) rfl (by decide)
    · rename_i pt
      split
      · rename_i hr
        have hslot : T.argSlotBytes pt = (T.size pt + 3#32) &&& ~~~3#32 := by simp [CodeEnv.argSlotBytes, hr]
        refine stackPointer_does (moves_structPush (T.size pt)) ?_
        rw [hslot]
        exact BitVec.sub_add_cancel _ _
      · exact stackPointer_does (d := 0#32) (moves_convStack _ _) rfl

/-- What is called leaves the stack pointer and the frame pointer where they were. -/
structure World.KeepsFrame {F : Type} (w : World F) : Prop where
  call : ∀ a s s', w.call a s = some s' → s'.regs .esp = s.regs .esp ∧ s'.regs .ebp = s.regs .ebp
  syscall : ∀ s s', w.syscall s = some s' → s'.regs .esp = s.regs .esp ∧ s'.regs .ebp = s.regs .ebp

/-- The stack pointer moved, and the frame pointer as it was. -/
def Cpu.Moved {F : Type} (s : Cpu F) (d : U32) (s' : Cpu F) : Prop :=
  s'.regs .esp = s.regs .esp + d ∧ s'.regs .ebp = s.regs .ebp

section

variable {F : Type} {s s' : Cpu F}

theorem Cpu.Moved.of_eq (he : s'.regs .esp = s.regs .esp) (hb : s'.regs .ebp = s.regs .ebp) : s.Moved 0#32 s' :=
  ⟨he.trans (BitVec.add_zero _).symm, hb⟩

/-- A register other than the two is set. -/
theorem Cpu.Moved.of_set {r : Reg} {v : U32} (h : s'.regs = Function.update s.regs r v) (he : .esp ≠ r) (hb : .ebp ≠ r) :
    s.Moved 0#32 s' := .of_eq (by rw [h, Function.update_of_ne he]) (by rw [h, Function.update_of_ne hb])

theorem Cpu.Moved.of_esp {d v : U32} (h : s'.regs = Function.update s.regs .esp v) (hv : v = s.regs .esp + d) : s.Moved d s' :=
  ⟨by rw [h, Function.update_self, hv], by rw [h, Function.update_of_ne (by decide)]⟩

theorem Cpu.Moved.of_regs (h : s'.regs = s.regs) : s.Moved 0#32 s' := .of_eq (by rw [h]) (by rw [h])

end

/-- An instruction moves the stack pointer by what the analysis has, and leaves the frame pointer. -/
theorem Insn.exec_moves {F : Type} {w : World F} (hw : w.KeepsFrame) {i : Insn} {d : U32} {s s' : Cpu F} (hd : i.moves = some d)
    (h : i.exec w s = some s') : s.Moved d s' := by
  cases i with
  | pushImm v | push r =>
    cases hd
    cases h
    exact ⟨(Cpu.push_esp ..).trans (BitVec.sub_eq_add_neg ..), Cpu.push_reg (by decide) _ _⟩
  | pop r =>
    cases h
    cases r with
    | esp | ebp => cases hd
    | _ =>
      cases hd
      exact ⟨Cpu.pop_esp (by decide) _, Cpu.pop_other (by decide) (by decide) _⟩
  | movImm r v | mov r v | load r v | alu op r v =>
    cases h
    cases r with
    | esp | ebp => cases hd
    | _ =>
      cases hd
      exact .of_set rfl (by decide) (by decide)
  | addImm r v =>
    cases h
    cases r with
    | esp =>
      cases hd
      exact .of_esp rfl rfl
    | ebp => cases hd
    | _ =>
      cases hd
      exact .of_set rfl (by decide) (by decide)
  | subImm r v =>
    cases h
    cases r with
    | esp =>
      cases hd
      exact .of_esp rfl (BitVec.sub_eq_add_neg ..)
    | ebp => cases hd
    | _ =>
      cases hd
      exact .of_set rfl (by decide) (by decide)
  | movAddr | leaFrame | loadFrame | loadNarrow | extend | imul | imulImm | shift | cdq | neg | not | set | inc | fstsw | decEcx =>
    cases hd
    cases h
    exact .of_set rfl (by decide) (by decide)
  | fld | fild =>
    cases hd
    cases h
    refine .of_regs ?_
    unfold Cpu.fpush
    split <;> rfl
  | storeFrame | store | storeNarrow | storeByte | cmpImm | cld | fstp | fistp | ftst | fcompp | sahf | fchs | farith
  | fnstcw | fldcw | orWord =>
    cases hd
    cases h
    exact .of_regs rfl
  | div r | idiv r =>
    cases hd
    obtain ⟨qr, -, rfl⟩ := Option.map_eq_some_iff.mp h
    refine .of_eq ?_ ?_
    · rw [Cpu.set_other (by decide), Cpu.set_other (by decide)]
    · rw [Cpu.set_other (by decide), Cpu.set_other (by decide)]
  | repMovsb =>
    cases hd
    cases h
    have hkeep : ∀ r : Reg, r ≠ .esi → r ≠ .edi → r ≠ .ecx →
        (((s.set .esi (s.regs .esi + s.regs .ecx)).set .edi (s.regs .edi + s.regs .ecx)).set .ecx 0#32).regs r = s.regs r := by
      intro r h₁ h₂ h₃
      rw [Cpu.set_other h₃, Cpu.set_other h₂, Cpu.set_other h₁]
    exact .of_eq (hkeep .esp (by decide) (by decide) (by decide)) (hkeep .ebp (by decide) (by decide) (by decide))
  | call x | callEax =>
    cases hd
    obtain ⟨he, hb⟩ := hw.call _ _ _ h
    exact .of_eq he hb
  | int80 =>
    cases hd
    obtain ⟨he, hb⟩ := hw.syscall _ _ h
    exact .of_eq he hb
  | leave | ret => cases hd

/-! ## The x87 -/

/-- The number of registers the x87 holds behind an instruction, where it holds two at most. A function called by its name is called
with none and returns one or none; a value called returns none; a function returns with a number of its own. -/
def Insn.floats (returns : List Byte → Bool) (result : Nat) (i : Insn) (n : Nat) : Option Nat :=
  match i with
  | .fld _ | .fild _ => if n < 2 then some (n + 1) else none
  | .fstp _ | .fistp _ => if n = 0 then none else some (n - 1)
  | .ftst | .fchs => if n = 0 then none else some n
  | .fcompp => if n = 2 then some 0 else none
  | .farith _ => if n = 2 then some 1 else none
  | .call x => if n = 0 then some (if returns x then 1 else 0) else none
  | .callEax | .int80 => if n = 0 then some 0 else none
  | .ret => if n = result then some n else none
  | _ => some n

/-- No float is tested, a call by name takes the result the function leaves, and a function that returns a float returns one. -/
def Use.KeepsFloats (returns : List Byte → Bool) : Use → Prop
  | .test t => t.isFloat = false
  | .direct x _ ret => returns x = ret.isFloat
  | .indirect _ => True
  | .bare ret => ret.isFloat = false

/-- The analysis of the x87's stack. -/
def floatStack (returns : List Byte → Bool) (result : Nat) : Analysis Nat where
  tr := Insn.floats returns result
  rest n := n = 0
  below _ n := n
  ok := Use.KeepsFloats returns

section FloatStack

variable {returns : List Byte → Bool} {result : Nat}

/-- A straight line that starts and ends without registers. -/
theorem floatStack_does {is : List Insn} (n n' : U32) (h : transfers (Insn.floats returns result) is 0 = some 0) :
    (floatStack returns result).Does is n n' := by
  intro a ha
  cases ha
  exact h

theorem floats_append {is js : List Insn} (h : transfers (Insn.floats returns result) is 0 = some 0)
    (h' : transfers (Insn.floats returns result) js 0 = some 0) : transfers (Insn.floats returns result) (is ++ js) 0 = some 0 :=
  transfers_trans h h'

theorem floats_convStack (t t' : CType) : transfers (Insn.floats returns result) (convStack t t' 0#32) 0 = some 0 := by
  unfold convStack
  split
  · rfl
  · split <;> rfl

theorem floats_scaleTop (sz : U32) : transfers (Insn.floats returns result) (scaleTop sz) 0 = some 0 := by
  unfold scaleTop scale
  split <;> rfl

theorem floats_testZero {t : CType} (h : t.isFloat = false) : transfers (Insn.floats returns result) (testZero t) 0 = some 0 := by
  rw [testZero, h]
  rfl

theorem floats_boolify {t : CType} (h : t.isFloat = false) : transfers (Insn.floats returns result) (boolify t) 0 = some 0 :=
  floats_append (floats_testZero h) rfl

theorem floats_loadAddr (s : CSym) : transfers (Insn.floats returns result) (loadAddr s) 0 = some 0 := by
  unfold loadAddr
  split <;> rfl

theorem floats_storeToAddr (t : CType) : transfers (Insn.floats returns result) (storeToAddr t) 0 = some 0 := by
  unfold storeToAddr
  split <;> rfl

theorem floats_convStored {t t' : CType} (h : t' = .bool → t.isFloat = false) :
    transfers (Insn.floats returns result) (convStored t t') 0 = some 0 := by
  unfold convStored
  split
  · exact floats_boolify (h rfl)
  · exact floats_convStack t t'

theorem floats_dropBytes (n : U32) (k : Nat) : transfers (Insn.floats returns result) (dropBytes n) k = some k := by
  unfold dropBytes
  split <;> rfl

/-- The result of a function that returns a float is stored behind the call. -/
theorem floats_callCode {x : List Byte} {ret : CType} (n : U32) (h : returns x = ret.isFloat) :
    transfers (Insn.floats returns result) (callCode x n ret) 0 = some 0 := by
  have hcall : transfers (Insn.floats returns result) [.call x] 0 = some (if returns x then 1 else 0) := rfl
  cases hr : ret.isFloat with
  | true =>
    rw [h, hr, if_pos rfl] at hcall
    have hend : callCode x n ret = [Insn.call x] ++ (dropBytes n ++ [Insn.addImm .esp (-4#32), .fstp 0#32]) := by simp [callCode, hr]
    rw [hend]
    exact transfers_trans hcall (transfers_trans (floats_dropBytes n 1) rfl)
  | false =>
    rw [h, hr, if_neg (by decide)] at hcall
    have hend : callCode x n ret = [Insn.call x] ++ (dropBytes n ++ pushEax) := by simp [callCode, hr]
    rw [hend]
    exact transfers_trans hcall (transfers_trans (floats_dropBytes n 0) rfl)

theorem floats_pops (rs : List Reg) : transfers (Insn.floats returns result) (rs.map .pop) 0 = some 0 := by
  induction rs with
  | nil => rfl
  | cons r rs ih => exact ih

theorem floats_intOp (op : BinOp) (uns : Bool) : transfers (Insn.floats returns result) (intOp op uns) 0 = some 0 := by
  cases op <;> cases uns <;> rfl

theorem floats_convBoth (lt rt : CType) : transfers (Insn.floats returns result) (convBoth lt rt) 0 = some 0 := by
  unfold convBoth
  split <;> split <;> rfl

theorem floats_floatArith {op : BinOp} (hb : op.isBit = false) (hc : op.isCmp = false) :
    transfers (Insn.floats returns result) (floatArith op) 0 = some 0 := by
  cases op <;> first | rfl | exact absurd hb (by decide) | exact absurd hc (by decide)

theorem floats_binCode (T : CodeEnv) (op : BinOp) (lt rt : CType) :
    transfers (Insn.floats returns result) (binCode T op lt rt) 0 = some 0 := by
  have hint : ∀ uns, transfers (Insn.floats returns result) (popBoth ++ intOp op uns ++ pushEax) 0 = some 0 := fun uns =>
    floats_append (floats_append rfl (floats_intOp op uns)) rfl
  have hscale : ∀ sz, transfers (Insn.floats returns result) (scale sz) 0 = some 0 := by
    intro sz
    unfold scale
    split <;> rfl
  have hdiv : ∀ sz, transfers (Insn.floats returns result) (divBySize sz) 0 = some 0 := by
    intro sz
    unfold divBySize
    split <;> rfl
  unfold binCode
  simp only
  split
  · exact hint _
  rename_i hbit
  split
  · split
    · exact floats_append (floats_convBoth lt rt) rfl
    · exact hint _
  rename_i hcmp
  split
  · exact floats_append (floats_append (floats_append (floats_scaleTop _) rfl) (floats_intOp op true)) rfl
  split
  · exact floats_append (floats_append (floats_append rfl (hscale _)) (floats_intOp .add true)) rfl
  split
  · exact floats_append (floats_append (floats_append rfl (floats_intOp .sub true)) (hdiv _)) rfl
  split
  · exact floats_append (floats_convBoth lt rt) (floats_floatArith (by simpa using hbit) (by simpa using hcmp))
  · exact hint _

theorem floatStack_fits : (floatStack returns result).Fits where
  rest_below _ _ h := h
  below_zero _ := rfl
  below_add _ _ _ := rfl
  imm v := floatStack_does _ _ rfl
  symbol x := floatStack_does _ _ rfl
  loadAddr s := floatStack_does _ _ (floats_loadAddr s)
  loadFromAddr t := by
    refine floatStack_does _ _ ?_
    unfold MiniOs32.loadFromAddr
    split <;> rfl
  convStack t t' := floatStack_does _ _ (floats_convStack t t')
  indexCode T b it := by
    refine floatStack_does _ _ (floats_append (floats_append ?_ (floats_scaleTop _)) rfl)
    split <;> rfl
  fieldAddr off := by
    refine floatStack_does _ _ ?_
    unfold MiniOs32.fieldAddr
    split <;> rfl
  assignCode T lt rt h := by
    refine floatStack_does _ _ ?_
    unfold MiniOs32.assignCode
    split
    · rfl
    · exact floats_append (floats_convStored h) (floats_storeToAddr lt)
  testZero t h := floatStack_does _ _ (floats_testZero h)
  vaArgCode s t n := by
    refine floatStack_does _ _ (floats_append (floats_loadAddr s) ?_)
    split <;> rfl
  vaStart ap last n := floatStack_does _ _ (floats_append (floats_append (floats_loadAddr ap) (floats_loadAddr last)) rfl)
  zero := floatStack_does _ _ rfl
  syscallCode x argc _ := by
    refine floatStack_does _ _ ?_
    unfold MiniOs32.syscallCode
    split
    · exact floats_append (floats_pops _) rfl
    · exact floats_append (floats_pops _) rfl
  callEaxCode argc _ := floatStack_does _ _ (floats_append (floats_dropBytes _ 0) rfl)
  callCode x n ret h := floatStack_does _ _ (floats_callCode n h)
  castCode t ty h := by
    refine floatStack_does _ _ ?_
    unfold MiniOs32.castCode
    split
    · exact floats_boolify (h rfl)
    · exact floats_append (floats_convStack _ _) rfl
    · exact floats_append (floats_convStack _ _) rfl
    · exact floats_convStack _ _
  unaryCode op t h := by
    refine floatStack_does _ _ ?_
    cases op with
    | neg =>
      unfold MiniOs32.unaryCode
      split
      · split <;> rfl
      all_goals contradiction
    | not => exact floats_append (floats_testZero (h rfl)) rfl
    | compl => rfl
  binCode T op lt rt := floatStack_does _ _ (floats_binCode T op lt rt)
  argCode T t pt := by
    refine floatStack_does _ _ ?_
    unfold MiniOs32.argCode
    split
    · rfl
    · split
      · rfl
      · exact floats_convStack _ _

end FloatStack

/-- An instruction that neither calls nor returns changes the number of registers by what the analysis has. -/
theorem Insn.exec_floats {F : Type} {w : World F} {returns : List Byte → Bool} {result : Nat} {i : Insn} {base n n' : Nat}
    {s s' : Cpu F} (hbase : base ≤ 6) (hi : ∀ x, i ≠ .call x) (hc : i ≠ .callEax) (h80 : i ≠ .int80)
    (hn : i.floats returns result n = some n') (hs : s.fpu.length = base + n) (h : i.exec w s = some s') :
    s'.fpu.length = base + n' := by
  cases i with
  | call x => exact absurd rfl (hi x)
  | callEax => exact absurd rfl hc
  | int80 => exact absurd rfl h80
  | fld disp | fild disp =>
    change (if n < 2 then some (n + 1) else none) = some n' at hn
    split at hn
    · cases hn
      cases h
      rw [Cpu.fpush, if_pos (by omega), List.length_cons, hs]
      rfl
    · cases hn
  | fstp disp | fistp disp =>
    change (if n = 0 then none else some (n - 1)) = some n' at hn
    split at hn
    · cases hn
    · cases hn
      cases h
      simp only [List.length_tail, hs]
      omega
  | ftst =>
    change (if n = 0 then none else some n) = some n' at hn
    split at hn
    · cases hn
    · cases hn
      cases h
      exact hs
  | fchs =>
    change (if n = 0 then none else some n) = some n' at hn
    split at hn
    · cases hn
    · cases hn
      cases h
      simp only [List.length_cons, List.length_tail, hs]
      omega
  | fcompp =>
    change (if n = 2 then some 0 else none) = some n' at hn
    split at hn
    · cases hn
      cases h
      simp only [List.length_tail, hs]
      omega
    · cases hn
  | farith op =>
    change (if n = 2 then some 1 else none) = some n' at hn
    split at hn
    · cases hn
      cases h
      simp only [List.length_cons, List.length_tail, hs]
      omega
    · cases hn
  | ret =>
    change (if n = result then some n else none) = some n' at hn
    split at hn
    · cases hn
      cases h
      exact hs
    · cases hn
  | div r | idiv r =>
    cases hn
    obtain ⟨qr, -, rfl⟩ := Option.map_eq_some_iff.mp h
    exact hs
  | _ =>
    cases hn
    cases h
    exact hs

end MiniOs32
