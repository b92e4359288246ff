import MiniOs32.Lemmas.Emits
import MiniOs32.Lib.Flow

/-!
# What generated code does to the stack

An analysis of generated code follows some quantity, as the stack pointer or the number of registers the x87 holds, through its
instructions. If each of the short sequences that code is made of has the effect that belongs to it, all emitted code has: it
leaves as many bytes on the stack as its rule says, whichever way it jumps.
-/

namespace MiniOs32

/-- An analysis of code. -/
structure Analysis (α : Type) where
  /-- What an instruction does. -/
  tr : Insn → α → Option α
  /-- The values between two pieces of code. -/
  rest : α → Prop
  /-- The value under some more bytes on the stack. -/
  below : U32 → α → α
  /-- The uses it allows. -/
  ok : Use → Prop

namespace Analysis

variable {α : Type}

/-- A straight line replaces bytes on top of the stack by others. -/
def Does (A : Analysis α) (is : List Insn) (n n' : U32) : Prop :=
  ∀ a, A.rest a → transfers A.tr is (A.below n a) = some (A.below n' a)

/-- Every sequence has its effect. -/
structure Fits (A : Analysis α) : Prop where
  rest_below : ∀ n a, A.rest a → A.rest (A.below n a)
  below_zero : ∀ a, A.below 0#32 a = a
  below_add : ∀ m n a, A.below n (A.below m a) = A.below (m + n) a
  imm : ∀ v, A.Does [.pushImm v] 0#32 4#32
  symbol : ∀ x, A.Does [.movAddr x, .push .eax] 0#32 4#32
  loadAddr : ∀ s, A.Does (MiniOs32.loadAddr s) 0#32 4#32
  loadFromAddr : ∀ t, A.Does (MiniOs32.loadFromAddr t) 4#32 4#32
  convStack : ∀ t t', A.Does (MiniOs32.convStack t t' 0#32) 4#32 4#32
  indexCode : ∀ T b it, A.Does (MiniOs32.indexCode T b it) 8#32 4#32
  fieldAddr : ∀ off, A.Does (MiniOs32.fieldAddr off) 4#32 4#32
  assignCode : ∀ T lt rt, (lt = .bool → A.ok (.test rt)) → A.Does (MiniOs32.assignCode T lt rt) 8#32 4#32
  testZero : ∀ t, A.ok (.test t) → A.Does (MiniOs32.testZero t) 4#32 0#32
  vaArgCode : ∀ s t n, A.Does (MiniOs32.vaArgCode s t n) 0#32 4#32
  vaStart : ∀ ap last n, A.Does (MiniOs32.vaStart ap last n) 0#32 4#32
  zero : A.Does [.movImm .eax 0#32, .push .eax] 0#32 4#32
  syscallCode : ∀ x argc, syscallArgcOk x argc = true → A.Does (MiniOs32.syscallCode x argc) (BitVec.ofNat 32 (4 * argc)) 4#32
  callEaxCode : ∀ argc, A.ok (.indirect argc) → A.Does (MiniOs32.callEaxCode argc) (BitVec.ofNat 32 (4 * argc) + 4#32) 4#32
  callCode : ∀ x n ret, A.ok (.direct x n ret) → A.Does (MiniOs32.callCode x n ret) n 4#32
  castCode : ∀ t ty, (ty = .bool → A.ok (.test t)) → A.Does (MiniOs32.castCode t ty) 4#32 4#32
  unaryCode : ∀ op t, (op = .not → A.ok (.test t)) → A.Does (MiniOs32.unaryCode op t) 4#32 4#32
  binCode : ∀ T op lt rt, A.Does (MiniOs32.binCode T op lt rt) 8#32 4#32
  argCode : ∀ T t pt, A.Does (MiniOs32.argCode T t pt).1 4#32 (MiniOs32.argCode T t pt).2

end Analysis

/-- The labels a job jumps to. -/
def Job.targets : Job → List Nat
  | .tree (.jumps yes no) _ | .operand yes no _ => [yes, no]
  | .cond no _ => [no]
  | _ => []

/-- The arguments of a call of the kernel or of a value are words. -/
theorem Emits.args_bytes {ok : Use → Prop} {T T' : CodeEnv} {j : Job} {t : CType} {n : U32} {c : Code}
    (h : Emits ok T j t n c T') : ∀ as, j = .args none as → n = BitVec.ofNat 32 (4 * as.length) := by
  induction h with
  | argsNil ps =>
    intro as h
    cases h
    rfl
  | argsCons hs ha ht ihs iha =>
    intro as h
    cases h
    rw [ihs _ rfl]
    simp [argCode, Nat.mul_add, BitVec.ofNat_add]
  | _ => exact fun as h => nomatch h

/-! ## Pieces of code -/

/-- Code that leaves some bytes on the stack, its labels drawn while the counter goes from `lo` to `hi`. Where it jumps out of
itself it has left nothing. -/
def Analysis.Leaves {α : Type} (A : Analysis α) (lo hi : Nat) (targets : List Nat) (c : Code) (n : U32) : Prop :=
  lo ≤ hi ∧ ∀ a L₀, A.rest a → (∀ l ∈ targets, l < lo ∧ L₀ l = a) → DrawnFlow A.tr lo hi L₀ c a (A.below n a)

namespace Analysis.Leaves

variable {α : Type} {A : Analysis α} {c c' : Code} {lo mid hi : Nat} {ts : List Nat} {is : List Insn} {n n' : U32}

theorem of_does (hA : A.Fits) (lo : Nat) (h : A.Does is 0#32 n) : A.Leaves lo lo [] (MiniOs32.ops is) n := by
  refine ⟨le_rfl, fun a L₀ ha _ => .ops ?_⟩
  have := h a ha
  rwa [hA.below_zero] at this

theorem append (hA : A.Fits) (h : A.Leaves lo mid ts c n) (h' : A.Leaves mid hi [] c' n') :
    A.Leaves lo hi ts (c ++ c') (n + n') := by
  refine ⟨h.1.trans h'.1, fun a L₀ ha ht => .append h'.1 (h.2 a L₀ ha ht) h.1 fun L₁ _ => ?_⟩
  rw [← hA.below_add]
  exact h'.2 _ L₁ (hA.rest_below n a ha) nofun

theorem ops (h : A.Leaves lo hi ts c n) (hd : A.Does is n n') : A.Leaves lo hi ts (c ++ MiniOs32.ops is) n' :=
  ⟨h.1, fun a L₀ ha ht => .append le_rfl (h.2 a L₀ ha ht) h.1 fun _ _ => .ops (hd a ha)⟩

/-- The address of an object, or its value behind the load. -/
theorem finish (hA : A.Fits) (m : GenMode) (t : CType) (h : A.Leaves lo hi ts c 4#32) :
    A.Leaves lo hi ts (m.finish t c).2 4#32 := by
  unfold GenMode.finish
  split
  · exact h
  · split
    · exact h
    · exact h.ops (hA.loadFromAddr t)

theorem finishDeref (hA : A.Fits) (m : GenMode) (t : CType) (h : A.Leaves lo hi ts c 4#32) :
    A.Leaves lo hi ts (m.finishDeref t c).2 4#32 := by
  unfold GenMode.finishDeref
  split
  · exact h
  · split
    · exact h
    · exact h.ops (hA.loadFromAddr t)

/-- A value tested, with a jump where it is zero. -/
theorem condJump (hA : A.Fits) {t : CType} (ht : A.ok (.test t)) (no : Nat) (h : A.Leaves lo hi [] c 4#32) :
    A.Leaves lo hi [no] (c ++ MiniOs32.condJump t no) 0#32 := by
  refine ⟨h.1, fun a L₀ ha hno => .append le_rfl (h.2 a L₀ ha nofun) h.1 fun L₁ hL₁ => ?_⟩
  obtain ⟨hlt, hv⟩ := hno no (by simp)
  refine .append le_rfl (.ops (hA.testZero t ht a ha)) le_rfl fun L₂ hL₂ => ?_
  refine .branchTo _ (hlt.trans_le h.1) ?_
  rw [hA.below_zero, hL₂ no (hlt.trans_le h.1), hL₁ no hlt, hv]

/-- A jump to a label of nothing left behind code that leaves nothing. -/
theorem jumpTo (hA : A.Fits) {no yes : Nat} (h : A.Leaves lo hi [no] c 0#32) :
    A.Leaves lo hi [yes, no] (c ++ MiniOs32.jumpTo yes) 0#32 := by
  refine ⟨h.1, fun a L₀ ha ht => .append le_rfl (h.2 a L₀ ha fun l hl => ht l (by simp_all)) h.1 fun L₁ hL₁ => ?_⟩
  obtain ⟨hlt, hv⟩ := ht yes (by simp)
  rw [hA.below_zero]
  exact .jumpTo (hlt.trans_le h.1) ((hL₁ yes hlt).trans hv) a

/-- A condition generated by jumps: the label for a true one is drawn first and stands behind it. -/
theorem condJumps (hA : A.Fits) {no : Nat} (h : A.Leaves (lo + 1) hi [lo, no] c 0#32) :
    A.Leaves lo hi [no] (c ++ MiniOs32.labelAt lo) 0#32 := by
  have hlo : lo < hi := h.1
  refine ⟨hlo.le, fun a L₀ ha ht => .draw a ?_⟩
  obtain ⟨hlt, hv⟩ := ht no (by simp)
  refine .append le_rfl (h.2 a _ ha ?_) h.1 fun L₁ hL₁ => ?_
  · intro l hl
    rcases List.mem_pair.mp hl with rfl | rfl
    · exact ⟨by omega, Function.update_self ..⟩
    · exact ⟨by omega, by rw [Function.update_of_ne (by omega), hv]⟩
  · rw [hA.below_zero]
    exact .labelAt hlo (by rw [hL₁ lo (by omega), Function.update_self])

/-- `&&` and `||`: the first operand jumps to the second, behind a label drawn first, or where the whole operator does. -/
theorem logical (hA : A.Fits) (or : Bool) {yes no : Nat}
    (h : A.Leaves (lo + 1) mid [if or then yes else lo, if or then lo else no] c 0#32) (h' : A.Leaves mid hi [yes, no] c' 0#32) :
    A.Leaves lo hi [yes, no] (c ++ MiniOs32.labelAt lo ++ c') 0#32 := by
  have hlo : lo < mid := h.1
  refine ⟨hlo.le.trans h'.1, fun a L₀ ha ht => .draw a ?_⟩
  obtain ⟨hy, hyv⟩ := ht yes (by simp)
  obtain ⟨hn, hnv⟩ := ht no (by simp)
  have hold : ∀ l < lo, Function.update L₀ lo a l = L₀ l := fun l hl => Function.update_of_ne (by omega) ..
  refine .append h'.1 (.append (c := a) le_rfl (h.2 a _ ha ?_) h.1 fun L₁ hL₁ => ?_) h.1 fun L₁ hL₁ => ?_
  · intro l hl
    have hmid : lo < lo + 1 ∧ Function.update L₀ lo a lo = a := ⟨by omega, Function.update_self ..⟩
    cases or <;> rcases List.mem_pair.mp hl with rfl | rfl
    · exact hmid
    · exact ⟨by omega, (hold _ hn).trans hnv⟩
    · exact ⟨by omega, (hold _ hy).trans hyv⟩
    · exact hmid
  · rw [hA.below_zero]
    exact .labelAt hlo (by rw [hL₁ lo (by omega), Function.update_self])
  · refine h'.2 a L₁ ha fun l hl => ?_
    rcases List.mem_pair.mp hl with rfl | rfl
    · exact ⟨by omega, (hL₁ _ (by omega)).trans ((hold _ hy).trans hyv)⟩
    · exact ⟨by omega, (hL₁ _ (by omega)).trans ((hold _ hn).trans hnv)⟩

/-- The value of `&&` or `||`, behind its two labels, which are drawn first. -/
theorem logicalValue (hA : A.Fits) (h : A.Leaves (lo + 2) hi [lo, lo + 1] c 0#32) :
    A.Leaves lo (hi + 1) [] (c ++ logicalEnd lo (lo + 1) hi) 4#32 := by
  have hlo : lo + 2 ≤ hi := h.1
  refine ⟨by omega, fun a L₀ ha _ => .draw a (.draw a ?_)⟩
  refine .append (by omega) (h.2 a _ ha ?_) h.1 fun L₁ hL₁ => .draw (A.below 4#32 a) ?_
  · intro l hl
    rcases List.mem_pair.mp hl with rfl | rfl
    · exact ⟨by omega, by rw [Function.update_of_ne (by omega), Function.update_self]⟩
    · exact ⟨by omega, Function.update_self ..⟩
  · have hyes : Function.update L₁ hi (A.below 4#32 a) lo = a := by
      rw [Function.update_of_ne (by omega), hL₁ lo (by omega), Function.update_of_ne (by omega), Function.update_self]
    have hno : Function.update L₁ hi (A.below 4#32 a) (lo + 1) = a := by
      rw [Function.update_of_ne (by omega), hL₁ (lo + 1) (by omega), Function.update_self]
    have hdone : Function.update L₁ hi (A.below 4#32 a) hi = A.below 4#32 a := Function.update_self ..
    have himm : ∀ v, transfers A.tr [.pushImm v] a = some (A.below 4#32 a) := by
      intro v
      have := hA.imm v a ha
      rwa [hA.below_zero] at this
    rw [hA.below_zero]
    refine .of_flow fun L' hL' => ?_
    have hv : ∀ l < hi + 1, L' l = Function.update L₁ hi (A.below 4#32 a) l := hL'
    refine ((((Flow.labelAt ?_).append (.ops (himm 1#32))).append (.jumpTo ?_ a)).append (.labelAt ?_)).append
      (.ops (himm 0#32)) |>.append (.labelAt ?_)
    · rw [hv lo (by omega), hyes]
    · rw [hv hi (by omega), hdone]
    · rw [hv (lo + 1) (by omega), hno]
    · rw [hv hi (by omega), hdone]

/-- `?:`: the labels of its ends are drawn first. -/
theorem tern (hA : A.Fits) {no done mid' : Nat} {cc ca cb : Code} {is js : List Insn} (hno : no = lo) (hdone : done = lo + 1)
    (hc : A.Leaves (lo + 2) mid [no] cc 0#32) (ha : A.Leaves mid mid' [] ca 4#32) (hb : A.Leaves mid' hi [] cb 4#32)
    (his : A.Does is 4#32 4#32) (hjs : A.Does js 4#32 4#32) :
    A.Leaves lo hi [] (cc ++ ca ++ MiniOs32.ops is ++ MiniOs32.jumpTo done ++ MiniOs32.labelAt no ++ cb ++ MiniOs32.ops js ++
      MiniOs32.labelAt done) 4#32 := by
  subst hno hdone
  have h₁ := hc.1
  have h₂ := ha.1
  have h₃ := hb.1
  refine ⟨by omega, fun a L₀ hr _ => .draw a (.draw (A.below 4#32 a) ?_)⟩
  set L := Function.update (Function.update L₀ no a) (no + 1) (A.below 4#32 a) with hL
  have hLno : L no = a := by rw [hL, Function.update_of_ne (by omega), Function.update_self]
  have hLdone : L (no + 1) = A.below 4#32 a := by rw [hL, Function.update_self]
  have hcond : DrawnFlow A.tr (no + 2) mid L cc a a := by
    have := hc.2 a L hr fun l hl => by
      rw [List.mem_singleton.mp hl]
      exact ⟨by omega, hLno⟩
    rwa [hA.below_zero] at this
  have hfirst : DrawnFlow A.tr (no + 2) mid' L (cc ++ ca ++ MiniOs32.ops is) a (A.below 4#32 a) :=
    .append le_rfl (.append h₂ hcond h₁ fun L₁ _ => ha.2 a L₁ hr nofun) (by omega) fun L₁ _ => .ops (his a hr)
  have hjump : DrawnFlow A.tr (no + 2) mid' L (cc ++ ca ++ MiniOs32.ops is ++ MiniOs32.jumpTo (no + 1) ++ MiniOs32.labelAt no) a a := by
    refine .append (b := a) le_rfl (.append le_rfl hfirst (by omega) fun L₁ hL₁ => ?_) (by omega) fun L₁ hL₁ => ?_
    · exact .jumpTo (by omega) (by rw [hL₁ _ (by omega), hLdone]) a
    · exact .labelAt (by omega) (by rw [hL₁ _ (by omega), hLno])
  refine .append (b := A.below 4#32 a) le_rfl (.append le_rfl (.append h₃ hjump (by omega) fun L₁ _ => hb.2 a L₁ hr nofun) (by omega)
    fun L₁ _ => .ops (hjs a hr)) (by omega) fun L₁ hL₁ => ?_
  exact .labelAt (by omega) (by rw [hL₁ _ (by omega), hLdone])

end Analysis.Leaves

/-- Every job leaves what its rule says. -/
theorem Emits.leaves {α : Type} {A : Analysis α} (hA : A.Fits) {T T' : CodeEnv} {j : Job} {t : CType} {n : U32} {c : Code}
    (h : Emits A.ok T j t n c T') : A.Leaves T.labels T'.labels j.targets c n := by
  have htree : ∀ (m : GenMode) (e : Node) lo hi c n, A.Leaves lo hi [] c n → A.Leaves lo hi (Job.tree m e).targets c n :=
    fun m e lo hi c n h => ⟨h.1, fun a L₀ ha _ => h.2 a L₀ ha nofun⟩
  induction h with
  | num v => exact .of_does hA _ (hA.imm v)
  | fnum v => exact .of_does hA _ (hA.imm v)
  | str text => exact .of_does hA _ (hA.symbol _)
  | var m hs => exact htree _ _ _ _ _ _ ((Analysis.Leaves.of_does hA _ (hA.loadAddr _)).finish hA m _)
  | func m hs hf => exact htree _ _ _ _ _ _ (.of_does hA _ (hA.symbol _))
  | deref m he hb ih => exact htree _ _ _ _ _ _ (ih.finishDeref hA m _)
  | index m he hb hi ihe ihi =>
    exact htree _ _ _ _ _ _ (((ihe.append hA ihi).ops (hA.indexCode _ _ _)).finish hA m _)
  | dot m he hf ih => exact htree _ _ _ _ _ _ ((Analysis.Leaves.ops ih (hA.fieldAddr _)).finish hA m _)
  | arrow m he hb hf ih => exact htree _ _ _ _ _ _ ((Analysis.Leaves.ops ih (hA.fieldAddr _)).finish hA m _)
  | addr he ih => exact ih
  | assign ha hb hl hr ht iha ihb => exact (iha.append hA ihb).ops (hA.assignCode _ _ _ ht)
  | condJumps hl he ih => exact ih.condJumps hA
  | condValue hl he ht ih => exact ih.condJump hA ht _
  | tern hta htb hr hc ha hb ihc iha ihb => exact .tern hA rfl rfl ihc iha ihb (hA.convStack _ _) (hA.convStack _ _)
  | operandJumps hl he ih => exact ih
  | operandValue hl he ht ih => exact (ih.condJump hA ht _).jumpTo hA
  | logical yes no or ha hb iha ihb => exact .logical hA or iha ihb
  | logicalValue he ih => exact ih.logicalValue hA
  | vaArg ht hs => exact .of_does hA _ (hA.vaArgCode _ _ _)
  | vaStart hx ha hl => exact .of_does hA _ (hA.vaStart _ _ _)
  | vaEnd args hx => exact .of_does hA _ hA.zero
  | syscall hx hn ha ih =>
    rw [ha.args_bytes _ rfl] at ih
    exact ih.ops (hA.syscallCode _ _ hn)
  | indirect hv hx hi ha hc hu iha ihc =>
    rw [ha.args_bytes _ rfl] at iha
    exact (iha.append hA ihc).ops (hA.callEaxCode _ hu)
  | direct hv hx hi hf hn ha hu ih => exact ih.ops (hA.callCode _ _ _ hu)
  | undeclared hv hx hi hf ha hu ih => exact ih.ops (hA.callCode _ _ _ hu)
  | cast ty he ht ih => exact ih.ops (hA.castCode _ _ ht)
  | unary he hu ht ih => exact ih.ops (hA.unaryCode _ _ ht)
  | bin ha hb ht iha ihb => exact (iha.append hA ihb).ops (hA.binCode _ _ _ _)
  | argsNil ps =>
    refine ⟨le_rfl, fun a L₀ ha _ => ?_⟩
    rw [hA.below_zero]
    exact .of_flow fun _ _ => .nil a
  | argsCons hs ha ht ihs iha =>
    rw [List.append_assoc]
    exact ihs.append hA (iha.ops (hA.argCode _ _ _))

end MiniOs32
