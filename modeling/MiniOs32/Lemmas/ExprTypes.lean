import MiniOs32.Cc.Typing

/-!
# Types of expressions, node by node

The tables only gain functions while an expression is generated, which changes no type (`inferType_later`). `Env.Sound` is what
the type rules promise of an expression whose operands are all `Inferable`; the step lemmas carry it from the operands of a
node to the node.
-/

namespace MiniOs32

/-! ## Types -/

namespace CType

/-- A signed integer type. -/
def SignedInt (t : CType) : Prop := t = int false ∨ t = short false ∨ t = char false

/-- The same type, or two signed integer types. -/
def Alike (s t : CType) : Prop := s = t ∨ s.SignedInt ∧ t.SignedInt

/-- A function that does not tell the signed integer types apart agrees on alike types. -/
theorem Alike.congr {β : Type} {s t : CType} (h : s.Alike t) (f : CType → β) (hshort : f (short false) = f (int false))
    (hchar : f (char false) = f (int false)) : f s = f t := by
  have hf : ∀ r : CType, r.SignedInt → f r = f (int false) := by
    rintro r (rfl | rfl | rfl)
    exacts [rfl, hshort, hchar]
  rcases h with rfl | ⟨hs, ht⟩
  · rfl
  · rw [hf s hs, hf t ht]

theorem Alike.isUnsigned_eq {s t : CType} (h : s.Alike t) : s.isUnsigned = t.isUnsigned := h.congr isUnsigned rfl rfl

theorem Alike.converted_eq {s t : CType} (h : s.Alike t) : s.converted = t.converted := h.congr converted rfl rfl

theorem Alike.isPtr_eq {s t : CType} (h : s.Alike t) : s.isPtr = t.isPtr := h.congr isPtr rfl rfl

theorem Alike.isFloat_eq {s t : CType} (h : s.Alike t) : s.isFloat = t.isFloat := h.congr isFloat rfl rfl

theorem Alike.isArray_eq {s t : CType} (h : s.Alike t) : s.isArray = t.isArray := h.congr isArray rfl rfl

theorem Alike.ptrBase_eq {s t : CType} (h : s.Alike t) : s.ptrBase = t.ptrBase := h.congr ptrBase rfl rfl

theorem Alike.decay_ptrBase_eq {s t : CType} (h : s.Alike t) : s.decay.ptrBase = t.decay.ptrBase :=
  h.congr (·.decay.ptrBase) rfl rfl

theorem Alike.decay {s t : CType} (h : s.Alike t) : s.decay.Alike t.decay := by
  have hd : ∀ r : CType, r.SignedInt → r.decay = r := by
    rintro r (rfl | rfl | rfl) <;> rfl
  rcases h with rfl | ⟨hs, ht⟩
  · exact .inl rfl
  · rw [hd s hs, hd t ht]
    exact .inr ⟨hs, ht⟩

/-- A pointer is alike only to itself. -/
theorem Alike.eq_of_isPtr {s t : CType} (h : s.Alike t) (ht : t.isPtr = true) : s = t := by
  rcases h with rfl | ⟨-, rfl | rfl | rfl⟩
  · rfl
  all_goals cases ht

theorem ternaryCommonType_alike {s t s' t' : CType} (h : s.Alike s') (h' : t.Alike t') :
    ternaryCommonType s t = ternaryCommonType s' t' := by
  have hd := h.decay
  have hd' := h'.decay
  unfold ternaryCommonType
  rw [hd.isPtr_eq, hd'.isPtr_eq, hd.isFloat_eq, hd'.isFloat_eq, hd.isUnsigned_eq, hd'.isUnsigned_eq]
  by_cases hp : (s'.decay.isPtr && t'.decay.isPtr) = true
  · rw [if_pos hp, if_pos hp]
    simp only [Bool.and_eq_true] at hp
    exact hd.eq_of_isPtr hp.1
  · rw [if_neg hp, if_neg hp]

@[simp] theorem converted_promote (t : CType) : t.promote.converted = t.converted := by cases t <;> rfl

@[simp] theorem converted_decay (t : CType) : t.decay.converted = t.converted := by cases t <;> rfl

@[simp] theorem converted_int (u : Bool) : (int u).converted = int u := rfl

/-- A pointer after decay points to the element type. -/
theorem elem_of_ptrBase {t b : CType} (h : t.decay.ptrBase = some b) : t.elem = b := by
  cases t <;> simp_all [decay, ptrBase, elem]

theorem converted_eq_ptr {t b : CType} : t.converted = ptr b ↔ t.decay.ptrBase = some b := by
  cases t <;> simp [converted, decay, promoted, ptrBase]

theorem converted_of_isPtr {t : CType} (h : t.isPtr = true) : t.converted = t := by
  cases t <;> first | rfl | cases h

theorem ptrBase_of_isRecord {t : CType} (h : t.isRecord = true) : t.ptrBase = none := by
  cases t <;> first | rfl | cases h

theorem not_isArray_of_ptrBase {t b : CType} (h : t.ptrBase = some b) : t.isArray = false := by
  cases t <;> first | rfl | cases h

/-- Without an array there is nothing to decay. -/
theorem decay_of_not_isArray {t : CType} (h : t.isArray = false) : t.decay = t := by
  cases t <;> first | rfl | cases h

end CType

/-! ## The tables -/

namespace Env

variable {env e e' : Env} {x : List Byte}

/-- What stays of the tables: records and variables; a function once there stays, and one that is new is the implicit one of a
name that is no variable. -/
structure Extends (env e : Env) : Prop where
  structs : e.structs = env.structs
  findVar : ∀ x, e.findVar x = env.findVar x
  findFunc : ∀ x, e.findFunc x = env.findFunc x ∨
    env.findFunc x = none ∧ env.findVar x = none ∧ e.findFunc x = some ⟨x, .int false, [], false, false⟩

theorem findFunc_addFunc (h : e.findFunc x = none) (y : List Byte) :
    (e.addFunc x).findFunc y = if x = y then some ⟨x, .int false, [], false, false⟩ else e.findFunc y := by
  simp only [findFunc, addFunc, List.find?_append, List.find?_cons, List.find?_nil] at h ⊢
  by_cases hxy : x = y
  · subst hxy
    simp [h]
  · simp [hxy]

theorem Later.extends (h : env.Later e) : env.Extends e := by
  induction h with
  | here => exact ⟨rfl, fun _ => rfl, fun _ => .inl rfl⟩
  | called hl hv hf ih =>
    refine ⟨ih.structs, ih.findVar, fun y => ?_⟩
    rw [findFunc_addFunc hf]
    split
    · next hxy =>
      subst hxy
      rcases ih.findFunc _ with h | ⟨-, -, h⟩
      · exact .inr ⟨h ▸ hf, ih.findVar _ ▸ hv, rfl⟩
      · exact absurd hf (by simp [h])
    · exact ih.findFunc y

theorem Later.trans {e₂ : Env} (h : env.Later e) (h' : e.Later e₂) : env.Later e₂ := by
  induction h' with
  | here => exact h
  | called _ hv hf ih => exact .called ih hv hf

theorem Later.findVar_eq (h : env.Later e) : e.findVar = env.findVar := funext h.extends.findVar

theorem Later.findField_eq (h : env.Later e) : e.findField = env.findField := by
  funext t y
  simp only [findField, h.extends.structs]

/-- The declared result of a name never changes: an implicit function returns what an undeclared one does. -/
theorem Later.retType_eq (h : env.Later e) (x : List Byte) : e.retType x = env.retType x := by
  rcases h.extends.findFunc x with hf | ⟨hn, -, hf⟩
  · simp only [retType, hf]
  · simp only [retType, hf, hn, Option.map_some, Option.map_none, Option.getD_some, Option.getD_none]

theorem Later.indirect_eq (h : env.Later e) (c : Node) : e.indirect c = env.indirect c := by
  unfold indirect
  rw [h.findVar_eq]

/-- A variable shares its name with a function throughout or never. -/
theorem Later.findFunc_of_var (h : env.Later e) {t : CType} (hx : env.findVar x = some t) :
    e.findFunc x = env.findFunc x := by
  rcases h.extends.findFunc x with hf | ⟨-, hv, -⟩
  · exact hf
  · rw [hx] at hv
    cases hv

end Env

/-! ## What a node generates -/

section Inversion

variable {e e' : Env} {t : CType} {a b c : Node} {x : List Byte}

theorem genAddr_deref (h : genAddr e (.deref a) = some (t, e')) :
    ∃ pt, genExpr e a = some (pt, e') ∧ pt.decay.ptrBase = some t := by
  simpa [genAddr, Option.bind_eq_some_iff] using h

theorem genAddr_index (h : genAddr e (.index a b) = some (t, e')) :
    ∃ bt e₁ it, genExpr e a = some (bt, e₁) ∧ bt.decay.ptrBase = some t ∧ genExpr e₁ b = some (it, e') := by
  simpa [genAddr, Option.bind_eq_some_iff] using h

theorem genAddr_dot (h : genAddr e (.dot a x) = some (t, e')) :
    ∃ bt, genAddr e a = some (bt, e') ∧ e'.findField bt x = some t := by
  simpa [genAddr, Option.bind_eq_some_iff] using h

theorem genAddr_arrow (h : genAddr e (.arrow a x) = some (t, e')) :
    ∃ pt bt, genExpr e a = some (pt, e') ∧ pt.decay.ptrBase = some bt ∧ e'.findField bt x = some t := by
  simpa [genAddr, Option.bind_eq_some_iff] using h

theorem genExpr_addr (h : genExpr e (.addr a) = some (t, e')) : ∃ s, genAddr e a = some (s, e') ∧ .ptr s = t := by
  simpa [genExpr, Option.bind_eq_some_iff] using h

theorem genExpr_assign (h : genExpr e (.assign a b) = some (t, e')) :
    ∃ lt e₁ rt, genAddr e a = some (lt, e₁) ∧ genExpr e₁ b = some (rt, e') ∧ genAssign e' lt rt = some t := by
  simpa [genExpr, Option.bind_eq_some_iff] using h

theorem genExpr_tern (h : genExpr e (.tern c a b) = some (t, e')) :
    ∃ ta tb, inferType e a = some ta ∧ inferType e b = some tb ∧ t = ternaryCommonType ta tb ∧
      ∃ tc e₁ t₁ e₂ t₂, genExpr e c = some (tc, e₁) ∧ genExpr e₁ a = some (t₁, e₂) ∧ genExpr e₂ b = some (t₂, e') := by
  simp only [genExpr, Option.pure_def, Option.bind_eq_bind, Option.bind_eq_some_iff, Prod.exists, Option.some.injEq,
    Prod.mk.injEq, Option.ite_none_left_eq_some] at h
  obtain ⟨ta, ha, tb, hb, -, tc, e₁, hc, t₁, e₂, h₁, t₂, e₃, h₂, rfl, rfl⟩ := h
  exact ⟨ta, tb, ha, hb, rfl, tc, e₁, t₁, e₂, t₂, hc, h₁, h₂⟩

theorem genExpr_cast {ty : CType} (h : genExpr e (.cast ty a) = some (t, e')) :
    t = ty ∧ ∃ s, genExpr e a = some (s, e') := by
  simp only [genExpr, Option.pure_def, Option.bind_eq_bind, Option.bind_eq_some_iff, Prod.exists, Option.some.injEq,
    Prod.mk.injEq] at h
  obtain ⟨s, e₁, ha, rfl, rfl⟩ := h
  exact ⟨rfl, s, ha⟩

theorem genExpr_unary {op : UnaryOp} (h : genExpr e (.unary op a) = some (t, e')) :
    ∃ s, genExpr e a = some (s, e') ∧ genUnary op s = some t := by
  simpa [genExpr, Option.bind_eq_some_iff] using h

theorem genExpr_logical {o : Bool} (h : genExpr e (.logical o a b) = some (t, e')) :
    t = .int false ∧ ∃ lt e₁ rt, genExpr e a = some (lt, e₁) ∧ genExpr e₁ b = some (rt, e') := by
  simp only [genExpr, Option.pure_def, Option.bind_eq_bind, Option.bind_eq_some_iff, Prod.exists, Option.some.injEq,
    Prod.mk.injEq] at h
  obtain ⟨lt, e₁, ha, rt, e₂, hb, rfl, rfl⟩ := h
  exact ⟨rfl, lt, e₁, rt, ha, hb⟩

theorem genExpr_bin {op : BinOp} (h : genExpr e (.bin op a b) = some (t, e')) :
    ∃ lt e₁ rt, genExpr e a = some (lt, e₁) ∧ genExpr e₁ b = some (rt, e') ∧
      genBin op lt.decay.promote rt.decay.promote b.isZero = some t := by
  simpa [genExpr, Option.bind_eq_some_iff] using h

/-- A call: `va_start` and `va_end` generate nothing; a system call and a call through a value leave an `int`; any other goes to
the function of that name, declared on the spot if there is none. -/
theorem genExpr_call {args : List Node} (h : genExpr e (.call c args) = some (t, e')) :
    ((c.name = asciiBytes "va_start" ∨ c.name = asciiBytes "va_end") ∧ t = .int false ∧ e' = e) ∨
    (c.name ≠ asciiBytes "va_start" ∧ c.name ≠ asciiBytes "va_end" ∧ isSyscall c.name = true ∧ t = .int false ∧
      ∃ ts, genArgs e args = some (ts, e')) ∨
    (c.name ≠ asciiBytes "va_start" ∧ c.name ≠ asciiBytes "va_end" ∧ e.indirect c = true ∧ t = .int false ∧
      ∃ ts e₁ tc, genArgs e args = some (ts, e₁) ∧ genExpr e₁ c = some (tc, e')) ∨
    (e.callsInt c = false ∧ (∃ f, e.findFunc c.name = some f ∧ t = callType f.ret) ∧ ∃ ts, genArgs e args = some (ts, e')) ∨
    (e.callsInt c = false ∧ e.findFunc c.name = none ∧ t = .int false ∧
      ∃ ts, genArgs (e.addFunc c.name) args = some (ts, e')) := by
  simp only [genExpr, Option.pure_def, Option.bind_eq_bind] at h
  split at h
  · next hv =>
    simp only [Option.ite_none_right_eq_some, Option.some.injEq, Prod.mk.injEq] at h
    exact .inl ⟨.inl hv, h.2.1.symm, h.2.2.symm⟩
  next hv =>
  split at h
  · next hv' =>
    simp only [Option.some.injEq, Prod.mk.injEq] at h
    exact .inl ⟨.inr hv', h.1.symm, h.2.symm⟩
  next hv' =>
  split at h
  · next hs =>
    simp only [Option.bind_eq_some_iff, Prod.exists, Option.ite_none_right_eq_some, Option.some.injEq, Prod.mk.injEq] at h
    obtain ⟨ts, e₁, ha, -, rfl, rfl⟩ := h
    exact .inr (.inl ⟨hv, hv', hs, rfl, ts, ha⟩)
  next hs =>
  split at h
  · next hi =>
    simp only [Option.bind_eq_some_iff, Prod.exists, Option.some.injEq, Prod.mk.injEq] at h
    obtain ⟨ts, e₁, ha, tc, e₂, hc, rfl, rfl⟩ := h
    exact .inr (.inr (.inl ⟨hv, hv', hi, rfl, ts, e₁, tc, ha, hc⟩))
  next hi =>
  have hn : e.callsInt c = false := by simp [Env.callsInt, hv, hv', hs, hi]
  split at h
  · next f hf =>
    simp only [Option.bind_eq_some_iff, Prod.exists, Option.ite_none_right_eq_some, Option.some.injEq, Prod.mk.injEq] at h
    obtain ⟨ts, e₁, ha, -, rfl, rfl⟩ := h
    exact .inr (.inr (.inr (.inl ⟨hn, ⟨f, hf, rfl⟩, ts, ha⟩)))
  · next hf =>
    simp only [Option.bind_eq_some_iff, Prod.exists, Option.some.injEq, Prod.mk.injEq] at h
    obtain ⟨ts, e₁, ha, rfl, rfl⟩ := h
    exact .inr (.inr (.inr (.inr ⟨hn, hf, rfl, ts, ha⟩)))

end Inversion

/-! ## The operands are generated too -/

theorem Node.sizeOf_operand {n c : Node} (h : c ∈ n.operands) : sizeOf c < sizeOf n := by
  cases n <;> simp only [Node.operands, List.mem_cons, List.not_mem_nil, or_false] at h
  case call callee args =>
    split at h
    · cases h
    · rcases List.mem_cons.mp h with rfl | hc
      · simp only [Node.call.sizeOf_spec]
        omega
      · have := List.sizeOf_lt_of_mem hc
        simp only [Node.call.sizeOf_spec]
        omega
  all_goals (rcases h with rfl | rfl | rfl) <;> simp <;> omega

/-- Induction on an expression, from its operands. -/
theorem Node.operand_induction {P : Node → Prop} (h : ∀ n : Node, (∀ c ∈ n.operands, P c) → P n) (n : Node) : P n :=
  h n fun c _ => Node.operand_induction h c
termination_by sizeOf n
decreasing_by exact Node.sizeOf_operand ‹_›

theorem Node.Contains.trans {n m k : Node} (h : n.Contains m) (h' : m.Contains k) : n.Contains k := by
  induction h with
  | self => exact h'
  | operand hc _ ih => exact .operand hc (ih h')

/-- Code is generated for the tree now or later on. -/
def Env.Accepts (env : Env) (n : Node) : Prop := ∃ e t e', env.Later e ∧ genExpr e n = some (t, e')

/-- What has an address has a value. -/
theorem genExpr_of_genAddr {e e' : Env} {n : Node} {t : CType} (h : genAddr e n = some (t, e')) :
    ∃ t', genExpr e n = some (t', e') := by
  cases n
  case var x =>
    simp only [genAddr, Option.map_eq_some_iff, Prod.mk.injEq] at h
    obtain ⟨s, hs, rfl, rfl⟩ := h
    cases hv : e.findVar x with
    | some s' => exact ⟨_, by simp [genExpr, hv]; rfl⟩
    | none =>
      simp only [hv, Option.none_or, Option.map_eq_some_iff] at hs
      obtain ⟨f, hf, -⟩ := hs
      exact ⟨_, by simp [genExpr, hv, Env.funcName, hf]; rfl⟩
  case deref a => exact ⟨_, by rw [genExpr_deref, h]; rfl⟩
  case index a b => exact ⟨_, by rw [genExpr_index, h]; rfl⟩
  case dot a x => exact ⟨_, by rw [genExpr_dot, h]; rfl⟩
  case arrow a x => exact ⟨_, by rw [genExpr_arrow, h]; rfl⟩
  all_goals simp [genAddr] at h

/-- The arguments of a call are generated one after the other. -/
theorem genArgs_later {args : List Node} (ih : ∀ a ∈ args, ∀ e t e', genExpr e a = some (t, e') → e.Later e') :
    ∀ {e e' : Env} {ts : List CType}, genArgs e args = some (ts, e') → e.Later e' ∧ ∀ a ∈ args, e.Accepts a := by
  induction args with
  | nil =>
    intro e e' ts h
    simp only [genArgs, Option.some.injEq, Prod.mk.injEq] at h
    obtain ⟨-, rfl⟩ := h
    exact ⟨.here, by simp⟩
  | cons a as iha =>
    intro e e' ts h
    simp only [genArgs, Option.pure_def, Option.bind_eq_bind, Option.bind_eq_some_iff, Prod.exists, Option.some.injEq,
      Prod.mk.injEq] at h
    obtain ⟨ts', e₁, has, t, e₂, ha, -, rfl⟩ := h
    obtain ⟨hl, hacc⟩ := iha (fun a' ha' => ih a' (by simp [ha'])) has
    refine ⟨hl.trans (ih a (by simp) _ _ _ ha), ?_⟩
    rintro c (_ | ⟨_, hc⟩)
    · exact ⟨e₁, t, _, hl, ha⟩
    · exact hacc c hc

theorem Env.Accepts.of_later {env e : Env} {n : Node} (h : e.Accepts n) (hl : env.Later e) : env.Accepts n := by
  obtain ⟨e₁, t, e₂, h₁, hg⟩ := h
  exact ⟨e₁, t, e₂, hl.trans h₁, hg⟩

/-- A node with a name is a variable. -/
theorem Node.var_of_name {c : Node} (h : c.name ≠ []) : ∃ x, c = .var x := by
  cases c
  case var x => exact ⟨x, rfl⟩
  all_goals exact absurd rfl h

theorem var_of_isSyscall {c : Node} (h : isSyscall c.name = true) : ∃ x, c = .var x := by
  apply Node.var_of_name
  intro hn
  rw [hn] at h
  revert h
  decide +kernel

/-- A direct call names its function, and no variable has that name. -/
theorem Env.direct_call {e : Env} {c : Node} (h : e.callsInt c = false) (args : List Node) :
    Node.operands (.call c args) = c :: args ∧ (∃ x, c = .var x) ∧ e.findVar c.name = none := by
  simp only [Env.callsInt, Bool.or_eq_false_iff, decide_eq_false_iff_not] at h
  obtain ⟨⟨⟨hv, hv'⟩, -⟩, hi⟩ := h
  refine ⟨by simp [Node.operands, hv, hv'], ?_⟩
  cases c
  case var x => exact ⟨⟨x, rfl⟩, by simpa [Env.indirect, Node.name] using hi⟩
  all_goals cases hi

/-- Generating an expression only adds functions, and generates its operands; the name of a function called directly is no
operand. -/
theorem genExpr_operands : ∀ (n : Node) {e e' : Env} {t : CType}, genExpr e n = some (t, e') →
    e.Later e' ∧ ∀ c ∈ n.operands, e.Accepts c ∨ ∃ x, c = .var x := by
  intro n
  induction n using Node.operand_induction with
  | h n ih =>
  intro e e' t h
  have one : ∀ {a : Node} {s : CType} {e₁ : Env}, a ∈ n.operands → genExpr e a = some (s, e₁) → e.Later e₁ ∧ e.Accepts a :=
    fun ha hg => ⟨(ih _ ha hg).1, _, _, _, .here, hg⟩
  have two : ∀ {a b : Node} {s s' : CType} {e₁ e₂ : Env}, a ∈ n.operands → b ∈ n.operands → genExpr e a = some (s, e₁) →
      genExpr e₁ b = some (s', e₂) → e.Later e₂ ∧ e.Accepts a ∧ e.Accepts b := by
    intro a b s s' e₁ e₂ ha hb hga hgb
    have hl := (ih _ ha hga).1
    exact ⟨hl.trans (ih _ hb hgb).1, ⟨_, _, _, .here, hga⟩, ⟨_, _, _, hl, hgb⟩⟩
  cases n
  case num => cases h; exact ⟨.here, by simp [Node.operands]⟩
  case fnum => cases h; exact ⟨.here, by simp [Node.operands]⟩
  case str => cases h; exact ⟨.here, by simp [Node.operands]⟩
  case var x =>
    refine ⟨?_, by simp [Node.operands]⟩
    simp only [genExpr] at h
    split at h
    · cases h
      exact .here
    · simp only [Option.map_eq_some_iff, Prod.mk.injEq] at h
      obtain ⟨-, -, -, rfl⟩ := h
      exact .here
  case vaArg a ty =>
    refine ⟨?_, by simp [Node.operands]⟩
    simp only [genExpr] at h
    split at h
    · simp only [Option.ite_none_left_eq_some, Option.some.injEq, Prod.mk.injEq] at h
      exact h.2.2 ▸ .here
    · cases h
  case bin op a b =>
    obtain ⟨lt, e₁, rt, ha, hb, -⟩ := genExpr_bin h
    obtain ⟨hl, hca, hcb⟩ := two (by simp [Node.operands]) (by simp [Node.operands]) ha hb
    exact ⟨hl, by simp [Node.operands, hca, hcb]⟩
  case logical o a b =>
    obtain ⟨-, lt, e₁, rt, ha, hb⟩ := genExpr_logical h
    obtain ⟨hl, hca, hcb⟩ := two (by simp [Node.operands]) (by simp [Node.operands]) ha hb
    exact ⟨hl, by simp [Node.operands, hca, hcb]⟩
  case assign a b =>
    obtain ⟨lt, e₁, rt, ha, hb, -⟩ := genExpr_assign h
    obtain ⟨s, ha⟩ := genExpr_of_genAddr ha
    obtain ⟨hl, hca, hcb⟩ := two (by simp [Node.operands]) (by simp [Node.operands]) ha hb
    exact ⟨hl, by simp [Node.operands, hca, hcb]⟩
  case index a b =>
    rw [genExpr_index, Option.map_eq_some_iff] at h
    obtain ⟨⟨s, e₂⟩, h, hr⟩ := h
    obtain ⟨bt, e₁, it, ha, -, hb⟩ := genAddr_index h
    obtain ⟨hl, hca, hcb⟩ := two (by simp [Node.operands]) (by simp [Node.operands]) ha hb
    cases hr
    exact ⟨hl, by simp [Node.operands, hca, hcb]⟩
  case cast ty a =>
    obtain ⟨-, s, ha⟩ := genExpr_cast h
    obtain ⟨hl, hca⟩ := one (by simp [Node.operands]) ha
    exact ⟨hl, by simp [Node.operands, hca]⟩
  case unary op a =>
    obtain ⟨s, ha, -⟩ := genExpr_unary h
    obtain ⟨hl, hca⟩ := one (by simp [Node.operands]) ha
    exact ⟨hl, by simp [Node.operands, hca]⟩
  case addr a =>
    obtain ⟨s, ha, -⟩ := genExpr_addr h
    obtain ⟨s, ha⟩ := genExpr_of_genAddr ha
    obtain ⟨hl, hca⟩ := one (by simp [Node.operands]) ha
    exact ⟨hl, by simp [Node.operands, hca]⟩
  case deref a =>
    rw [genExpr_deref, Option.map_eq_some_iff] at h
    obtain ⟨⟨s, e₂⟩, h, hr⟩ := h
    obtain ⟨pt, ha, -⟩ := genAddr_deref h
    obtain ⟨hl, hca⟩ := one (by simp [Node.operands]) ha
    cases hr
    exact ⟨hl, by simp [Node.operands, hca]⟩
  case dot a x =>
    rw [genExpr_dot, Option.map_eq_some_iff] at h
    obtain ⟨⟨s, e₂⟩, h, hr⟩ := h
    obtain ⟨bt, ha, -⟩ := genAddr_dot h
    obtain ⟨s, ha⟩ := genExpr_of_genAddr ha
    obtain ⟨hl, hca⟩ := one (by simp [Node.operands]) ha
    cases hr
    exact ⟨hl, by simp [Node.operands, hca]⟩
  case arrow a x =>
    rw [genExpr_arrow, Option.map_eq_some_iff] at h
    obtain ⟨⟨s, e₂⟩, h, hr⟩ := h
    obtain ⟨pt, bt, ha, -⟩ := genAddr_arrow h
    obtain ⟨hl, hca⟩ := one (by simp [Node.operands]) ha
    cases hr
    exact ⟨hl, by simp [Node.operands, hca]⟩
  case tern c a b =>
    obtain ⟨-, -, -, -, -, tc, e₁, t₁, e₂, t₂, hc, ha, hb⟩ := genExpr_tern h
    obtain ⟨hl, hcc, hca⟩ := two (by simp [Node.operands]) (by simp [Node.operands]) hc ha
    have hcb : e.Accepts b := ⟨e₂, t₂, e', hl, hb⟩
    exact ⟨hl.trans (ih b (by simp [Node.operands]) hb).1, by simp [Node.operands, hcc, hca, hcb]⟩
  case call c args =>
    have args_later : ∀ {e e' : Env} {ts : List CType}, Node.operands (.call c args) = c :: args →
        genArgs e args = some (ts, e') → e.Later e' ∧ ∀ a ∈ args, e.Accepts a :=
      fun hops hargs => genArgs_later (fun a ha _ _ _ hg => (ih a (by simp [hops, ha]) hg).1) hargs
    rcases genExpr_call h with ⟨hv, -, rfl⟩ | ⟨hv, hv', hs, -, ts, hargs⟩ | ⟨hv, hv', hi, -, ts, e₁, tc, hargs, hc⟩ |
      ⟨hn, -, ts, hargs⟩ | ⟨hn, hf, -, ts, hargs⟩
    · exact ⟨.here, by simp [Node.operands, hv]⟩
    · have hops : Node.operands (.call c args) = c :: args := by simp [Node.operands, hv, hv']
      obtain ⟨hl, hacc⟩ := args_later hops hargs
      exact ⟨hl, by simpa [hops, var_of_isSyscall hs] using fun a ha => .inl (hacc a ha)⟩
    · have hops : Node.operands (.call c args) = c :: args := by simp [Node.operands, hv, hv']
      obtain ⟨hl, hacc⟩ := args_later hops hargs
      have hcc : e.Accepts c := ⟨e₁, tc, e', hl, hc⟩
      exact ⟨hl.trans (ih c (by simp [hops]) hc).1, by simpa [hops, hcc] using fun a ha => .inl (hacc a ha)⟩
    · obtain ⟨hops, hx, -⟩ := Env.direct_call hn args
      obtain ⟨hl, hacc⟩ := args_later hops hargs
      exact ⟨hl, by simpa [hops, hx] using fun a ha => .inl (hacc a ha)⟩
    · obtain ⟨hops, hx, hvar⟩ := Env.direct_call hn args
      obtain ⟨hl, hacc⟩ := args_later hops hargs
      have hadd : e.Later (e.addFunc c.name) := .called .here hvar hf
      exact ⟨hadd.trans hl, by simpa [hops, hx] using fun a ha => .inl ((hacc a ha).of_later hadd)⟩

/-! ## Reading off a type -/

theorem Env.Later.funcName_eq {e e₁ : Env} (hl : e.Later e₁) {x : List Byte} {s : CType} (h : e.funcName x = some s) :
    e₁.funcName x = some s := by
  unfold Env.funcName at h ⊢
  rcases hl.extends.findFunc x with hf | ⟨hn, -, -⟩
  · rw [hf, h]
  · rw [hn] at h
    cases h

theorem inferType_addr {e : Env} {a : Node} (h : ¬∃ x, a = .var x) : inferType e (.addr a) = (inferType e a).map .ptr := by
  cases a
  case var x => exact absurd ⟨x, rfl⟩ h
  all_goals rfl

-- the equations of `inferType` are made here, once for all that follows
attribute [local simp] inferType in
/-- `&x`: a function of that name comes before the variable. -/
theorem inferType_addr_var (e : Env) (x : List Byte) :
    inferType e (.addr (.var x)) = (e.funcName x).or ((e.findVar x).map .ptr) := by
  cases hf : e.funcName x with
  | some t => simp [hf]
  | none => simp [hf]

/-- A type once read off stays. -/
theorem inferType_later {e e₁ : Env} (hl : e.Later e₁) : ∀ (n : Node) {s : CType}, inferType e n = some s →
    inferType e₁ n = some s := by
  intro n
  induction n using Node.operand_induction with
  | h n ih =>
  intro s h
  have left : ∀ {a : Node} {f : CType → Option CType}, a ∈ n.operands → (inferType e a).bind f = some s →
      (inferType e₁ a).bind f = some s := by
    intro a f ha hb
    obtain ⟨t, ht, hf⟩ := Option.bind_eq_some_iff.mp hb
    rw [ih a ha ht]
    exact hf
  cases n
  case var x =>
    simp only [inferType, hl.findVar_eq] at h ⊢
    cases hv : e.findVar x with
    | some t => simpa [hv] using h
    | none =>
      rw [hv, Option.none_or] at h
      rw [Option.none_or]
      exact hl.funcName_eq h
  case addr a =>
    by_cases hx : ∃ x, a = .var x
    · obtain ⟨x, rfl⟩ := hx
      rw [inferType_addr_var] at h ⊢
      cases hf : e.funcName x with
      | some t =>
        rw [hl.funcName_eq hf]
        simpa [hf] using h
      | none =>
        rw [hf, Option.none_or, Option.map_eq_some_iff] at h
        obtain ⟨t, ht, rfl⟩ := h
        have hf' : e₁.funcName x = none := by
          unfold Env.funcName at hf ⊢
          rw [hl.findFunc_of_var ht, hf]
        rw [hf', Option.none_or, hl.findVar_eq, ht]
        rfl
    · rw [inferType_addr hx] at h ⊢
      obtain ⟨t, ht, rfl⟩ := Option.map_eq_some_iff.mp h
      rw [ih a (by simp [Node.operands]) ht]
      rfl
  case call c args =>
    have hr := hl.retType_eq c.name
    simp only [Env.retType] at hr
    simpa only [inferType, hr] using h
  case dot a x =>
    simp only [inferType, hl.findField_eq] at h ⊢
    exact left (by simp [Node.operands]) h
  case arrow a x =>
    simp only [inferType, hl.findField_eq] at h ⊢
    exact left (by simp [Node.operands]) h
  case tern c a b =>
    simp only [inferType, Option.bind_eq_bind, Option.bind_eq_some_iff] at h ⊢
    obtain ⟨ta, ha, tb, hb, hs⟩ := h
    exact ⟨ta, ih a (by simp [Node.operands]) ha, tb, ih b (by simp [Node.operands]) hb, hs⟩
  case bin | logical | assign | unary | deref | index => exact left (by simp [Node.operands]) h
  all_goals exact h

/-! ## From the operands to the node -/

/-- What the type rules promise of an expression. -/
structure Env.Sound (env : Env) (n : Node) : Prop where
  converts : (typed env n).val.converted = (typed env n).own.converted
  value : ∀ {e e' : Env} {t : CType}, env.Later e → genExpr e n = some (t, e') → t = (typed env n).val
  object : ∀ {e e' : Env} {t : CType}, env.Later e → genAddr e n = some (t, e') → t = env.objType n (typed env n).own
  infers : ∀ {e e' : Env} {t : CType}, env.Later e → genExpr e n = some (t, e') →
    ∃ s, inferType e n = some s ∧ s.Alike (typed env n).own
  names : ∀ {e e' : Env} {t : CType}, env.Later e → genAddr e n = some (t, e') → inferType e n = some (typed env n).own

section Steps

variable {env e e' : Env} {t : CType} {n : Node}

theorem BinOp.isCmp_of_isBit {op : BinOp} (h : op.isBit = true) : op.isCmp = false := by
  cases op <;> first | rfl | cases h

/-- The code generator's case analysis agrees with the rule for the operators. -/
theorem genBin_eq {op : BinOp} {lt rt : CType} {z : Bool} (h : genBin op lt rt z = some t) : t = binType op lt rt := by
  simp only [genBin, Option.ite_none_left_eq_some] at h
  have h := h.2
  unfold binType
  by_cases hb : op.isBit = true
  · rw [if_pos hb, Option.ite_none_left_eq_some] at h
    simp only [Bool.not_eq_true, Bool.or_eq_false_iff, Option.some.injEq] at h
    obtain ⟨⟨⟨-, hl⟩, hr⟩, rfl⟩ := h
    simp [BinOp.isCmp_of_isBit hb, hb, hl, hr]
  by_cases hc : op.isCmp = true
  · rw [if_neg hb, if_pos hc, Option.ite_none_left_eq_some] at h
    rw [if_pos hc]
    exact (Option.some.inj h.2).symm
  rw [if_neg hb, if_neg hc] at h
  rw [if_neg hc, if_neg hb]
  split at h
  · next hp => rw [if_pos hp, ← Option.some.inj h]
  next hp =>
  rw [if_neg hp]
  split at h
  · next hp' => rw [if_pos hp', ← Option.some.inj h]
  next hp' =>
  rw [if_neg hp']
  split at h
  · next hd => rw [if_pos hd, ← Option.some.inj h]
  next hd =>
  rw [if_neg hd]
  split at h
  · next hf =>
    rw [if_pos hf]
    simp only [Option.ite_none_left_eq_some, Option.some.injEq] at h
    exact h.2.symm
  · next hf => rw [if_neg hf, ← Option.some.inj h]

theorem genUnary_eq {op : UnaryOp} {s : CType} (h : genUnary op s = some t) : t = unaryType op s := by
  cases op with
  | neg => exact (Option.some.inj h).symm
  | not => exact (Option.some.inj h).symm
  | compl =>
    simp only [genUnary, Option.ite_none_left_eq_some, Option.some.injEq] at h
    simp [unaryType, h.1, h.2]

theorem genAssign_eq {lt rt : CType} (h : genAssign e lt rt = some t) : t = lt.promote := by
  unfold genAssign at h
  split at h
  · next hr =>
    split at h
    · cases h
      cases t <;> first | rfl | cases hr
    · cases h
  · split at h
    · cases h
    · exact (Option.some.inj h).symm

/-- The object's type is the one the rules give. -/
theorem object_step (hs : ∀ c ∈ n.operands, env.Sound c) (hl : env.Later e) (h : genAddr e n = some (t, e')) :
    t = env.objType n (typed env n).own := by
  cases n
  case var x =>
    simp only [genAddr, hl.findVar_eq, Option.map_eq_some_iff, Prod.mk.injEq] at h
    obtain ⟨s, hx, rfl, -⟩ := h
    cases hv : env.findVar x with
    | some s' =>
      rw [hv, Option.some_or, Option.some.injEq] at hx
      simp [Env.objType, hv, hx]
    | none =>
      simp only [hv, Option.none_or, Option.map_eq_some_iff] at hx
      obtain ⟨f, -, rfl⟩ := hx
      simp [Env.objType, hv]
  case deref a =>
    obtain ⟨pt, ha, hp⟩ := genAddr_deref h
    rw [(hs a (by simp [Node.operands])).value hl ha] at hp
    exact (CType.elem_of_ptrBase hp).symm
  case index a b =>
    obtain ⟨bt, e₁, it, ha, hp, -⟩ := genAddr_index h
    rw [(hs a (by simp [Node.operands])).value hl ha] at hp
    exact (CType.elem_of_ptrBase hp).symm
  case dot a x =>
    obtain ⟨bt, ha, hf⟩ := genAddr_dot h
    obtain ⟨s, hg⟩ := genExpr_of_genAddr ha
    rw [(hs a (by simp [Node.operands])).object hl ha, (hl.trans (genExpr_operands a hg).1).findField_eq] at hf
    change t = (env.findField (env.objType a (typed env a).own) x).getD .void
    rw [hf]
    rfl
  case arrow a x =>
    obtain ⟨pt, bt, ha, hp, hf⟩ := genAddr_arrow h
    rw [(hs a (by simp [Node.operands])).value hl ha] at hp
    rw [← CType.elem_of_ptrBase hp, (hl.trans (genExpr_operands a ha).1).findField_eq] at hf
    simp [Env.objType, typed, Typed.loaded, hf]
  all_goals simp [genAddr] at h

/-- The value's type is the one the rules give. -/
theorem value_step (hs : ∀ c ∈ n.operands, env.Sound c) (hl : env.Later e) (h : genExpr e n = some (t, e')) :
    t = (typed env n).val := by
  cases n
  case num => exact (congrArg Prod.fst (Option.some.inj h)).symm
  case fnum => exact (congrArg Prod.fst (Option.some.inj h)).symm
  case str => exact (congrArg Prod.fst (Option.some.inj h)).symm
  case var x =>
    simp only [genExpr, hl.findVar_eq] at h
    cases hv : env.findVar x with
    | some s =>
      simp only [hv, Option.some.injEq, Prod.mk.injEq] at h
      simp [typed, hv, Typed.loaded, h.1]
    | none =>
      simp only [hv, Env.funcName, Option.map_map, Option.map_eq_some_iff, Function.comp_apply, Prod.mk.injEq] at h
      obtain ⟨f, -, rfl, -⟩ := h
      simp [typed, hv, Typed.value]
  case vaArg a ty =>
    simp only [genExpr] at h
    split at h
    · simp only [Option.ite_none_left_eq_some, Option.some.injEq, Prod.mk.injEq] at h
      exact h.2.1.symm
    · cases h
  case bin op a b =>
    obtain ⟨lt, e₁, rt, ha, hb, ht⟩ := genExpr_bin h
    have hla := (genExpr_operands a ha).1
    rw [genBin_eq ht, (hs a (by simp [Node.operands])).value hl ha, (hs b (by simp [Node.operands])).value (hl.trans hla) hb]
    rfl
  case logical o a b => exact (genExpr_logical h).1
  case assign a b =>
    obtain ⟨lt, e₁, rt, ha, -, ht⟩ := genExpr_assign h
    rw [genAssign_eq ht, (hs a (by simp [Node.operands])).object hl ha]
    rfl
  case cast ty a => exact (genExpr_cast h).1
  case unary op a =>
    obtain ⟨s, ha, ht⟩ := genExpr_unary h
    rw [genUnary_eq ht, (hs a (by simp [Node.operands])).value hl ha]
    rfl
  case addr a =>
    obtain ⟨s, ha, rfl⟩ := genExpr_addr h
    rw [(hs a (by simp [Node.operands])).object hl ha]
    rfl
  case deref a =>
    rw [genExpr_deref, Option.map_eq_some_iff] at h
    obtain ⟨⟨s, e₂⟩, h, hr⟩ := h
    cases hr
    rw [object_step hs hl h]
    rfl
  case index a b =>
    rw [genExpr_index, Option.map_eq_some_iff] at h
    obtain ⟨⟨s, e₂⟩, h, hr⟩ := h
    cases hr
    rw [object_step hs hl h]
    rfl
  case dot a x =>
    rw [genExpr_dot, Option.map_eq_some_iff] at h
    obtain ⟨⟨s, e₂⟩, h, hr⟩ := h
    cases hr
    rw [object_step hs hl h]
    rfl
  case arrow a x =>
    rw [genExpr_arrow, Option.map_eq_some_iff] at h
    obtain ⟨⟨s, e₂⟩, h, hr⟩ := h
    cases hr
    rw [object_step hs hl h]
    rfl
  case tern c a b =>
    -- The arms are read off before the condition is generated; they read the same once they are generated themselves.
    obtain ⟨ta, tb, hta, htb, rfl, tc, e₁, t₁, e₂, t₂, hc, ha, hb⟩ := genExpr_tern h
    have hlc := (genExpr_operands c hc).1
    have hla := (genExpr_operands a ha).1
    obtain ⟨sa, hsa, haa⟩ := (hs a (by simp [Node.operands])).infers (hl.trans hlc) ha
    obtain ⟨sb, hsb, hbb⟩ := (hs b (by simp [Node.operands])).infers ((hl.trans hlc).trans hla) hb
    rw [inferType_later hlc a hta, Option.some.injEq] at hsa
    rw [inferType_later (hlc.trans hla) b htb, Option.some.injEq] at hsb
    subst hsa hsb
    exact CType.ternaryCommonType_alike haa hbb
  case call c args =>
    have hci : e.callsInt c = env.callsInt c := by simp only [Env.callsInt, hl.indirect_eq]
    have hret := hl.retType_eq c.name
    simp only [typed]
    rcases genExpr_call h with ⟨hv, rfl, -⟩ | ⟨-, -, hsys, rfl, -⟩ | ⟨-, -, hi, rfl, -⟩ | ⟨hn, ⟨f, hf, rfl⟩, -⟩ |
      ⟨hn, hf, rfl, -⟩
    · have : env.callsInt c = true := by
        rcases hv with hv | hv <;> simp [Env.callsInt, hv]
      rw [if_pos this]
    · have : env.callsInt c = true := by simp [Env.callsInt, hsys]
      rw [if_pos this]
    · rw [hl.indirect_eq] at hi
      have : env.callsInt c = true := by simp [Env.callsInt, hi]
      rw [if_pos this]
    · rw [← hci, hn, ← hret]
      simp [Env.retType, hf]
    · rw [← hci, hn, ← hret]
      simp [Env.retType, hf, callType, CType.isVoid]

/-- A node read off rightly has a value of its declared type. -/
theorem converts_step (h : env.Inferable n) : (typed env n).val.converted = (typed env n).own.converted := by
  cases n
  case var x => cases hv : env.findVar x <;> simp [typed, hv, Typed.loaded, Typed.value]
  case call c args =>
    simp only [Env.Inferable] at h
    simp only [typed]
    split at h
    · next hc => rw [if_pos hc, h, CType.converted_int]
    · next hc =>
      rw [if_neg hc]
      simp only [callType]
      cases hr : env.retType c.name <;> first | rfl | exact absurd hr h
  all_goals simp [typed, Typed.loaded, Typed.value]

/-- An operator that yields an integer yields an `int`. -/
theorem binType_of_converted {op : BinOp} {lt rt : CType} {u : Bool} (h : (binType op lt rt).converted = .int u) :
    binType op lt rt = .int u := by
  unfold binType at h ⊢
  split_ifs at h ⊢ with _ _ hl hr
  case pos => exact h
  case pos => exact h
  case pos => rwa [CType.converted_of_isPtr hl.2.1] at h
  case pos => rwa [CType.converted_of_isPtr hr.2.1] at h
  case pos => exact h
  case pos => cases h
  case neg => exact h

theorem unaryType_of_converted {op : UnaryOp} {s : CType} {u : Bool} (h : (unaryType op s).converted = .int u) :
    unaryType op s = .int u := by
  cases op <;> simp only [unaryType] at h ⊢
  case not => exact h
  all_goals
    split_ifs at h ⊢
    · cases h
    · exact h

/-- A type that promotes to the `int` of its own signedness is that `int`, or signed. -/
theorem CType.alike_of_converted {s : CType} (h : s.converted = .int s.isUnsigned) : (CType.int s.isUnsigned).Alike s := by
  cases s
  case int => exact .inl rfl
  case short u =>
    cases h
    exact .inr ⟨.inl rfl, .inr (.inl rfl)⟩
  case char u =>
    cases h
    exact .inr ⟨.inl rfl, .inr (.inr rfl)⟩
  all_goals cases h

theorem Env.objType_of_not_var {a : Node} (h : ¬∃ x, a = .var x) (own : CType) : env.objType a own = own := by
  cases a
  case var x => exact absurd ⟨x, rfl⟩ h
  all_goals rfl

theorem Env.isRecord_of_findField {bt : CType} {x : List Byte} (h : env.findField bt x = some t) : bt.isRecord = true := by
  simp only [Env.findField, Option.bind_eq_bind, Option.bind_eq_some_iff] at h
  obtain ⟨s, hs, -⟩ := h
  simp [CType.isRecord, hs]

/-- A name with a value is a variable or a function. -/
theorem genAddr_var_of_genExpr {x : List Byte} (h : genExpr e (.var x) = some (t, e')) :
    ∃ s, genAddr e (.var x) = some (s, e') := by
  simp only [genExpr] at h
  cases hv : e.findVar x with
  | some s =>
    simp only [hv, Option.some.injEq, Prod.mk.injEq] at h
    obtain ⟨-, rfl⟩ := h
    exact ⟨s, by simp [genAddr, hv]⟩
  | none =>
    simp only [hv, Env.funcName, Option.map_map, Option.map_eq_some_iff, Function.comp_apply, Prod.mk.injEq] at h
    obtain ⟨f, hf, -, rfl⟩ := h
    exact ⟨.void, by simp [genAddr, hv, hf]⟩

/-- The operands of a node that is a pointer once decayed were declared so. -/
theorem Env.Sound.own_ptrBase {a : Node} (ha : env.Sound a) {b : CType} (h : (typed env a).val.decay.ptrBase = some b) :
    (typed env a).own.decay.ptrBase = some b := by
  rw [← CType.converted_eq_ptr, ← ha.converts, CType.converted_eq_ptr]
  exact h

/-- The type of an object is read off exactly. -/
theorem names_step (hs : ∀ c ∈ n.operands, env.Sound c) (hn : env.Inferable n) (hl : env.Later e)
    (h : genAddr e n = some (t, e')) : inferType e n = some (typed env n).own := by
  cases n
  case var x =>
    simp only [genAddr, hl.findVar_eq, Option.map_eq_some_iff] at h
    simp only [inferType, hl.findVar_eq, typed]
    obtain ⟨s, hx, -⟩ := h
    cases hv : env.findVar x with
    | some s => rfl
    | none =>
      simp only [hv, Option.none_or, Option.map_eq_some_iff] at hx
      obtain ⟨f, hf, -⟩ := hx
      simp [Env.funcName, hf, Typed.value]
  case deref a =>
    obtain ⟨pt, ha, hp⟩ := genAddr_deref h
    have hsa := hs a (by simp [Node.operands])
    rw [hsa.value hl ha] at hp
    obtain ⟨sa, hia, hal⟩ := hsa.infers hl ha
    have hown : (typed env a).own.ptrBase = some t := by
      rw [← CType.decay_of_not_isArray hn]
      exact hsa.own_ptrBase hp
    simp [inferType, hia, hal.ptrBase_eq, hown, typed, CType.elem_of_ptrBase hp]
  case index a b =>
    obtain ⟨bt, e₁, it, ha, hp, -⟩ := genAddr_index h
    have hsa := hs a (by simp [Node.operands])
    rw [hsa.value hl ha] at hp
    obtain ⟨sa, hia, hal⟩ := hsa.infers hl ha
    simp [inferType, hia, hal.decay_ptrBase_eq, hsa.own_ptrBase hp, typed, Typed.loaded, CType.elem_of_ptrBase hp]
  case dot a x =>
    obtain ⟨bt, ha, hf⟩ := genAddr_dot h
    obtain ⟨sv, hg⟩ := genExpr_of_genAddr ha
    have hsa := hs a (by simp [Node.operands])
    have hbt := hsa.object hl ha
    rw [(hl.trans (genExpr_operands a hg).1).findField_eq] at hf
    have hrec : bt.isRecord = true := Env.isRecord_of_findField hf
    have hobj : env.objType a (typed env a).own = (typed env a).own := by
      apply Env.objType_eq_own
      rw [← hbt]
      rintro rfl
      cases hrec
    rw [hobj] at hbt
    subst hbt
    have hbase : (typed env a).own.ptrBase = none := CType.ptrBase_of_isRecord hrec
    simp [inferType, hsa.names hl ha, hbase, hl.findField_eq, hf, typed, Typed.loaded, hobj]
  case arrow a x =>
    obtain ⟨pt, bt, ha, hp, hf⟩ := genAddr_arrow h
    have hsa := hs a (by simp [Node.operands])
    rw [hsa.value hl ha] at hp
    rw [(hl.trans (genExpr_operands a ha).1).findField_eq] at hf
    obtain ⟨sa, hia, hal⟩ := hsa.infers hl ha
    have hown : (typed env a).own.ptrBase = some bt := by
      rw [← CType.decay_of_not_isArray hn]
      exact hsa.own_ptrBase hp
    simp [inferType, hia, hal.ptrBase_eq, hown, hl.findField_eq, hf, typed, Typed.loaded, CType.elem_of_ptrBase hp]
  all_goals simp [genAddr] at h

/-- A node that meets its condition is read off rightly. -/
theorem infers_step (hs : ∀ c ∈ n.operands, env.Sound c) (hn : env.Inferable n) (hl : env.Later e)
    (h : genExpr e n = some (t, e')) : ∃ s, inferType e n = some s ∧ s.Alike (typed env n).own := by
  cases n
  case num => exact ⟨_, rfl, .inl rfl⟩
  case fnum => exact ⟨_, rfl, .inl rfl⟩
  case str => exact ⟨_, rfl, .inl rfl⟩
  case cast => exact ⟨_, rfl, .inl rfl⟩
  case vaArg => exact ⟨_, rfl, .inl rfl⟩
  case call c args => exact ⟨_, rfl, .inl (hl.retType_eq c.name)⟩
  case var x =>
    obtain ⟨s, ha⟩ := genAddr_var_of_genExpr h
    exact ⟨_, names_step hs hn hl ha, .inl rfl⟩
  case deref a =>
    rw [genExpr_deref, Option.map_eq_some_iff] at h
    obtain ⟨⟨s, e₂⟩, h, -⟩ := h
    exact ⟨_, names_step hs hn hl h, .inl rfl⟩
  case index a b =>
    rw [genExpr_index, Option.map_eq_some_iff] at h
    obtain ⟨⟨s, e₂⟩, h, -⟩ := h
    exact ⟨_, names_step hs hn hl h, .inl rfl⟩
  case dot a x =>
    rw [genExpr_dot, Option.map_eq_some_iff] at h
    obtain ⟨⟨s, e₂⟩, h, -⟩ := h
    exact ⟨_, names_step hs hn hl h, .inl rfl⟩
  case arrow a x =>
    rw [genExpr_arrow, Option.map_eq_some_iff] at h
    obtain ⟨⟨s, e₂⟩, h, -⟩ := h
    exact ⟨_, names_step hs hn hl h, .inl rfl⟩
  case addr a =>
    obtain ⟨s, ha, rfl⟩ := genExpr_addr h
    have hsa := hs a (by simp [Node.operands])
    refine ⟨.ptr s, ?_, .inl (congrArg CType.ptr (hsa.object hl ha))⟩
    by_cases hx : ∃ x, a = .var x
    · obtain ⟨x, rfl⟩ := hx
      rw [inferType_addr_var, hl.findVar_eq]
      simp only [genAddr, hl.findVar_eq, Option.map_eq_some_iff, Prod.mk.injEq] at ha
      obtain ⟨s', hx, rfl, -⟩ := ha
      cases hv : env.findVar x with
      | none =>
        simp only [hv, Option.none_or, Option.map_eq_some_iff] at hx
        obtain ⟨f, hf, rfl⟩ := hx
        simp [Env.funcName, hf]
      | some s =>
        rw [hv, Option.some_or, Option.some.injEq] at hx
        subst hx
        cases hf : env.findFunc x with
        | none => simp [Env.funcName, hl.findFunc_of_var hv, hf]
        | some f => simp [Env.funcName, hl.findFunc_of_var hv, hf, hn _ f hv hf]
    · rw [inferType_addr hx, hsa.names hl ha, hsa.object hl ha, Env.objType_of_not_var hx]
      rfl
  case bin op a b =>
    obtain ⟨lt, e₁, rt, ha, -⟩ := genExpr_bin h
    obtain ⟨sa, hia, hal⟩ := (hs a (by simp [Node.operands])).infers hl ha
    refine ⟨.int sa.isUnsigned, by simp [inferType, hia], .inl ?_⟩
    rw [hal.isUnsigned_eq]
    exact (binType_of_converted hn).symm
  case unary op a =>
    obtain ⟨s, ha, -⟩ := genExpr_unary h
    obtain ⟨sa, hia, hal⟩ := (hs a (by simp [Node.operands])).infers hl ha
    refine ⟨.int sa.isUnsigned, by simp [inferType, hia], .inl ?_⟩
    rw [hal.isUnsigned_eq]
    exact (unaryType_of_converted hn).symm
  case assign a b =>
    obtain ⟨lt, e₁, rt, ha, -⟩ := genExpr_assign h
    have hn : ((env.objType a (typed env a).own).promote).converted = .int (typed env a).own.isUnsigned := hn
    have hobj : env.objType a (typed env a).own = (typed env a).own := by
      apply Env.objType_eq_own
      intro hv
      rw [hv] at hn
      cases hn
    rw [hobj, CType.converted_promote] at hn
    refine ⟨.int (typed env a).own.isUnsigned, by simp [inferType, (hs a (by simp [Node.operands])).names hl ha], ?_⟩
    simp only [typed, hobj]
    exact CType.alike_of_converted hn
  case logical o a b =>
    obtain ⟨-, lt, e₁, rt, ha, -⟩ := genExpr_logical h
    obtain ⟨sa, hia, hal⟩ := (hs a (by simp [Node.operands])).infers hl ha
    refine ⟨.int sa.isUnsigned, by simp [inferType, hia], .inl ?_⟩
    rw [hal.isUnsigned_eq]
    exact congrArg CType.int hn
  case tern c a b =>
    obtain ⟨ta, tb, hta, htb, rfl, -⟩ := genExpr_tern h
    exact ⟨_, by simp [inferType, hta, htb], .inl (value_step hs hl h)⟩

/-- A node that is read off rightly meets its condition. -/
theorem inferable_step (hs : ∀ c ∈ n.operands, env.Sound c) (hl : env.Later e) (h : genExpr e n = some (t, e')) {s : CType}
    (hi : inferType e n = some s) (hc : s.converted = t.converted) : env.Inferable n := by
  have hval := value_step hs hl h
  -- The operators read the signedness off the left operand, which is read off rightly itself.
  have left : ∀ {a : Node} {r : CType} {e₁ : Env}, a ∈ n.operands → genExpr e a = some (r, e₁) →
      (inferType e a).bind (fun t => some (.int t.isUnsigned)) = some s → env.ReadsLeft n a := by
    intro a r e₁ ha hg hb
    obtain ⟨sa, hia, hal⟩ := (hs a ha).infers hl hg
    rw [hia, Option.bind_some, Option.some.injEq] at hb
    rw [Env.ReadsLeft, ← hval, ← hc, ← hb, CType.converted_int, hal.isUnsigned_eq]
  cases n
  case bin op a b =>
    obtain ⟨lt, e₁, rt, ha, -⟩ := genExpr_bin h
    exact left (by simp [Node.operands]) ha hi
  case unary op a =>
    obtain ⟨r, ha, -⟩ := genExpr_unary h
    exact left (by simp [Node.operands]) ha hi
  case assign a b =>
    obtain ⟨lt, e₁, rt, ha, -⟩ := genExpr_assign h
    obtain ⟨r, ha⟩ := genExpr_of_genAddr ha
    exact left (by simp [Node.operands]) ha hi
  case logical o a b =>
    obtain ⟨-, lt, e₁, rt, ha, -⟩ := genExpr_logical h
    have hr : CType.int false = .int (typed env a).own.isUnsigned := left (by simp [Node.operands]) ha hi
    exact (CType.int.inj hr).symm
  case deref a =>
    rw [genExpr_deref, Option.map_eq_some_iff] at h
    obtain ⟨⟨r, e₂⟩, h, -⟩ := h
    obtain ⟨pt, ha, -⟩ := genAddr_deref h
    obtain ⟨sa, hia, hal⟩ := (hs a (by simp [Node.operands])).infers hl ha
    simp only [inferType, hia, Option.bind_eq_bind, Option.bind_some, hal.ptrBase_eq] at hi
    exact CType.not_isArray_of_ptrBase hi
  case arrow a x =>
    rw [genExpr_arrow, Option.map_eq_some_iff] at h
    obtain ⟨⟨r, e₂⟩, h, -⟩ := h
    obtain ⟨pt, bt, ha, -⟩ := genAddr_arrow h
    obtain ⟨sa, hia, hal⟩ := (hs a (by simp [Node.operands])).infers hl ha
    simp only [inferType, hia, Option.bind_eq_bind, Option.bind_some] at hi
    have hrec := Env.isRecord_of_findField hi
    change (typed env a).own.isArray = false
    rw [← hal.isArray_eq]
    cases sa <;> first | rfl | cases hrec
  case addr a =>
    cases a
    case var x =>
      intro ty f hv hf
      simp only [inferType_addr_var, Env.funcName, hl.findFunc_of_var hv, hf, Option.map_some, Option.some_or,
        Option.some.injEq] at hi
      rw [hval, ← hi] at hc
      simp only [typed, Typed.value, Env.objType, hv, Option.getD_some] at hc
      exact (CType.ptr.inj hc).symm
    all_goals exact trivial
  case call c args =>
    rw [← Option.some.inj hi, hval] at hc
    change (e.retType c.name).converted = _ at hc
    rw [hl.retType_eq] at hc
    simp only [typed] at hc
    simp only [Env.Inferable]
    split
    · next hci => rw [hc, if_pos hci, CType.converted_int]
    · next hci =>
      intro hv
      rw [hv, if_neg hci] at hc
      cases hc
  all_goals exact trivial

end Steps

end MiniOs32
