import MiniOs32.Cc.Integers

/-!
# Integers are typed as in C

Every operator of an integer expression is to have C's type and to be computed in C's signedness. This fails: a literal loses its
suffix, an `unsigned short` is not promoted, and a shift takes the signedness of its count (`int_types_false`). An expression
follows C if and only if the signedness of no operand matters where it is misread (`int_types_iff`), node by node from the leaves.
-/

namespace MiniOs32

section Types

variable {T T₁ : CodeEnv} {op : BinOp} {lt rt t : CType} {zero : Bool} {k : Nat}

/-- A variable counts as unsigned where it is declared `unsigned int` or `unsigned short`. -/
theorem CType.isUnsigned_promote (h : t.isInteger = true) :
      t.promote.isInteger = true ∧ t.promote.decay.promote = t.promote ∧
      t.promote.isUnsigned = (decide (t = .short true) || decide (t = .int true)) := by
  cases t with
  | int u | short u | char u => cases u <;> exact ⟨rfl, rfl, rfl⟩
  | bool => exact ⟨rfl, rfl, rfl⟩
  | _ => cases h

/-- An operator on two integers: their types' signedness decides. -/
theorem genBin_int (hl : lt.isInteger = true) (hr : rt.isInteger = true) (h : genBin op lt rt zero = some t) :
    t = .int (if op.isCmp then false else lt.isUnsigned || rt.isUnsigned) := by
  obtain ⟨hlf, hlp, -⟩ := CType.isInteger_not hl
  obtain ⟨hrf, hrp, -⟩ := CType.isInteger_not hr
  simp only [genBin, hlf, hlp, hrf, hrp] at h
  cases op <;> simp_all [BinOp.isBit, BinOp.isCmp]

end Types

namespace IntExpr

variable {T T' : CodeEnv} {e a b : IntExpr} {t : CType} {c : Code} {k : Nat}

/-- What a declared variable leaves. -/
theorem gen_var {m : GenMode} {x : List Byte} (hd : (var x).Declared T) (hm : m = .value)
    (h : gen { T with labels := k } m (.var x) = some (t, c, T')) :
    t = (varType T x).promote ∧ (varType T x).isInteger = true ∧ T' = { T with labels := k } := by
  subst hm
  obtain ⟨s, hs, ht⟩ := hd
  obtain ⟨-, -, hr, ha⟩ := CType.isInteger_not ht
  have hs' : CodeEnv.findSym { T with labels := k } x = some s := hs
  simp only [gen, hs', GenMode.finish, hr, ha, Bool.or_self, Bool.false_eq_true, if_false, Option.some.injEq, Prod.mk.injEq] at h
  obtain ⟨rfl, -, rfl⟩ := h
  have hv : varType T x = s.type := by simp [varType, hs]
  exact ⟨by rw [hv], by rw [hv]; exact ht, rfl⟩

/-- New labels change nothing but the label counter. -/
theorem targets_tables {m : GenMode} {T₀ : CodeEnv} {l : Nat × Nat} (h : m.targets { T with labels := k } = some (l, T₀)) :
    ∃ k₀, T₀ = { T with labels := k₀ } := by
  cases m with
  | addr => cases h
  | value =>
    cases h
    exact ⟨_, rfl⟩
  | jumps yes no =>
    cases h
    exact ⟨_, rfl⟩

/-- An integer expression leaves a value of an integer type that `promote` keeps, and changes nothing but the label counter. -/
theorem gen_integer {m : GenMode} (hd : e.Declared T) (hm : m = .value ∨ e.node.isLogical = true)
    (h : gen { T with labels := k } m e.node = some (t, c, T')) :
    t.isInteger = true ∧ t.decay.promote = t ∧ ∃ k', T' = { T with labels := k' } := by
  induction e generalizing m k t c T' with
  | lit n =>
    obtain rfl : m = .value := by simpa [node, Node.isLogical] using hm
    cases h
    exact ⟨rfl, rfl, k, rfl⟩
  | var x =>
    obtain rfl : m = .value := by simpa [node, Node.isLogical] using hm
    obtain ⟨rfl, ht, rfl⟩ := gen_var hd rfl h
    exact ⟨(CType.isUnsigned_promote ht).1, (CType.isUnsigned_promote ht).2.1, k, rfl⟩
  | unary op a ih =>
    obtain rfl : m = .value := by simpa [node, Node.isLogical] using hm
    obtain ⟨ta, ca, T₁, ty, ha, hty, hr⟩ := gen_unary_inv h
    obtain ⟨hta, -, k₁, rfl⟩ := ih hd (.inl rfl) ha
    have hf := (CType.isInteger_not hta).1
    cases hr
    cases op <;> simp only [genUnary, hf, Bool.false_eq_true, if_false, Option.some.injEq] at hty <;> subst hty <;>
      exact ⟨rfl, rfl, k₁, rfl⟩
  | bin op a b iha ihb =>
    obtain rfl : m = .value := by simpa [node, Node.isLogical] using hm
    obtain ⟨ta, ca, T₁, tb, cb, T₂, ty, ha, hb, hty, hr⟩ := gen_bin_inv h
    obtain ⟨hta, hpa, k₁, rfl⟩ := iha hd.1 (.inl rfl) ha
    obtain ⟨htb, hpb, k₂, rfl⟩ := ihb hd.2 (.inl rfl) hb
    cases hr
    rw [hpa, hpb] at hty
    rw [genBin_int hta htb hty]
    exact ⟨rfl, rfl, k₂, rfl⟩
  | logical or a b iha ihb =>
    obtain ⟨yes, no, T₀, ta, ca, T₁, tb, cb, T₂, hT, ha, hb, hr⟩ := gen_logical_inv h
    obtain ⟨k₀, rfl⟩ := targets_tables hT
    obtain ⟨-, -, k₁, rfl⟩ := iha hd.1 (by cases hl : a.node.isLogical <;> simp) ha
    obtain ⟨-, -, k₂, rfl⟩ := ihb hd.2 (by cases hl : b.node.isLogical <;> simp) hb
    cases m <;> cases hr <;> exact ⟨rfl, rfl, _, rfl⟩

/-- The signedness an operand's value counts with, once its own node follows C. -/
theorem operand_unsigned (hd : e.Declared T) (hf : e.Follows T) (h : gen { T with labels := k } .value e.node = some (t, c, T')) :
    t.isUnsigned = e.countsUnsigned T := by
  cases e with
  | lit n =>
    cases h
    simp [countsUnsigned, isUShort, isLit, CType.isUnsigned]
  | var x =>
    obtain ⟨rfl, ht, -⟩ := gen_var hd rfl h
    simp [(CType.isUnsigned_promote ht).2.2, countsUnsigned, isUShort, isLit, unsigned]
  | unary op a =>
    rw [hf k t c T' h]
    simp [countsUnsigned, isUShort, isLit, CType.isUnsigned]
  | bin op a b =>
    rw [(hf k t c T' h).1]
    simp [countsUnsigned, isUShort, isLit, CType.isUnsigned]
  | logical or a b =>
    rw [hf k t c T' h]
    simp [countsUnsigned, isUShort, isLit, CType.isUnsigned]

/-- A logical operator yields an `int`. -/
theorem follows_logical (or : Bool) (a b : IntExpr) : (logical or a b).Follows T := by
  intro k t c T' h
  obtain ⟨yes, no, T₀, ta, ca, T₁, tb, cb, T₂, hT, ha, hb, hr⟩ := gen_logical_inv h
  cases hr
  rfl

/-- A unary operator follows C if and only if it keeps the condition, once its operand follows C. -/
theorem follows_unary {op : UnaryOp} (hd : a.Declared T) (ha : a.Follows T)
    (hg : gen { T with labels := k } .value (unary op a).node = some (t, c, T')) : (unary op a).Follows T ↔ (unary op a).Kept T := by
  have htype : ∀ k t c T', gen { T with labels := k } .value (unary op a).node = some (t, c, T') →
      t = .int (if op = .not then false else a.countsUnsigned T) := by
    intro k t c T' h
    obtain ⟨ta, ca, T₁, ty, hga, hty, hr⟩ := gen_unary_inv h
    have hta := (gen_integer hd (.inl rfl) hga).1
    have hu := operand_unsigned hd ha hga
    have hf := (CType.isInteger_not hta).1
    cases hr
    cases op <;> simp_all [genUnary]
  constructor
  · intro hfol
    have h1 := htype k t c T' hg
    have h2 := hfol k t c T' hg
    rw [h1] at h2
    cases op <;> simp_all [Kept, unsigned]
  · intro hk k t c T' h
    rw [htype k t c T' h]
    cases op <;> simp_all [Kept, unsigned]

/-- The form of a comparison tells the two signednesses apart, unless it is one of equality. -/
theorem intOp_injective {op : BinOp} {u v : Bool} (hop : op.isCmp = true) (h : intOp op u = intOp op v) :
    op = .eq ∨ op = .ne ∨ u = v := by
  cases op <;> cases u <;> cases v <;> simp_all [BinOp.isCmp, intOp, BinOp.cond]

/-- The operation can be read off the end of the code. -/
theorem intOp_of_code {op : BinOp} {u v : Bool} {o₁ o₂ : Code}
    (h : o₁ ++ ops (popBoth ++ intOp op u ++ pushEax) = o₂ ++ ops (popBoth ++ intOp op v ++ pushEax)) :
    intOp op u = intOp op v := by
  have hlen : (intOp op u).length = (intOp op v).length := by cases op <;> cases u <;> cases v <;> rfl
  have hops := List.append_inj_right' h (by simp [ops, hlen])
  have hall : popBoth ++ intOp op u ++ pushEax = popBoth ++ intOp op v ++ pushEax :=
    List.map_injective_iff.mpr (fun _ _ he => Item.op.inj he) hops
  exact List.append_cancel_left (List.append_cancel_right hall)

theorem unsigned_bin (T : CodeEnv) (op : BinOp) (a b : IntExpr) :
    (bin op a b).unsigned T = if op.isCmp then false else computesUnsigned T op a b := by
  cases op <;> rfl

/-- A binary operator follows C if and only if it keeps the condition, once its operands follow C. -/
theorem follows_bin {op : BinOp} (hd : (bin op a b).Declared T) (ha : a.Follows T) (hb : b.Follows T)
    (hg : gen { T with labels := k } .value (bin op a b).node = some (t, c, T')) : (bin op a b).Follows T ↔ (bin op a b).Kept T := by
  have htype : ∀ k t c T', gen { T with labels := k } .value (bin op a b).node = some (t, c, T') →
      t = .int (if op.isCmp then false else a.countsUnsigned T || b.countsUnsigned T) ∧
        ∃ operands, c = operands ++ ops (popBoth ++ intOp op (a.countsUnsigned T || b.countsUnsigned T) ++ pushEax) := by
    intro k t c T' h
    obtain ⟨ta, ca, T₁, tb, cb, T₂, ty, hga, hgb, hty, hr⟩ := gen_bin_inv h
    obtain ⟨hta, hpa, k₁, rfl⟩ := gen_integer hd.1 (.inl rfl) hga
    obtain ⟨htb, hpb, k₂, rfl⟩ := gen_integer hd.2 (.inl rfl) hgb
    have hua := operand_unsigned hd.1 ha hga
    have hub := operand_unsigned hd.2 hb hgb
    cases hr
    rw [hpa, hpb] at hty ⊢
    rw [genBin_int hta htb hty, binCode_int hta htb, hua, hub]
    exact ⟨rfl, ca ++ cb, rfl⟩
  constructor
  · intro hfol
    obtain ⟨h1, o1, hc1⟩ := htype k t c T' hg
    obtain ⟨h2, o2, hc2⟩ := hfol k t c T' hg
    cases hop : op.isCmp with
    | true => exact intOp_injective hop (intOp_of_code (hc1.symm.trans hc2))
    | false =>
      rw [h1, unsigned_bin, hop] at h2
      exact .inr (.inr (CType.int.inj h2))
  · intro hk k t c T' h
    obtain ⟨h1, o1, hc1⟩ := htype k t c T' h
    rw [unsigned_bin, h1, hc1]
    rcases hk with rfl | rfl | hk
    · exact ⟨rfl, o1, rfl⟩
    · exact ⟨rfl, o1, rfl⟩
    · rw [hk]
      exact ⟨rfl, o1, rfl⟩

/-- By induction on the tree: below each node both sides are the same, and at the node its operands follow C. -/
theorem follows_iff_kept {m : GenMode} (hd : e.Declared T) (hm : m = .value ∨ e.node.isLogical = true)
    (h : gen { T with labels := k } m e.node = some (t, c, T')) : (∀ e' ∈ e.subs, e'.Follows T) ↔ ∀ e' ∈ e.subs, e'.Kept T := by
  induction e generalizing m k t c T' with
  | lit n | var x => simp [subs, Follows, Kept]
  | unary op a ih =>
    obtain rfl : m = .value := by simpa [node, Node.isLogical] using hm
    obtain ⟨ta, ca, T₁, ty, ha, -, -⟩ := gen_unary_inv h
    simp only [subs, List.forall_mem_cons]
    rw [ih hd (.inl rfl) ha]
    refine and_congr_left fun hk => follows_unary hd ?_ h
    exact (ih hd (.inl rfl) ha).mpr hk a a.self_mem_subs
  | bin op a b iha ihb =>
    obtain rfl : m = .value := by simpa [node, Node.isLogical] using hm
    obtain ⟨ta, ca, T₁, tb, cb, T₂, ty, ha, hb, -, -⟩ := gen_bin_inv h
    obtain ⟨-, -, k₁, rfl⟩ := gen_integer hd.1 (.inl rfl) ha
    have ia := iha hd.1 (.inl rfl) ha
    have ib := ihb hd.2 (.inl rfl) hb
    simp only [subs, List.forall_mem_cons, List.forall_mem_append]
    rw [ia, ib]
    refine and_congr_left fun hk => follows_bin hd ?_ ?_ h
    · exact ia.mpr hk.1 a a.self_mem_subs
    · exact ib.mpr hk.2 b b.self_mem_subs
  | logical or a b iha ihb =>
    obtain ⟨yes, no, T₀, ta, ca, T₁, tb, cb, T₂, hT, ha, hb, -⟩ := gen_logical_inv h
    obtain ⟨k₀, rfl⟩ := targets_tables hT
    obtain ⟨-, -, k₁, rfl⟩ := gen_integer hd.1 (by cases hl : a.node.isLogical <;> simp) ha
    have ia := iha hd.1 (by cases hl : a.node.isLogical <;> simp) ha
    have ib := ihb hd.2 (by cases hl : b.node.isLogical <;> simp) hb
    simp only [subs, List.forall_mem_cons, List.forall_mem_append]
    rw [ia, ib]
    exact and_congr_left fun _ => iff_of_true (follows_logical or a b) trivial

end IntExpr

open IntExpr

/-- The operators of an integer expression that `cc` compiles all follow C if and only if each keeps the condition. -/
theorem int_types_iff (T : CodeEnv) (e : IntExpr) (hd : e.Declared T) (hg : (gen T .value e.node).isSome) :
    (∀ e' ∈ e.subs, e'.Follows T) ↔ ∀ e' ∈ e.subs, e'.Kept T := by
  obtain ⟨⟨t, c, T'⟩, hg⟩ := Option.isSome_iff_exists.mp hg
  exact follows_iff_kept hd (.inl rfl) hg

/-- Variables `int i` and `unsigned short us`. -/
def intVars : CodeEnv :=
  ⟨[], [⟨asciiBytes "i", .int false, .frame (-4#32)⟩, ⟨asciiBytes "us", .short true, .frame (-8#32)⟩], [], [], 0, 0⟩

/-- `i * 2 < i + i`. -/
def signedCompare : IntExpr :=
  let i : IntExpr := .var (asciiBytes "i")
  .bin .lt (.bin .mul i (.lit ⟨2#32, false, false, .inr (.inr rfl)⟩)) (.bin .add i i)

theorem int_types_iff_signed : signedCompare.Declared intVars ∧ ∀ e ∈ signedCompare.subs, e.Follows intVars := by
  have hi : (IntExpr.var (asciiBytes "i")).Declared intVars := ⟨_, rfl, rfl⟩
  have hd : signedCompare.Declared intVars := ⟨⟨hi, trivial⟩, hi, hi⟩
  exact ⟨hd, (int_types_iff intVars signedCompare hd (by decide)).mpr (by decide)⟩

/-- `us / -1` with an `unsigned short us`, an `int` in C, is divided unsigned. -/
theorem int_types_false : ¬∀ (T : CodeEnv) (e : IntExpr), e.Declared T → (gen T .value e.node).isSome → ∀ e' ∈ e.subs, e'.Follows T := by
  intro h
  have hf := h intVars (.bin .div (.var (asciiBytes "us")) (.unary .neg (.lit ⟨1#32, false, false, .inr (.inr rfl)⟩)))
    ⟨⟨_, rfl, rfl⟩, trivial⟩ (by decide) _ (self_mem_subs _)
  obtain ⟨ht, -⟩ := hf 0 _ _ _ rfl
  exact absurd ht (by decide)

end MiniOs32
