import MiniOs32.Lemmas.ConstCode

/-!
# Constants folded and generated

Where a constant is needed the compiler folds the expression itself; elsewhere it generates code for the same tree. The two agree
on an expression and all it comes to if and only if nothing is lost by what folding passes over: casts, unsigned operands, and the
one division that overflows (`constant_folding_iff`). `(char)300` is folded to 300 (`constant_folding_false`).
-/

namespace MiniOs32

/-- The code of an expression leaves a word on the stack. -/
def Node.CodeLeaves {F : Type} (w : World F) (e : Node) (v : U32) : Prop :=
  ∀ (T : CodeEnv) (t : CType) (c : Code) (T' : CodeEnv), gen T .value e = some (t, c, T') →
    ∀ s : Cpu F, ∃ s', (machine w).Runs c (c, s) ([], s') ∧ s'.top = v ∧ s'.regs .esp = s.regs .esp - 4#32

/-- Folding does not trap, and a value it gives is the word the code leaves. -/
def FoldAgrees {F : Type} (w : World F) (e : Node) : Prop :=
  evalConst e ≠ .trap ∧ ∀ v, evalConst e = .value v → e.CodeLeaves w v

/-- A meaning as the outcome of folding. -/
def FoldResult.ofWord : Option U32 → FoldResult
  | some v => .value v
  | none => .refused

/-- What folding says of an expression is no other word than it means. -/
def Node.FoldSound (e : Node) : Prop := evalConst e ≠ .trap ∧ ∀ v v', evalConst e = .value v → e.word = some v' → v = v'

section Folding

variable {F : Type} {w : World F} {e e' : Node} {op : BinOp} {uns : Bool} {x y : U32}

theorem boolWord_inj {a b : Bool} : boolWord a = boolWord b ↔ a = b := by
  cases a <;> cases b <;> simp [boolWord]

theorem slt_eq_ult_iff : x.slt y = x.ult y ↔ x.msb = y.msb := by
  rw [BitVec.slt_eq_ult]
  cases x.msb <;> cases y.msb <;> cases x.ult y <;> simp

theorem sle_eq_ule_iff : x.sle y = x.ule y ↔ x.msb = y.msb := by
  rw [BitVec.sle_eq_not_slt, BitVec.ule_eq_not_ult, Bool.not_inj_iff, slt_eq_ult_iff, eq_comm]

/-- A word is shifted alike with and without its sign where it has none, or where it is not shifted. -/
theorem sshiftRight_eq_iff (x : U32) (n : Nat) : x.sshiftRight n = x >>> n ↔ x.msb = false ∨ n = 0 := by
  constructor
  · intro h
    have hm := congrArg BitVec.msb h
    rw [BitVec.msb_sshiftRight, BitVec.msb_ushiftRight] at hm
    cases hx : x.msb with
    | false => exact .inl rfl
    | true =>
      rw [hx] at hm
      exact .inr (by simpa using hm)
  · rintro (h | rfl)
    · rw [BitVec.sshiftRight_eq_of_msb_false h]
    · simp

/-- Quotients and remainders agree where they do not overflow and their signed and unsigned forms do not differ. -/
theorem foldDiv_eq_iff (q qs : U32) :
    foldDiv qs x y = .ofWord (divWord uns q qs x y) ↔ (uns = true → y ≠ 0#32 → qs = q) ∧ ¬(x = intMin ∧ y = -1#32) := by
  unfold foldDiv divWord
  by_cases hy : y = 0#32
  · subst hy
    simp [FoldResult.ofWord]
  · by_cases hm : x = intMin ∧ y = -1#32
    · simp only [if_neg hy, if_pos hm]
      refine ⟨fun h => ?_, fun h => absurd hm h.2⟩
      cases uns <;> simp [FoldResult.ofWord] at h
    · simp only [if_neg hy, if_neg hm]
      rw [and_iff_left hm]
      cases uns <;> simp [FoldResult.ofWord, hy]

/-- An operator is folded to what it means if and only if its form does not matter and it does not overflow. -/
theorem fold_eq_iff (op : BinOp) (uns : Bool) (x y : U32) : op.fold x y = .ofWord (op.word uns x y) ↔
    (uns = true → op.SignBlind x y) ∧ (op = .div ∨ op = .mod → ¬(x = intMin ∧ y = -1#32)) := by
  cases op with
  | div => simp only [BinOp.fold, BinOp.word, foldDiv_eq_iff, BinOp.SignBlind, true_or, true_implies]
  | mod => simp only [BinOp.fold, BinOp.word, foldDiv_eq_iff, BinOp.SignBlind, or_true, true_implies]
  | shr => cases uns <;> simp [BinOp.fold, BinOp.word, FoldResult.ofWord, BinOp.SignBlind, sshiftRight_eq_iff]
  | lt => cases uns <;> simp [BinOp.fold, BinOp.word, FoldResult.ofWord, BinOp.SignBlind, boolWord_inj, slt_eq_ult_iff]
  | le => cases uns <;> simp [BinOp.fold, BinOp.word, FoldResult.ofWord, BinOp.SignBlind, boolWord_inj, sle_eq_ule_iff]
  | gt => cases uns <;> simp [BinOp.fold, BinOp.word, FoldResult.ofWord, BinOp.SignBlind, boolWord_inj, slt_eq_ult_iff, eq_comm]
  | ge => cases uns <;> simp [BinOp.fold, BinOp.word, FoldResult.ofWord, BinOp.SignBlind, boolWord_inj, sle_eq_ule_iff, eq_comm]
  | _ => simp [BinOp.fold, BinOp.word, FoldResult.ofWord, BinOp.SignBlind]

/-- What folding passes over does not matter anywhere: the expression is folded to what it means. -/
theorem evalConst_of_plain (he : e.isConst = true) (h : ∀ e' ∈ e.reached, e'.Plain) : evalConst e = .ofWord e.word := by
  induction e using Node.isConst.induct with
  | case1 v => rfl
  | case2 ty a ih =>
    obtain ⟨hty, ha⟩ := Bool.and_eq_true_iff.mp he
    rw [Node.reached_cast, List.forall_mem_cons] at h
    have hi := ih ha h.2
    rw [evalConst, Node.word, hi]
    cases hw : a.word with
    | none => rfl
    | some v =>
      have hr := h.1 v hw
      simp only [Option.map_some, FoldResult.ofWord]
      congr 1
      exact ((convert_eq_of_inRange hty).mp hr).symm
  | case3 op a ih =>
    rw [Node.reached_unary, List.forall_mem_cons] at h
    rw [evalConst, Node.word, ih he h.2]
    cases a.word <;> rfl
  | case4 c a b ihc iha ihb =>
    rw [Node.isConst_tern] at he
    rw [Node.reached_tern, List.forall_mem_cons, List.forall_mem_append] at h
    rw [evalConst, Node.word, ihc he.1.1 h.2.1]
    cases hw : c.word with
    | none => rfl
    | some v =>
      have h₂ := h.2.2
      simp only [hw] at h₂
      by_cases h0 : v = 0#32
      · rw [if_neg (by simp [h0])] at h₂
        simpa [FoldResult.ofWord, FoldResult.bind, h0] using ihb he.2 h₂
      · rw [if_pos h0] at h₂
        simpa [FoldResult.ofWord, FoldResult.bind, h0] using iha he.1.2 h₂
  | case5 or a b iha ihb =>
    rw [Node.isConst_logical] at he
    rw [Node.reached_logical, List.forall_mem_cons, List.forall_mem_append] at h
    rw [evalConst, Node.word, iha he.1 h.2.1]
    cases hw : a.word with
    | none => rfl
    | some x =>
      have h₂ := h.2.2
      simp only [hw] at h₂
      by_cases hd : decide (x = 0#32) = or
      · rw [if_pos hd] at h₂
        have hb := ihb he.2 h₂
        have h₁ : ¬(or = false ∧ x = 0#32) := by
          rintro ⟨rfl, h0⟩
          simp [h0] at hd
        have h₃ : ¬(or = true ∧ x ≠ 0#32) := by
          rintro ⟨rfl, h0⟩
          simp [h0] at hd
        simp only [FoldResult.ofWord, FoldResult.bind, Option.bind_some, if_neg h₁, if_neg h₃, if_pos hd, hb]
        cases b.word <;> rfl
      · cases or with
        | false =>
          have h0 : x = 0#32 := by simpa using hd
          simp [FoldResult.ofWord, FoldResult.bind, h0, boolWord]
        | true =>
          have h0 : x ≠ 0#32 := by simpa using hd
          simp [FoldResult.ofWord, FoldResult.bind, h0, boolWord]
  | case6 op a b iha ihb =>
    rw [Node.isConst_bin] at he
    rw [Node.reached_bin, List.forall_mem_cons, List.forall_mem_append] at h
    rw [evalConst, Node.word, iha he.1.1 h.2.1]
    cases hw : a.word with
    | none => rfl
    | some x =>
      have h₂ := h.2.2
      simp only [hw] at h₂
      simp only [FoldResult.ofWord, FoldResult.bind, Option.bind_some, ihb he.1.2 h₂]
      cases hwb : b.word with
      | none => rfl
      | some y => exact (fold_eq_iff op _ x y).mpr (h.1 x y hw hwb)
  | case7 e => simp [Node.isConst] at he

/-- Where folding an operator does not trap, it has a value where the operator has one. -/
theorem foldDiv_cases (q qs : U32) (h : foldDiv qs x y ≠ .trap) :
    foldDiv qs x y = .refused ∧ divWord uns q qs x y = none ∨
      ∃ v v', foldDiv qs x y = .value v ∧ divWord uns q qs x y = some v' := by
  unfold foldDiv divWord at *
  by_cases hy : y = 0#32
  · exact .inl (by simp only [if_pos hy, and_self])
  · by_cases hm : x = intMin ∧ y = -1#32
    · simp only [if_neg hy, if_pos hm, ne_eq, not_true_eq_false] at h
    · refine .inr ⟨qs, if uns then q else qs, ?_⟩
      simp only [if_neg hy, if_neg hm, true_and]
      cases uns <;> rfl

theorem fold_cases (op : BinOp) (uns : Bool) (h : op.fold x y ≠ .trap) :
    op.fold x y = .refused ∧ op.word uns x y = none ∨ ∃ v v', op.fold x y = .value v ∧ op.word uns x y = some v' := by
  cases op with
  | div => exact foldDiv_cases _ _ h
  | mod => exact foldDiv_cases _ _ h
  | _ => exact .inr ⟨_, _, rfl, rfl⟩

/-- Where folding is sound on all an expression comes to, nothing that it passes over matters there. -/
theorem plain_of_sound (he : e.isConst = true) (h : ∀ e' ∈ e.reached, e'.FoldSound) : ∀ e' ∈ e.reached, e'.Plain := by
  induction e using Node.isConst.induct with
  | case1 v => simp [Node.reached, Node.Plain]
  | case2 ty a ih =>
    obtain ⟨hty, ha⟩ := Bool.and_eq_true_iff.mp he
    rw [Node.reached_cast, List.forall_mem_cons] at h ⊢
    have hp := ih ha h.2
    refine ⟨fun v hv => ?_, hp⟩
    have hf : evalConst (.cast ty a) = .value v := by rw [evalConst, evalConst_of_plain ha hp, hv, FoldResult.ofWord]
    have hw : (Node.cast ty a).word = some (ty.convert v) := by rw [Node.word, hv, Option.map_some]
    exact (convert_eq_of_inRange hty).mpr (h.1.2 _ _ hf hw).symm
  | case3 op a ih =>
    rw [Node.reached_unary, List.forall_mem_cons] at h ⊢
    exact ⟨trivial, ih he h.2⟩
  | case4 c a b ihc iha ihb =>
    rw [Node.isConst_tern] at he
    rw [Node.reached_tern, List.forall_mem_cons, List.forall_mem_append] at h ⊢
    refine ⟨trivial, ihc he.1.1 h.2.1, ?_⟩
    have h₂ := h.2.2
    cases hw : c.word with
    | none => simp
    | some v =>
      simp only [hw] at h₂ ⊢
      by_cases h0 : v = 0#32
      · rw [if_neg (by simp [h0])] at h₂ ⊢
        exact ihb he.2 h₂
      · rw [if_pos h0] at h₂ ⊢
        exact iha he.1.2 h₂
  | case5 or a b iha ihb =>
    rw [Node.isConst_logical] at he
    rw [Node.reached_logical, List.forall_mem_cons, List.forall_mem_append] at h ⊢
    refine ⟨trivial, iha he.1 h.2.1, ?_⟩
    have h₂ := h.2.2
    cases hw : a.word with
    | none => simp
    | some x =>
      simp only [hw] at h₂ ⊢
      by_cases hd : decide (x = 0#32) = or
      · rw [if_pos hd] at h₂ ⊢
        exact ihb he.2 h₂
      · rw [if_neg hd]
        simp
  | case6 op a b iha ihb =>
    rw [Node.isConst_bin] at he
    rw [Node.reached_bin, List.forall_mem_cons, List.forall_mem_append] at h ⊢
    have hpa := iha he.1.1 h.2.1
    have h₂ := h.2.2
    cases hw : a.word with
    | none => exact ⟨fun x y hx => by simp [hw] at hx, hpa, by simp⟩
    | some x =>
      simp only [hw] at h₂ ⊢
      have hpb := ihb he.1.2 h₂
      refine ⟨fun x' y hx hy => ?_, hpa, hpb⟩
      cases hw.symm.trans hx
      have hf : evalConst (.bin op a b) = op.fold x y := by
        rw [evalConst, evalConst_of_plain he.1.1 hpa, evalConst_of_plain he.1.2 hpb, hw, hy]
        rfl
      have hm : (Node.bin op a b).word = op.word (isUnsignedPair a.constType b.constType) x y := by
        rw [Node.word, hw, hy]
        rfl
      rw [← fold_eq_iff]
      obtain ⟨h₁, h₃⟩ := h.1
      rw [hf] at h₁ h₃
      rcases fold_cases op (isUnsignedPair a.constType b.constType) h₁ with ⟨hr, hn⟩ | ⟨v, v', hv, hv'⟩
      · rw [hr, hn, FoldResult.ofWord]
      · rw [hv, hv', h₃ v v' hv (hm.trans hv'), FoldResult.ofWord]
  | case7 e => simp [Node.isConst] at he

/-- What an expression comes to is a constant expression, no greater, and comes to no more. -/
theorem reached_const (he : e.isConst = true) (h : e' ∈ e.reached) :
    e'.isConst = true ∧ e'.count ≤ e.count ∧ ∀ e'' ∈ e'.reached, e'' ∈ e.reached := by
  induction e using Node.isConst.induct with
  | case1 v =>
    cases List.mem_singleton.mp h
    exact ⟨he, le_rfl, fun _ h => h⟩
  | case2 ty a ih =>
    rcases List.mem_cons.mp h with rfl | ha
    · exact ⟨he, le_rfl, fun _ h => h⟩
    · obtain ⟨h₁, h₂, h₃⟩ := ih (Bool.and_eq_true_iff.mp he).2 ha
      exact ⟨h₁, by simp only [Node.count]; omega, fun x hx => List.mem_cons_of_mem _ (h₃ x hx)⟩
  | case3 op a ih =>
    rcases List.mem_cons.mp h with rfl | ha
    · exact ⟨he, le_rfl, fun _ h => h⟩
    · obtain ⟨h₁, h₂, h₃⟩ := ih he ha
      exact ⟨h₁, by simp only [Node.count]; omega, fun x hx => List.mem_cons_of_mem _ (h₃ x hx)⟩
  | case4 c a b ihc iha ihb =>
    have hc := he
    rw [Node.isConst_tern] at hc
    rw [Node.reached_tern] at h ⊢
    rcases List.mem_cons.mp h with rfl | h
    · exact ⟨he, le_rfl, fun _ h => h⟩
    · rcases List.mem_append.mp h with h | h
      · obtain ⟨h₁, h₂, h₃⟩ := ihc hc.1.1 h
        exact ⟨h₁, by simp only [Node.count]; omega, fun x hx => by simp [h₃ x hx]⟩
      · cases hw : c.word with
        | none => simp [hw] at h
        | some v =>
          simp only [hw] at h ⊢
          by_cases h0 : v = 0#32
          · rw [if_neg (by simp [h0])] at h ⊢
            obtain ⟨h₁, h₂, h₃⟩ := ihb hc.2 h
            exact ⟨h₁, by simp only [Node.count]; omega, fun x hx => by simp [h₃ x hx]⟩
          · rw [if_pos h0] at h ⊢
            obtain ⟨h₁, h₂, h₃⟩ := iha hc.1.2 h
            exact ⟨h₁, by simp only [Node.count]; omega, fun x hx => by simp [h₃ x hx]⟩
  | case5 or a b iha ihb =>
    have hc := he
    rw [Node.isConst_logical] at hc
    rw [Node.reached_logical] at h ⊢
    rcases List.mem_cons.mp h with rfl | h
    · exact ⟨he, le_rfl, fun _ h => h⟩
    · rcases List.mem_append.mp h with h | h
      · obtain ⟨h₁, h₂, h₃⟩ := iha hc.1 h
        exact ⟨h₁, by simp only [Node.count]; omega, fun x hx => by simp [h₃ x hx]⟩
      · cases hw : a.word with
        | none => simp [hw] at h
        | some x =>
          simp only [hw] at h ⊢
          by_cases hd : decide (x = 0#32) = or
          · rw [if_pos hd] at h ⊢
            obtain ⟨h₁, h₂, h₃⟩ := ihb hc.2 h
            exact ⟨h₁, by simp only [Node.count]; omega, fun y hy => by simp [h₃ y hy]⟩
          · simp [hd] at h
  | case6 op a b iha ihb =>
    have hc := he
    rw [Node.isConst_bin] at hc
    rw [Node.reached_bin] at h ⊢
    rcases List.mem_cons.mp h with rfl | h
    · exact ⟨he, le_rfl, fun _ h => h⟩
    · rcases List.mem_append.mp h with h | h
      · obtain ⟨h₁, h₂, h₃⟩ := iha hc.1.1 h
        exact ⟨h₁, by simp only [Node.count]; omega, fun x hx => by simp [h₃ x hx]⟩
      · cases hw : a.word with
        | none => simp [hw] at h
        | some x =>
          simp only [hw] at h ⊢
          obtain ⟨h₁, h₂, h₃⟩ := ihb hc.1.2 h
          exact ⟨h₁, by simp only [Node.count]; omega, fun y hy => by simp [h₃ y hy]⟩
  | case7 e => simp [Node.isConst] at he

/-- The code of a constant expression leaves the word it means. -/
theorem codeLeaves_word (w : World F) (he : e.isConst = true) (hc : e.count ≤ maxNode) {v : U32} (hv : e.word = some v) :
    e.CodeLeaves w v := by
  intro T t c T' hg s
  obtain ⟨c', T'', h⟩ := (constCode w e he hc).1 T
  cases hg.symm.trans h.gen
  obtain ⟨s', hr, hl⟩ := h.runs c [] [] s v (by simp) h.labels.2.2 hv
  exact ⟨s', by simpa using hr, hl.top, hl.esp⟩

/-- The code leaves one word only. -/
theorem codeLeaves_inj (he : e.isConst = true) (hc : e.count ≤ maxNode) {v v' : U32} (h : e.CodeLeaves w v) (h' : e.CodeLeaves w v') :
    v = v' := by
  obtain ⟨c, T', hcode⟩ := (constCode w e he hc).1 ⟨[], [], [], [], 0, 0⟩
  obtain ⟨s₁, hr₁, ht₁, -⟩ := h _ _ _ _ hcode.gen (Cpu.blank F)
  obtain ⟨s₂, hr₂, ht₂, -⟩ := h' _ _ _ _ hcode.gen (Cpu.blank F)
  rw [← ht₁, ← ht₂, hr₁.det hr₂]

end Folding

/-- Folding agrees with the code on an expression and all it comes to, if and only if nothing there depends on what it passes over. -/
theorem constant_folding_iff {F : Type} (w : World F) (e : Node) (he : e.isConst = true) (hc : e.count ≤ maxNode) :
    (∀ e' ∈ e.reached, FoldAgrees w e') ↔ ∀ e' ∈ e.reached, e'.Plain := by
  constructor
  · intro h
    refine plain_of_sound he fun e' hm => ⟨(h e' hm).1, fun v v' hv hw => ?_⟩
    obtain ⟨hc', hn, -⟩ := reached_const he hm
    exact codeLeaves_inj hc' (hn.trans hc) ((h e' hm).2 v hv) (codeLeaves_word w hc' (hn.trans hc) hw)
  · intro h e' hm
    obtain ⟨hc', hn, hsub⟩ := reached_const he hm
    have hf := evalConst_of_plain hc' fun e'' hm' => h e'' (hsub e'' hm')
    unfold FoldAgrees
    rw [hf]
    cases hw : e'.word with
    | none => exact ⟨by simp [FoldResult.ofWord], by simp [FoldResult.ofWord]⟩
    | some v =>
      refine ⟨by simp [FoldResult.ofWord], fun x hx => ?_⟩
      cases hx
      exact codeLeaves_word w hc' (hn.trans hc) hw

theorem constant_folding_iff_cast :
    (Node.cast (.char false) (.num 44#32)).isConst = true ∧ (Node.cast (.char false) (.num 44#32)).count ≤ maxNode ∧
      ((∀ e' ∈ (Node.cast (.char false) (.num 44#32)).reached, FoldAgrees bareWorld e') ↔
        ∀ e' ∈ (Node.cast (.char false) (.num 44#32)).reached, e'.Plain) :=
  ⟨rfl, by decide, constant_folding_iff bareWorld _ rfl (by decide)⟩

/-- `(char)300` is folded to 300, and its code leaves 44. -/
theorem constant_folding_false : ¬∀ e : Node, e.isConst = true → e.count ≤ maxNode → FoldAgrees bareWorld e := by
  intro h
  have hc := (h (.cast (.char false) (.num 300#32)) rfl (by decide)).2 300#32 rfl
  have hw := codeLeaves_word (e := .cast (.char false) (.num 300#32)) bareWorld rfl (by decide) (v := 44#32) (by decide)
  exact absurd (codeLeaves_inj rfl (by decide) hc hw) (by decide)

end MiniOs32
