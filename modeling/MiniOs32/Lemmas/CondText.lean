import MiniOs32.Cc.Condition

/-!
# Reading the text of a condition

What the parsers of the preprocessor do at the start of a token, rule by rule: a level reads its first operand and runs its loop,
the loop goes on when one of its operators follows and stops when none does. `LevelReads`, `LoopReads` and `LorReads` say that a
parser returns a value and the text behind it, from some bound on.
-/

namespace MiniOs32

/-! ## Spaces and tokens -/

theorem ppExprSkip_append (sp : Spaces) (p : List Byte) : ppExprSkip (sp.val ++ p) = ppExprSkip p :=
  List.dropWhile_append_of_pos sp.property

theorem ppExprSkip_of_head {p : List Byte} (h : ppIsSpace (p.headD 0#8) = false) : ppExprSkip p = p := by
  cases p with
  | nil => rfl
  | cons c p => exact List.dropWhile_cons_of_neg (by simpa using h)

@[simp] theorem ppExprSkip_skip (p : List Byte) : ppExprSkip (ppExprSkip p) = ppExprSkip p :=
  List.dropWhile_idempotent ppIsSpace p

/-- No name and no number goes on at this text. -/
def TokenEnd (p : List Byte) : Prop := ppIsAlnum (p.headD 0#8) = false

theorem TokenEnd.spaces (sp : Spaces) {p : List Byte} (h : TokenEnd p) : TokenEnd (sp.val ++ p) := by
  obtain ⟨s, hs⟩ := sp
  cases s with
  | nil => exact h
  | cons c s =>
    have hc : ppIsSpace c = true := hs c List.mem_cons_self
    have hall : ∀ c : Byte, ppIsSpace c = true → ppIsAlnum c = false := by decide
    exact hall c hc

/-- A name of at most 31 characters is read whole. -/
theorem ppReadName_append {id p : List Byte} (hid : ∀ c ∈ id, ppIsAlnum c = true) (hlen : id.length ≤ 31) (hp : TokenEnd p) :
    ppReadName (id ++ p) = id := by
  unfold ppReadName
  rw [List.take_append, List.takeWhile_append_of_pos (fun c hc => hid c (List.mem_of_mem_take hc)), List.take_of_length_le hlen]
  have : ((p.take (31 - id.length)).takeWhile ppIsAlnum) = [] := by
    cases hq : p.take (31 - id.length) with
    | nil => rfl
    | cons c q =>
      have hc : p.headD 0#8 = c := by
        cases p with
        | nil => simp at hq
        | cons d p =>
          cases h31 : 31 - id.length with
          | zero => simp [h31] at hq
          | succ m =>
            rw [h31, List.take_succ_cons] at hq
            exact (List.cons.inj hq).1
      rw [TokenEnd, hc] at hp
      exact List.takeWhile_cons_of_neg (by simp [hp])
  rw [this, List.append_nil]

/-! ## Numbers -/

theorem ppDecimal_append (ds : List Byte) (hds : ∀ c ∈ ds, ppIsDigit c = true) {p : List Byte} (hp : TokenEnd p) :
    ∀ v : Nat, ppDecimal (BitVec.ofNat 32 v) (ds ++ p) =
      (BitVec.ofNat 32 (ds.foldl (fun v c => v * 10 + (c.toNat - 48)) v), p) := by
  induction ds with
  | nil =>
    intro v
    cases p with
    | nil => rfl
    | cons c p =>
      have hc : ppIsDigit c = false := by
        have : (ppIsAlpha c || ppIsDigit c) = false := hp
        exact (Bool.or_eq_false_iff.1 this).2
      rw [List.nil_append, ppDecimal, hc]
      rfl
  | cons c ds ih =>
    intro v
    have hc := hds c List.mem_cons_self
    have hdigit : ∀ c : Byte, ppIsDigit c = true → ((c - Char.byte '0').setWidth 32 : U32) = BitVec.ofNat 32 (c.toNat - 48) := by
      decide
    rw [List.cons_append, ppDecimal, if_pos hc, hdigit c hc, List.foldl_cons,
      ← ih (fun d hd => hds d (List.mem_cons_of_mem c hd))]
    congr 1
    apply BitVec.eq_of_toNat_eq
    simp [BitVec.toNat_add, BitVec.toNat_mul]

theorem ppHex_append (ds : List Byte) (hds : ∀ c ∈ ds, (ppHexDigit c).isSome = true) {p : List Byte} (hp : TokenEnd p) :
    ∀ v : Nat, ppHex (BitVec.ofNat 32 v) (ds ++ p) =
      (BitVec.ofNat 32 (ds.foldl (fun v c => v * 16 + ((ppHexDigit c).getD 0#8).toNat) v), p) := by
  induction ds with
  | nil =>
    intro v
    cases p with
    | nil => rfl
    | cons c p =>
      have hall : ∀ c : Byte, ppIsAlnum c = false → ppHexDigit c = none := by decide
      have hc : ppHexDigit c = none := hall c hp
      rw [List.nil_append, ppHex, hc]
      rfl
  | cons c ds ih =>
    intro v
    obtain ⟨hv, hhv⟩ := Option.isSome_iff_exists.1 (hds c List.mem_cons_self)
    rw [List.cons_append, ppHex, hhv, List.foldl_cons, hhv, ← ih (fun d hd => hds d (List.mem_cons_of_mem c hd))]
    dsimp only [Option.getD_some]
    congr 1
    apply BitVec.eq_of_toNat_eq
    simp [BitVec.toNat_add, BitVec.toNat_shiftLeft, Nat.shiftLeft_eq]

theorem CLiteral.head_digit (lit : CLiteral) (p : List Byte) : ppIsDigit ((lit.text ++ p).headD 0#8) = true := by
  cases lit with
  | dec digits ne ok lead =>
    obtain ⟨c, ds, rfl⟩ := List.exists_cons_of_ne_nil ne
    exact ok c List.mem_cons_self
  | hex upperX digits ne ok => rfl

theorem ppUnsigned_literal (lit : CLiteral) {p : List Byte} (hp : TokenEnd p) :
    ppUnsigned (lit.text ++ p) = some (lit.value, p) := by
  have hdig := lit.head_digit p
  cases lit with
  | dec digits ne ok lead =>
    change ppIsDigit ((digits ++ p).headD 0#8) = true at hdig
    have hx : ¬((digits ++ p).headD 0#8 = Char.byte '0' ∧
        ((digits ++ p).tail.headD 0#8 = Char.byte 'x' ∨ (digits ++ p).tail.headD 0#8 = Char.byte 'X')) := by
      rintro ⟨h0, hx⟩
      obtain ⟨c, ds, rfl⟩ := List.exists_cons_of_ne_nil ne
      have hnil : ds = [] := by simpa using lead h0
      subst hnil
      have hall : ∀ c : Byte, c = Char.byte 'x' ∨ c = Char.byte 'X' → ppIsAlnum c = true := by decide
      have hp' : ppIsAlnum (p.headD 0#8) = true := hall _ hx
      rw [TokenEnd, hp'] at hp
      cases hp
    change ppUnsigned (digits ++ p) = _
    rw [ppUnsigned, if_neg hx, hdig, Bool.not_true, if_neg (by simp)]
    exact congrArg some (ppDecimal_append digits ok hp 0)
  | hex upperX digits ne ok =>
    change ppUnsigned (Char.byte '0' :: Char.byte (if upperX then 'X' else 'x') :: (digits ++ p)) = _
    rw [ppUnsigned, if_pos ⟨rfl, by cases upperX <;> simp⟩]
    exact congrArg some (ppHex_append digits ok hp 0)

/-- A literal behind spaces is read as its value. -/
theorem ppExprNumber_literal (sp : Spaces) (lit : CLiteral) {p : List Byte} (hp : TokenEnd p) :
    ppExprNumber (sp.val ++ (lit.text ++ p)) = (some lit.value, p) := by
  have hdig := lit.head_digit p
  have hsp : ∀ c : Byte, ppIsDigit c = true → ppIsSpace c = false ∧ c ≠ Char.byte '-' := by decide
  have hskip : ppExprSkip (sp.val ++ (lit.text ++ p)) = lit.text ++ p := by
    rw [ppExprSkip_append, ppExprSkip_of_head (hsp _ hdig).1]
  unfold ppExprNumber
  simp only [hskip, (hsp _ hdig).2, decide_false, Bool.false_eq_true, if_false, ppUnsigned_literal lit hp]

/-- A macro with a literal as its body has the value of the literal. -/
theorem LiteralBody.number {body : List Byte} {v : U32} (h : LiteralBody body v) : (ppExprNumber body).1 = some v := by
  obtain ⟨sp, neg, lit, sp1, rfl, rfl⟩ := h.ok
  have hend : TokenEnd sp1.val := by
    have := TokenEnd.spaces sp1 (p := []) rfl
    rwa [List.append_nil] at this
  cases neg with
  | false =>
    simp only [Bool.false_eq_true, if_false, List.append_nil, List.append_assoc, ppExprNumber_literal sp lit hend]
  | true =>
    have hskip : ppExprSkip (sp.val ++ asciiBytes "-" ++ lit.text ++ sp1.val) = Char.byte '-' :: (lit.text ++ sp1.val) := by
      rw [List.append_assoc, List.append_assoc, ppExprSkip_append]
      rfl
    unfold ppExprNumber
    simp only [if_true, hskip, List.headD_cons, decide_true, List.tail_cons, ppUnsigned_literal lit hend]

/-! ## Operators -/

/-- The operators of a level, in the order they are tried. -/
def ppLevelOps : Nat → List BinOp
  | 1 => [.mul, .div, .mod]
  | 2 => [.add, .sub]
  | 3 => [.shl, .shr]
  | 4 => [.le, .ge, .lt, .gt]
  | 5 => [.eq, .ne]
  | 6 => [.band]
  | 7 => [.bxor]
  | 8 => [.bor]
  | _ => []

theorem mem_ppLevelOps {k : Nat} {op : BinOp} (h : op ∈ ppLevelOps k) : op.level = k := by
  rcases Nat.lt_or_ge k 9 with hk | hk
  · revert h
    revert op
    interval_cases k <;> decide
  · obtain ⟨m, rfl⟩ := Nat.exists_eq_add_of_le hk
    simp [ppLevelOps, Nat.add_comm 9] at h

/-- An operator stands in the list of its level, behind operators whose text does not begin its own. -/
theorem ppLevelOps_split (op : BinOp) :
    ∃ pre post, ppLevelOps op.level = pre ++ op :: post ∧ ∀ o ∈ pre, o.text.isPrefixOf op.text = false := by
  cases op with
  | mul => exact ⟨[], [.div, .mod], rfl, by simp⟩
  | div => exact ⟨[.mul], [.mod], rfl, by decide⟩
  | mod => exact ⟨[.mul, .div], [], rfl, by decide⟩
  | add => exact ⟨[], [.sub], rfl, by simp⟩
  | sub => exact ⟨[.add], [], rfl, by decide⟩
  | shl => exact ⟨[], [.shr], rfl, by simp⟩
  | shr => exact ⟨[.shl], [], rfl, by decide⟩
  | le => exact ⟨[], [.ge, .lt, .gt], rfl, by simp⟩
  | ge => exact ⟨[.le], [.lt, .gt], rfl, by decide⟩
  | lt => exact ⟨[.le, .ge], [.gt], rfl, by decide⟩
  | gt => exact ⟨[.le, .ge, .lt], [], rfl, by decide⟩
  | eq => exact ⟨[], [.ne], rfl, by simp⟩
  | ne => exact ⟨[.eq], [], rfl, by decide⟩
  | band => exact ⟨[], [], rfl, by simp⟩
  | bxor => exact ⟨[], [], rfl, by simp⟩
  | bor => exact ⟨[], [], rfl, by simp⟩

/-- An operator whose text begins another's binds no tighter. -/
theorem level_le_of_isPrefixOf {op op' : BinOp} (h : op'.text.isPrefixOf op.text = true) : op.level ≤ op'.level := by
  cases op <;> cases op' <;> first | decide | exact absurd h (by decide)

/-- A character that ends no operator: an operand may start with it. -/
def NoOpTail (c : Byte) : Prop := c ≠ Char.byte '<' ∧ c ≠ Char.byte '>' ∧ c ≠ Char.byte '=' ∧ c ≠ Char.byte '&' ∧ c ≠ Char.byte '|'

instance (c : Byte) : Decidable (NoOpTail c) := inferInstanceAs (Decidable (_ ∧ _))

/-- An operator has one character, or two of which the second starts no operand. -/
theorem BinOp.text_shape (op : BinOp) : (∃ c, op.text = [c]) ∨ ∃ c d, op.text = [c, d] ∧ ¬NoOpTail d := by
  cases op with
  | shl | shr | le | ge | eq | ne => exact Or.inr ⟨_, _, rfl, by decide⟩
  | _ => exact Or.inl ⟨_, rfl⟩

/-- What an operand starts with does not make its operator longer. -/
theorem isPrefixOf_text_append {op op' : BinOp} {t : List Byte} (ht : NoOpTail (t.headD 0#8))
    (h : op'.text.isPrefixOf (op.text ++ t) = true) : op'.text.isPrefixOf op.text = true := by
  rw [List.isPrefixOf_iff_prefix] at h ⊢
  by_cases hlen : op'.text.length ≤ op.text.length
  · exact List.prefix_of_prefix_length_le h (List.prefix_append _ _) hlen
  · exfalso
    rcases op'.text_shape with ⟨c', h'⟩ | ⟨c', d', h', hd'⟩ <;> rcases op.text_shape with ⟨c, h0⟩ | ⟨c, d, h0, -⟩
    · simp [h', h0] at hlen
    · simp [h', h0] at hlen
    · rw [h', h0, List.singleton_append, List.cons_prefix_cons] at h
      cases t with
      | nil => simp at h
      | cons x t =>
        rw [List.cons_prefix_cons] at h
        exact hd' (h.2.1 ▸ ht)
    · simp [h', h0] at hlen

/-! ## Matching -/

theorem ppFirstMatch_none {α : Type} {text : α → List Byte} {ops : List α} {p : List Byte} (hne : ops ≠ [])
    (h : ∀ op ∈ ops, (text op).isPrefixOf (ppExprSkip p) = false) : ppFirstMatch text ops p = (none, ppExprSkip p) := by
  induction ops generalizing p with
  | nil => exact absurd rfl hne
  | cons op ops ih =>
    have hop := h op List.mem_cons_self
    rw [ppFirstMatch, ppExprMatch, if_neg (by simp [hop])]
    dsimp only
    by_cases hops : ops = []
    · rw [hops, ppFirstMatch]
    · rw [ih hops (fun o ho => by rw [ppExprSkip_skip]; exact h o (List.mem_cons_of_mem op ho)), ppExprSkip_skip]

theorem ppFirstMatch_some {α : Type} {text : α → List Byte} {pre post : List α} {op : α} {p : List Byte}
    (hpre : ∀ o ∈ pre, (text o).isPrefixOf (ppExprSkip p) = false) (h : (text op).isPrefixOf (ppExprSkip p) = true) :
    ppFirstMatch text (pre ++ op :: post) p = (some op, (ppExprSkip p).drop (text op).length) := by
  induction pre generalizing p with
  | nil => rw [List.nil_append, ppFirstMatch, ppExprMatch, if_pos h]
  | cons o pre ih =>
    have ho := hpre o List.mem_cons_self
    rw [List.cons_append, ppFirstMatch, ppExprMatch, if_neg (by simp [ho])]
    dsimp only
    rw [ih (fun o' ho' => by rw [ppExprSkip_skip]; exact hpre o' (List.mem_cons_of_mem o ho')) (by rw [ppExprSkip_skip]; exact h),
      ppExprSkip_skip]

/-- No operator of a level up to `k` follows. -/
def Stops (k : Nat) (p : List Byte) : Prop := ∀ op : BinOp, op.level ≤ k → op.text.isPrefixOf (ppExprSkip p) = false

theorem Stops.mono {k j : Nat} {p : List Byte} (h : Stops k p) (hj : j ≤ k) : Stops j p := fun op ho => h op (Nat.le_trans ho hj)

theorem Stops.skip {k : Nat} {p : List Byte} (h : Stops k p) : Stops k (ppExprSkip p) := by
  intro op ho
  rw [ppExprSkip_skip]
  exact h op ho

/-- No operator starts with a space. -/
theorem ppExprSkip_text (op : BinOp) (t : List Byte) : ppExprSkip (op.text ++ t) = op.text ++ t :=
  ppExprSkip_of_head (by cases op <;> rfl)

/-- The operator that follows is the one found at its level. -/
theorem ppFirstMatch_op (sp : Spaces) (op : BinOp) {t : List Byte} (ht : NoOpTail (t.headD 0#8)) :
    ppFirstMatch BinOp.text (ppLevelOps op.level) (sp.val ++ (op.text ++ t)) = (some op, t) := by
  obtain ⟨pre, post, hops, hpre⟩ := ppLevelOps_split op
  have hskip : ppExprSkip (sp.val ++ (op.text ++ t)) = op.text ++ t := by rw [ppExprSkip_append, ppExprSkip_text]
  rw [hops, ppFirstMatch_some, hskip, List.drop_left]
  · intro o ho
    rw [hskip, ← Bool.not_eq_true]
    intro h
    have := hpre o ho
    rw [isPrefixOf_text_append ht h] at this
    cases this
  · rw [hskip, List.isPrefixOf_iff_prefix]
    exact List.prefix_append _ _

/-- Tighter levels stop at an operator. -/
theorem stops_op (sp : Spaces) (op : BinOp) {t : List Byte} (ht : NoOpTail (t.headD 0#8)) {k : Nat} (hk : k < op.level) :
    Stops k (sp.val ++ (op.text ++ t)) := by
  intro o ho
  rw [ppExprSkip_append, ppExprSkip_text, ← Bool.not_eq_true]
  intro h
  have := level_le_of_isPrefixOf (isPrefixOf_text_append ht h)
  omega

/-! ## The rules -/

/-- The parser of a level, 0 for `pp_parse_unary`. -/
def ppLevel (pp : Preproc) (lor : PPParser) (n : Nat) : Nat → PPParser
  | 0 => ppParseUnary pp lor n
  | k + 1 => ppBinary (ppLevelOps (k + 1)) (ppLevel pp lor n k) n

theorem ppParseBitor_eq (pp : Preproc) (lor : PPParser) (n : Nat) : ppParseBitor pp lor n = ppLevel pp lor n 8 := rfl

section

variable (pp : Preproc)

/-- `pp_parse_lor` returns. -/
def LorReads (p : List Byte) (out : U32 × List Byte) : Prop := ∃ N, ∀ n ≥ N, ppParseLor pp n p = some out

/-- `pp_parse_primary` returns. -/
def PrimaryReads (p : List Byte) (out : U32 × List Byte) : Prop :=
  ∃ N, ∀ m ≥ N, ppParsePrimary pp (ppParseLor pp m) p = some out

/-- The parser of a level returns. -/
def LevelReads (k : Nat) (p : List Byte) (out : U32 × List Byte) : Prop :=
  ∃ N, ∀ m ≥ N, ∀ n ≥ N, ppLevel pp (ppParseLor pp m) n k p = some out

/-- The loop of level `k + 1` returns. -/
def LoopReads (k : Nat) (v : U32) (p : List Byte) (out : U32 × List Byte) : Prop :=
  ∃ N, ∀ m ≥ N, ∀ n ≥ N, ∀ l ≥ N, ppBinaryLoop (ppLevelOps (k + 1)) (ppLevel pp (ppParseLor pp m) n k) l v p = some out

end

section

variable {pp : Preproc} {k : Nat} {p p' : List Byte} {v r : U32} {out : U32 × List Byte}

/-- A level reads an operand of the next tighter level and runs its loop. -/
theorem LevelReads.succ (h : LevelReads pp k p (v, p')) (hl : LoopReads pp k v p' out) : LevelReads pp (k + 1) p out := by
  obtain ⟨N, hN⟩ := h
  obtain ⟨M, hM⟩ := hl
  refine ⟨max N M, fun m hm n hn => ?_⟩
  have h1 := hN m (le_trans (le_max_left N M) hm) n (le_trans (le_max_left N M) hn)
  have h2 := hM m (le_trans (le_max_right N M) hm) n (le_trans (le_max_right N M) hn) n (le_trans (le_max_right N M) hn)
  simp only [ppLevel, ppBinary, h1, Option.bind_eq_bind, Option.bind_some, h2]

/-- The loop goes on behind one of its operators. -/
theorem LoopReads.step {op : BinOp} {p'' : List Byte} (hop : ppFirstMatch BinOp.text (ppLevelOps (k + 1)) p = (some op, p'))
    (hr : LevelReads pp k p' (r, p'')) (hl : LoopReads pp k (op.apply v r) p'' out) : LoopReads pp k v p out := by
  obtain ⟨N, hN⟩ := hr
  obtain ⟨M, hM⟩ := hl
  refine ⟨max N M + 1, fun m hm n hn l hl => ?_⟩
  obtain ⟨l, rfl⟩ : ∃ l', l = l' + 1 := ⟨l - 1, by omega⟩
  have hNle := le_max_left N M
  have hMle := le_max_right N M
  have h1 := hN m (by omega) n (by omega)
  have h2 := hM m (by omega) n (by omega) l (by omega)
  simp only [ppBinaryLoop_succ, hop, h1, Option.bind_some, h2]

theorem LoopReads.stop_of_match (h : ppFirstMatch BinOp.text (ppLevelOps (k + 1)) p = (none, p')) : LoopReads pp k v p (v, p') := by
  refine ⟨1, fun m _ n _ l hl => ?_⟩
  obtain ⟨l, rfl⟩ : ∃ l', l = l' + 1 := ⟨l - 1, by omega⟩
  simp only [ppBinaryLoop_succ, h]

/-- The loop stops where no operator of its level follows. -/
theorem LoopReads.stop (hk : k < 8) (h : Stops (k + 1) p) : LoopReads pp k v p (v, ppExprSkip p) := by
  refine LoopReads.stop_of_match (ppFirstMatch_none ?_ (fun op hop => h op (le_of_eq (mem_ppLevelOps hop))))
  interval_cases k <;> simp [ppLevelOps]

/-- The loop does not see the spaces in front. -/
theorem ppFirstMatch_skip (hk : k < 8) (p : List Byte) :
    ppFirstMatch BinOp.text (ppLevelOps (k + 1)) (ppExprSkip p) = ppFirstMatch BinOp.text (ppLevelOps (k + 1)) p := by
  interval_cases k <;> simp only [ppLevelOps, ppFirstMatch, ppExprMatch, ppExprSkip_skip]

theorem LoopReads.skip (hk : k < 8) (h : LoopReads pp k v p out) : LoopReads pp k v (ppExprSkip p) out := by
  obtain ⟨N, hN⟩ := h
  refine ⟨N + 1, fun m hm n hn l hl => ?_⟩
  have := hN m (by omega) n (by omega) l (by omega)
  obtain ⟨l, rfl⟩ : ∃ l', l = l' + 1 := ⟨l - 1, by omega⟩
  simp only [ppBinaryLoop_succ, ppFirstMatch_skip hk] at this ⊢
  exact this

/-- `pp_parse_unary` behind an operator. -/
theorem LevelReads.unary {op : UnOp} {p'' : List Byte} (hop : ppFirstMatch UnOp.text [.not, .compl, .plus, .neg] p = (some op, p'))
    (h : LevelReads pp 0 p' (v, p'')) : LevelReads pp 0 p (op.apply v, p'') := by
  obtain ⟨N, hN⟩ := h
  refine ⟨N + 1, fun m hm n hn => ?_⟩
  obtain ⟨n, rfl⟩ : ∃ n', n = n' + 1 := ⟨n - 1, by omega⟩
  have h1 := hN m (by omega) n (by omega)
  rw [ppLevel] at h1 ⊢
  simp only [ppParseUnary_succ, hop, h1, Option.bind_some]

/-- `pp_parse_unary` where no operator stands. -/
theorem LevelReads.primary (hop : ppFirstMatch UnOp.text [.not, .compl, .plus, .neg] p = (none, p')) (h : PrimaryReads pp p' out) :
    LevelReads pp 0 p out := by
  obtain ⟨N, hN⟩ := h
  refine ⟨N + 1, fun m hm n hn => ?_⟩
  obtain ⟨n, rfl⟩ : ∃ n', n = n' + 1 := ⟨n - 1, by omega⟩
  rw [ppLevel]
  simp only [ppParseUnary_succ, hop]
  exact hN m (by omega)

theorem ppShortLoop_stop {op : List Byte} {stop : Bool} {next : PPParser} {n : Nat}
    (h : op.isPrefixOf (ppExprSkip p) = false) : ppShortLoop op stop next (n + 1) v p = some (v, ppExprSkip p) := by
  rw [ppShortLoop, ppExprMatch, if_neg (by simp [h])]

/-- The two outermost levels never find their operator: `pp_parse_bitand` and `pp_parse_bitor` stop before no `&` and no `|`. -/
theorem LorReads.of_level (h : LevelReads pp 8 p (v, p')) (hs : Stops 8 p') : LorReads pp p (v, ppExprSkip p') := by
  obtain ⟨N, hN⟩ := h
  have hand : (asciiBytes "&&").isPrefixOf (ppExprSkip p') = false := by
    have h6 := hs .band (by decide)
    cases hq : ppExprSkip p' with
    | nil => rfl
    | cons c q =>
      rw [hq] at h6
      simp_all [BinOp.text, asciiBytes, List.isPrefixOf]
  have hor : (asciiBytes "||").isPrefixOf (ppExprSkip (ppExprSkip p')) = false := by
    have h8 := hs .bor (by decide)
    rw [ppExprSkip_skip]
    cases hq : ppExprSkip p' with
    | nil => rfl
    | cons c q =>
      rw [hq] at h8
      simp_all [BinOp.text, asciiBytes, List.isPrefixOf]
  refine ⟨N + 2, fun n hn => ?_⟩
  obtain ⟨n, rfl⟩ : ∃ n', n = n' + 2 := ⟨n - 2, by omega⟩
  have h1 := hN (n + 1) (by omega) (n + 1) (by omega)
  rw [ppParseLor]
  simp only [ppParseLand, ppParseBitor_eq, h1, Option.bind_eq_bind, Option.bind_some, ppShortLoop_stop hand, ppShortLoop_stop hor,
    ppExprSkip_skip]

end

end MiniOs32
