import MiniOs32.Lemmas.CondText

/-!
# Conditions of the preprocessor and their C value

`pp_parse_bitand` takes the first character of `&&` for its own operator, reads nothing behind it, and goes on with 0; so does
`pp_parse_bitor` with `||`. A `||` is therefore a bitwise or of its operands, and an `&&` is lost. A macro is worth the number its
body starts with, or 1. Every condition without `&&`, whose `||` are asked for their truth only or join values that are 0 or 1,
and whose macros are literals, has its C value.
-/

namespace MiniOs32

/-! ## What the parsers compute -/

/-- The value the parsers compute for an expression without `&&`. -/
def CondExpr.read (pp : Preproc) : CondExpr → U32
  | .num _ lit => lit.value
  | .name _ id => ppMacroValue pp id.val
  | .definedIn _ _ _ id _ => truth (ppFindMacro pp id.val).isSome
  | .definedAt _ _ id => truth (ppFindMacro pp id.val).isSome
  | .paren _ e _ => e.read pp
  | .un _ op e => op.apply (e.read pp)
  | .bin a _ op b => op.apply (a.read pp) (b.read pp)
  | .land _ _ _ => 0#32
  | .lor a _ b => a.read pp ||| b.read pp

/-- No `&&`, and no name longer than the buffers of `pp_parse_primary`. -/
def CondExpr.Readable : CondExpr → Prop
  | .num _ _ => True
  | .name _ id => id.val.length ≤ 31
  | .definedIn _ _ _ id _ => id.val.length ≤ 31
  | .definedAt _ _ id => id.val.length ≤ 31
  | .paren _ e _ => e.Readable
  | .un _ _ e => e.Readable
  | .bin a _ _ b => a.Readable ∧ b.Readable
  | .land _ _ _ => False
  | .lor a _ b => a.Readable ∧ b.Readable

/-! ## The start of an operand -/

theorem noOpTail_spaces (sp : Spaces) {p : List Byte} (h : NoOpTail (p.headD 0#8)) : NoOpTail ((sp.val ++ p).headD 0#8) := by
  obtain ⟨s, hs⟩ := sp
  cases s with
  | nil => exact h
  | cons c s =>
    have hall : ∀ c : Byte, ppIsSpace c = true → NoOpTail c := by decide
    exact hall c (hs c List.mem_cons_self)

theorem CName.head_alpha (id : CName) (p : List Byte) : ppIsAlpha ((id.val ++ p).headD 0#8) = true := by
  obtain ⟨s, hs, -⟩ := id
  cases s with
  | nil => exact absurd hs (by decide)
  | cons c s => exact hs

theorem noOpTail_text (e : CondExpr) : ∀ p, NoOpTail ((e.text ++ p).headD 0#8) := by
  have hdig : ∀ c : Byte, ppIsDigit c = true → NoOpTail c := by decide
  have halpha : ∀ c : Byte, ppIsAlpha c = true → NoOpTail c := by decide
  induction e with
  | num sp lit =>
    intro p
    rw [CondExpr.text, List.append_assoc]
    exact noOpTail_spaces sp (hdig _ (lit.head_digit p))
  | name sp id =>
    intro p
    rw [CondExpr.text, List.append_assoc]
    exact noOpTail_spaces sp (halpha _ (id.head_alpha p))
  | definedIn sp sp1 sp2 id sp3 =>
    intro p
    simp only [CondExpr.text, List.append_assoc]
    exact noOpTail_spaces sp (show NoOpTail (Char.byte 'd') by decide)
  | definedAt sp sp1 id =>
    intro p
    simp only [CondExpr.text, List.append_assoc]
    exact noOpTail_spaces sp (show NoOpTail (Char.byte 'd') by decide)
  | paren sp e sp1 ih =>
    intro p
    simp only [CondExpr.text, List.append_assoc]
    exact noOpTail_spaces sp (show NoOpTail (Char.byte '(') by decide)
  | un sp op e ih =>
    intro p
    simp only [CondExpr.text, List.append_assoc]
    refine noOpTail_spaces sp ?_
    cases op with
    | not => exact (show NoOpTail (Char.byte '!') by decide)
    | compl => exact (show NoOpTail (Char.byte '~') by decide)
    | plus => exact (show NoOpTail (Char.byte '+') by decide)
    | neg => exact (show NoOpTail (Char.byte '-') by decide)
  | bin a sp op b iha ihb =>
    intro p
    simp only [CondExpr.text, List.append_assoc]
    exact iha _
  | land a sp b iha ihb =>
    intro p
    simp only [CondExpr.text, List.append_assoc]
    exact iha _
  | lor a sp b iha ihb =>
    intro p
    simp only [CondExpr.text, List.append_assoc]
    exact iha _

/-- Where no unary operator stands. -/
theorem unary_none {p : List Byte} (h : ppIsAlnum ((ppExprSkip p).headD 0#8) = true ∨ (ppExprSkip p).headD 0#8 = Char.byte '(' ∨
      (ppExprSkip p).headD 0#8 = Char.byte '&' ∨ (ppExprSkip p).headD 0#8 = Char.byte '|') :
    ppFirstMatch UnOp.text [.not, .compl, .plus, .neg] p = (none, ppExprSkip p) := by
  refine ppFirstMatch_none (by simp) (fun op _ => ?_)
  cases hq : ppExprSkip p with
  | nil => cases op <;> rfl
  | cons c q =>
    rw [hq, List.headD_cons] at h
    have hall : ∀ c : Byte, ppIsAlnum c = true ∨ c = Char.byte '(' ∨ c = Char.byte '&' ∨ c = Char.byte '|' →
        c ≠ Char.byte '!' ∧ c ≠ Char.byte '~' ∧ c ≠ Char.byte '+' ∧ c ≠ Char.byte '-' := by decide
    have hone : ∀ x, x ≠ c → [x].isPrefixOf (c :: q) = false := fun x hx => by simp [List.isPrefixOf, hx]
    obtain ⟨h1, h2, h3, h4⟩ := hall c h
    cases op with
    | not => exact hone _ h1.symm
    | compl => exact hone _ h2.symm
    | plus => exact hone _ h3.symm
    | neg => exact hone _ h4.symm

theorem unary_some (sp : Spaces) (op : UnOp) (p : List Byte) :
    ppFirstMatch UnOp.text [.not, .compl, .plus, .neg] (sp.val ++ (op.text ++ p)) = (some op, p) := by
  have hskip : ppExprSkip (sp.val ++ (op.text ++ p)) = op.text ++ p := by
    rw [ppExprSkip_append, ppExprSkip_of_head (by cases op <;> rfl)]
  cases op <;> simp only [ppFirstMatch, ppExprMatch, hskip] <;> rfl

section

variable {pp : Preproc}

theorem ppExprSkip_of_alnum {p : List Byte} (h : ppIsAlnum (p.headD 0#8) = true) : ppExprSkip p = p := by
  have hall : ∀ c : Byte, ppIsAlnum c = true → ppIsSpace c = false := by decide
  exact ppExprSkip_of_head (hall _ h)

theorem alnum_of_digit {c : Byte} (h : ppIsDigit c = true) : ppIsAlnum c = true := by rw [ppIsAlnum, h, Bool.or_true]

theorem alnum_of_alpha {c : Byte} (h : ppIsAlpha c = true) : ppIsAlnum c = true := by rw [ppIsAlnum, h, Bool.true_or]

theorem ppExprSkip_open (p : List Byte) : ppExprSkip (asciiBytes "(" ++ p) = asciiBytes "(" ++ p :=
  ppExprSkip_of_head (show ppIsSpace (Char.byte '(') = false by decide)

theorem ppExprSkip_close (p : List Byte) : ppExprSkip (asciiBytes ")" ++ p) = asciiBytes ")" ++ p :=
  ppExprSkip_of_head (show ppIsSpace (Char.byte ')') = false by decide)

/-- A literal. -/
theorem reads_num (sp : Spaces) (lit : CLiteral) {rest : List Byte} (hrest : TokenEnd rest) :
    LevelReads pp 0 (sp.val ++ (lit.text ++ rest)) (lit.value, rest) := by
  have hdig := lit.head_digit rest
  have hskip : ppExprSkip (sp.val ++ (lit.text ++ rest)) = lit.text ++ rest := by
    rw [ppExprSkip_append, ppExprSkip_of_alnum (alnum_of_digit hdig)]
  refine LevelReads.primary (unary_none (Or.inl (by rw [hskip]; exact alnum_of_digit hdig))) ⟨0, fun m _ => ?_⟩
  have hall : ∀ c : Byte, ppIsDigit c = true → c ≠ Char.byte '(' ∧ ppIsAlpha c = false := by decide
  obtain ⟨h1, h2⟩ := hall _ hdig
  have hnum := ppExprNumber_literal Spaces.none lit hrest
  rw [hskip]
  unfold ppParsePrimary
  simp only [ppExprSkip_of_alnum (alnum_of_digit hdig), h1, if_false, h2, Bool.false_eq_true]
  rw [show lit.text ++ rest = Spaces.none.val ++ (lit.text ++ rest) from rfl, hnum]
  rfl

/-- A name. -/
theorem reads_name (sp : Spaces) (id : CName) (hlen : id.val.length ≤ 31) (hdef : id.val ≠ asciiBytes "defined") {rest : List Byte}
    (hrest : TokenEnd rest) : LevelReads pp 0 (sp.val ++ (id.val ++ rest)) (ppMacroValue pp id.val, rest) := by
  have halpha := id.head_alpha rest
  have hskip : ppExprSkip (sp.val ++ (id.val ++ rest)) = id.val ++ rest := by
    rw [ppExprSkip_append, ppExprSkip_of_alnum (alnum_of_alpha halpha)]
  refine LevelReads.primary (unary_none (Or.inl (by rw [hskip]; exact alnum_of_alpha halpha))) ⟨0, fun m _ => ?_⟩
  have hparen : (id.val ++ rest).headD 0#8 ≠ Char.byte '(' := by
    intro h
    rw [h] at halpha
    exact absurd halpha (by decide)
  rw [hskip]
  unfold ppParsePrimary
  simp only [ppExprSkip_of_alnum (alnum_of_alpha halpha), hparen, if_false, halpha, if_true,
    ppReadName_append id.property.2 hlen hrest, hdef, List.drop_left]

/-- `defined` is read as a name that is not looked up. -/
theorem reads_defined (sp : Spaces) {p : List Byte} {out : U32 × List Byte} (hend : TokenEnd p) (h : ppParseDefined pp p = some out) :
    LevelReads pp 0 (sp.val ++ (asciiBytes "defined" ++ p)) out := by
  have hskip : ppExprSkip (sp.val ++ (asciiBytes "defined" ++ p)) = asciiBytes "defined" ++ p := by
    rw [ppExprSkip_append]
    exact ppExprSkip_of_alnum (show ppIsAlnum (Char.byte 'd') = true by decide)
  refine LevelReads.primary (unary_none (Or.inl ?_)) ⟨0, fun m _ => ?_⟩
  · rw [hskip]
    exact (show ppIsAlnum (Char.byte 'd') = true by decide)
  · have hname : ppReadName (asciiBytes "defined" ++ p) = asciiBytes "defined" :=
      ppReadName_append (by decide) (by decide) hend
    have hhead : (asciiBytes "defined" ++ p).headD 0#8 = Char.byte 'd' := rfl
    have halpha : ppIsAlpha (Char.byte 'd') = true := by decide
    have hparen : Char.byte 'd' ≠ Char.byte '(' := by decide
    have hd : ppExprSkip (asciiBytes "defined" ++ p) = asciiBytes "defined" ++ p := ppExprSkip_of_alnum (by rw [hhead]; decide)
    rw [hskip]
    unfold ppParsePrimary
    simp only [hd, hhead, hparen, if_false, halpha, if_true, hname, List.drop_left, h]

theorem reads_definedIn (sp sp1 sp2 : Spaces) (id : CName) (sp3 : Spaces) (hlen : id.val.length ≤ 31) (rest : List Byte) :
    LevelReads pp 0 (sp.val ++ (asciiBytes "defined" ++ (sp1.val ++ (asciiBytes "(" ++ (sp2.val ++ (id.val ++ (sp3.val ++
      (asciiBytes ")" ++ rest)))))))) (truth (ppFindMacro pp id.val).isSome, rest) := by
  have hclose : TokenEnd (asciiBytes ")" ++ rest) := (show ppIsAlnum (Char.byte ')') = false by decide)
  have hname := ppReadName_append id.property.2 hlen (TokenEnd.spaces sp3 hclose)
  refine reads_defined sp (TokenEnd.spaces sp1 (show ppIsAlnum (Char.byte '(') = false by decide)) ?_
  have hopen : ∀ p : List Byte, (asciiBytes "(" ++ p).headD 0#8 = Char.byte '(' ∧ (asciiBytes "(" ++ p).tail = p := fun p => ⟨rfl, rfl⟩
  have hshut : ∀ p : List Byte, (asciiBytes ")" ++ p).headD 0#8 = Char.byte ')' ∧ (asciiBytes ")" ++ p).tail = p := fun p => ⟨rfl, rfl⟩
  unfold ppParseDefined
  simp only [ppExprSkip_append, ppExprSkip_open, hopen, if_true, ppExprSkip_of_alnum (alnum_of_alpha (id.head_alpha _)), hname,
    List.drop_left, ppExprSkip_close, hshut]

theorem reads_definedAt (sp sp1 : Spaces) (id : CName) (hsp : sp1.val ≠ []) (hlen : id.val.length ≤ 31) {rest : List Byte}
    (hrest : TokenEnd rest) :
    LevelReads pp 0 (sp.val ++ (asciiBytes "defined" ++ (sp1.val ++ (id.val ++ rest)))) (truth (ppFindMacro pp id.val).isSome, rest) := by
  have halpha := id.head_alpha rest
  have hend : TokenEnd (sp1.val ++ (id.val ++ rest)) := by
    obtain ⟨s, hs⟩ := sp1
    obtain ⟨c, s', rfl⟩ := List.exists_cons_of_ne_nil hsp
    have hall : ∀ c : Byte, ppIsSpace c = true → ppIsAlnum c = false := by decide
    exact hall c (hs c List.mem_cons_self)
  refine reads_defined sp hend ?_
  have hparen : (id.val ++ rest).headD 0#8 ≠ Char.byte '(' := by
    intro h
    rw [h] at halpha
    exact absurd halpha (by decide)
  unfold ppParseDefined
  simp only [ppExprSkip_append, ppExprSkip_of_alnum (alnum_of_alpha halpha), hparen, if_false,
    ppReadName_append id.property.2 hlen hrest, List.drop_left]

/-- Parentheses. -/
theorem reads_paren (sp : Spaces) {p rest : List Byte} {v : U32} (h : LorReads pp p (v, asciiBytes ")" ++ rest)) :
    LevelReads pp 0 (sp.val ++ (asciiBytes "(" ++ p)) (v, rest) := by
  have hskip : ppExprSkip (sp.val ++ (asciiBytes "(" ++ p)) = asciiBytes "(" ++ p := by rw [ppExprSkip_append, ppExprSkip_open]
  obtain ⟨N, hN⟩ := h
  refine LevelReads.primary (unary_none (Or.inr (Or.inl (by rw [hskip]; rfl)))) ⟨N, fun m hm => ?_⟩
  rw [hskip]
  unfold ppParsePrimary
  simp only [ppExprSkip_open]
  rw [if_pos (show (asciiBytes "(" ++ p).headD 0#8 = Char.byte '(' from rfl), show (asciiBytes "(" ++ p).tail = p from rfl, hN m hm]
  simp only [Option.bind_eq_bind, Option.bind_some, ppExprSkip_close]
  rfl

/-- The second character of `&&` or `||` is no operand: the parsers of a tighter level return 0 and stay where they are. -/
theorem reads_nothing {c : Byte} (hc : c = Char.byte '&' ∨ c = Char.byte '|') (t : List Byte) {k : Nat} (hk : k < 8)
    (hs : Stops k (c :: t)) : LevelReads pp k (c :: t) (0#32, c :: t) := by
  have hall : ∀ c : Byte, c = Char.byte '&' ∨ c = Char.byte '|' → ppIsSpace c = false ∧ c ≠ Char.byte '(' ∧ ppIsAlpha c = false ∧
      c ≠ Char.byte '-' ∧ ppIsDigit c = false ∧ c ≠ Char.byte '0' := by decide
  obtain ⟨h1, h2, h3, h4, h5, h6⟩ := hall c hc
  have hskip : ppExprSkip (c :: t) = c :: t := ppExprSkip_of_head h1
  induction k with
  | zero =>
    refine LevelReads.primary (unary_none (Or.inr (Or.inr (by rw [hskip]; exact hc)))) ⟨0, fun m _ => ?_⟩
    rw [hskip]
    simp [ppParsePrimary, hskip, h2, h3, ppExprNumber, ppUnsigned, h4, h5, h6]
  | succ k ih =>
    have hloop : LoopReads pp k 0#32 (c :: t) (0#32, ppExprSkip (c :: t)) := LoopReads.stop (by omega) hs
    rw [hskip] at hloop
    exact (ih (by omega) (hs.mono (by omega))).succ hloop

/-! ## Reading a tree -/

/-- How the parsers read the text of an expression: as an operand, at every level loose enough, and behind a `|`. -/
structure Parses (pp : Preproc) (e : CondExpr) : Prop where
  operand : e.level = 0 → ∀ rest, TokenEnd rest → LevelReads pp 0 (e.text ++ rest) (e.read pp, rest)
  level : ∀ k < 8, e.level ≤ k + 1 ∨ k = 7 → ∀ rest out, TokenEnd rest → Stops k rest → LoopReads pp k (e.read pp) rest out →
    LevelReads pp (k + 1) (e.text ++ rest) out
  orChain : e.level ≤ 8 → ∀ u rest out, TokenEnd rest → Stops 7 rest → LoopReads pp 7 (u ||| e.read pp) rest out →
    LoopReads pp 7 u (asciiBytes "|" ++ (e.text ++ rest)) out

/-- What a level reads, every looser level reads. -/
theorem climb {t : List Byte} {v : U32} {j : Nat} (hj : ∀ rest out, TokenEnd rest → Stops j rest → LoopReads pp j v rest out →
    LevelReads pp (j + 1) (t ++ rest) out) : ∀ k, j ≤ k → k < 8 → ∀ rest out, TokenEnd rest → Stops k rest →
    LoopReads pp k v rest out → LevelReads pp (k + 1) (t ++ rest) out := by
  intro k hjk
  induction k, hjk using Nat.le_induction with
  | base => exact fun _ => hj
  | succ k hjk ih =>
    intro hk rest out hend hs hl
    have h := ih (by omega) rest (v, ppExprSkip rest) hend (hs.mono (by omega)) (LoopReads.stop (by omega) hs)
    exact h.succ (hl.skip hk)

/-- An operand of the next tighter level, and where reading goes on. -/
theorem Parses.right {e : CondExpr} (h : Parses pp e) {k : Nat} (hk : k < 8) (hlevel : e.level ≤ k) {rest : List Byte}
    (hend : TokenEnd rest) (hs : Stops k rest) :
    ∃ p, LevelReads pp k (e.text ++ rest) (e.read pp, p) ∧ ∀ v out, LoopReads pp k v rest out → LoopReads pp k v p out := by
  cases k with
  | zero => exact ⟨rest, h.operand (by omega) rest hend, fun v out hl => hl⟩
  | succ k =>
    exact ⟨ppExprSkip rest, h.level k (by omega) (Or.inl hlevel) rest _ hend (hs.mono (by omega)) (LoopReads.stop (by omega) hs),
      fun v out hl => hl.skip hk⟩

/-- An expression that is no binary one, once it is read as an operand. -/
theorem Parses.of_operand {e : CondExpr} (h : ∀ rest, TokenEnd rest → LevelReads pp 0 (e.text ++ rest) (e.read pp, rest)) :
    Parses pp e := by
  have hlevel := @climb pp e.text (e.read pp) 0 (fun rest out hend _ hl => (h rest hend).succ hl)
  refine ⟨fun _ => h, fun k hk _ => hlevel k (Nat.zero_le k) hk, fun _ u rest out hend hs hl => ?_⟩
  refine LoopReads.step (ppFirstMatch_op Spaces.none .bor (noOpTail_text e rest)) ?_ (hl.skip (by decide))
  exact hlevel 6 (by decide) (by decide) rest _ hend (hs.mono (by decide)) (LoopReads.stop (by decide) hs)

theorem BinOp.level_le (op : BinOp) : op.level ≤ 8 := by cases op <;> decide

theorem tokenEnd_op (sp : Spaces) (op : BinOp) (t : List Byte) : TokenEnd (sp.val ++ (op.text ++ t)) :=
  TokenEnd.spaces sp (by cases op <;> rfl)

/-- A binary operator between two expressions that are read. -/
theorem Parses.bin {a b : CondExpr} (sp : Spaces) (op : BinOp) (ha : Parses pp a) (hb : Parses pp b) (hla : a.level ≤ op.level)
    (hlb : b.level < op.level) : Parses pp (.bin a sp op b) := by
  obtain ⟨j, hj⟩ : ∃ j, op.level = j + 1 := ⟨op.level - 1, by lia⟩
  have hj8 : j < 8 := by have := op.level_le; lia
  -- the loop behind the left operand
  have hloop : ∀ u rest out, TokenEnd rest → Stops j rest → LoopReads pp j (op.apply u (b.read pp)) rest out →
      LoopReads pp j u (sp.val ++ (op.text ++ (b.text ++ rest))) out := by
    intro u rest out hend hs hl
    obtain ⟨p, hp, hgo⟩ := hb.right hj8 (by lia) hend hs
    exact LoopReads.step (hj ▸ ppFirstMatch_op sp op (noOpTail_text b rest)) hp (hgo _ _ hl)
  have hbase : ∀ rest out, TokenEnd rest → Stops j rest → LoopReads pp j (op.apply (a.read pp) (b.read pp)) rest out →
      LevelReads pp (j + 1) ((CondExpr.bin a sp op b).text ++ rest) out := by
    intro rest out hend hs hl
    simp only [CondExpr.text, List.append_assoc]
    exact ha.level j hj8 (Or.inl (by lia)) _ out (tokenEnd_op sp op _) (stops_op sp op (noOpTail_text b rest) (by lia))
      (hloop _ rest out hend hs hl)
  have hlevel := climb hbase
  refine ⟨fun h0 => absurd h0 (by simp only [CondExpr.level]; lia), fun k hk hle => hlevel k ?_ hk, ?_⟩
  · simp only [CondExpr.level] at hle
    lia
  · intro _ u rest out hend hs hl
    by_cases hbor : op = .bor
    · subst hbor
      have hj7 : j = 7 := by simpa [BinOp.level] using hj.symm
      subst hj7
      have hassoc : BinOp.bor.apply (u ||| a.read pp) (b.read pp) = u ||| CondExpr.read pp (.bin a sp .bor b) := by
        simp [CondExpr.read, BinOp.apply, BitVec.or_assoc]
      simp only [CondExpr.text, List.append_assoc]
      refine ha.orChain hla u _ out (tokenEnd_op sp .bor _) (stops_op sp .bor (noOpTail_text b rest) (by decide)) ?_
      exact hloop _ rest out hend hs (by rw [hassoc]; exact hl)
    · have hj6 : j ≤ 6 := by cases op <;> simp [BinOp.level] at hj hbor ⊢ <;> lia
      refine LoopReads.step (ppFirstMatch_op Spaces.none .bor (noOpTail_text _ rest)) ?_ (hl.skip (by decide))
      exact hlevel 6 hj6 (by decide) rest _ hend (hs.mono (by decide)) (LoopReads.stop (by decide) hs)

/-- Behind the text of an operand, an operator that is written twice: tighter levels stop, its own level takes the first half. -/
theorem doubled_op (sp : Spaces) {op : BinOp} (hop : op = .band ∨ op = .bor) (t : List Byte) :
    TokenEnd (sp.val ++ (op.text ++ (op.text ++ t))) ∧ Stops (op.level - 1) (sp.val ++ (op.text ++ (op.text ++ t))) ∧
      ppFirstMatch BinOp.text (ppLevelOps op.level) (sp.val ++ (op.text ++ (op.text ++ t))) = (some op, op.text ++ t) := by
  have hskip : ppExprSkip (sp.val ++ (op.text ++ (op.text ++ t))) = op.text ++ (op.text ++ t) := by
    rw [ppExprSkip_append, ppExprSkip_text]
  refine ⟨tokenEnd_op sp op _, fun o ho => ?_, ?_⟩
  · rw [hskip]
    rcases hop with rfl | rfl <;> cases o <;> first | rfl | exact absurd ho (by decide)
  · rcases hop with rfl | rfl <;> simp only [BinOp.level, ppLevelOps, ppFirstMatch, ppExprMatch, hskip] <;> rfl

/-- The second half of such an operator is no operand. -/
theorem reads_half {op : BinOp} (hop : op = .band ∨ op = .bor) (t : List Byte) :
    LevelReads pp (op.level - 1) (op.text ++ t) (0#32, op.text ++ t) := by
  have hs : Stops (op.level - 1) (op.text ++ t) := by
    intro o ho
    rw [ppExprSkip_text]
    rcases hop with rfl | rfl <;> cases o <;> first | rfl | exact absurd ho (by decide)
  rcases hop with rfl | rfl
  · exact reads_nothing (Or.inl rfl) t (by decide) hs
  · exact reads_nothing (Or.inr rfl) t (by decide) hs

/-- A `||` is read as a `|`. -/
theorem Parses.lor {a b : CondExpr} (sp : Spaces) (ha : Parses pp a) (hb : Parses pp b) (hlb : b.level ≤ 8) :
    Parses pp (.lor a sp b) := by
  refine ⟨fun h => by simp [CondExpr.level] at h, fun k hk hle rest out hend hs hl => ?_, fun h => by simp [CondExpr.level] at h⟩
  obtain rfl : k = 7 := by
    simp only [CondExpr.level] at hle
    lia
  obtain ⟨hend', hs', hmatch⟩ := doubled_op sp (Or.inr rfl) (b.text ++ rest)
  have htext : (CondExpr.lor a sp b).text ++ rest =
      a.text ++ (sp.val ++ (BinOp.bor.text ++ (BinOp.bor.text ++ (b.text ++ rest)))) := by
    simp only [CondExpr.text, List.append_assoc]
    rfl
  rw [htext]
  refine ha.level 7 hk (Or.inr rfl) _ out hend' hs' (LoopReads.step hmatch (reads_half (Or.inr rfl) _) ?_)
  refine hb.orChain hlb _ rest out hend hs ?_
  rw [show BinOp.bor.apply (a.read pp) 0#32 = a.read pp from BitVec.or_zero]
  exact hl

/-- A whole condition. -/
theorem Parses.lorReads {e : CondExpr} (h : Parses pp e) {rest : List Byte} (hend : TokenEnd rest) (hs : Stops 8 rest) :
    LorReads pp (e.text ++ rest) (e.read pp, ppExprSkip rest) := by
  have := LorReads.of_level (h.level 7 (by decide) (Or.inr rfl) rest _ hend (hs.mono (by decide)) (LoopReads.stop (by decide) hs)) hs.skip
  rwa [ppExprSkip_skip] at this

/-- Without `&&` no expression has the level of one. -/
theorem level_of_readable {e : CondExpr} (hr : e.Readable) (h : e.level < 10) : e.level ≤ 8 := by
  cases e with
  | bin a sp op b => exact op.level_le
  | land a sp b => exact hr.elim
  | lor a sp b => simp [CondExpr.level] at h
  | _ => exact Nat.zero_le 8

/-- An expression without `&&` is read. -/
theorem parses_of_readable (e : CondExpr) (hwf : e.WellFormed) (hr : e.Readable) : Parses pp e := by
  induction e with
  | num sp lit =>
    refine Parses.of_operand (fun rest hend => ?_)
    rw [CondExpr.text, List.append_assoc]
    exact reads_num sp lit hend
  | name sp id =>
    refine Parses.of_operand (fun rest hend => ?_)
    rw [CondExpr.text, List.append_assoc]
    exact reads_name sp id hr hwf hend
  | definedIn sp sp1 sp2 id sp3 =>
    refine Parses.of_operand (fun rest hend => ?_)
    simp only [CondExpr.text, List.append_assoc]
    exact reads_definedIn sp sp1 sp2 id sp3 hr rest
  | definedAt sp sp1 id =>
    refine Parses.of_operand (fun rest hend => ?_)
    simp only [CondExpr.text, List.append_assoc]
    exact reads_definedAt sp sp1 id hwf hr hend
  | paren sp e sp1 ih =>
    refine Parses.of_operand (fun rest hend => ?_)
    have hs : Stops 8 (sp1.val ++ (asciiBytes ")" ++ rest)) := by
      intro op _
      rw [ppExprSkip_append, ppExprSkip_close]
      cases op <;> rfl
    have hlor := (ih hwf hr).lorReads (TokenEnd.spaces sp1 (show TokenEnd (asciiBytes ")" ++ rest) from rfl)) hs
    rw [ppExprSkip_append, ppExprSkip_close] at hlor
    simp only [CondExpr.text, List.append_assoc]
    exact reads_paren sp hlor
  | un sp op e ih =>
    refine Parses.of_operand (fun rest hend => ?_)
    simp only [CondExpr.text, List.append_assoc]
    exact LevelReads.unary (unary_some sp op _) ((ih hwf.1 hr).operand hwf.2 rest hend)
  | bin a sp op b iha ihb =>
    obtain ⟨hwa, hwb, hla, hlb⟩ := hwf
    exact Parses.bin sp op (iha hwa hr.1) (ihb hwb hr.2) hla hlb
  | land a sp b iha ihb => exact hr.elim
  | lor a sp b iha ihb =>
    obtain ⟨hwa, hwb, hla, hlb⟩ := hwf
    exact Parses.lor sp (iha hwa hr.1) (ihb hwb hr.2) (level_of_readable hr.2 hlb)

theorem stops_spaces (trail : Spaces) (k : Nat) : TokenEnd trail.val ∧ Stops k trail.val ∧ ppExprSkip trail.val = [] := by
  have hskip : ppExprSkip trail.val = [] := List.dropWhile_eq_nil_iff.2 trail.property
  have hend := TokenEnd.spaces trail (show TokenEnd [] from rfl)
  rw [List.append_nil] at hend
  refine ⟨hend, fun op _ => ?_, hskip⟩
  rw [hskip]
  cases op <;> rfl

/-- `pp_eval_if` on an expression without `&&`. -/
theorem ppEvalIf_of_readable {e : CondExpr} (hwf : e.WellFormed) (hr : e.Readable) (trail : Spaces) :
    ∃ N, ∀ n ≥ N, ppEvalIf n pp (e.text ++ trail.val) = some (decide (e.read pp ≠ 0#32)) := by
  obtain ⟨hend, hs, -⟩ := stops_spaces trail 8
  obtain ⟨N, hN⟩ := (@parses_of_readable pp e hwf hr).lorReads hend hs
  exact ⟨N, fun n hn => by rw [ppEvalIf, hN n hn]; rfl⟩

/-- An `&&` between two comparisons is lost: the condition is false whatever they say. -/
theorem ppEvalIf_land {a b : CondExpr} (hwa : a.WellFormed) (hra : a.Readable) (hla : a.level ≤ 5) (hwb : b.WellFormed)
    (hrb : b.Readable) (hlb : b.level ≤ 5) (sp trail : Spaces) :
    ∃ N, ∀ n ≥ N, ppEvalIf n pp ((CondExpr.land a sp b).text ++ trail.val) = some false := by
  have ha := @parses_of_readable pp a hwa hra
  have hb := @parses_of_readable pp b hwb hrb
  have hbase : ∀ rest out, TokenEnd rest → Stops 5 rest → LoopReads pp 5 0#32 rest out →
      LevelReads pp 6 ((CondExpr.land a sp b).text ++ rest) out := by
    intro rest out hend hs hl
    obtain ⟨hend', hs', hmatch⟩ := doubled_op sp (Or.inl rfl) (b.text ++ rest)
    obtain ⟨p, hp, hgo⟩ := hb.right (k := 5) (by decide) hlb hend hs
    have htext : (CondExpr.land a sp b).text ++ rest =
        a.text ++ (sp.val ++ (BinOp.band.text ++ (BinOp.band.text ++ (b.text ++ rest)))) := by
      simp only [CondExpr.text, List.append_assoc]
      rfl
    rw [htext]
    refine ha.level 5 (by decide) (Or.inl (by omega)) _ out hend' hs' (LoopReads.step hmatch (reads_half (Or.inl rfl) _) ?_)
    refine LoopReads.step (ppFirstMatch_op Spaces.none .band (noOpTail_text b rest)) hp (hgo _ _ ?_)
    rw [show BinOp.band.apply (BinOp.band.apply (a.read pp) 0#32) (b.read pp) = 0#32 by simp [BinOp.apply]]
    exact hl
  obtain ⟨hend, hs, -⟩ := stops_spaces trail 8
  have h8 := climb hbase 7 (by decide) (by decide) trail.val _ hend (hs.mono (by decide)) (LoopReads.stop (by decide) hs)
  obtain ⟨N, hN⟩ := LorReads.of_level h8 hs.skip
  exact ⟨N, fun n hn => by rw [ppEvalIf, hN n hn]; rfl⟩

end

/-! ## The value -/

/-- The `||` and the macros of an expression do no harm: a `||` is asked for its truth only (`t`) or joins values that are 0 or 1,
and the body of a macro is a literal. -/
def CondExpr.Harmless (pp : Preproc) : Bool → CondExpr → Prop
  | _, .num _ _ => True
  | _, .name _ id => ∀ m, ppFindMacro pp id.val = some m → ∃ v, LiteralBody m.body v
  | _, .definedIn _ _ _ _ _ => True
  | _, .definedAt _ _ _ => True
  | t, .paren _ e _ => e.Harmless pp t
  | _, .un _ .not e => e.Harmless pp true
  | _, .un _ .compl e => e.Harmless pp false
  | t, .un _ .plus e => e.Harmless pp t
  | t, .un _ .neg e => e.Harmless pp t
  | _, .bin a _ _ b => a.Harmless pp false ∧ b.Harmless pp false
  | _, .land _ _ _ => False
  | true, .lor a _ b => a.Harmless pp true ∧ b.Harmless pp true
  | false, .lor a _ b => a.Harmless pp false ∧ b.Harmless pp false ∧ (CValue pp a 0#32 ∨ CValue pp a 1#32) ∧
      (CValue pp b 0#32 ∨ CValue pp b 1#32)

/-- Where C defines a binary operator, the parsers compute it. -/
theorem BinOp.apply_eq {op : BinOp} {v r w : U32} (h : op.cApply v r = some w) : op.apply v r = w := by
  cases op with
  | div =>
    simp only [BinOp.cApply] at h
    split at h
    · cases h
    · rename_i hr
      cases h
      rw [BinOp.apply, if_neg (fun h0 => hr (Or.inl h0))]
  | mod =>
    simp only [BinOp.cApply] at h
    split at h
    · cases h
    · rename_i hr
      cases h
      rw [BinOp.apply, if_neg (fun h0 => hr (Or.inl h0))]
  | shl =>
    simp only [BinOp.cApply] at h
    split at h
    · rename_i hr
      cases h
      rw [BinOp.apply, Nat.mod_eq_of_lt hr]
    · cases h
  | shr =>
    simp only [BinOp.cApply] at h
    split at h
    · rename_i hr
      cases h
      rw [BinOp.apply, Nat.mod_eq_of_lt hr]
    · cases h
  | _ => cases h; rfl

theorem truth_eq_zero {b : Bool} : truth b = 0#32 ↔ b = false := by cases b <;> decide

theorem ppFindMacro_isSome (pp : Preproc) (id : List Byte) :
    (ppFindMacro pp id).isSome = pp.any fun m => decide (m.name = id) := by
  rw [Bool.eq_iff_iff, ppFindMacro, List.find?_isSome, List.any_eq_true]

theorem digit_spaces {sp : Spaces} {p : List Byte} (h : ppIsDigit ((sp.val ++ p).headD 0#8) = true) : sp.val = [] := by
  obtain ⟨s, hs⟩ := sp
  cases s with
  | nil => rfl
  | cons c s =>
    have hall : ∀ c : Byte, ppIsSpace c = true → ppIsDigit c = false := by decide
    have hc : ppIsDigit c = true := h
    rw [hall c (hs c List.mem_cons_self)] at hc
    cases hc

/-- Only a literal starts with a digit. -/
theorem num_of_digit {e : CondExpr} (h0 : e.level = 0) {p : List Byte} (h : ppIsDigit ((e.text ++ p).headD 0#8) = true) :
    ∃ sp lit, e = .num sp lit ∧ sp.val = [] := by
  have hletter : ∀ c : Byte, ppIsAlpha c = true → ppIsDigit c = false := by decide
  have hop : ∀ op : UnOp, ∀ q : List Byte, ppIsDigit ((op.text ++ q).headD 0#8) = false := by
    intro op q
    cases op <;> rfl
  cases e with
  | num sp lit =>
    rw [CondExpr.text, List.append_assoc] at h
    exact ⟨sp, lit, rfl, digit_spaces h⟩
  | name sp id =>
    rw [CondExpr.text, List.append_assoc] at h
    rw [digit_spaces h, List.nil_append, hletter _ (id.head_alpha p)] at h
    cases h
  | definedIn sp sp1 sp2 id sp3 =>
    simp only [CondExpr.text, List.append_assoc] at h
    rw [digit_spaces h] at h
    exact absurd (show ppIsDigit (Char.byte 'd') = true from h) (by decide)
  | definedAt sp sp1 id =>
    simp only [CondExpr.text, List.append_assoc] at h
    rw [digit_spaces h] at h
    exact absurd (show ppIsDigit (Char.byte 'd') = true from h) (by decide)
  | paren sp e sp1 =>
    simp only [CondExpr.text, List.append_assoc] at h
    rw [digit_spaces h] at h
    exact absurd (show ppIsDigit (Char.byte '(') = true from h) (by decide)
  | un sp op e =>
    simp only [CondExpr.text, List.append_assoc] at h
    rw [digit_spaces h, List.nil_append, hop] at h
    cases h
  | bin a sp op b => cases op <;> simp [CondExpr.level, BinOp.level] at h0
  | land a sp b => simp [CondExpr.level] at h0
  | lor a sp b => simp [CondExpr.level] at h0

theorem digit_of_ppUnsigned {q : List Byte} {r : U32 × List Byte} (h : ppUnsigned q = some r) : ppIsDigit (q.headD 0#8) = true := by
  unfold ppUnsigned at h
  split at h
  · rename_i hx
    rw [hx.1]
    decide
  · split at h
    · cases h
    · rename_i hd
      simpa using hd

/-- Where a number is read there is a digit, or a `-` and a digit. -/
theorem ppExprNumber_some {p : List Byte} {v : U32} (h : (ppExprNumber p).1 = some v) :
    ppIsDigit ((ppExprSkip p).headD 0#8) = true ∨
      ((ppExprSkip p).headD 0#8 = Char.byte '-' ∧ ∃ v' r, ppUnsigned (ppExprSkip p).tail = some (v', r) ∧ v = -v') := by
  unfold ppExprNumber at h
  dsimp only at h
  by_cases hneg : (ppExprSkip p).headD 0#8 = Char.byte '-'
  · simp only [hneg, decide_true, if_true] at h
    split at h
    · rename_i v' r hu
      exact Or.inr ⟨hneg, v', r, hu, (Option.some.inj h).symm⟩
    · cases h
  · simp only [hneg, decide_false, Bool.false_eq_true, if_false] at h
    split at h
    · rename_i v' r hu
      exact Or.inl (digit_of_ppUnsigned hu)
    · cases h

/-- A number is read where a text starts with a digit or with `-`. -/
theorem head_of_number {sp : Spaces} {q : List Byte} {v : U32} (h : (ppExprNumber (sp.val ++ q)).1 = some v)
    (hq : ppIsSpace (q.headD 0#8) = false) : ppIsDigit (q.headD 0#8) = true ∨ q.headD 0#8 = Char.byte '-' := by
  have := ppExprNumber_some h
  rw [ppExprSkip_append, ppExprSkip_of_head hq] at this
  exact this.imp id And.left

/-- A literal as the body of a macro has one reading. -/
theorem literal_value {pp : Preproc} {e : CondExpr} {sp1 : Spaces} {v v0 : U32} (hb : LiteralBody (e.text ++ sp1.val) v0)
    (hwf : e.WellFormed) (h0 : e.level = 0) (hv : CValue pp e v) : v0 = v := by
  have hnum := hb.number
  obtain ⟨hend, -, -⟩ := stops_spaces sp1 0
  have hno : ∀ {c : Byte}, ppIsDigit c = false → c ≠ Char.byte '-' → ¬(ppIsDigit c = true ∨ c = Char.byte '-') := by
    intro c h1 h2 h
    rcases h with h | h
    · rw [h1] at h; cases h
    · exact h2 h
  have halpha : ∀ c : Byte, ppIsAlpha c = true → ppIsSpace c = false ∧ ppIsDigit c = false ∧ c ≠ Char.byte '-' := by decide
  cases e with
  | num sp lit =>
    rw [CondExpr.text, List.append_assoc, ppExprNumber_literal sp lit hend] at hnum
    cases hv
    exact (Option.some.inj hnum).symm
  | name sp id =>
    rw [CondExpr.text, List.append_assoc] at hnum
    obtain ⟨h1, h2, h3⟩ := halpha _ (id.head_alpha sp1.val)
    exact absurd (head_of_number hnum h1) (hno h2 h3)
  | definedIn sp sp2 sp3 id sp4 =>
    simp only [CondExpr.text, List.append_assoc] at hnum
    exact absurd (head_of_number hnum (show ppIsSpace (Char.byte 'd') = false by decide)) (hno rfl (show Char.byte 'd' ≠ _ by decide))
  | definedAt sp sp2 id =>
    simp only [CondExpr.text, List.append_assoc] at hnum
    exact absurd (head_of_number hnum (show ppIsSpace (Char.byte 'd') = false by decide)) (hno rfl (show Char.byte 'd' ≠ _ by decide))
  | paren sp e sp2 =>
    simp only [CondExpr.text, List.append_assoc] at hnum
    exact absurd (head_of_number hnum (show ppIsSpace (Char.byte '(') = false by decide)) (hno rfl (show Char.byte '(' ≠ _ by decide))
  | un sp op e =>
    simp only [CondExpr.text, List.append_assoc] at hnum
    by_cases hneg : op = .neg
    · subst hneg
      have hskip : ppExprSkip (sp.val ++ (UnOp.neg.text ++ (e.text ++ sp1.val))) = UnOp.neg.text ++ (e.text ++ sp1.val) := by
        rw [ppExprSkip_append, ppExprSkip_of_head rfl]
      have hsome := ppExprNumber_some hnum
      rw [hskip] at hsome
      rcases hsome with hd | ⟨-, v', r, hu, rfl⟩
      · exact absurd (show ppIsDigit (Char.byte '-') = true from hd) (by decide)
      · have hu' : ppUnsigned (e.text ++ sp1.val) = some (v', r) := hu
        cases hv with
        | un _ _ hv =>
          obtain ⟨sp', lit, rfl, hsp'⟩ := num_of_digit hwf.2 (digit_of_ppUnsigned hu')
          rw [CondExpr.text, hsp', List.nil_append, ppUnsigned_literal lit hend] at hu'
          cases hu'
          cases hv
          rfl
    · have hq : ppIsSpace ((op.text ++ (e.text ++ sp1.val)).headD 0#8) = false := by cases op <;> rfl
      refine absurd (head_of_number hnum hq) (hno (by cases op <;> rfl) ?_)
      cases op with
      | neg => exact absurd rfl hneg
      | not => exact (show Char.byte '!' ≠ Char.byte '-' by decide)
      | compl => exact (show Char.byte '~' ≠ Char.byte '-' by decide)
      | plus => exact (show Char.byte '+' ≠ Char.byte '-' by decide)
  | bin a sp op b => cases op <;> simp [CondExpr.level, BinOp.level] at h0
  | land a sp b => simp [CondExpr.level] at h0
  | lor a sp b => simp [CondExpr.level] at h0

/-- The same value, or the same truth where only that is asked for. -/
def Agrees (t : Bool) (a b : U32) : Prop := if t then a = 0#32 ↔ b = 0#32 else a = b

theorem Agrees.of_eq {t : Bool} {a b : U32} (h : a = b) : Agrees t a b := by
  cases t <;> simp [Agrees, h]

theorem Agrees.eq {a b : U32} (h : Agrees false a b) : a = b := by simpa [Agrees] using h

theorem Agrees.truth {a b : U32} (h : Agrees true a b) : a = 0#32 ↔ b = 0#32 := by simpa [Agrees] using h

/-- An expression that does no harm is read as its C value, or as a value with the same truth where only that is asked for. -/
theorem read_agrees {pp : Preproc} (e : CondExpr) : ∀ {v : U32}, CValue pp e v → ∀ {t}, e.Harmless pp t → Agrees t (e.read pp) v := by
  induction e with
  | num sp lit =>
    intro v hv t _
    cases hv
    exact Agrees.of_eq rfl
  | name sp id =>
    intro v hv t hh
    refine Agrees.of_eq ?_
    cases hv with
    | undef _ _ h =>
      have hnone : ppFindMacro pp id.val = none := List.find?_eq_none.2 (fun m hm => by simpa using h m hm)
      rw [CondExpr.read, ppMacroValue, hnone]
    | replaced _ _ hm hobj hbody hwf h0 hv =>
      cases t
      all_goals
        obtain ⟨v0, hlit⟩ := hh _ hm
        rw [CondExpr.read, ppMacroValue, hm]
        dsimp only
        rw [hlit.number, Option.getD_some]
        exact literal_value (hbody ▸ hlit) hwf h0 hv
  | definedIn sp sp1 sp2 id sp3 =>
    intro v hv t _
    cases hv
    exact Agrees.of_eq (by rw [CondExpr.read, ppFindMacro_isSome])
  | definedAt sp sp1 id =>
    intro v hv t _
    cases hv
    exact Agrees.of_eq (by rw [CondExpr.read, ppFindMacro_isSome])
  | paren sp e sp1 ih =>
    intro v hv t hh
    cases hv with
    | paren _ _ hv => exact ih hv (by cases t <;> exact hh)
  | un sp op e ih =>
    intro v hv t hh
    cases hv with
    | un _ _ hv =>
      cases op with
      | not =>
        have h := (ih hv (t := true) (by cases t <;> exact hh)).truth
        refine Agrees.of_eq ?_
        simp only [CondExpr.read, UnOp.apply, h]
      | compl =>
        have h := (ih hv (t := false) (by cases t <;> exact hh)).eq
        exact Agrees.of_eq (by rw [CondExpr.read, h])
      | plus => exact ih hv (by cases t <;> exact hh)
      | neg =>
        have h := ih hv (t := t) (by cases t <;> exact hh)
        cases t with
        | true => simpa [Agrees, CondExpr.read, UnOp.apply] using h
        | false => exact Agrees.of_eq (by rw [CondExpr.read, h.eq])
  | bin a sp op b iha ihb =>
    intro v hv t hh
    cases hv with
    | bin _ _ h ha hb =>
      have hh' : a.Harmless pp false ∧ b.Harmless pp false := by cases t <;> exact hh
      refine Agrees.of_eq ?_
      rw [CondExpr.read, (iha ha hh'.1).eq, (ihb hb hh'.2).eq]
      exact BinOp.apply_eq h
  | land a sp b iha ihb =>
    intro v hv t hh
    cases t <;> exact hh.elim
  | lor a sp b iha ihb =>
    intro v hv t hh
    cases t with
    | true =>
      obtain ⟨hha, hhb⟩ := hh
      cases hv with
      | lorStop _ _ h ha =>
        have h1 := (iha ha hha).truth
        simp [Agrees, CondExpr.read, h1, h]
      | lor _ ha hb =>
        have h1 := (iha ha hha).truth
        have h2 := (ihb hb hhb).truth
        simp [Agrees, CondExpr.read, h1, h2, truth_eq_zero]
    | false =>
      obtain ⟨hha, hhb, hbita, hbitb⟩ := hh
      have hra : a.read pp = 0#32 ∨ a.read pp = 1#32 := hbita.imp (fun h => (iha h hha).eq) (fun h => (iha h hha).eq)
      have hrb : b.read pp = 0#32 ∨ b.read pp = 1#32 := hbitb.imp (fun h => (ihb h hhb).eq) (fun h => (ihb h hhb).eq)
      refine Agrees.of_eq ?_
      cases hv with
      | lorStop _ _ h ha =>
        have h1 : a.read pp = 1#32 := hra.resolve_left (fun h0 => h ((iha ha hha).eq.symm.trans h0))
        rcases hrb with h2 | h2 <;> simp [CondExpr.read, h1, h2]
      | lor _ ha hb =>
        have h1 : a.read pp = 0#32 := (iha ha hha).eq
        rw [← (ihb hb hhb).eq]
        rcases hrb with h2 | h2 <;> simp [CondExpr.read, h1, h2, truth]

/-- Every condition without `&&` and without long names, whose `||` and macros do no harm, has the truth of its C value. -/
theorem condition_has_cValue {pp : Preproc} {e : CondExpr} {v : U32} (hwf : e.WellFormed) (hv : CValue pp e v) (hr : e.Readable)
    (hh : e.Harmless pp true) (trail : Spaces) :
    ∃ N, ∀ n ≥ N, ppEvalIf n pp (e.text ++ trail.val) = some (decide (v ≠ 0#32)) := by
  obtain ⟨N, hN⟩ := @ppEvalIf_of_readable pp _ hwf hr trail
  refine ⟨N, fun n hn => ?_⟩
  rw [hN n hn]
  simp only [ne_eq, (read_agrees e hv hh).truth]

/-- A one-digit literal. -/
def CLiteral.digit (c : Byte) (h : ppIsDigit c = true) : CLiteral :=
  .dec [c] (by simp) (by simpa using h) (by simp)

/-- The name `N`. -/
def nameN : CName := ⟨asciiBytes "N", by decide, by decide⟩

/-- `N == 4 || !defined(N)`, where `N` is 4. -/
theorem condition_has_cValue_either :
    ∃ N, ∀ n ≥ N, ppEvalIf n [⟨asciiBytes "N", false, [], asciiBytes "4"⟩] (asciiBytes "N==4||!defined(N)") = some true := by
  have hfour : ∀ pp, CValue pp (.num .none (.digit (Char.byte '4') (by decide))) 4#32 := fun pp => .num pp .none _
  have hN : CValue [⟨asciiBytes "N", false, [], asciiBytes "4"⟩] (.name .none nameN) 4#32 :=
    @CValue.replaced _ .none nameN _ rfl rfl (.num .none (.digit (Char.byte '4') (by decide))) .none _ rfl trivial rfl (hfour _)
  have hlit : LiteralBody (asciiBytes "4") 4#32 :=
    ⟨.none, false, .digit (Char.byte '4') (by decide), .none, rfl, rfl⟩
  have hv : CValue [⟨asciiBytes "N", false, [], asciiBytes "4"⟩] (.lor (.bin (.name .none nameN) .none .eq
      (.num .none (.digit (Char.byte '4') (by decide)))) .none (.un .none .not (.definedIn .none .none .none nameN .none))) 1#32 :=
    .lorStop .none _ (by decide) (.bin (w := 1#32) .none .eq (by decide) hN (hfour _))
  refine condition_has_cValue ?_ hv ?_ ?_ .none
  · exact ⟨⟨show nameN.val ≠ asciiBytes "defined" by decide, trivial, by decide, by decide⟩, ⟨trivial, rfl⟩, by decide, by decide⟩
  · have hlen : nameN.val.length ≤ 31 := by decide
    exact ⟨⟨hlen, trivial⟩, hlen⟩
  · refine ⟨⟨fun m hm => ?_, trivial⟩, trivial⟩
    cases hm
    exact ⟨_, hlit⟩

/-- Some condition with a C value does not have its truth: `1 && 1` is false. -/
theorem condition_has_cValue_false :
    ¬∀ (pp : Preproc) (e : CondExpr) (v : U32) (trail : Spaces), e.WellFormed → CValue pp e v →
      ∃ N, ∀ n ≥ N, ppEvalIf n pp (e.text ++ trail.val) = some (decide (v ≠ 0#32)) := by
  intro h
  have hone : CValue [] (.num .none (.digit (Char.byte '1') (by decide))) 1#32 := .num [] .none _
  obtain ⟨N, hN⟩ := h [] (.land (.num .none (.digit (Char.byte '1') (by decide))) .none (.num .none (.digit (Char.byte '1') (by decide))))
    1#32 .none ⟨trivial, trivial, by decide, by decide⟩ (.land .none (by decide) hone hone)
  obtain ⟨M, hM⟩ := @ppEvalIf_land [] (.num .none (.digit (Char.byte '1') (by decide)))
    (.num .none (.digit (Char.byte '1') (by decide))) trivial trivial (by decide) trivial trivial (by decide) .none .none
  have := (hN (max N M) (le_max_left N M)).symm.trans (hM (max N M) (le_max_right N M))
  exact absurd this (by decide)

end MiniOs32
