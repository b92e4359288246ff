import MiniOs32.As.Pass

/-!
# Two runs of the assembler over the same line

Several statements compare two runs of the assembler over one source: the first pass with the second, a pass with what it should
have emitted, a pass with itself. What the runs share differs, but the walk through a line is the same. `AsmLogic` lists what such a
comparison has to say about the primitive steps; from that it follows for every line. The bytes behind the end of a line may
differ between the runs, so the cursors are related by `SameLine`: equal up to the NUL, and as long as each other.
-/

namespace MiniOs32

/-- Two cursors on the same rest of a line: the same characters up to a NUL. -/
def SameLine (l l' : List Byte) : Prop :=
  ∃ text g g' : List Byte, (∀ c ∈ text, c ≠ 0#8) ∧ g.length = g'.length ∧ g.headD 0#8 = 0#8 ∧ g'.headD 0#8 = 0#8 ∧
    l = text ++ g ∧ l' = text ++ g'

/-- The rest of a list from its first NUL on starts with one, or is empty. -/
theorem dropWhile_headD (l : List Byte) : (l.dropWhile (· != 0#8)).headD 0#8 = 0#8 := by
  induction l with
  | nil => rfl
  | cons c l ih =>
    rw [List.dropWhile_cons]
    split
    · exact ih
    · rename_i h
      simpa using h

instance : Std.Refl SameLine :=
  ⟨fun l => ⟨l.takeWhile (· != 0#8), l.dropWhile (· != 0#8), l.dropWhile (· != 0#8),
    fun _ hc => by simpa using List.mem_takeWhile_imp hc, rfl, dropWhile_headD l, dropWhile_headD l,
    List.takeWhile_append_dropWhile.symm, List.takeWhile_append_dropWhile.symm⟩⟩

namespace SameLine

variable {l l' : List Byte}

theorem head_eq (h : SameLine l l') : l'.headD 0#8 = l.headD 0#8 := by
  obtain ⟨text, g, g', -, -, h₀, h₀', rfl, rfl⟩ := h
  cases text with
  | nil => exact h₀'.trans h₀.symm
  | cons c text => rfl

theorem length_eq (h : SameLine l l') : l'.length = l.length := by
  obtain ⟨text, g, g', -, hg, -, -, rfl, rfl⟩ := h
  simp [hg]

/-- Before the NUL, one step keeps the cursors on the same line. -/
theorem tail (h : SameLine l l') (h0 : l.headD 0#8 ≠ 0#8) : SameLine l.tail l'.tail := by
  obtain ⟨text, g, g', ht, hg, h₀, h₀', rfl, rfl⟩ := h
  cases text with
  | nil => exact absurd h₀ h0
  | cons c text => exact ⟨text, g, g', fun d hd => ht d (List.mem_cons_of_mem c hd), hg, h₀, h₀', rfl, rfl⟩

/-- The second character is the same when there is a first one. -/
theorem second_eq (h : SameLine l l') (h0 : l.headD 0#8 ≠ 0#8) : l'.tail.headD 0#8 = l.tail.headD 0#8 :=
  (h.tail h0).head_eq

theorem looksAt_eq (h : SameLine l l') {a : Byte} (b : Byte) (ha : a ≠ 0#8) :
    (l'.headD 0#8 == a && l'.tail.headD 0#8 == b) = (l.headD 0#8 == a && l.tail.headD 0#8 == b) := by
  by_cases h0 : l.headD 0#8 = 0#8
  · have ha' : (0#8 == a) = false := by simpa using fun h => ha h.symm
    rw [h.head_eq, h0, ha', Bool.false_and, Bool.false_and]
  · rw [h.head_eq, h.second_eq h0]

theorem atDot_eq (h : SameLine l l') : (l'.headD 0#8 == Char.byte '.' && !isSymCh (l'.tail.headD 0#8)) =
    (l.headD 0#8 == Char.byte '.' && !isSymCh (l.tail.headD 0#8)) := by
  by_cases h0 : l.headD 0#8 = 0#8
  · rw [h.head_eq, h0]
    rfl
  · rw [h.head_eq, h.second_eq h0]

/-- A scan for characters other than NUL stops at the end of the line. -/
theorem span_end {g : List Byte} (hg : g.headD 0#8 = 0#8) (p : Byte → Bool) (hp : p 0#8 = false) (n : Nat) :
    MiniOs32.span p n g = ([], g) := by
  cases n with
  | zero => rfl
  | succ n =>
    cases g with
    | nil => rfl
    | cons c g =>
      obtain rfl : c = 0#8 := hg
      rw [span_cons, hp]
      rfl

/-- A scan for characters other than NUL takes the same characters on both lines and leaves them at the same place. -/
theorem span (h : SameLine l l') (p : Byte → Bool) (hp : p 0#8 = false) (n : Nat) :
    (MiniOs32.span p n l').1 = (MiniOs32.span p n l).1 ∧ SameLine (MiniOs32.span p n l).2 (MiniOs32.span p n l').2 := by
  obtain ⟨text, g, g', ht, hg, h₀, h₀', rfl, rfl⟩ := h
  induction text generalizing n with
  | nil =>
    rw [List.nil_append, List.nil_append, span_end h₀ p hp, span_end h₀' p hp]
    exact ⟨rfl, [], g, g', ht, hg, h₀, h₀', rfl, rfl⟩
  | cons c text ih =>
    cases n with
    | zero => exact ⟨rfl, c :: text, g, g', ht, hg, h₀, h₀', rfl, rfl⟩
    | succ n =>
      simp only [MiniOs32.span, List.cons_append]
      split
      · obtain ⟨h₁, h₂⟩ := ih n fun d hd => ht d (List.mem_cons_of_mem c hd)
        exact ⟨congrArg (c :: ·) h₁, h₂⟩
      · exact ⟨rfl, c :: text, g, g', ht, hg, h₀, h₀', rfl, rfl⟩

end SameLine

/-! ## What two runs read -/

/-- Equal values, in a comparison that is exact. -/
def Agree {α : Type} (exact : Prop) (a b : α) : Prop := exact → b = a

instance {α : Type} {exact : Prop} : Std.Refl (Agree (α := α) exact) := ⟨fun _ _ => rfl⟩

instance optionRel_refl {α : Type} {Q : α → α → Prop} [Std.Refl Q] : Std.Refl (Option.Rel Q) :=
  ⟨fun a => by cases a; exacts [.none, .some (Std.Refl.refl _)]⟩

instance forall₂_refl {α : Type} {Q : α → α → Prop} [Std.Refl Q] : Std.Refl (List.Forall₂ Q) :=
  ⟨fun _ => List.forall₂_same.mpr fun a _ => Std.Refl.refl a⟩

/-- The same expression seen by two runs: its value is the same when no symbol takes part, or when the runs agree on symbols. -/
structure Expr.Same (exact : Prop) (e e' : Expr) : Prop where
  hasSym : e'.hasSym = e.hasSym
  val : exact ∨ e.hasSym = false → e'.val = e.val

instance {exact : Prop} : Std.Refl (Expr.Same exact) := ⟨fun _ => ⟨rfl, fun _ => rfl⟩⟩

variable {exact : Prop}

/-- Two expressions in which a symbol takes part. -/
theorem Expr.Same.symbolic {v v' : U32} (h : Agree exact v v') : Expr.Same exact ⟨v, true⟩ ⟨v', true⟩ :=
  ⟨rfl, fun hor => hor.elim h nofun⟩

theorem Expr.Same.agree {e e' : Expr} (h : e.Same exact e') : Agree exact e.val e'.val := fun he => h.val (.inl he)

theorem Expr.Same.neg {e e' : Expr} (h : e.Same exact e') : Expr.Same exact ⟨-e.val, e.hasSym⟩ ⟨-e'.val, e'.hasSym⟩ :=
  ⟨h.hasSym, fun hs => congrArg (-·) (h.val hs)⟩

/-- A sum names a symbol when one of its terms does. -/
theorem Expr.Same.term {e e' r r' : Expr} (h : e.Same exact e') (hr : r.Same exact r') (f : U32 → U32 → U32) :
    Expr.Same exact ⟨f e.val r.val, e.hasSym || r.hasSym⟩ ⟨f e'.val r'.val, e'.hasSym || r'.hasSym⟩ := by
  refine ⟨by simp only [h.hasSym, hr.hasSym], ?_⟩
  rintro (he | hs)
  · simp only [h.val (.inl he), hr.val (.inl he)]
  · obtain ⟨h₁, h₂⟩ := Bool.or_eq_false_iff.mp hs
    simp only [h.val (.inr h₁), hr.val (.inr h₂)]

/-- The same operand seen by two runs. -/
structure Operand.Same (exact : Prop) (o o' : Operand) : Prop where
  kind : o'.kind = o.kind
  reg : o'.reg = o.reg
  size : o'.size = o.size
  base : o'.base = o.base
  index : o'.index = o.index
  scale : o.scale.Same exact o'.scale
  disp : o.disp.Same exact o'.disp

instance : Std.Refl (Operand.Same exact) := ⟨fun _ => ⟨rfl, rfl, rfl, rfl, rfl, Std.Refl.refl _, Std.Refl.refl _⟩⟩

/-! ## The logic -/

/-- A way to compare two runs: `rel Q m n` says that the runs stay comparable over `m` and `n`, whose values are related by `Q`.
It composes, and it holds of every primitive step. In an exact comparison the runs also agree on the values of symbols. -/
structure AsmLogic where
  exact : Prop
  rel : {α : Type} → (α → α → Prop) → AsmM α → AsmM α → Prop
  ret_rel : ∀ {α : Type} {Q : α → α → Prop} {a b : α}, Q a b → rel Q (pure a) (pure b)
  bind_rel : ∀ {α β : Type} {Q : α → α → Prop} [Std.Refl Q] {Q' : β → β → Prop} {m n : AsmM α} {k l : α → AsmM β},
    rel Q m n → (∀ a b, Q a b → rel Q' (k a) (l b)) → rel Q' (m >>= k) (n >>= l)
  spin_rel : ∀ {α : Type} {Q : α → α → Prop}, rel Q (spin : AsmM α) spin
  err_rel : ∀ (msg : String) (d : List Byte), rel Eq (err msg d) (err msg d)
  peek_rel : rel Eq peek peek
  looksAt_rel : ∀ a b : Byte, a ≠ 0#8 → rel Eq (looksAt a b) (looksAt a b)
  atDot_rel : rel Eq atDot atDot
  currentSec_rel : rel Eq currentSec currentSec
  /-- A computation whose depth bound is read off the rest of the line. -/
  fuel_rel : ∀ {α : Type} {Q : α → α → Prop} (f : Nat → Nat) {m n : Nat → AsmM α}, (∀ k, rel Q (m k) (n k)) →
    rel Q (do m (f (← get).lp.length)) (do n (f (← get).lp.length))
  advance_rel : rel Eq advance advance
  noteLit_rel : rel Eq (modify Asm.noteLit : AsmM Unit) (modify Asm.noteLit)
  takeSpan_rel : ∀ p : Byte → Bool, p 0#8 = false → ∀ n, rel Eq (takeSpan p n) (takeSpan p n)
  cursor_rel : rel SameLine cursor cursor
  setCursor_rel : ∀ {l l' : List Byte}, SameLine l l' → rel Eq (setCursor l) (setCursor l')
  emit8_rel : ∀ {b b' : Byte}, Agree exact b b' → rel Eq (emit8 b) (emit8 b')
  symValue_rel : ∀ name : List Byte, rel (Agree exact) (symValue name) (symValue name)
  currentAddr_rel : rel (Agree exact) currentAddr currentAddr
  scaleBits_rel : ∀ {sc sc' : Expr}, sc.Same exact sc' → rel (Agree exact) (scaleBits sc) (scaleBits sc')
  relTo_rel : ∀ {e e' : Expr}, e.Same exact e' → rel (Agree exact) (relTo e) (relTo e')
  addBss_rel : ∀ n : Int, rel Eq (modify fun s : Asm => { s with bssLen := s.bssLen + n })
    (modify fun s : Asm => { s with bssLen := s.bssLen + n })
  setSec_rel : ∀ sec : Sec, rel Eq (modify fun s : Asm => { s with curSec := sec }) (modify fun s : Asm => { s with curSec := sec })
  alignBy_rel : ∀ (pow2 : Bool) {a a' : Expr}, a.Same exact a' → rel Eq (alignBy pow2 a) (alignBy pow2 a')
  define_rel : ∀ (name : List Byte) {v v' : Expr}, v.Same exact v' →
    rel Eq (modify fun s : Asm => s.define name v) (modify fun s : Asm => s.define name v')
  placeLabel_rel : ∀ name : List Byte, rel Eq (modify fun s : Asm => s.placeLabel name) (modify fun s : Asm => s.placeLabel name)

namespace AsmLogic.rel

variable {L : AsmLogic} {α β : Type} {Q : α → α → Prop} {Q' : β → β → Prop} {m n : AsmM α} {k l : α → AsmM β}

theorem ret {a b : α} (h : Q a b) : L.rel Q (pure a) (pure b) := L.ret_rel h

theorem bind [Std.Refl Q] (hm : L.rel Q m n) (hk : ∀ a b, Q a b → L.rel Q' (k a) (l b)) : L.rel Q' (m >>= k) (n >>= l) :=
  L.bind_rel hm hk

/-- Sequences whose first parts return the same value. -/
theorem seq (hm : L.rel Eq m n) (hk : ∀ a, L.rel Q' (k a) (l a)) : L.rel Q' (m >>= k) (n >>= l) :=
  L.bind_rel hm fun a b h => by subst h; exact hk a

/-- A branch on the same condition. -/
theorem ite {c : Prop} [Decidable c] {m₁ m₂ n₁ n₂ : AsmM α} (h₁ : c → L.rel Q m₁ n₁) (h₂ : ¬c → L.rel Q m₂ n₂) :
    L.rel Q (if c then m₁ else m₂) (if c then n₁ else n₂) := by
  split
  case isTrue h => exact h₁ h
  case isFalse h => exact h₂ h

/-- A branch on the same condition, which the branches need not know. -/
theorem branch {c : Prop} [Decidable c] {m₁ m₂ n₁ n₂ : AsmM α} (h₁ : L.rel Q m₁ n₁) (h₂ : L.rel Q m₂ n₂) :
    L.rel Q (if c then m₁ else m₂) (if c then n₁ else n₂) := ite (fun _ => h₁) fun _ => h₂

end AsmLogic.rel

variable (L : AsmLogic)

/-! ## The cursor -/

theorem AsmLogic.takeAll_rel (p : Byte → Bool) (hp : p 0#8 = false) : L.rel Eq (takeAll p) (takeAll p) :=
  L.fuel_rel (fun n => n) (L.takeSpan_rel p hp)

theorem AsmLogic.skipWs_rel : L.rel Eq skipWs skipWs :=
  (L.takeAll_rel isSpaceCh (by decide)).seq fun _ => .ret rfl

theorem AsmLogic.eat_rel (c : Byte) : L.rel Eq (eat c) (eat c) :=
  L.skipWs_rel.seq fun _ => L.peek_rel.seq fun _ => .branch (L.advance_rel.seq fun _ => .ret rfl) (.ret rfl)

theorem AsmLogic.skipCh_rel (c : Byte) : L.rel Eq (skipCh c) (skipCh c) :=
  L.peek_rel.seq fun _ => .branch L.advance_rel (.ret rfl)

theorem AsmLogic.readName_rel : L.rel Eq readName readName :=
  L.skipWs_rel.seq fun _ => L.peek_rel.seq fun _ => .branch (L.takeSpan_rel isSymCh (by decide) 31) (.ret rfl)

/-! ## Expressions -/

theorem isDigitOf_nul (base : Nat) : isDigitOf base 0#8 = false := rfl

theorem AsmLogic.parseRadix_rel : L.rel Eq parseRadix parseRadix := by
  have hlook : ∀ b, L.rel Eq (looksAt (Char.byte '0') b) (looksAt (Char.byte '0') b) :=
    fun b => L.looksAt_rel (Char.byte '0') b (by decide)
  refine (hlook _).seq fun x => (hlook _).seq fun X => (hlook _).seq fun b => (hlook _).seq fun B => ?_
  refine .branch ?_ (.branch ?_ (.ret rfl))
  · exact L.advance_rel.seq fun _ => L.advance_rel.seq fun _ => .ret rfl
  · exact L.advance_rel.seq fun _ => L.advance_rel.seq fun _ => .ret rfl

theorem AsmLogic.parseNumber_rel : L.rel (Expr.Same L.exact) parseNumber parseNumber :=
  L.parseRadix_rel.seq fun base => (L.takeAll_rel _ (isDigitOf_nul base)).seq fun _ => .ret (Std.Refl.refl _)

theorem AsmLogic.parseEscaped_rel : L.rel Eq parseEscaped parseEscaped :=
  L.peek_rel.seq fun _ => L.advance_rel.seq fun _ =>
    .branch (L.peek_rel.seq fun _ => L.advance_rel.seq fun _ => .ret rfl) (.ret rfl)

theorem AsmLogic.parseCharLit_rel : L.rel (Expr.Same L.exact) parseCharLit parseCharLit :=
  L.advance_rel.seq fun _ => L.noteLit_rel.seq fun _ => L.parseEscaped_rel.seq fun _ =>
    (L.skipCh_rel _).seq fun _ => .ret (Std.Refl.refl _)

/-- The parsers of expressions stay comparable, by induction on their depth bound. -/
theorem AsmLogic.parse_rel (k : Nat) :
    L.rel (Expr.Same L.exact) (parseAtom k) (parseAtom k) ∧ L.rel (Expr.Same L.exact) (parseExpr k) (parseExpr k) ∧
      ∀ e e', e.Same L.exact e' → L.rel (Expr.Same L.exact) (parseTerms k e) (parseTerms k e') := by
  induction k with
  | zero =>
    refine ⟨?_, ?_, fun e e' _ => ?_⟩
    · rw [parseAtom]
      exact L.spin_rel
    · rw [parseExpr]
      exact L.spin_rel
    · rw [parseTerms, parseTerms]
      exact L.spin_rel
  | succ k ih =>
    obtain ⟨ihAtom, ihExpr, ihTerms⟩ := ih
    refine ⟨?_, ?_, fun e e' he => ?_⟩
    · rw [parseAtom]
      refine L.skipWs_rel.seq fun _ => L.peek_rel.seq fun c => ?_
      refine .branch ?_ (.branch ?_ (.branch ?_ (.branch ?_ (.branch ?_ (L.atDot_rel.seq fun _ => .branch ?_ (.branch ?_ ?_))))))
      · refine L.advance_rel.seq fun _ => ihExpr.bind fun e e' he => (L.eat_rel _).seq fun _ => ?_
        exact .branch (.ret he) ((L.err_rel _ _).seq fun _ => .ret he)
      · exact L.advance_rel.seq fun _ => ihAtom.bind fun e e' he => .ret he.neg
      · exact L.advance_rel.seq fun _ => ihAtom
      · exact L.parseCharLit_rel
      · exact L.parseNumber_rel
      · exact L.advance_rel.seq fun _ => L.currentAddr_rel.bind fun v v' hv => .ret (.symbolic hv)
      · exact L.readName_rel.seq fun name => (L.symValue_rel name).bind fun v v' hv => .ret (.symbolic hv)
      · refine (L.err_rel _ _).seq fun _ => L.peek_rel.seq fun _ => ?_
        exact .branch (L.advance_rel.seq fun _ => .ret (Std.Refl.refl _)) (.ret (Std.Refl.refl _))
    · rw [parseExpr]
      exact ihAtom.bind fun e e' he => ihTerms e e' he
    · rw [parseTerms, parseTerms]
      refine L.skipWs_rel.seq fun _ => L.peek_rel.seq fun c => .branch ?_ (.ret he)
      refine L.advance_rel.seq fun _ => ihAtom.bind fun r r' hr => ihTerms _ _ ?_
      exact he.term hr fun x y => if c = Char.byte '-' then x - y else x + y

theorem AsmLogic.expr_rel : L.rel (Expr.Same L.exact) expr expr :=
  L.fuel_rel (fun n => 3 * n + 3) fun k => (L.parse_rel k).2.1

/-! ## Operands -/

theorem AsmLogic.parseRegOperand_rel : L.rel Eq parseRegOperand parseRegOperand := by
  refine L.readName_rel.seq fun name => .branch ((L.err_rel _ _).seq fun _ => .ret rfl) ?_
  cases regLookup name with
  | none => exact (L.err_rel _ _).seq fun _ => .ret rfl
  | some r => exact .ret rfl

theorem AsmLogic.parseBase_rel : L.rel Eq parseBase parseBase := by
  refine L.skipWs_rel.seq fun _ => L.peek_rel.seq fun _ => .branch ?_ (.ret rfl)
  refine L.advance_rel.seq fun _ => L.parseRegOperand_rel.seq fun r => ?_
  cases r with
  | none => exact .ret rfl
  | some r => exact .branch ((L.err_rel _ _).seq fun _ => .ret rfl) (.ret rfl)

theorem AsmLogic.parseIndex_rel : L.rel Eq parseIndex parseIndex := by
  refine L.skipWs_rel.seq fun _ => L.peek_rel.seq fun _ => .branch ?_ (.ret rfl)
  refine L.advance_rel.seq fun _ => L.parseRegOperand_rel.seq fun r => ?_
  cases r with
  | none => exact .ret rfl
  | some r =>
    refine .branch ?_ (.branch ?_ (.ret rfl))
    · exact (L.err_rel _ _).seq fun _ => .ret rfl
    · exact (L.err_rel _ _).seq fun _ => .ret rfl

theorem AsmLogic.parseScale_rel : L.rel (Expr.Same L.exact) parseScale parseScale :=
  L.skipWs_rel.seq fun _ => L.peek_rel.seq fun _ => .branch (L.advance_rel.seq fun _ => L.expr_rel) (.ret (Std.Refl.refl _))

/-- The same index register, and the same scale factor. -/
def SameIndexScale (exact : Prop) (p p' : Option RegNum × Expr) : Prop := p'.1 = p.1 ∧ p.2.Same exact p'.2

instance : Std.Refl (SameIndexScale exact) := ⟨fun _ => ⟨rfl, Std.Refl.refl _⟩⟩

theorem AsmLogic.parseIndexScale_rel : L.rel (Option.Rel (SameIndexScale L.exact)) parseIndexScale parseIndexScale := by
  refine L.skipWs_rel.seq fun _ => L.peek_rel.seq fun _ => .branch ?_ (.ret (Std.Refl.refl _))
  refine L.advance_rel.seq fun _ => L.parseIndex_rel.seq fun i => ?_
  cases i with
  | none => exact .ret .none
  | some i => exact L.parseScale_rel.bind fun sc sc' h => .ret (.some ⟨rfl, h⟩)

theorem AsmLogic.parseParens_rel {disp disp' : Expr} (h : disp.Same L.exact disp') :
    L.rel (Option.Rel (Operand.Same L.exact)) (parseParens disp) (parseParens disp') := by
  refine L.advance_rel.seq fun _ => L.parseBase_rel.seq fun b => ?_
  cases b with
  | none => exact .ret .none
  | some b =>
    refine L.parseIndexScale_rel.bind fun p p' hp => ?_
    cases hp with
    | none => exact .ret .none
    | some hp =>
      obtain ⟨hi, hs⟩ := hp
      refine (L.eat_rel _).seq fun _ => .branch (.ret (.some ?_)) ((L.err_rel _ _).seq fun _ => .ret .none)
      exact ⟨rfl, rfl, rfl, rfl, hi, hs, h⟩

theorem AsmLogic.parseDisp_rel : L.rel (Expr.Same L.exact) parseDisp parseDisp :=
  L.skipWs_rel.seq fun _ => L.peek_rel.seq fun _ => .branch L.expr_rel (.ret (Std.Refl.refl _))

theorem AsmLogic.parseMem_rel : L.rel (Option.Rel (Operand.Same L.exact)) parseMem parseMem := by
  refine L.parseDisp_rel.bind fun disp disp' h => L.skipWs_rel.seq fun _ => L.peek_rel.seq fun _ => ?_
  refine .branch (L.parseParens_rel h) (.ret (.some ?_))
  exact ⟨rfl, rfl, rfl, rfl, rfl, Std.Refl.refl _, h⟩

theorem AsmLogic.parseOperandAt_rel (k : Nat) :
    L.rel (Option.Rel (Operand.Same L.exact)) (parseOperandAt k) (parseOperandAt k) := by
  induction k with
  | zero => exact L.spin_rel
  | succ k ih =>
    refine L.skipWs_rel.seq fun _ => L.peek_rel.seq fun c => ?_
    refine .branch (.ret .none) (.branch ?_ (.branch ?_ (.branch (L.advance_rel.seq fun _ => ih) L.parseMem_rel)))
    · refine L.advance_rel.seq fun _ => L.parseRegOperand_rel.seq fun r => ?_
      cases r with
      | none => exact .ret .none
      | some r => exact .ret (.some (Std.Refl.refl _))
    · refine L.advance_rel.seq fun _ => L.expr_rel.bind fun e e' h => .ret (.some ?_)
      exact ⟨rfl, rfl, rfl, rfl, rfl, Std.Refl.refl _, h⟩

theorem AsmLogic.parseOperand_rel : L.rel (Option.Rel (Operand.Same L.exact)) parseOperand parseOperand :=
  L.fuel_rel (fun n => n + 1) L.parseOperandAt_rel

end MiniOs32
