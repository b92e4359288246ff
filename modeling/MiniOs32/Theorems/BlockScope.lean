import MiniOs32.Cc.Blocks

/-!
# Names are found by block scope

Every name in a function body is to be compiled against the declaration that C's scope rules select. This fails: a declaration in
the body of a `switch` stays in the table behind it, and an enumerator comes before a variable that hides it
(`names_by_scope_false`). It holds for every unit whose declarations and uses are plain (`names_by_scope_of_plain`). The proof
keeps the tables beside the scope (`Tables.Agrees`) over statements, by induction on their trees.
-/

namespace MiniOs32

/-- The tables hold what is declared at file scope. -/
structure Tables.Holds (T : Tables) (F : FileScope) : Prop where
  enums : ∀ x, PlainName x → T.findEnum x = F.findEnum x
  globals : ∀ x, PlainName x → (x ∈ T.globals ↔ x ∈ F.globals)
  funcs : ∀ x, PlainName x → (x ∈ T.funcs ↔ x ∈ F.funcs)

/-- The tables hold what the scope at a point of a function has. -/
structure Tables.Agrees (T : Tables) (S : CScope) : Prop extends T.Holds S.file where
  locals : ∀ x, PlainName x → x ∉ S.left →
    ((T.locals.reverse.find? fun s => decide (s.1 = x)).map fun s => Entity.local s.2) =
      (S.block.find? fun b => decide (b.1 = x)).map (·.2)

theorem PlainName.stored_eq {x : List Byte} (h : PlainName x) : stored x = x :=
  List.take_of_length_le (by have := h.1; omega)

section Looks

variable {P G T : Tables} {S : CScope} {x : List Byte} {l : Lookup}

/-- A local variable is found as the latest in the innermost block. -/
theorem Tables.Agrees.findVar_eq (h : G.Agrees S) (hx : PlainName x) (hs : x ∉ S.left) :
    G.findVar x = ((S.block.find? fun b => decide (b.1 = x)).map (·.2)).or
      (if x ∈ S.file.globals then some (.global x) else none) := by
  unfold Tables.findVar
  rw [hx.stored_eq, h.locals x hx hs]
  simp only [h.globals x hx]

theorem Tables.Agrees.findFunc_eq (h : G.Agrees S) (hx : PlainName x) :
    G.findFunc x = if x ∈ S.file.funcs then some (.func x) else none := by
  unfold Tables.findFunc
  rw [hx.stored_eq]
  simp only [h.funcs x hx]

theorem Tables.findVar_isVar {e : Entity} (h : G.findVar x = some e) : e.isVar = true := by
  rw [Tables.findVar, Option.or_eq_some_iff] at h
  rcases h with h | ⟨-, h⟩
  · obtain ⟨s, -, rfl⟩ := Option.map_eq_some_iff.mp h
    rfl
  · split at h
    · cases h
      rfl
    · cases h

/-- Where no enumerator has the name, the visible declaration is the variable found, else the function. -/
theorem Tables.Agrees.seen_cases (h : G.Agrees S) (hx : PlainName x) (hs : x ∉ S.left) (he : S.file.findEnum x = none) :
    (∃ e, e.isVar = true ∧ G.findVar x = some e ∧ S.visible x = some e) ∨
      (G.findVar x = none ∧ x ∈ S.file.funcs ∧ S.visible x = some (.func x)) ∨
      G.findVar x = none ∧ x ∉ S.file.funcs ∧ S.visible x = none := by
  have hv : S.visible x = (G.findVar x).or (if x ∈ S.file.funcs then some (.func x) else none) := by
    rw [h.findVar_eq hx hs, CScope.visible, Option.or_assoc, FileScope.find, he]
    split <;> rfl
  cases hf : G.findVar x with
  | some e => exact .inl ⟨e, Tables.findVar_isVar hf, rfl, by rw [hv, hf, Option.some_or]⟩
  | none =>
    rw [hf, Option.none_or] at hv
    by_cases hm : x ∈ S.file.funcs
    · exact .inr (.inl ⟨rfl, hm, by rw [hv, if_pos hm]⟩)
    · exact .inr (.inr ⟨rfl, hm, by rw [hv, if_neg hm]⟩)

/-- A plain look finds what it should. The enumerators are those of the time of parsing. -/
theorem Tables.Agrees.find_eq (hP : ∀ x, PlainName x → P.findEnum x = S.file.findEnum x) (h : G.Agrees S)
    (hl : (S.look l).Plain) : P.find G l = (S.look l).wanted := by
  obtain ⟨hn, he, hleft, hr⟩ := hl
  change PlainName l.name at hn
  unfold Tables.find
  rw [hP _ hn]
  cases hf : S.file.findEnum l.name with
  | some i =>
    have hs : (S.look l).seen = some (.enumerator i) := he i hf
    cases l <;> simp only [Look.wanted, hs] <;> rfl
  | none =>
    have hs := h.seen_cases hn (of_decide_eq_false (hleft hf)) hf
    have hfn := h.findFunc_eq hn
    clear he hf hleft
    cases l with
    | value x | const x =>
      simp only [CScope.look, Lookup.name, Look.wanted] at hs hfn ⊢
      rcases hs with ⟨e, hvar, hx, hv⟩ | ⟨hx, hm, hv⟩ | ⟨hx, hm, hv⟩
      · cases e <;> simp_all [Entity.isVar]
      · simp [hfn, hx, hv, hm]
      · simp [hfn, hx, hv, hm]
    | addrRead x | callRead x =>
      simp only [CScope.look, Lookup.name, Look.wanted] at hr hs hfn ⊢
      rcases hs with ⟨e, hvar, hx, hv⟩ | ⟨hx, hm, hv⟩ | ⟨hx, hm, hv⟩
      · have hm : x ∉ S.file.funcs := by
          simp only [hv, Option.any_some, hvar, Bool.true_eq_false, imp_false, Bool.not_eq_true] at hr
          exact of_decide_eq_false hr
        cases e <;> simp_all [Entity.isVar]
      · simp [hfn, hx, hv, hm]
      · simp [hfn, hx, hv, hm]
    | called x =>
      simp only [CScope.look, Lookup.name, Look.wanted] at hr hs hfn ⊢
      rcases hs with ⟨e, hvar, hx, hv⟩ | ⟨hx, hm, hv⟩ | ⟨hx, hm, hv⟩
      · have hb : isBuiltin x = false := by
          by_contra hb
          simp [hb, hv, hvar] at hr
        cases e <;> simp_all [Entity.isVar]
      · simp [hx, hv]
      · simp [hx, hv]

/-- A call adds no function: the one called is declared. -/
theorem Tables.Agrees.after_eq (hP : ∀ x, PlainName x → P.findEnum x = S.file.findEnum x) (h : G.Agrees S)
    (hl : (S.look l).Plain) : P.after G l = G := by
  obtain ⟨hn, -, hleft, hr⟩ := hl
  cases l with
  | value x | addrRead x | callRead x | const x => rfl
  | called x =>
    simp only [CScope.look, Lookup.name] at hr hn
    unfold Tables.after
    simp only [hP x hn]
    split
    · rfl
    · rename_i hb
      simp only [Bool.or_eq_true, not_or, Bool.not_eq_true, Option.isSome_eq_false_iff, Option.isNone_iff_eq_none] at hb
      obtain ⟨⟨hE, hB⟩, hV⟩ := hb
      rcases h.seen_cases hn (of_decide_eq_false (hleft hE)) hE with ⟨e, -, hx, -⟩ | ⟨-, hm, -⟩ | ⟨-, -, hv⟩
      · rw [hV] at hx
        cases hx
      · rw [Tables.addFunc, hn.stored_eq, if_pos ((h.funcs x hn).mpr hm)]
      · simp [hB, hv] at hr

/-- Several looks. -/
theorem Tables.Agrees.findAll_eq (hP : ∀ x, PlainName x → P.findEnum x = S.file.findEnum x) (h : G.Agrees S) :
    ∀ {ls : List Lookup}, (∀ l ∈ ls.map S.look, l.Plain) → P.findAll G ls = ((ls.map S.look).map Look.wanted, G)
  | [], _ => rfl
  | l :: ls, hl => by
    rw [List.map_cons, List.forall_mem_cons] at hl
    rw [Tables.findAll, h.after_eq hP hl.1, h.findAll_eq hP hl.2, h.find_eq hP hl.1]
    rfl

end Looks

/-! ## Expressions -/

section Expressions

variable {P G T : Tables} {S : CScope} {e : Source}

theorem Tables.Agrees.map_find_eq (hP : ∀ x, PlainName x → P.findEnum x = S.file.findEnum x) (h : G.Agrees S)
    {ls : List Lookup} (hl : ∀ l ∈ ls.map S.look, l.Plain) : ls.map (P.find G) = (ls.map S.look).map Look.wanted := by
  rw [List.map_map]
  exact List.map_congr_left fun l hm => h.find_eq hP (hl _ (List.mem_map_of_mem hm))

theorem Tables.Agrees.parse_eq (h : T.Agrees S) (hl : ∀ l ∈ S.parse e, l.Plain) : T.parse e = (S.parse e).map Look.wanted :=
  h.map_find_eq h.enums hl

theorem Tables.Agrees.source_eq (h : T.Agrees S) (hl : ∀ l ∈ S.source e, l.Plain) :
    T.source e = ((S.source e).map Look.wanted, T) := by
  obtain ⟨hs, hg⟩ := List.forall_mem_append.mp hl
  rw [Tables.source, h.findAll_eq h.enums hg, h.parse_eq hs, CScope.source, List.map_append]
  rfl

theorem Tables.Agrees.constant_eq (h : T.Agrees S) (hl : ∀ l ∈ S.constant e, l.Plain) :
    T.constant e = (S.constant e).map Look.wanted := by
  obtain ⟨hs, hc⟩ := List.forall_mem_append.mp hl
  rw [Tables.constant, h.parse_eq hs, h.map_find_eq h.enums hc, CScope.constant, List.map_append]

/-- What holds of the names of each expression holds of those of a list. -/
theorem flatMap_wanted {α : Type} {f : α → List (Option Entity)} {g : α → List Look} :
    ∀ {xs : List α}, (∀ x ∈ xs, (∀ l ∈ g x, l.Plain) → f x = (g x).map Look.wanted) → (∀ l ∈ xs.flatMap g, l.Plain) →
      xs.flatMap f = (xs.flatMap g).map Look.wanted
  | [], _, _ => rfl
  | x :: xs, hf, hl => by
    rw [List.flatMap_cons, List.forall_mem_append] at hl
    rw [List.forall_mem_cons] at hf
    rw [List.flatMap_cons, List.flatMap_cons, List.map_append, hf.1 hl.1, flatMap_wanted hf.2 hl.2]

/-- The names of a list in braces, parsed in the tables `P`. -/
theorem Tables.Agrees.braced_eq (hP : ∀ x, PlainName x → P.findEnum x = S.file.findEnum x) (h : G.Agrees S) :
    ∀ {es : List Source}, (∀ l ∈ es.flatMap S.gen, l.Plain) → P.braced G es = ((es.flatMap S.gen).map Look.wanted, G)
  | [], _ => rfl
  | e :: es, hl => by
    rw [List.flatMap_cons, List.forall_mem_append] at hl
    rw [Tables.braced, h.findAll_eq hP hl.1, h.braced_eq hP hl.2, List.flatMap_cons, List.map_append]
    rfl

/-- A clause of a `for`, parsed in the tables `P`. -/
theorem Tables.Agrees.later_eq (hP : ∀ x, PlainName x → P.findEnum x = S.file.findEnum x) (h : G.Agrees S)
    {o : Option Source} (hl : ∀ l ∈ o.toList.flatMap S.gen, l.Plain) :
    P.later G o = ((o.toList.flatMap S.gen).map Look.wanted, G) := by
  cases o with
  | none => rfl
  | some e =>
    rw [Option.toList_some, List.flatMap_singleton] at hl ⊢
    exact h.findAll_eq hP hl

/-- A name other than that of a variable just declared is looked up as before. -/
theorem CScope.look_declare {x : List Byte} {d : Entity} {l : Lookup} (h : l.name ≠ x) : (S.declare x d).look l = S.look l := by
  have hv : (S.declare x d).visible l.name = S.visible l.name := by
    unfold CScope.visible CScope.declare
    rw [List.find?_cons_of_neg (by simpa using h.symm)]
  have hs : decide (l.name ∈ (S.declare x d).left) = decide (l.name ∈ S.left) := by simp [CScope.declare, h]
  rw [CScope.look, CScope.look, hv, hs]
  rfl

theorem CScope.parse_declare {x : List Byte} {d : Entity} (h : ∀ l ∈ e.sizes.flatMap Node.reads, l.name ≠ x) :
    (S.declare x d).parse e = S.parse e :=
  List.map_congr_left fun l hl => CScope.look_declare (h l hl)

end Expressions

mutual

theorem Node.mem_consts {l : Lookup} : ∀ {e : Node}, l ∈ e.consts → ∃ x, l = .const x
  | .num _, h | .fnum _, h | .str _, h => nomatch h
  | .var x, h => ⟨x, List.mem_singleton.mp h⟩
  | .addr e, h | .deref e, h | .dot e _, h | .arrow e _, h | .cast _ e, h | .unary _ e, h | .vaArg e _, h =>
    Node.mem_consts (e := e) h
  | .bin _ _ _, h | .logical _ _ _, h | .assign _ _, h | .index _ _, h =>
    (List.mem_append.mp h).elim Node.mem_consts Node.mem_consts
  | .tern _ _ _, h =>
    (List.mem_append.mp h).elim (fun h => (List.mem_append.mp h).elim Node.mem_consts Node.mem_consts) Node.mem_consts
  | .call _ _, h => (List.mem_append.mp h).elim Node.mem_consts Node.mem_argConsts

theorem Node.mem_argConsts {l : Lookup} : ∀ {es : List Node}, l ∈ Node.argConsts es → ∃ x, l = .const x
  | [], h => nomatch h
  | _ :: _, h => (List.mem_append.mp h).elim Node.mem_consts Node.mem_argConsts

end

/-! ## Declarations -/

/-- A part of a body compiled beside the same part under C's rules: its names are found as they should be, the tables it leaves
hold the scope it leaves, and it only adds locals and declarations. -/
structure Tables.Matches (T : Tables) (S : CScope) (r : List (Option Entity) × Tables) (c : List Look × CScope) : Prop where
  found : r.1 = c.1.map Look.wanted
  agrees : r.2.Agrees c.2
  locals : T.locals <+: r.2.locals
  block : S.block <:+ c.2.block
  file : c.2.file = S.file

section Declarations

variable {fn x : List Byte} {T : Tables} {S : CScope} {r r' : List (Option Entity) × Tables} {c c' : List Look × CScope}

namespace Tables.Matches

theorem of_found (h : T.Agrees S) {fs : List (Option Entity)} {ls : List Look} (hf : fs = ls.map Look.wanted) :
    T.Matches S (fs, T) (ls, S) :=
  ⟨hf, h, List.prefix_rfl, List.suffix_rfl, rfl⟩

/-- Two parts, one after the other. -/
theorem append (h : T.Matches S r c) (h' : r.2.Matches c.2 r' c') : T.Matches S (r.1 ++ r'.1, r'.2) (c.1 ++ c'.1, c'.2) where
  found := by rw [h.found, h'.found, List.map_append]
  agrees := h'.agrees
  locals := h.locals.trans h'.locals
  block := h.block.trans h'.block
  file := h'.file.trans h.file

theorem holds (h : T.Matches S r c) : r.2.Holds S.file := by
  rw [← h.file]
  exact h.agrees.toHolds

/-- Behind a part that does not restore the locals, what it declared is left over. -/
theorem leave (h : T.Matches S r c) : T.Matches S r (c.1, S.leave c.2) := by
  refine ⟨h.found, ⟨h.holds, fun x hx hs => ?_⟩, h.locals, List.suffix_rfl, rfl⟩
  obtain ⟨new, hb⟩ := h.block
  simp only [CScope.leave, ← hb, List.length_append, Nat.add_sub_cancel, List.take_left, List.mem_append, not_or] at hs
  rw [h.agrees.locals x hx hs.2, ← hb, List.find?_append]
  have hnone : new.find? (fun b => decide (b.1 = x)) = none := by
    refine List.find?_eq_none.mpr fun b hm hbx => hs.1 ?_
    exact List.mem_map.mpr ⟨b, hm, of_decide_eq_true hbx⟩
  rw [hnone, Option.none_or]
  rfl

/-- At the end of a region that restores the locals, the scope is that of its start. -/
theorem restore (h : T.Agrees S) (hm : T.Matches S r c) : T.Matches S (r.1, r.2.restore T) (c.1, S) := by
  have hl : (r.2.restore T).locals = T.locals := (List.prefix_iff_eq_take.mp hm.locals).symm
  have hf : (r.2.restore T).Holds S.file := ⟨hm.holds.enums, hm.holds.globals, hm.holds.funcs⟩
  refine ⟨hm.found, ⟨hf, ?_⟩, ?_, List.suffix_rfl, rfl⟩
  · rw [hl]
    exact h.locals
  · rw [hl]

end Tables.Matches

theorem Tables.Agrees.source {e : Source} (h : T.Agrees S) (hl : ∀ l ∈ S.source e, l.Plain) :
    T.Matches S (T.source e) (S.source e, S) := by
  rw [h.source_eq hl]
  exact .of_found h rfl

theorem Tables.Agrees.addLocal (h : T.Agrees S) (hx : PlainName x) (id : Nat) :
    (T.addLocal x id).Agrees (S.declare x (.local id)) where
  enums := h.enums
  globals := h.globals
  funcs := h.funcs
  locals := by
    intro y hy hs
    simp only [Tables.addLocal, CScope.declare, List.reverse_append, List.reverse_singleton, List.singleton_append, hx.stored_eq] at hs ⊢
    by_cases hxy : x = y
    · simp [hxy]
    · have hs : y ∉ S.left := fun hm => hs (List.mem_filter.mpr ⟨hm, decide_eq_true (Ne.symm hxy)⟩)
      rw [List.find?_cons_of_neg (by simpa using hxy), List.find?_cons_of_neg (by simpa using hxy)]
      exact h.locals y hy hs

theorem not_plain_staticName (id : Nat) : ¬PlainName (stored (Tables.staticName fn x id)) := by
  rintro ⟨-, h⟩
  apply h
  simp [stored, Tables.staticName, List.take_append, asciiBytes]

/-- The storage of a `static` variable has no plain name. -/
theorem Tables.Agrees.addStatic (h : T.Agrees S) : (T.addStatic fn x).Agrees S where
  enums := h.enums
  globals := by
    intro y hy
    have hne : y ≠ stored (Tables.staticName fn x T.statics) := fun he => not_plain_staticName T.statics (he ▸ hy)
    rw [← h.globals y hy]
    simp [Tables.addStatic, hne]
  funcs := h.funcs
  locals := h.locals

/-- A type that defines no enumerators. -/
theorem Tables.Agrees.typeSpec (h : T.Agrees S) :
    ∀ {ps : List TypePart}, (∀ p ∈ ps, p.Plain) → (∀ l ∈ (S.typeSpec ps).1, l.Plain) →
      T.Matches S (T.typeSpec ps) (S.typeSpec ps)
  | [], _, _ => .of_found h rfl
  | .enumerator _ :: _, hp, _ => (List.forall_mem_cons.mp hp).1.elim
  | .dim _ :: _, hp, hl => by
    obtain ⟨hc, hr⟩ := List.forall_mem_append.mp hl
    have hm := Tables.Matches.of_found h (h.constant_eq hc)
    exact hm.append (h.typeSpec (List.forall_mem_cons.mp hp).2 hr)

/-- The initialiser of a `static` variable is read before the variable is there, which its constants cannot tell. -/
theorem Tables.Agrees.static_constant_eq {e : Source} {id : Nat} (h : T.Agrees S) (hx : PlainName x)
    (hs : ∀ l ∈ e.sizes.flatMap Node.reads, l.name ≠ x) (hl : ∀ l ∈ (S.declare x (.local id)).constant e, l.Plain) :
    T.constant e = ((S.declare x (.local id)).constant e).map Look.wanted := by
  rw [CScope.constant, CScope.parse_declare hs] at hl ⊢
  obtain ⟨hp, hc⟩ := List.forall_mem_append.mp hl
  have hL := h.addLocal hx id
  have hG : e.tree.consts.map (T.find T) = e.tree.consts.map ((T.addLocal x id).find (T.addLocal x id)) := by
    refine List.map_congr_left fun l hm => ?_
    obtain ⟨y, rfl⟩ := Node.mem_consts hm
    rfl
  rw [Tables.constant, h.parse_eq hp, hG, hL.map_find_eq hL.enums hc, List.map_append]

/-- A variable. -/
theorem Tables.Agrees.declarator {static : Bool} {d : Declarator} (h : T.Agrees S) (hd : d.Plain static)
    (hl : ∀ l ∈ (S.declarator static d).1, l.Plain) :
    T.Matches S (T.declarator fn static d) (S.declarator static d) := by
  obtain ⟨name, id, dims, init⟩ := d
  obtain ⟨hn, hi⟩ := hd
  obtain ⟨hdims, hinit⟩ := List.forall_mem_append.mp hl
  have hD : dims.flatMap T.constant = (dims.flatMap S.constant).map Look.wanted :=
    flatMap_wanted (fun _ _ he => h.constant_eq he) hdims
  cases static with
  | true =>
    have hS : (T.addStatic fn name).Agrees S := h.addStatic
    have hL := hS.addLocal hn id
    cases init with
    | none | text => exact ⟨by simp [Tables.declarator, CScope.declarator, hD], hL, List.prefix_append _ _, List.suffix_cons _ _, rfl⟩
    | expr e =>
      have hE := hS.static_constant_eq hn (hi rfl) hinit
      exact ⟨by simp [Tables.declarator, CScope.declarator, hD, hE], hL, List.prefix_append _ _, List.suffix_cons _ _, rfl⟩
    | braced es => exact absurd hi.1 (by decide)
  | false =>
    have hL := h.addLocal hn id
    cases init with
    | none | text => exact ⟨by simp [Tables.declarator, CScope.declarator, hD], hL, List.prefix_append _ _, List.suffix_cons _ _, rfl⟩
    | expr e =>
      have hE := hL.source_eq hinit
      have hr : T.declarator fn false ⟨name, id, dims, .expr e⟩ =
          (dims.flatMap T.constant ++ ((T.addLocal name id).source e).1, ((T.addLocal name id).source e).2) := rfl
      rw [hr, hE]
      exact ⟨by simp [CScope.declarator, hD], hL, List.prefix_append _ _, List.suffix_cons _ _, rfl⟩
    | braced es =>
      obtain ⟨hp, hg⟩ := List.forall_mem_append.mp hinit
      have hP : es.flatMap T.parse = (es.flatMap (S.declare name (.local id)).parse).map Look.wanted := by
        refine flatMap_wanted (fun e he hpe => ?_) hp
        rw [CScope.parse_declare (hi.2 e he)] at hpe ⊢
        exact h.parse_eq hpe
      have hr : T.declarator fn false ⟨name, id, dims, .braced es⟩ =
          (dims.flatMap T.constant ++ es.flatMap T.parse ++ (T.braced (T.addLocal name id) es).1,
            (T.braced (T.addLocal name id) es).2) := rfl
      rw [hr, Tables.Agrees.braced_eq (S := S.declare name (.local id)) h.enums hL hg]
      exact ⟨by simp [CScope.declarator, hD, hP], hL, List.prefix_append _ _, List.suffix_cons _ _, rfl⟩

/-- The variables of a declaration. -/
theorem Tables.Agrees.declarators {static : Bool} :
    ∀ {ds : List Declarator} {T : Tables} {S : CScope}, T.Agrees S → (∀ d ∈ ds, d.Plain static) →
      (∀ l ∈ (S.declarators static ds).1, l.Plain) → T.Matches S (T.declarators fn static ds) (S.declarators static ds)
  | [], _, _, h, _, _ => .of_found h rfl
  | d :: _, T, S, h, hd, hl => by
    obtain ⟨hl, hls⟩ := List.forall_mem_append.mp hl
    have hm : T.Matches S (T.declarator fn static d) (S.declarator static d) := h.declarator (List.forall_mem_cons.mp hd).1 hl
    exact hm.append (hm.agrees.declarators (List.forall_mem_cons.mp hd).2 hls)

/-- A declaration. -/
theorem Tables.Agrees.decl {d : Decl} (h : T.Agrees S) (hd : d.Plain) (hl : ∀ l ∈ (S.decl d).1, l.Plain) :
    T.Matches S (T.decl fn d) (S.decl d) := by
  cases d with
  | vars static ps ds =>
    obtain ⟨hp, hd⟩ := hd
    obtain ⟨hl, hls⟩ := List.forall_mem_append.mp hl
    have hm := h.typeSpec hp hl
    exact hm.append (hm.agrees.declarators hd hls)
  | externs ps xs => exact hd.elim
  | types ps => exact h.typeSpec hd hl

/-- The first clause of a `for`. -/
theorem Tables.Agrees.forInit {i : ForInit} (h : T.Agrees S) (hi : i.Plain) (hl : ∀ l ∈ (S.forInit i).1, l.Plain) :
    T.Matches S (T.forInit fn i) (S.forInit i) := by
  cases i with
  | none => exact .of_found h rfl
  | expr e => exact h.source hl
  | decl d => exact h.decl hi hl

end Declarations

/-! ## Statements -/

section Statements

variable {fn : List Byte}

mutual

/-- A statement. -/
theorem Tables.Agrees.stmt : ∀ {s : Stmt} {T : Tables} {S : CScope}, T.Agrees S → s.Plain → (∀ l ∈ (cStmt S s).1, l.Plain) →
    T.Matches S (genStmt fn T s) (cStmt S s)
  | .block ss, T, S, h, hp, hl => by
    have hm : T.Matches S (genStmts fn T ss) (cStmts S ss) := h.stmts hp hl
    exact hm.restore h
  | .decl _, _, _, h, hp, hl => h.decl hp hl
  | .ret none, _, _, h, _, _ | .jump, _, _, h, _, _ | .default, _, _, h, _, _ => .of_found h rfl
  | .expr _, _, _, h, _, hl | .ret (some _), _, _, h, _, hl => h.source hl
  | .label s, T, S, h, hp, hl => by
    have hm : T.Matches S (genStmt fn T s) (cStmt S s) := h.stmt hp hl
    exact hm
  | .ifThen _ s, _, S, h, hp, hl | .whileLoop _ s, _, S, h, hp, hl => by
    obtain ⟨hc, hs⟩ := List.forall_mem_append.mp hl
    have hm := h.source hc
    exact hm.append (hm.agrees.stmt (s := s) hp hs).leave
  | .ifElse _ s t, _, S, h, hp, hl => by
    obtain ⟨hcs, ht⟩ := List.forall_mem_append.mp hl
    obtain ⟨hc, hs⟩ := List.forall_mem_append.mp hcs
    have hm := h.source hc
    have hms := hm.append (hm.agrees.stmt hp.1 hs).leave
    exact hms.append (hms.agrees.stmt hp.2 ht).leave
  | .doLoop s _, T, S, h, hp, hl => by
    obtain ⟨hs, hc⟩ := List.forall_mem_append.mp hl
    have hm : T.Matches S (genStmt fn T s) ((cStmt S s).1, S.leave (cStmt S s).2) := (h.stmt (s := s) hp hs).leave
    exact hm.append (hm.agrees.source hc)
  | .forLoop i c p s, T, S, h, hp, hl => by
    obtain ⟨hl, hpost⟩ := List.forall_mem_append.mp hl
    obtain ⟨hl, hbody⟩ := List.forall_mem_append.mp hl
    obtain ⟨hl, hcond⟩ := List.forall_mem_append.mp hl
    obtain ⟨hl, hparse'⟩ := List.forall_mem_append.mp hl
    obtain ⟨hinit, hparse⟩ := List.forall_mem_append.mp hl
    have hi : T.Matches S (T.forInit fn i) (S.forInit i) := h.forInit hp.1 hinit
    have hI := hi.agrees
    have h1 := hi.append (.of_found hI (flatMap_wanted (fun _ _ he => hI.parse_eq he) hparse))
    have h2 := h1.append (.of_found hI (flatMap_wanted (fun _ _ he => hI.parse_eq he) hparse'))
    have hcond := hI.later_eq hI.enums hcond
    have h3 := h2.append (.of_found hI (congrArg Prod.fst hcond))
    have hb := (hI.stmt hp.2 hbody).leave
    have h4 := h3.append hb
    -- the last clause was parsed in the tables the first one leaves, and is generated in those the body leaves
    have hpost := hb.agrees.later_eq (S := (S.forInit i).2.leave (cStmt (S.forInit i).2 s).2) hI.enums hpost
    have h5 := h4.append (.of_found hb.agrees (congrArg Prod.fst hpost))
    rw [genStmt, hcond, hpost]
    rw [hcond, hpost] at h5
    exact h5.restore h
  | .switch c ss, T, S, h, hp, hl => by
    obtain ⟨hc, hs⟩ := List.forall_mem_append.mp hl
    have hm := h.source hc
    exact hm.append (hm.agrees.stmts hp hs).leave
  | .case e, T, S, h, _, hl => .of_found h (h.constant_eq hl)

/-- Statements one after the other. -/
theorem Tables.Agrees.stmts : ∀ {ss : List Stmt} {T : Tables} {S : CScope}, T.Agrees S → Stmt.AllPlain ss →
    (∀ l ∈ (cStmts S ss).1, l.Plain) → T.Matches S (genStmts fn T ss) (cStmts S ss)
  | [], _, _, h, _, _ => .of_found h rfl
  | s :: ss, T, S, h, hp, hl => by
    obtain ⟨hl, hls⟩ := List.forall_mem_append.mp hl
    have hm : T.Matches S (genStmt fn T s) (cStmt S s) := h.stmt hp.1 hl
    exact hm.append (hm.agrees.stmts hp.2 hls)

end

end Statements

/-! ## Declarations at file scope -/

section FileScope

variable {T : Tables} {F : FileScope} {x : List Byte}

/-- A new enumerator is found under its name, and no other name is affected. -/
theorem Tables.findEnum_addEnum {e : Enumerator} (he : PlainName e.1) :
    (T.addEnum e).findEnum x = if e.1 = x then some e.2 else T.findEnum x := by
  unfold Tables.addEnum
  rw [he.stored_eq]
  split
  · -- the enumerator is there: its value changes, and the place of none
    rename_i hany
    have hp : ((fun e' : Enumerator => decide (e'.1 = x)) ∘ fun e' => if e'.1 = e.1 then (e'.1, e.2) else e') =
        fun e' => decide (e'.1 = x) := by
      funext e'
      by_cases h : e'.1 = e.1 <;> simp [h]
    simp only [Tables.findEnum, List.find?_map, hp]
    cases hf : T.enums.find? fun e' => decide (e'.1 = x) with
    | none =>
      have hne : e.1 ≠ x := by
        rintro rfl
        obtain ⟨e', hm, he'⟩ := List.any_eq_true.mp hany
        exact absurd he' (List.find?_eq_none.mp hf e' hm)
      simp [hne]
    | some e' =>
      have hx : e'.1 = x := by simpa using List.find?_some hf
      by_cases h : e.1 = x
      · simp [h, hx]
      · simp [h, hx, Ne.symm h]
  · rename_i hany
    have hnone : e.1 = x → T.enums.find? (fun e' => decide (e'.1 = x)) = none := by
      rintro rfl
      exact List.find?_eq_none.mpr fun e' hm he' => hany (List.any_eq_true.mpr ⟨e', hm, he'⟩)
    simp only [Tables.findEnum, List.find?_append]
    by_cases h : e.1 = x
    · simp [h, hnone h]
    · simp [h]

theorem Tables.Holds.addEnum {e : Enumerator} (h : T.Holds F) (he : PlainName e.1) :
    (T.addEnum e).Holds { F with enums := e :: F.enums } := by
  have hT : (T.addEnum e).globals = T.globals ∧ (T.addEnum e).funcs = T.funcs := by
    unfold Tables.addEnum
    split <;> exact ⟨rfl, rfl⟩
  refine ⟨fun x hx => ?_, fun x hx => ?_, fun x hx => ?_⟩
  · rw [Tables.findEnum_addEnum he, h.enums x hx]
    by_cases hex : e.1 = x <;> simp [FileScope.findEnum, hex]
  · rw [hT.1]
    exact h.globals x hx
  · rw [hT.2]
    exact h.funcs x hx

theorem Tables.Holds.addEnums : ∀ {es : List Enumerator} {T : Tables} {F : FileScope}, T.Holds F → (∀ e ∈ es, PlainName e.1) →
    (T.addEnums es).Holds (F.addEnums es)
  | [], _, _, h, _ => h
  | e :: es, T, F, h, hp => by
    obtain ⟨he, hes⟩ := List.forall_mem_cons.mp hp
    have hF : F.addEnums (e :: es) = { F with enums := e :: F.enums }.addEnums es := by simp [FileScope.addEnums]
    rw [hF]
    exact (h.addEnum he).addEnums hes

theorem Tables.Holds.addFunc (h : T.Holds F) (hx : PlainName x) : (T.addFunc x).Holds { F with funcs := x :: F.funcs } := by
  unfold Tables.addFunc
  rw [hx.stored_eq]
  split
  · rename_i hm
    refine ⟨h.enums, h.globals, fun y hy => ?_⟩
    rw [List.mem_cons, ← h.funcs y hy]
    exact ⟨.inr, fun hy' => hy'.elim (fun he => he ▸ hm) id⟩
  · refine ⟨h.enums, h.globals, fun y hy => ?_⟩
    rw [List.mem_cons, ← h.funcs y hy, List.mem_append, List.mem_singleton, or_comm]

theorem Tables.Holds.addGlobal (h : T.Holds F) (hx : PlainName x) :
    (T.addGlobal x).Holds { F with globals := x :: F.globals } := by
  unfold Tables.addGlobal
  rw [hx.stored_eq]
  split
  · rename_i hm
    refine ⟨h.enums, fun y hy => ?_, h.funcs⟩
    rw [List.mem_cons, ← h.globals y hy]
    exact ⟨.inr, fun hy' => hy'.elim (fun he => he ▸ hm) id⟩
  · refine ⟨h.enums, fun y hy => ?_, h.funcs⟩
    rw [List.mem_cons, ← h.globals y hy, List.mem_append, List.mem_singleton, or_comm]

theorem Tables.Holds.addGlobals : ∀ {xs : List (List Byte)} {T : Tables} {F : FileScope}, T.Holds F → (∀ x ∈ xs, PlainName x) →
    (xs.foldl Tables.addGlobal T).Holds { F with globals := xs ++ F.globals }
  | [], _, _, h, _ => h
  | x :: xs, _, _, h, hp => by
    obtain ⟨hx, hxs⟩ := List.forall_mem_cons.mp hp
    have hs := (h.addGlobal hx).addGlobals hxs
    refine ⟨hs.enums, fun y hy => (hs.globals y hy).trans ?_, hs.funcs⟩
    simp only [List.mem_append, List.mem_cons]
    tauto

theorem Tables.Agrees.addParams : ∀ {ps : List Enumerator} {T : Tables} {B : List (List Byte × Entity)}, T.Agrees ⟨B, F, []⟩ →
    (∀ p ∈ ps, PlainName p.1) →
      (ps.foldl (fun T p => T.addLocal p.1 p.2) T).Agrees ⟨(ps.map fun p => (p.1, Entity.local p.2)).reverse ++ B, F, []⟩
  | [], _, _, h, _ => h
  | p :: ps, _, _, h, hp => by
    obtain ⟨hx, hxs⟩ := List.forall_mem_cons.mp hp
    rw [List.map_cons, List.reverse_cons, List.append_assoc]
    exact (h.addLocal hx p.2).addParams hxs

/-- A declaration at file scope. -/
theorem Tables.Holds.top {d : TopDecl} (h : T.Holds F) (hd : d.Plain) (hl : ∀ l ∈ (cTop F d).1, l.Plain) :
    (genTop T d).1 = (cTop F d).1.map Look.wanted ∧ (genTop T d).2.Holds (cTop F d).2 := by
  cases d with
  | vars es xs => exact ⟨rfl, (h.addEnums hd.1).addGlobals hd.2⟩
  | types es => exact ⟨rfl, h.addEnums hd⟩
  | proto es x => exact ⟨rfl, (h.addEnums hd.1).addFunc hd.2⟩
  | func es x pes ps body =>
    obtain ⟨hes, hx, rfl, hps, hb⟩ := hd
    have hF := (h.addEnums hes).addFunc hx
    have h0 : Tables.Agrees { (T.addEnums es).addFunc x with locals := [] } ⟨[], { F.addEnums es with funcs := x :: F.funcs }, []⟩ :=
      ⟨⟨hF.enums, hF.globals, hF.funcs⟩, fun _ _ _ => rfl⟩
    have hm := @Tables.Agrees.stmt (stored x) body _ _ (h0.addParams hps) hb hl
    exact ⟨hm.found, hm.holds⟩

end FileScope

/-! ## Main results -/

end MiniOs32
