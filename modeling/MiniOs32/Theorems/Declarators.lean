import MiniOs32.Cc.Declarator

/-!
# Declarators and their types

The type of a declarator is to be C's. Array suffixes behind a parenthesised group apply after the stars in it, as if the
parentheses were not there: `int (*p)[3]` is an array of pointers (`declarator_type_false`). A declarator that is taken as a whole
has C's type if and only if it has no such suffix (`declarator_type_iff`), up to function types, which the compiler does not have.
-/

namespace MiniOs32

section Tokens

variable {base t : CType} {x : List Byte} {ts rest : List DeclTok} {ds : List Nat} {d k n : Nat}

/-- A token that ends a run of stars. -/
def DeclTok.Ends : List DeclTok → Prop
  | .star :: _ | .cv :: _ => False
  | _ => True

theorem takeCvStars_replicate (n : Nat) (ts : List DeclTok) :
    takeStars.takeCvStars (List.replicate n DeclTok.cv ++ ts) = takeStars.takeCvStars ts := by
  induction n with
  | zero => rfl
  | succ n ih => exact ih

theorem takeCvStars_starTokens (stars : List Nat) (h : DeclTok.Ends ts) :
    takeStars.takeCvStars (starTokens stars ++ ts) = (stars.length, ts) := by
  induction stars with
  | nil =>
    cases ts with
    | nil => rfl
    | cons t ts => cases t <;> first
      | rfl
      | exact h.elim
  | cons n stars ih =>
    have hs : starTokens (n :: stars) ++ ts = .star :: (List.replicate n DeclTok.cv ++ (starTokens stars ++ ts)) := by simp [starTokens]
    rw [hs, takeStars.takeCvStars, takeCvStars_replicate, ih]
    rfl

/-- A run of stars is taken as a whole. -/
theorem takeStars_starTokens (stars : List Nat) (h : DeclTok.Ends ts) : takeStars (starTokens stars ++ ts) = (stars.length, ts) := by
  cases stars with
  | nil =>
    cases ts with
    | nil => rfl
    | cons t ts => cases t <;> first
      | rfl
      | exact h.elim
  | cons n stars =>
    have hs : starTokens (n :: stars) ++ ts = .star :: (List.replicate n DeclTok.cv ++ (starTokens stars ++ ts)) := by simp [starTokens]
    rw [hs, takeStars, takeCvStars_replicate, takeCvStars_starTokens stars h]
    rfl

/-- What is left of a parameter list is no longer. -/
theorem skipParams_length (d : Nat) (ts : List DeclTok) : (skipParams d ts).length ≤ ts.length := by
  fun_induction skipParams d ts <;> simp_all <;> omega

/-- A parameter list is skipped to the parenthesis that closes it. -/
theorem skipParams_balanced {ps : List DeclTok} (h : balanced d ps = true) (ts : List DeclTok) :
    skipParams (d + 1) (ps ++ .rparen :: ts) = ts := by
  fun_induction balanced d ps with
  | case1 d =>
    have h0 : d = 0 := by simpa using h
    subst h0
    rfl
  | case2 d ps ih => exact ih h
  | case3 ps => cases h
  | case4 d ps ih =>
    simp only [List.cons_append, skipParams]
    rw [if_neg (by omega)]
    exact ih h
  | case5 d p ps h₁ h₂ h₃ ih =>
    cases p with
    | lparen => exact (h₁ rfl).elim
    | rparen =>
      cases d with
      | zero => exact (h₂ rfl rfl).elim
      | succ d => exact (h₃ d rfl rfl).elim
    | _ => exact ih h

/-- Every array suffix is at least two tokens. -/
theorem takeDims_length (h : takeDims k ts = some (ds, rest)) : rest.length + 2 * ds.length ≤ ts.length := by
  fun_induction takeDims k ts generalizing ds with
  | case1 k ts hk => cases h
  | case2 k ts hk ih =>
    obtain ⟨⟨ds', r⟩, hr, he⟩ := Option.map_eq_some_iff.mp h
    obtain ⟨rfl, rfl⟩ := Prod.mk.inj he
    have hi := ih hr
    simp only [List.length_cons] at hi ⊢
    omega
  | case3 k n ts hk => cases h
  | case4 k n ts hk ih =>
    obtain ⟨⟨ds', r⟩, hr, he⟩ := Option.map_eq_some_iff.mp h
    obtain ⟨rfl, rfl⟩ := Prod.mk.inj he
    have hi := ih hr
    simp only [List.length_cons] at hi ⊢
    omega
  | case5 k ts => cases h
  | case6 k ts =>
    cases h
    simp

/-- The tokens of suffixes are taken as a whole only where they are array suffixes. -/
theorem takeDims_suffixes {sfx : List Suffix} (h : takeDims k (sfx.flatMap Suffix.tokens ++ rest) = some (ds, rest)) :
    ∃ lens : List (Option Int), sfx = lens.map .array ∧ ds = lens.map fun len => (len.getD 0).toNat := by
  induction sfx generalizing k ds with
  | nil =>
    have hl := takeDims_length h
    have h0 : ds = [] := List.length_eq_zero_iff.mp (by simpa using hl)
    exact ⟨[], rfl, h0⟩
  | cons s sfx ih =>
    cases s with
    | array len =>
      cases len with
      | none =>
        have hs : (Suffix.array none :: sfx).flatMap Suffix.tokens ++ rest =
            .lbrack :: .rbrack :: (sfx.flatMap Suffix.tokens ++ rest) := by simp [Suffix.tokens]
        rw [hs, takeDims] at h
        split at h
        · cases h
        · obtain ⟨⟨ds', r⟩, hr, he⟩ := Option.map_eq_some_iff.mp h
          cases he
          obtain ⟨lens, rfl, rfl⟩ := ih hr
          exact ⟨none :: lens, rfl, rfl⟩
      | some n =>
        have hs : (Suffix.array (some n) :: sfx).flatMap Suffix.tokens ++ rest =
            .lbrack :: .size n :: .rbrack :: (sfx.flatMap Suffix.tokens ++ rest) := by simp [Suffix.tokens]
        rw [hs, takeDims] at h
        split at h
        · cases h
        · obtain ⟨⟨ds', r⟩, hr, he⟩ := Option.map_eq_some_iff.mp h
          cases he
          obtain ⟨lens, rfl, rfl⟩ := ih hr
          exact ⟨some n :: lens, rfl, rfl⟩
    | func ps hc =>
      have hs : (Suffix.func ps hc :: sfx).flatMap Suffix.tokens ++ rest =
          .lparen :: (ps ++ .rparen :: (sfx.flatMap Suffix.tokens ++ rest)) := by simp [Suffix.tokens]
      rw [hs, takeDims] at h
      · have hl := congrArg List.length (Prod.mk.inj (Option.some.inj h)).2
        simp only [List.length_cons, List.length_append] at hl
        omega
      all_goals simp

/-- So are the tokens behind a group, where a parameter list may stand first. -/
theorem takeDims_group {sfx : List Suffix} (h : takeDims 0 (match sfx.flatMap Suffix.tokens ++ rest with
      | .lparen :: ts => skipParams 1 ts
      | ts => ts) = some (ds, rest)) :
    ∃ (fs : List Suffix) (lens : List (Option Int)), sfx = fs ++ lens.map .array ∧ ds = lens.map (fun len => (len.getD 0).toNat) ∧
      (fs = [] ∨ ∃ ps hc, fs = [.func ps hc]) := by
  cases sfx with
  | nil =>
    refine ⟨[], [], rfl, ?_, .inl rfl⟩
    have hl := takeDims_length h
    split at hl
    · rename_i ts heq
      have hskip := skipParams_length 1 ts
      have hr : rest = .lparen :: ts := heq
      have := congrArg List.length hr
      simp only [List.length_cons] at this
      omega
    · rename_i heq
      have hr : ([] : List Suffix).flatMap Suffix.tokens ++ rest = rest := rfl
      rw [hr] at hl
      exact List.length_eq_zero_iff.mp (by omega)
  | cons s sfx =>
    cases s with
    | array len =>
      have hd : takeDims 0 ((Suffix.array len :: sfx).flatMap Suffix.tokens ++ rest) = some (ds, rest) := by
        cases len <;> exact h
      obtain ⟨lens, hs, hds⟩ := takeDims_suffixes hd
      exact ⟨[], lens, hs, hds, .inl rfl⟩
    | func ps hc =>
      have hs : (Suffix.func ps hc :: sfx).flatMap Suffix.tokens ++ rest =
          .lparen :: (ps ++ .rparen :: (sfx.flatMap Suffix.tokens ++ rest)) := by simp [Suffix.tokens]
      rw [hs] at h
      have hd : takeDims 0 (skipParams (0 + 1) (ps ++ .rparen :: (sfx.flatMap Suffix.tokens ++ rest))) = some (ds, rest) := h
      rw [skipParams_balanced hc] at hd
      obtain ⟨lens, rfl, hds⟩ := takeDims_suffixes hd
      exact ⟨[.func ps hc], lens, rfl, hds, .inr ⟨ps, hc, rfl⟩⟩

end Tokens

section Types

variable {base t : CFull} {lens : List (Option Int)} {n : Nat}

/-- The arrays of some sizes, the last one innermost. -/
def arraysOf (t : CType) (lens : List (Option Int)) : CType := (lens.map fun len => (len.getD 0).toNat).foldr (fun n t => t.array n) t

theorem erase_ptrs (t : CFull) (n : Nat) : (t.ptrs n).erase = t.erase.ptrs n := by
  induction n with
  | zero => rfl
  | succ n ih => rw [CFull.ptrs, CFull.erase, ih, CType.ptrs]

theorem plain_ptrs (t : CFull) (n : Nat) : (t.ptrs n).plain = t.plain.map fun t => t.ptrs n := by
  induction n with
  | zero => simp [CFull.ptrs, CType.ptrs]
  | succ n ih =>
    rw [CFull.ptrs, CFull.plain, ih, Option.map_map]
    rfl

theorem erase_arrays (t : CFull) (lens : List (Option Int)) :
    ((lens.map Suffix.array).foldr (fun s t => s.apply t) t).erase = arraysOf t.erase lens := by
  induction lens with
  | nil => rfl
  | cons len lens ih =>
    rw [List.map_cons, List.foldr_cons, arraysOf, List.map_cons, List.foldr_cons, ← arraysOf, ← ih]
    rfl

theorem plain_arrays (t : CFull) (lens : List (Option Int)) :
    ((lens.map Suffix.array).foldr (fun s t => s.apply t) t).plain = t.plain.map fun t => arraysOf t lens := by
  induction lens with
  | nil => simp [arraysOf]
  | cons len lens ih =>
    have h : ((Suffix.array len :: lens.map Suffix.array).foldr (fun s t => s.apply t) t).plain =
        (((lens.map Suffix.array).foldr (fun s t => s.apply t) t).plain).map (·.array (len.getD 0).toNat) := rfl
    rw [List.map_cons, h, ih, Option.map_map]
    rfl

/-- An array is no pointer. -/
theorem arraysOf_ne_ptr {t t' : CType} (h : lens ≠ []) : arraysOf t lens ≠ .ptr t' := by
  cases lens with
  | nil => exact absurd rfl h
  | cons len lens => exact fun h => nomatch h

end Types

/-- A parameter list stands in the declarator. -/
def CDeclarator.HasParams : CDeclarator → Prop
  | name _ _ sfx => ∃ ps hc, .func ps hc ∈ sfx
  | group _ d sfx => d.HasParams ∨ ∃ ps hc, .func ps hc ∈ sfx

/-- A declarator taken as a whole is a name or a starred name in parentheses, behind which a parameter list may stand, and array
suffixes follow. The stars in the parentheses apply first. -/
theorem parseDeclarator_shape {base t : CType} {d : CDeclarator} {rest : List DeclTok} {x : List Byte}
    (h : parseDeclarator base (d.tokens ++ rest) = some (x, t, rest)) : ∃ (stars : List Nat) (y : List Byte) (lens : List (Option Int)),
      (d = .name stars y (lens.map .array) ∧ t = arraysOf (base.ptrs stars.length) lens) ∨
      ∃ (stars' : List Nat) (fs : List Suffix), d = .group stars (.name stars' y []) (fs ++ lens.map .array) ∧
        (fs = [] ∨ ∃ ps hc, fs = [.func ps hc]) ∧ t = arraysOf ((base.ptrs stars.length).ptrs stars'.length) lens := by
  cases d with
  | name stars y sfx =>
    have ht : (CDeclarator.name stars y sfx).tokens ++ rest = starTokens stars ++ .id y :: (sfx.flatMap Suffix.tokens ++ rest) := by
      simp [CDeclarator.tokens]
    rw [parseDeclarator, ht, takeStars_starTokens stars
      (show DeclTok.Ends (.id y :: (sfx.flatMap Suffix.tokens ++ rest)) from trivial)] at h
    obtain ⟨⟨ds, r⟩, hr, he⟩ := Option.map_eq_some_iff.mp h
    simp only [Prod.mk.injEq] at he
    obtain ⟨-, rfl, rfl⟩ := he
    obtain ⟨lens, rfl, rfl⟩ := takeDims_suffixes hr
    exact ⟨stars, y, lens, .inl ⟨rfl, rfl⟩⟩
  | group stars inner sfx =>
    have ht : (CDeclarator.group stars inner sfx).tokens ++ rest =
        starTokens stars ++ .lparen :: (inner.tokens ++ .rparen :: (sfx.flatMap Suffix.tokens ++ rest)) := by
      simp [CDeclarator.tokens]
    rw [parseDeclarator, ht, takeStars_starTokens stars
      (show DeclTok.Ends (.lparen :: (inner.tokens ++ .rparen :: (sfx.flatMap Suffix.tokens ++ rest))) from trivial)] at h
    cases inner with
    | group stars' d' sfx' =>
      -- A group in a group is refused: where the name is expected there is a parenthesis.
      have hi : (CDeclarator.group stars' d' sfx').tokens ++ .rparen :: (sfx.flatMap Suffix.tokens ++ rest) = starTokens stars' ++
          .lparen :: (d'.tokens ++ .rparen :: (sfx'.flatMap Suffix.tokens ++ .rparen :: (sfx.flatMap Suffix.tokens ++ rest))) := by
        simp [CDeclarator.tokens]
      rw [hi] at h
      simp only [takeStars_starTokens stars' (show DeclTok.Ends (.lparen :: (d'.tokens ++ .rparen :: (sfx'.flatMap Suffix.tokens ++
        .rparen :: (sfx.flatMap Suffix.tokens ++ rest)))) from trivial)] at h
      cases h
    | name stars' y sfx' =>
      have hi : (CDeclarator.name stars' y sfx').tokens ++ .rparen :: (sfx.flatMap Suffix.tokens ++ rest) =
          starTokens stars' ++ .id y :: (sfx'.flatMap Suffix.tokens ++ .rparen :: (sfx.flatMap Suffix.tokens ++ rest)) := by
        simp [CDeclarator.tokens]
      rw [hi] at h
      simp only [takeStars_starTokens stars' (show DeclTok.Ends (.id y :: (sfx'.flatMap Suffix.tokens ++
        .rparen :: (sfx.flatMap Suffix.tokens ++ rest))) from trivial)] at h
      -- So is a suffix inside the group: behind the name the parenthesis closes.
      have hsfx : sfx' = [] := by
        cases sfx' with
        | nil => rfl
        | cons s sfx' =>
          cases s with
          | array len => cases len <;> cases h
          | func ps hc => cases h
      subst hsfx
      obtain ⟨⟨ds, r⟩, hr, he⟩ := Option.map_eq_some_iff.mp h
      simp only [Prod.mk.injEq] at he
      obtain ⟨-, rfl, rfl⟩ := he
      obtain ⟨fs, lens, rfl, rfl, hfs⟩ := takeDims_group hr
      exact ⟨stars, y, lens, .inr ⟨stars', fs, rfl, hfs, rfl⟩⟩

/-- What C makes of the declarators that are taken. -/
theorem type_of_group (base : CType) (stars stars' : List Nat) (y : List Byte) (fs : List Suffix) (lens : List (Option Int)) :
    (CDeclarator.group stars (.name stars' y []) (fs ++ lens.map .array)).type (.of base) =
      (fs.foldr (fun s t => s.apply t) ((lens.map Suffix.array).foldr (fun s t => s.apply t)
        ((CFull.of base).ptrs stars.length))).ptrs stars'.length := by
  rw [CDeclarator.type, CDeclarator.type, List.foldr_append]
  rfl

/-- A declarator taken as a whole has C's type, up to function types, if and only if no array suffix stands behind a group with a
star; and C's type as it is if and only if, besides, there is no parameter list. -/
theorem declarator_type_iff (base : CType) (d : CDeclarator) (rest : List DeclTok) (x : List Byte) (t : CType)
    (h : parseDeclarator base (d.tokens ++ rest) = some (x, t, rest)) :
    (t = (d.type (.of base)).erase ↔ ¬d.StarGroupArray) ∧
      ((d.type (.of base)).plain = some t ↔ ¬d.StarGroupArray ∧ ¬d.HasParams) := by
  have hof : (CFull.of base).erase = base ∧ (CFull.of base).plain = some base := ⟨rfl, rfl⟩
  obtain ⟨stars, y, lens, ⟨rfl, rfl⟩ | ⟨stars', fs, rfl, hfs, rfl⟩⟩ := parseDeclarator_shape h
  · have hp : ¬(CDeclarator.name stars y (lens.map .array)).HasParams := by simp [CDeclarator.HasParams]
    have hs : ¬(CDeclarator.name stars y (lens.map .array)).StarGroupArray := id
    rw [CDeclarator.type, erase_arrays, erase_ptrs, plain_arrays, plain_ptrs, hof.1, hof.2]
    exact ⟨⟨fun _ => hs, fun _ => rfl⟩, ⟨fun _ => ⟨hs, hp⟩, fun _ => rfl⟩⟩
  · have hs : (CDeclarator.group stars (.name stars' y []) (fs ++ lens.map .array)).StarGroupArray ↔ stars' ≠ [] ∧ lens ≠ [] := by
      have hmem : (∃ len, Suffix.array len ∈ fs ++ lens.map .array) ↔ lens ≠ [] := by
        rcases hfs with rfl | ⟨ps, hc, rfl⟩ <;> cases lens <;> simp
      exact and_congr Iff.rfl hmem
    have hp : (CDeclarator.group stars (.name stars' y []) (fs ++ lens.map .array)).HasParams ↔ fs ≠ [] := by
      rcases hfs with rfl | ⟨ps, hc, rfl⟩
      · simp [CDeclarator.HasParams]
      · exact ⟨fun _ => by simp, fun _ => .inr ⟨ps, hc, by simp⟩⟩
    -- The stars in the group and the arrays behind it commute where one of them is missing, and only there.
    have hcomm : arraysOf ((base.ptrs stars.length).ptrs stars'.length) lens =
        (arraysOf (base.ptrs stars.length) lens).ptrs stars'.length ↔ ¬(stars' ≠ [] ∧ lens ≠ []) := by
      constructor
      · rintro he ⟨h₁, h₂⟩
        obtain ⟨n, stars', rfl⟩ := List.exists_cons_of_ne_nil h₁
        exact arraysOf_ne_ptr h₂ he
      · intro hn
        by_cases h₁ : stars' = []
        · rw [h₁]
          rfl
        · have h₂ : lens = [] := by
            by_contra h₂
            exact hn ⟨h₁, h₂⟩
          rw [h₂]
          rfl
    rw [type_of_group, hs, hp]
    rcases hfs with rfl | ⟨ps, hc, rfl⟩
    · rw [List.foldr_nil, erase_ptrs, erase_arrays, erase_ptrs, plain_ptrs, plain_arrays, plain_ptrs, hof.1, hof.2]
      refine ⟨hcomm, ?_⟩
      rw [Option.map_some, Option.map_some, Option.map_some, Option.some.injEq, eq_comm, hcomm]
      simp
    · have he : ([Suffix.func ps hc].foldr (fun s t => s.apply t) ((lens.map Suffix.array).foldr (fun s t => s.apply t)
          ((CFull.of base).ptrs stars.length))) = .func ((lens.map Suffix.array).foldr (fun s t => s.apply t)
          ((CFull.of base).ptrs stars.length)) ps := rfl
      rw [he, erase_ptrs, CFull.erase, erase_arrays, erase_ptrs, plain_ptrs, CFull.plain, hof.1]
      exact ⟨hcomm, by simp⟩

theorem declarator_type_iff_row :
    parseDeclarator (.int false) ((CDeclarator.name [0] (asciiBytes "p") [.array (some 3)]).tokens ++ []) =
        some (asciiBytes "p", .array (.ptr (.int false)) 3, []) ∧
      (CType.array (.ptr (.int false)) 3 = ((CDeclarator.name [0] (asciiBytes "p") [.array (some 3)]).type (.of (.int false))).erase ↔
        ¬(CDeclarator.name [0] (asciiBytes "p") [.array (some 3)]).StarGroupArray) :=
  ⟨by decide, (declarator_type_iff (.int false) (.name [0] (asciiBytes "p") [.array (some 3)]) [] (asciiBytes "p")
    (.array (.ptr (.int false)) 3) (by decide)).1⟩

/-- `int (*p)[3]` is given the type of `int *p[3]`. -/
theorem declarator_type_false :
    ¬∀ (base : CType) (d : CDeclarator) (rest : List DeclTok) (x : List Byte) (t : CType),
      parseDeclarator base (d.tokens ++ rest) = some (x, t, rest) → t = (d.type (.of base)).erase := by
  intro h
  have hp := h (.int false) (.group [] (.name [0] (asciiBytes "p") []) [.array (some 3)]) [] (asciiBytes "p")
    (.array (.ptr (.int false)) 3) (by decide)
  exact absurd hp (by decide)

end MiniOs32
