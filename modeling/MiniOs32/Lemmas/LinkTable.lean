import MiniOs32.Cc.Link

/-!
# The symbol table of the linker

A name of 31 characters fills its field up to the byte that `strncpy` leaves alone, so it is found again only if that byte
happens to be NUL. Shorter names are always found. What follows from this for the whole loop over the symbols: which
definitions the table holds, when a second definition is noticed, and that stale bytes can hide any number of second
definitions of long names.
-/

namespace MiniOs32

/-- A name with room for its NUL in the first 31 bytes. -/
def SymName.Short (n : SymName) : Prop := n.text.length < 31

instance (n : SymName) : Decidable n.Short := by unfold SymName.Short; infer_instance

theorem SymName.ext_text {n m : SymName} (h : n.text = m.text) : n = m := by
  cases n
  cases m
  cases h
  rfl

/-- A table entry is found under the name copied into it if that name is short or the stale byte is NUL, and under no other. -/
theorem cText_copyName (n m : SymName) (stale : Byte) :
    cText (copyName n stale) = m.text ↔ n = m ∧ (n.Short ∨ stale = 0#8) := by
  have hall : ∀ b ∈ n.text, (b != 0#8) = true := by
    intro b hb
    have hne : b ≠ 0#8 := fun hc => n.noNul (hc ▸ hb)
    simpa using hne
  unfold cText copyName
  rw [List.takeWhile_append_of_pos hall]
  by_cases hs : n.Short
  · have hpad : List.replicate (31 - n.text.length) 0#8 = 0#8 :: List.replicate (30 - n.text.length) 0#8 := by
      unfold SymName.Short at hs
      rw [← List.replicate_succ]
      congr 1
      omega
    rw [hpad, List.cons_append, List.takeWhile_cons_of_neg (by simp), List.append_nil]
    exact ⟨fun h => ⟨SymName.ext_text h, Or.inl hs⟩, fun h => by rw [h.1]⟩
  · have hlen : n.text.length = 31 := by
      have := n.short
      unfold SymName.Short at hs
      omega
    have hpad : List.replicate (31 - n.text.length) 0#8 = [] := by rw [hlen]; rfl
    rw [hpad, List.nil_append]
    by_cases hz : stale = 0#8
    · rw [hz, List.takeWhile_cons_of_neg (by simp), List.append_nil]
      exact ⟨fun h => ⟨SymName.ext_text h, Or.inr rfl⟩, fun h => by rw [h.1]⟩
    · rw [List.takeWhile_cons_of_pos (by simpa using hz), List.takeWhile_nil]
      constructor
      · intro h
        have hl := congrArg List.length h
        have hm := m.short
        rw [List.length_append, hlen, List.length_singleton] at hl
        omega
      · rintro ⟨-, h | h⟩
        · exact absurd h hs
        · exact absurd h hz

/-- The entry is found under the name. -/
def LinkSym.Is (s : LinkSym) (n : SymName) : Prop := cText s.name = n.text

/-- The definitions among the symbols. -/
def defsOf (es : List (SymName × Option U32)) : List (SymName × U32) := es.filterMap fun e => e.2.map fun a => (e.1, a)

/-- The names defined. -/
def defNames (es : List (SymName × Option U32)) : List SymName := (defsOf es).map Prod.fst

@[simp] theorem defsOf_append (es es' : List (SymName × Option U32)) : defsOf (es ++ es') = defsOf es ++ defsOf es' := by
  simp [defsOf]

@[simp] theorem defsOf_cons_none (n : SymName) (es : List (SymName × Option U32)) : defsOf ((n, none) :: es) = defsOf es := rfl

@[simp] theorem defsOf_cons_some (n : SymName) (a : U32) (es : List (SymName × Option U32)) :
    defsOf ((n, some a) :: es) = (n, a) :: defsOf es := rfl

@[simp] theorem defsOf_nil : defsOf [] = [] := rfl

/-! ## Looking up a name -/

theorem linkFind_eq_some {syms : List LinkSym} {n : SymName} {i : Nat} (h : linkFind syms n = some i) :
    ∃ s, syms[i]? = some s ∧ s.Is n := by
  unfold linkFind at h
  obtain ⟨hi, hp, -⟩ := List.findIdx?_eq_some_iff_getElem.1 h
  exact ⟨syms[i], List.getElem?_eq_getElem hi, by simpa [LinkSym.Is] using hp⟩

theorem linkFind_eq_none {syms : List LinkSym} {n : SymName} : linkFind syms n = none ↔ ∀ s ∈ syms, ¬s.Is n := by
  unfold linkFind
  rw [List.findIdx?_eq_none_iff]
  simp [LinkSym.Is]

/-- At most one entry is found under each name. -/
def Unique (syms : List LinkSym) : Prop :=
  ∀ (n : SymName) (i j : Nat) (s t : LinkSym), syms[i]? = some s → syms[j]? = some t → s.Is n → t.Is n → i = j

/-- In a table without doubles, the entry found under a name is the one. -/
theorem Unique.linkFind {syms : List LinkSym} (hu : Unique syms) {n : SymName} {i : Nat} {s : LinkSym} (hi : syms[i]? = some s)
    (hs : s.Is n) : linkFind syms n = some i := by
  cases hf : MiniOs32.linkFind syms n with
  | none => exact absurd hs (linkFind_eq_none.1 hf s (List.mem_of_getElem? hi))
  | some j =>
    obtain ⟨t, hj, ht⟩ := linkFind_eq_some hf
    rw [hu n i j s t hi hj hs ht]

/-- In a table without doubles, a name has the address of its defined entry. -/
theorem Unique.findDefined_iff {syms : List LinkSym} (hu : Unique syms) {n : SymName} {a : U32} :
    findDefined syms n = some a ↔ ∃ s ∈ syms, s.Is n ∧ s.defined = true ∧ s.addr = a := by
  unfold findDefined
  constructor
  · intro h
    split at h
    · cases h
    · rename_i i hf
      obtain ⟨s, hi, hs⟩ := linkFind_eq_some hf
      rw [hi] at h
      dsimp only at h
      split at h
      · rename_i hd
        exact ⟨s, List.mem_of_getElem? hi, hs, hd, Option.some.inj h⟩
      · cases h
  · rintro ⟨s, hmem, hs, hd, ha⟩
    obtain ⟨i, hi⟩ := List.getElem?_of_mem hmem
    rw [hu.linkFind hi hs]
    dsimp only
    rw [hi]
    dsimp only
    rw [if_pos hd, ha]

/-! ## One symbol -/

/-- What adding a symbol can do: give an undefined entry its address, append an entry that was not found, or nothing. -/
theorem addSym_cases {stack : Nat → Byte} {syms syms' : List LinkSym} {n : SymName} {addr : Option U32}
    (h : addSym stack syms n addr = .ok syms') :
    (∃ a i s, addr = some a ∧ syms[i]? = some s ∧ s.Is n ∧ s.defined = false ∧
      syms' = syms.set i { s with defined := true, addr := a }) ∨
    ((∀ s ∈ syms, ¬s.Is n) ∧
      syms' = syms ++ [⟨copyName n (stack syms.length), addr.getD 0#32, addr.isSome⟩]) ∨
    (addr = none ∧ syms' = syms) := by
  unfold addSym at h
  split at h
  · rename_i a i hf
    obtain ⟨s, hi, hs⟩ := linkFind_eq_some hf
    rw [hi] at h
    simp only [Option.any_some] at h
    split at h
    · cases h
    · rename_i hd
      refine Or.inl ⟨a, i, s, rfl, hi, hs, by simpa using hd, ?_⟩
      have hlt : i < syms.length := (List.getElem?_eq_some_iff.1 hi).1
      rw [← Except.ok.inj h, List.modify_eq_set_getElem?, hi]
      rfl
  · rename_i a hf
    exact Or.inr (Or.inl ⟨linkFind_eq_none.1 hf, (Except.ok.inj h).symm⟩)
  · exact Or.inr (Or.inr ⟨rfl, (Except.ok.inj h).symm⟩)
  · rename_i hf
    exact Or.inr (Or.inl ⟨linkFind_eq_none.1 hf, (Except.ok.inj h).symm⟩)

/-- What the table holds once the symbols `es` are in it. -/
structure TableOk (stack : Nat → Byte) (es : List (SymName × Option U32)) (syms : List LinkSym) : Prop where
  unique : Unique syms
  named : ∀ s ∈ syms, ∃ n k, s.name = copyName n (stack k) ∧ (s.defined = true → (n, s.addr) ∈ defsOf es)
  found : ∀ n a, n.Short → (n, a) ∈ defsOf es → ∃ s ∈ syms, s.Is n ∧ s.defined = true ∧ s.addr = a
  nodup : ((defNames es).filter fun n => n.Short).Nodup

theorem TableOk.nil (stack : Nat → Byte) : TableOk stack [] [] :=
  ⟨fun _ _ _ _ _ hi => by simp at hi, fun s hs => by simp at hs, fun n a _ h => by simp at h, by simp [defNames]⟩

/-- Appending an entry under a name that was not found leaves no doubles. -/
theorem Unique.append {syms : List LinkSym} (hu : Unique syms) {n : SymName} {stale : Byte} {s : LinkSym}
    (hs : s.name = copyName n stale) (hnone : ∀ t ∈ syms, ¬t.Is n) : Unique (syms ++ [s]) := by
  have hlast : ∀ (m : SymName) (i : Nat) (t : LinkSym), (syms ++ [s])[i]? = some t → t.Is m → s.Is m → i = syms.length := by
    intro m i t hi ht hm
    rw [List.getElem?_append] at hi
    split at hi
    · have hnm := (cText_copyName n m stale).1 (hs ▸ hm)
      exact absurd (hnm.1 ▸ ht) (hnone t (List.mem_of_getElem? hi))
    · have hlt := (List.getElem?_eq_some_iff.1 hi).1
      simp at hlt
      omega
  intro m i j t u hi hj ht hum
  by_cases hm : s.Is m
  · rw [hlast m i t hi ht hm, hlast m j u hj hum hm]
  · have hold : ∀ (i : Nat) (t : LinkSym), (syms ++ [s])[i]? = some t → t.Is m → syms[i]? = some t := by
      intro i t hi ht
      rw [List.getElem?_append] at hi
      split at hi
      · exact hi
      · have hmem := List.mem_of_getElem? hi
        rw [List.mem_singleton.1 hmem] at ht
        exact absurd ht hm
    exact hu m i j t u (hold i t hi ht) (hold j u hj hum) ht hum

/-- Giving an entry an address changes no name. -/
theorem Unique.set {syms : List LinkSym} (hu : Unique syms) {i : Nat} {s s' : LinkSym} (hi : syms[i]? = some s)
    (hn : s'.name = s.name) : Unique (syms.set i s') := by
  have hold : ∀ (j : Nat) (t : LinkSym), (syms.set i s')[j]? = some t → ∃ u, syms[j]? = some u ∧ u.name = t.name := by
    intro j t hj
    rw [List.getElem?_set] at hj
    split at hj
    · rename_i heq
      subst heq
      split at hj
      · exact ⟨s, hi, by rw [← Option.some.inj hj, hn]⟩
      · cases hj
    · exact ⟨t, hj, rfl⟩
  intro m j k t u hj hk ht hum
  obtain ⟨t', hj', hnt⟩ := hold j t hj
  obtain ⟨u', hk', hnu⟩ := hold k u hk
  exact hu m j k t' u' hj' hk' (by rw [LinkSym.Is, hnt]; exact ht) (by rw [LinkSym.Is, hnu]; exact hum)

/-- Entries of a table in which one was given an address. -/
theorem mem_set_iff {syms : List LinkSym} {i : Nat} {s s' : LinkSym} (hi : syms[i]? = some s) {t : LinkSym} :
    t ∈ syms.set i s' ↔ t = s' ∨ ∃ j ≠ i, syms[j]? = some t := by
  have hlt := (List.getElem?_eq_some_iff.1 hi).1
  constructor
  · intro h
    obtain ⟨j, hj⟩ := List.getElem?_of_mem h
    rw [List.getElem?_set] at hj
    split at hj
    · exact Or.inl (Option.some.inj hj).symm
    · rename_i hne
      exact Or.inr ⟨j, Ne.symm hne, hj⟩
  · rintro (rfl | ⟨j, hj, ht⟩)
    · exact List.mem_set hlt t
    · refine List.mem_of_getElem? (i := j) ?_
      rw [List.getElem?_set_ne (Ne.symm hj)]
      exact ht

/-- A symbol more. -/
theorem TableOk.addSym {stack : Nat → Byte} {es : List (SymName × Option U32)} {syms syms' : List LinkSym} {e : SymName × Option U32}
    (h : TableOk stack es syms) (hadd : MiniOs32.addSym stack syms e.1 e.2 = .ok syms') : TableOk stack (es ++ [e]) syms' := by
  obtain ⟨n, addr⟩ := e
  have hdefs : ∀ x, x ∈ defsOf es → x ∈ defsOf (es ++ [(n, addr)]) := by
    intro x hx
    rw [defsOf_append]
    exact List.mem_append_left _ hx
  rcases addSym_cases hadd with ⟨a, i, s, rfl, hi, hs, hd, rfl⟩ | ⟨hnone, rfl⟩ | ⟨rfl, rfl⟩
  · -- an entry that was undefined gets its address
    have hmem := List.mem_of_getElem? hi
    have hnew : ∀ b, n.Short → (n, b) ∉ defsOf es := by
      intro b hb hold
      obtain ⟨t, ht, htn, htd, -⟩ := h.found n b hb hold
      obtain ⟨j, hj⟩ := List.getElem?_of_mem ht
      have hij := h.unique n i j s t hi hj hs htn
      subst hij
      rw [hi] at hj
      rw [Option.some.inj hj, htd] at hd
      cases hd
    refine ⟨h.unique.set hi rfl, ?_, ?_, ?_⟩
    · intro t ht
      rcases (mem_set_iff hi).1 ht with rfl | ⟨j, -, hj⟩
      · obtain ⟨m, k, hm, -⟩ := h.named s hmem
        have hmn := (cText_copyName m n (stack k)).1 (hm ▸ hs)
        exact ⟨m, k, hm, fun _ => by rw [hmn.1]; simp⟩
      · obtain ⟨m, k, hm, hm'⟩ := h.named t (List.mem_of_getElem? hj)
        exact ⟨m, k, hm, fun htd => hdefs _ (hm' htd)⟩
    · intro m b hm hmb
      rw [defsOf_append, List.mem_append] at hmb
      rcases hmb with hold | hmb
      · obtain ⟨t, ht, htm, htd, hta⟩ := h.found m b hm hold
        obtain ⟨j, hj⟩ := List.getElem?_of_mem ht
        refine ⟨t, (mem_set_iff hi).2 (Or.inr ⟨j, ?_, hj⟩), htm, htd, hta⟩
        rintro rfl
        rw [hi] at hj
        rw [Option.some.inj hj, htd] at hd
        cases hd
      · simp at hmb
        obtain ⟨rfl, rfl⟩ := hmb
        exact ⟨_, (mem_set_iff hi).2 (Or.inl rfl), hs, rfl, rfl⟩
    · have hdup : n.Short → n ∉ defNames es := by
        intro hb hmem
        obtain ⟨⟨m, b⟩, hmb, rfl⟩ := List.mem_map.1 hmem
        exact hnew b hb hmb
      rw [defNames, defsOf_append, List.map_append, List.filter_append]
      refine List.Nodup.append h.nodup ?_ ?_
      · by_cases hb : n.Short <;> simp [hb]
      · by_cases hb : n.Short
        · simpa [hb, defNames] using hdup hb
        · simp [hb]
  · -- a new entry
    refine ⟨h.unique.append rfl hnone, ?_, ?_, ?_⟩
    · intro t ht
      rcases List.mem_append.1 ht with ht | ht
      · obtain ⟨m, k, hm, hm'⟩ := h.named t ht
        exact ⟨m, k, hm, fun htd => hdefs _ (hm' htd)⟩
      · rw [List.mem_singleton.1 ht]
        refine ⟨n, syms.length, rfl, ?_⟩
        intro htd
        cases addr with
        | none => cases htd
        | some a => simp
    · intro m b hm hmb
      rw [defsOf_append, List.mem_append] at hmb
      rcases hmb with hold | hmb
      · obtain ⟨t, ht, htm⟩ := h.found m b hm hold
        exact ⟨t, List.mem_append_left _ ht, htm⟩
      · cases addr with
        | none => simp at hmb
        | some a =>
          simp at hmb
          obtain ⟨rfl, rfl⟩ := hmb
          refine ⟨_, List.mem_append_right _ (List.mem_singleton_self _), ?_, rfl, rfl⟩
          exact (cText_copyName m m _).2 ⟨rfl, Or.inl hm⟩
    · cases addr with
      | none => simpa [defNames] using h.nodup
      | some a =>
        have hdup : n.Short → n ∉ defNames es := by
          intro hb hmem
          obtain ⟨⟨m, b⟩, hmb, rfl⟩ := List.mem_map.1 hmem
          obtain ⟨t, ht, htn, -⟩ := h.found m b hb hmb
          exact hnone t ht htn
        rw [defNames, defsOf_append, List.map_append, List.filter_append]
        refine List.Nodup.append h.nodup ?_ ?_
        · by_cases hb : n.Short <;> simp [hb]
        · by_cases hb : n.Short
          · simpa [hb, defNames] using hdup hb
          · simp [hb]
  · refine ⟨h.unique, ?_, ?_, ?_⟩
    · intro t ht
      obtain ⟨m, k, hm, hm'⟩ := h.named t ht
      exact ⟨m, k, hm, fun htd => hdefs _ (hm' htd)⟩
    · intro m b hm hmb
      exact h.found m b hm (by simpa using hmb)
    · simpa [defNames] using h.nodup

/-! ## All symbols -/

/-- The table after the loop. -/
theorem TableOk.addSyms {stack : Nat → Byte} (es : List (SymName × Option U32)) :
    ∀ {es₀ : List (SymName × Option U32)} {syms syms' : List LinkSym}, TableOk stack es₀ syms →
      MiniOs32.addSyms stack syms es = .ok syms' → TableOk stack (es₀ ++ es) syms' := by
  induction es with
  | nil =>
    intro es₀ syms syms' h hadd
    rw [List.append_nil, ← Except.ok.inj hadd]
    exact h
  | cons e es ih =>
    intro es₀ syms syms' h hadd
    rw [MiniOs32.addSyms] at hadd
    split at hadd
    · cases hadd
    · rename_i syms₁ hadd₁
      have := ih (h.addSym hadd₁) hadd
      rwa [List.append_assoc] at this

/-- Without second definitions the loop goes through. -/
theorem TableOk.addSyms_ok {stack : Nat → Byte} (es : List (SymName × Option U32)) :
    ∀ {es₀ : List (SymName × Option U32)} {syms : List LinkSym}, TableOk stack es₀ syms → (defNames (es₀ ++ es)).Nodup →
      ∃ syms', MiniOs32.addSyms stack syms es = .ok syms' := by
  induction es with
  | nil => intro es₀ syms _ _; exact ⟨syms, rfl⟩
  | cons e es ih =>
    intro es₀ syms h hnd
    rw [MiniOs32.addSyms]
    have hstep : ∃ syms₁, MiniOs32.addSym stack syms e.1 e.2 = .ok syms₁ := by
      obtain ⟨n, addr⟩ := e
      dsimp only
      unfold MiniOs32.addSym
      split
      · rename_i a i hf
        obtain ⟨s, hi, hs⟩ := linkFind_eq_some hf
        rw [hi, Option.any_some]
        split
        · -- the entry found stands for an earlier definition of the same name
          rename_i hd
          obtain ⟨m, k, hm, hdef⟩ := h.named s (List.mem_of_getElem? hi)
          have hmn := ((cText_copyName m n (stack k)).1 (hm ▸ hs)).1
          subst hmn
          have hmem : m ∈ defNames es₀ := List.mem_map.2 ⟨_, hdef hd, rfl⟩
          rw [defNames, defsOf_append, List.map_append] at hnd
          have hdisj := (List.nodup_append.1 hnd).2.2
          exact absurd rfl (hdisj m hmem m (by simp))
        · exact ⟨_, rfl⟩
      · exact ⟨_, rfl⟩
      · exact ⟨_, rfl⟩
      · exact ⟨_, rfl⟩
    obtain ⟨syms₁, hadd⟩ := hstep
    rw [hadd]
    exact ih (h.addSym hadd) (by rwa [List.append_assoc])

/-! ## Hidden definitions -/

/-- A name that is not found gets a new entry. -/
theorem addSym_new (stack : Nat → Byte) {syms : List LinkSym} {n : SymName} (hnone : ∀ s ∈ syms, ¬s.Is n) (addr : Option U32) :
    addSym stack syms n addr = .ok (syms ++ [⟨copyName n (stack syms.length), addr.getD 0#32, addr.isSome⟩]) := by
  unfold addSym
  rw [linkFind_eq_none.2 hnone]
  cases addr with
  | none => rfl
  | some a => rfl

/-- An undefined entry is given its address. -/
theorem addSym_define (stack : Nat → Byte) {syms : List LinkSym} (hu : Unique syms) {n : SymName} {i : Nat} {s : LinkSym}
    (hi : syms[i]? = some s) (hs : s.Is n) (hd : s.defined = false) (a : U32) :
    addSym stack syms n (some a) = .ok (syms.set i { s with defined := true, addr := a }) := by
  unfold addSym
  rw [hu.linkFind hi hs]
  dsimp only
  rw [hi, Option.any_some, if_neg (by simp [hd]), List.modify_eq_set_getElem?, hi]
  rfl

/-- A declaration of a name that is found changes nothing. -/
theorem addSym_declare (stack : Nat → Byte) {syms : List LinkSym} (hu : Unique syms) {n : SymName} {i : Nat} {s : LinkSym}
    (hi : syms[i]? = some s) (hs : s.Is n) : addSym stack syms n none = .ok syms := by
  unfold addSym
  rw [hu.linkFind hi hs]

/-- The table has a defined entry under the name. -/
def FoundDefined (syms : List LinkSym) (n : SymName) : Prop := ∃ s ∈ syms, s.Is n ∧ s.defined = true

/-- Stale bytes that hide every entry of a long name but the last definition: no second definition is noticed, and in the end
every name that is defined is found. -/
theorem addSyms_hidden (es : List (SymName × Option U32)) : ∀ syms : List LinkSym, Unique syms →
    (∀ n ∈ defNames es, ∀ s ∈ syms, s.Is n → s.defined = false ∧ n.Short) →
    ((defNames es).filter fun n => n.Short).Nodup →
    ∃ stale : List Byte, ∀ stack : Nat → Byte, (∀ k b, stale[k]? = some b → stack (syms.length + k) = b) →
      ∃ syms', addSyms stack syms es = .ok syms' ∧ Unique syms' ∧
        ∀ n, n ∈ defNames es ∨ FoundDefined syms n → FoundDefined syms' n := by
  induction es with
  | nil =>
    intro syms hu _ _
    refine ⟨[], fun stack _ => ⟨syms, rfl, hu, ?_⟩⟩
    rintro n (hn | hn)
    · simp [defNames] at hn
    · exact hn
  | cons e es ih =>
    obtain ⟨n, addr⟩ := e
    intro syms hu hopen hnd
    have hsub : ∀ m ∈ defNames es, m ∈ defNames ((n, addr) :: es) := by
      intro m hm
      cases addr with
      | none => exact hm
      | some a => exact List.mem_cons_of_mem _ hm
    have hndRest : ((defNames es).filter fun n => n.Short).Nodup := by
      cases addr with
      | none => exact hnd
      | some a => exact hnd.sublist (List.Sublist.filter _ (List.sublist_cons_self _ _))
    have honce : ∀ a, addr = some a → n.Short → n ∉ defNames es := by
      rintro a rfl hs hmem
      have hd : ((n :: defNames es).filter fun n => n.Short).Nodup := hnd
      rw [List.filter_cons_of_pos (by simpa using hs), List.nodup_cons] at hd
      exact hd.1 (List.mem_filter.2 ⟨hmem, by simpa using hs⟩)
    by_cases hfound : ∃ s ∈ syms, s.Is n
    · obtain ⟨s, hmem, hs⟩ := hfound
      obtain ⟨i, hi⟩ := List.getElem?_of_mem hmem
      cases addr with
      | none =>
        obtain ⟨stale, hstale⟩ := ih syms hu (fun m hm => hopen m (hsub m hm)) hndRest
        refine ⟨stale, fun stack hst => ?_⟩
        rw [addSyms, addSym_declare stack hu hi hs]
        exact hstale stack hst
      | some a =>
        have hn : n ∈ defNames ((n, some a) :: es) := List.mem_cons_self ..
        obtain ⟨hd, hshort⟩ := hopen n hn s hmem hs
        have hset : Unique (syms.set i { s with defined := true, addr := a }) := hu.set hi rfl
        have hrest : ∀ m ∈ defNames es, ∀ t ∈ syms.set i { s with defined := true, addr := a }, t.Is m →
            t.defined = false ∧ m.Short := by
          intro m hm t ht htm
          rcases (mem_set_iff hi).1 ht with rfl | ⟨j, -, hj⟩
          · have hmn : m = n := SymName.ext_text (htm.symm.trans hs)
            exact absurd (hmn ▸ hm) (honce a rfl hshort)
          · exact hopen m (hsub m hm) t (List.mem_of_getElem? hj) htm
        obtain ⟨stale, hstale⟩ := ih _ hset hrest hndRest
        refine ⟨stale, fun stack hst => ?_⟩
        rw [addSyms, addSym_define stack hu hi hs hd]
        obtain ⟨syms', hadd, hu', hall⟩ := hstale stack (by rw [List.length_set]; exact hst)
        refine ⟨syms', hadd, hu', ?_⟩
        rintro m (hm | ⟨t, ht, htm, htd⟩)
        · rcases List.mem_cons.1 hm with rfl | hm
          · exact hall m (Or.inr ⟨_, (mem_set_iff hi).2 (Or.inl rfl), hs, rfl⟩)
          · exact hall m (Or.inl hm)
        · obtain ⟨j, hj⟩ := List.getElem?_of_mem ht
          refine hall m (Or.inr ⟨t, (mem_set_iff hi).2 (Or.inr ⟨j, ?_, hj⟩), htm, htd⟩)
          rintro rfl
          rw [hi] at hj
          rw [Option.some.inj hj, htd] at hd
          cases hd
    · have hnone : ∀ s ∈ syms, ¬s.Is n := fun s hm hs => hfound ⟨s, hm, hs⟩
      -- the entry is hidden unless it is the last definition of its name
      set b : Byte := if n ∈ defNames es ∨ addr = none then 1#8 else 0#8 with hb
      set s : LinkSym := ⟨copyName n b, addr.getD 0#32, addr.isSome⟩ with hs
      have hrest : ∀ m ∈ defNames es, ∀ t ∈ syms ++ [s], t.Is m → t.defined = false ∧ m.Short := by
        intro m hm t ht htm
        rcases List.mem_append.1 ht with ht | ht
        · exact hopen m (hsub m hm) t ht htm
        · rw [List.mem_singleton.1 ht] at htm ⊢
          obtain ⟨hnm, hvis⟩ := (cText_copyName n m b).1 htm
          subst hnm
          have hshort : n.Short := by
            rcases hvis with h | h
            · exact h
            · rw [hb, if_pos (Or.inl hm)] at h
              exact absurd h (by decide)
          refine ⟨?_, hshort⟩
          cases addr with
          | none => rfl
          | some a => exact absurd hm (honce a rfl hshort)
      obtain ⟨stale, hstale⟩ := ih _ (hu.append rfl hnone) hrest hndRest
      refine ⟨b :: stale, fun stack hst => ?_⟩
      have hlast : stack syms.length = b := hst 0 b rfl
      have hlater : ∀ k c, stale[k]? = some c → stack ((syms ++ [s]).length + k) = c := by
        intro k c hk
        have := hst (k + 1) c hk
        rw [List.length_append, List.length_singleton, Nat.add_assoc, Nat.add_comm 1 k]
        exact this
      rw [addSyms, addSym_new stack hnone, hlast, ← hs]
      obtain ⟨syms', hadd, hu', hall⟩ := hstale stack hlater
      refine ⟨syms', hadd, hu', ?_⟩
      rintro m (hm | ⟨t, ht, htm, htd⟩)
      · by_cases hmr : m ∈ defNames es
        · exact hall m (Or.inl hmr)
        · cases addr with
          | none => exact absurd hm hmr
          | some a =>
            rcases List.mem_cons.1 hm with rfl | hm
            · have hzero : b = 0#8 := by
                rw [hb, if_neg]
                rintro (h | h)
                · exact hmr h
                · cases h
              refine hall m (Or.inr ⟨s, List.mem_append_right _ (List.mem_singleton_self _), ?_, rfl⟩)
              exact (cText_copyName m m b).2 ⟨rfl, Or.inr hzero⟩
            · exact absurd hm hmr
      · exact hall m (Or.inr ⟨t, List.mem_append_left _ ht, htm, htd⟩)

end MiniOs32
