import MiniOs32.Lemmas.LinkTable

/-!
# Linking

`link_objects` should succeed exactly if everything fits, no symbol is defined twice and every symbol a relocation names is
defined, and then have every relocation patched and everything else copied. It does so up to names of 31 characters: a
relocation against such a name can fail although it is defined, and two definitions of it can go unnoticed.
-/

namespace MiniOs32

/-! ## What linking should do -/

/-- The definitions of all objects, with their addresses. -/
def symDefs (objs : List Obj) : List (SymName × U32) := defsOf (symEntries (secBase objs) (place (fun _ => 0) objs))

/-- The section totals fit. -/
def SecsFit (objs : List Obj) : Prop := ∀ s m, maxOut s = some m → secTotal objs s ≤ m

/-- No symbol is defined twice. -/
def NoDupSyms (objs : List Obj) : Prop := ((symDefs objs).map Prod.fst).Nodup

/-- Every symbol relocation names a defined symbol. -/
def RelocsDefined (objs : List Obj) : Prop := ∀ o ∈ objs, ∀ r ∈ o.sreloc, r.name ∈ (symDefs objs).map Prod.fst

/-- Where the relocations of an object are. -/
def Obj.relocs (o : Obj) : List (Section × Nat) :=
  o.lreloc.map (fun r => (r.sec, r.offset)) ++ o.sreloc.map (fun r => (r.sec, r.offset))

/-- The words an object's relocations patch lie inside their sections and do not overlap. -/
structure Obj.RelocsInside (o : Obj) : Prop where
  inside : ∀ w ∈ o.relocs, w.2 + 4 ≤ (o.bytes w.1).length
  apart : o.relocs.Pairwise fun v w => v.1 = w.1 → v.2 + 4 ≤ w.2 ∨ w.2 + 4 ≤ v.2

/-- The output of a link: every relocation holds its value, and every other byte is the one of its object. -/
structure Linked (objs : List Obj) (out : LinkOut) : Prop where
  locals : ∀ p ∈ place (fun _ => 0) objs, ∀ r ∈ p.obj.lreloc,
    wordAt (out.bytes r.sec) (p.off r.sec + r.offset) =
      some (r.type.value (p.addr (secBase objs) r.targetSec + r.addend)
        (p.addr (secBase objs) r.sec + BitVec.ofNat 32 r.offset))
  symbols : ∀ p ∈ place (fun _ => 0) objs, ∀ r ∈ p.obj.sreloc, ∀ a, (r.name, a) ∈ symDefs objs →
    wordAt (out.bytes r.sec) (p.off r.sec + r.offset) =
      some (r.type.value (a + r.addend) (p.addr (secBase objs) r.sec + BitVec.ofNat 32 r.offset))
  others : ∀ p ∈ place (fun _ => 0) objs, ∀ s k, k < (p.obj.bytes s).length →
    (∀ w ∈ p.obj.relocs, w.1 = s → k < w.2 ∨ w.2 + 4 ≤ k) → (out.bytes s)[p.off s + k]? = (p.obj.bytes s)[k]?
  length : ∀ s, (out.bytes s).length = (objs.map fun o => (o.bytes s).length).sum
  bss : out.bss = secTotal objs .bss

/-- Linking is correct and complete. -/
def LinkCorrect (stack : Nat → Byte) (objs : List Obj) : Prop :=
  ((∃ out, linkObjects stack objs = .ok out) ↔ SecsFit objs ∧ NoDupSyms objs ∧ RelocsDefined objs) ∧
  ∀ out, linkObjects stack objs = .ok out → Linked objs out

/-! ## Layout -/

/-- Objects placed from `off` on start there or later. -/
theorem place_off_le {objs : List Obj} : ∀ {off : Section → Nat} {p : Placed}, p ∈ place off objs → ∀ s, off s ≤ p.off s := by
  induction objs with
  | nil => intro off p hp; cases hp
  | cons o os ih =>
    intro off p hp s
    rcases List.mem_cons.1 hp with rfl | hp
    · exact Nat.le_refl _
    · exact Nat.le_trans (Nat.le_add_right _ _) (ih hp s)

/-- The objects placed are the objects. -/
theorem place_obj (objs : List Obj) : ∀ off, (place off objs).map Placed.obj = objs := by
  induction objs with
  | nil => intro off; rfl
  | cons o os ih => intro off; rw [place, List.map_cons, ih]

theorem place_obj_mem {objs : List Obj} {off : Section → Nat} {p : Placed} (hp : p ∈ place off objs) : p.obj ∈ objs := by
  rw [← place_obj objs off]
  exact List.mem_map.2 ⟨p, hp, rfl⟩

theorem Obj.bytes_length_le (o : Obj) (s : Section) : (o.bytes s).length ≤ o.len s := by
  cases s with
  | text => exact Nat.le_refl _
  | rodata => exact Nat.le_refl _
  | data => exact Nat.le_refl _
  | bss => exact Nat.zero_le _

/-- Objects placed do not overlap. -/
theorem place_pairwise (objs : List Obj) :
    ∀ off, (place off objs).Pairwise fun p q => ∀ s, p.off s + (p.obj.bytes s).length ≤ q.off s := by
  induction objs with
  | nil => intro off; exact List.Pairwise.nil
  | cons o os ih =>
    intro off
    refine List.Pairwise.cons ?_ (ih _)
    intro q hq s
    have hle := place_off_le hq s
    have := o.bytes_length_le s
    dsimp only at hle ⊢
    omega

/-- Where an object is placed, the concatenation has its bytes. -/
theorem concatSec_split {objs : List Obj} {s : Section} (hs : s ≠ .bss) : ∀ {off : Section → Nat} {p : Placed}, p ∈ place off objs →
    ∃ pre post, concatSec objs s = pre ++ (p.obj.bytes s ++ post) ∧ off s + pre.length = p.off s := by
  induction objs with
  | nil => intro off p hp; cases hp
  | cons o os ih =>
    intro off p hp
    have hcons : concatSec (o :: os) s = o.bytes s ++ concatSec os s := by simp [concatSec]
    rcases List.mem_cons.1 hp with rfl | hp
    · exact ⟨[], concatSec os s, hcons, rfl⟩
    · obtain ⟨pre, post, heq, hoff⟩ := ih hp
      refine ⟨o.bytes s ++ pre, post, ?_, ?_⟩
      · rw [hcons, heq, List.append_assoc]
      · have hlen : o.len s = (o.bytes s).length := by
          cases s with
          | bss => exact absurd rfl hs
          | text => rfl
          | rodata => rfl
          | data => rfl
        rw [List.length_append, ← Nat.add_assoc, ← hlen]
        exact hoff

/-- The bytes of a placed object in the concatenation. -/
theorem concatSec_getElem? {objs : List Obj} {p : Placed} (hp : p ∈ place (fun _ => 0) objs) {s : Section} {k : Nat}
    (hk : k < (p.obj.bytes s).length) :
    (concatSec objs s)[p.off s + k]? = (p.obj.bytes s)[k]? ∧ p.off s + (p.obj.bytes s).length ≤ (concatSec objs s).length := by
  have hs : s ≠ .bss := by
    rintro rfl
    simp [Obj.bytes] at hk
  obtain ⟨pre, post, heq, hoff⟩ := concatSec_split hs hp
  have hpre : pre.length = p.off s := by omega
  rw [heq, List.getElem?_append_right (by omega), ← hpre, Nat.add_sub_cancel_left, List.getElem?_append_left hk]
  refine ⟨rfl, ?_⟩
  simp only [List.length_append]
  omega

/-! ## Relocations -/

/-- Where a patch is. -/
def Patch.place {κ : Type*} (q : Patch κ) : κ × Nat := (q.sec, q.off)

/-- The symbol relocations of an object go through exactly if all their symbols are found. -/
theorem symPatches_iff (syms : List LinkSym) (base : Section → Nat) (p : Placed) (rs : List ObjRelocSym) :
    (∃ qs, symPatches syms base p rs = .ok qs) ↔ ∀ r ∈ rs, ∃ a, findDefined syms r.name = some a := by
  induction rs with
  | nil => simp [symPatches]
  | cons r rs ih =>
    rw [List.forall_mem_cons, ← ih, symPatches]
    cases findDefined syms r.name with
    | none => simp
    | some a =>
      cases symPatches syms base p rs with
      | error e => simp
      | ok qs => simp

/-- What the symbol relocations of an object write. -/
theorem symPatches_spec {syms : List LinkSym} {base : Section → Nat} {p : Placed} {rs : List ObjRelocSym} :
    ∀ {qs : List (Patch Section)}, symPatches syms base p rs = .ok qs →
      (∀ r ∈ rs, ∃ a, findDefined syms r.name = some a ∧ r.patch base p a ∈ qs) ∧
      qs.map Patch.place = rs.map fun r => (r.sec, p.off r.sec + r.offset) := by
  induction rs with
  | nil =>
    intro qs h
    rw [← Except.ok.inj h]
    exact ⟨by simp, rfl⟩
  | cons r rs ih =>
    intro qs h
    rw [symPatches] at h
    cases hf : findDefined syms r.name with
    | none =>
      rw [hf] at h
      cases h
    | some a =>
      rw [hf] at h
      dsimp only at h
      cases hp : symPatches syms base p rs with
      | error e =>
        rw [hp] at h
        cases h
      | ok ps =>
        rw [hp] at h
        rw [← Except.ok.inj h]
        obtain ⟨hall, hkeys⟩ := ih hp
        refine ⟨?_, by rw [List.map_cons, List.map_cons, hkeys]; rfl⟩
        intro r' hr'
        rcases List.mem_cons.1 hr' with rfl | hr'
        · exact ⟨a, hf, List.mem_cons_self ..⟩
        · obtain ⟨a', ha', hmem⟩ := hall r' hr'
          exact ⟨a', ha', List.mem_cons_of_mem _ hmem⟩

/-- All relocations go through exactly if all their symbols are found. -/
theorem allPatches_iff (syms : List LinkSym) (base : Section → Nat) (ps : List Placed) :
    (∃ qs, allPatches syms base ps = .ok qs) ↔ ∀ p ∈ ps, ∀ r ∈ p.obj.sreloc, ∃ a, findDefined syms r.name = some a := by
  induction ps with
  | nil => simp [allPatches]
  | cons p ps ih =>
    rw [List.forall_mem_cons, ← ih, ← symPatches_iff syms base p, allPatches]
    cases symPatches syms base p p.obj.sreloc with
    | error e => simp
    | ok sym =>
      cases allPatches syms base ps with
      | error e => simp
      | ok rest => simp

/-- What the relocations write, and where. -/
theorem allPatches_spec {syms : List LinkSym} {base : Section → Nat} {ps : List Placed} :
    ∀ {qs : List (Patch Section)}, allPatches syms base ps = .ok qs →
      (∀ p ∈ ps, ∀ r ∈ p.obj.lreloc, r.patch base p ∈ qs) ∧
      (∀ p ∈ ps, ∀ r ∈ p.obj.sreloc, ∃ a, findDefined syms r.name = some a ∧ r.patch base p a ∈ qs) ∧
      qs.map Patch.place = ps.flatMap fun p => p.obj.relocs.map fun w => (w.1, p.off w.1 + w.2) := by
  induction ps with
  | nil =>
    intro qs h
    rw [← Except.ok.inj h]
    exact ⟨by simp, by simp, rfl⟩
  | cons p ps ih =>
    intro qs h
    rw [allPatches] at h
    cases hsym : symPatches syms base p p.obj.sreloc with
    | error e =>
      rw [hsym] at h
      cases h
    | ok sym =>
      rw [hsym] at h
      dsimp only at h
      cases hrest : allPatches syms base ps with
      | error e =>
        rw [hrest] at h
        cases h
      | ok rest =>
        rw [hrest] at h
        rw [← Except.ok.inj h]
        obtain ⟨hsyms, hsymKeys⟩ := symPatches_spec hsym
        obtain ⟨hloc, hsym', hkeys⟩ := ih hrest
        refine ⟨?_, ?_, ?_⟩
        · intro q hq r hr
          rcases List.mem_cons.1 hq with rfl | hq
          · exact List.mem_append_left _ (List.mem_append_left _ (List.mem_map.2 ⟨r, hr, rfl⟩))
          · exact List.mem_append_right _ (hloc q hq r hr)
        · intro q hq r hr
          rcases List.mem_cons.1 hq with rfl | hq
          · obtain ⟨a, ha, hmem⟩ := hsyms r hr
            exact ⟨a, ha, List.mem_append_left _ (List.mem_append_right _ hmem)⟩
          · obtain ⟨a, ha, hmem⟩ := hsym' q hq r hr
            exact ⟨a, ha, List.mem_append_right _ hmem⟩
        · rw [List.map_append, List.map_append, hsymKeys, hkeys, List.flatMap_cons, Obj.relocs, List.map_append, List.map_map,
            List.map_map, List.map_map]
          rfl

/-- The patches of well-formed objects lie inside the output and do not overlap. -/
theorem patches_apart {objs : List Obj} (hobjs : ∀ o ∈ objs, o.RelocsInside) {qs : List (Patch Section)}
    (hkeys : qs.map Patch.place = (place (fun _ => 0) objs).flatMap fun p => p.obj.relocs.map fun w => (w.1, p.off w.1 + w.2)) :
    (∀ q ∈ qs, q.Inside (concatSec objs)) ∧ qs.Pairwise Patch.Apart := by
  refine ⟨?_, ?_⟩
  · intro q hq
    have hmem : q.place ∈ qs.map Patch.place := List.mem_map.2 ⟨q, hq, rfl⟩
    rw [hkeys, List.mem_flatMap] at hmem
    obtain ⟨p, hp, hmem⟩ := hmem
    obtain ⟨w, hw, heq⟩ := List.mem_map.1 hmem
    obtain ⟨hsec, hoff⟩ := Prod.mk.inj heq
    have hin := (hobjs p.obj (place_obj_mem hp)).inside w hw
    obtain ⟨-, hlen⟩ := concatSec_getElem? hp (s := w.1) (k := w.2) (by omega)
    unfold Patch.Inside
    rw [← hsec, ← hoff]
    omega
  · have hpair : (qs.map Patch.place).Pairwise fun v w => v.1 = w.1 → v.2 + 4 ≤ w.2 ∨ w.2 + 4 ≤ v.2 := by
      rw [hkeys, List.pairwise_flatMap]
      refine ⟨?_, ?_⟩
      · intro p hp
        rw [List.pairwise_map]
        refine (hobjs p.obj (place_obj_mem hp)).apart.imp ?_
        intro v w hvw heq
        dsimp only at heq ⊢
        have := hvw heq
        rw [heq]
        omega
      · refine (place_pairwise objs _).imp_of_mem ?_
        intro p q hp hq hpq v hv w hw heq
        obtain ⟨v', hv', rfl⟩ := List.mem_map.1 hv
        obtain ⟨w', hw', rfl⟩ := List.mem_map.1 hw
        dsimp only at heq ⊢
        have hin := (hobjs p.obj (place_obj_mem hp)).inside v' hv'
        have hle := hpq v'.1
        rw [← heq]
        omega
    rw [List.pairwise_map] at hpair
    exact hpair

/-! ## The whole link -/

/-- When a link succeeds. -/
theorem linkObjects_eq_ok {stack : Nat → Byte} {objs : List Obj} {out : LinkOut} (h : linkObjects stack objs = .ok out) :
    SecsFit objs ∧ ∃ syms, addSyms stack [] (symEntries (secBase objs) (place (fun _ => 0) objs)) = .ok syms ∧
      ∃ qs, allPatches syms (secBase objs) (place (fun _ => 0) objs) = .ok qs ∧
        out = ⟨applyPatches qs (concatSec objs), secTotal objs .bss⟩ := by
  unfold linkObjects at h
  split at h
  · cases h
  · rename_i hfit
    refine ⟨?_, ?_⟩
    · intro s m hm
      simp only [List.any_cons, List.any_nil, maxOut, Option.any_some, Bool.or_false, Bool.or_eq_true, decide_eq_true_eq,
        not_or, not_lt] at hfit
      cases s with
      | text => exact Option.some.inj hm ▸ hfit.1
      | rodata => exact Option.some.inj hm ▸ hfit.2.1
      | data => exact Option.some.inj hm ▸ hfit.2.2
      | bss => cases hm
    · dsimp only at h
      split at h
      · cases h
      · rename_i syms hadd
        split at h
        · cases h
        · split at h
          · cases h
          · rename_i qs hqs
            exact ⟨syms, hadd, qs, hqs, (Except.ok.inj h).symm⟩

/-- A link in which every symbol a relocation names is found goes through. -/
theorem linkObjects_ok {stack : Nat → Byte} {objs : List Obj} (hfit : SecsFit objs) {syms : List LinkSym}
    (hadd : addSyms stack [] (symEntries (secBase objs) (place (fun _ => 0) objs)) = .ok syms) (hu : Unique syms)
    (hall : ∀ o ∈ objs, ∀ r ∈ o.sreloc, FoundDefined syms r.name) : ∃ out, linkObjects stack objs = .ok out := by
  have hmissing : syms.find? (LinkSym.missing objs) = none := by
    rw [List.find?_eq_none]
    intro s hs hmiss
    simp only [LinkSym.missing, Bool.and_eq_true, Bool.not_eq_true', List.any_eq_true, beq_iff_eq] at hmiss
    obtain ⟨⟨hd, -⟩, o, ho, r, hr, heq⟩ := hmiss
    obtain ⟨t, ht, htr, htd⟩ := hall o ho r hr
    obtain ⟨i, hi⟩ := List.getElem?_of_mem hs
    obtain ⟨j, hj⟩ := List.getElem?_of_mem ht
    have hij := hu r.name i j s t hi hj heq.symm htr
    subst hij
    rw [hi] at hj
    rw [Option.some.inj hj, htd] at hd
    cases hd
  have hfound : ∀ p ∈ place (fun _ => 0) objs, ∀ r ∈ p.obj.sreloc, ∃ a, findDefined syms r.name = some a := by
    intro p hp r hr
    obtain ⟨s, hs, hsr, hsd⟩ := hall p.obj (place_obj_mem hp) r hr
    exact ⟨s.addr, hu.findDefined_iff.2 ⟨s, hs, hsr, hsd, rfl⟩⟩
  obtain ⟨qs, hqs⟩ := (allPatches_iff syms (secBase objs) _).2 hfound
  refine ⟨⟨applyPatches qs (concatSec objs), secTotal objs .bss⟩, ?_⟩
  unfold linkObjects
  rw [if_neg]
  · dsimp only
    rw [hadd]
    dsimp only
    rw [hmissing]
    dsimp only
    rw [hqs]
  · simp only [List.any_cons, List.any_nil, maxOut, Option.any_some, Bool.or_false, Bool.or_eq_true, decide_eq_true_eq, not_or,
      not_lt]
    exact ⟨hfit .text _ rfl, hfit .rodata _ rfl, hfit .data _ rfl⟩

/-- The patched output of well-formed objects. -/
theorem Linked.of_patches {stack : Nat → Byte} {objs : List Obj} (hobjs : ∀ o ∈ objs, o.RelocsInside) (hnd : NoDupSyms objs)
    {syms : List LinkSym} (ht : TableOk stack (symEntries (secBase objs) (place (fun _ => 0) objs)) syms)
    {qs : List (Patch Section)} (hqs : allPatches syms (secBase objs) (place (fun _ => 0) objs) = .ok qs) :
    Linked objs ⟨applyPatches qs (concatSec objs), secTotal objs .bss⟩ := by
  obtain ⟨hloc, hsym, hkeys⟩ := allPatches_spec hqs
  obtain ⟨hin, hapart⟩ := patches_apart hobjs hkeys
  refine ⟨?_, ?_, ?_, ?_, rfl⟩
  · intro p hp r hr
    exact applyPatches_word hin hapart (hloc p hp r hr)
  · intro p hp r hr a ha
    obtain ⟨b, hb, hmem⟩ := hsym p hp r hr
    -- the entry found stands for a definition of the name, and there is only one
    obtain ⟨s, hs, hsr, hsd, rfl⟩ := ht.unique.findDefined_iff.1 hb
    obtain ⟨n, k, hn, hdef⟩ := ht.named s hs
    have hnr := ((cText_copyName n r.name (stack k)).1 (hn ▸ hsr)).1
    have hba : s.addr = a := by
      have hmem' := hnr ▸ hdef hsd
      exact congrArg Prod.snd (List.inj_on_of_nodup_map hnd hmem' ha rfl)
    rw [← hba]
    exact applyPatches_word hin hapart hmem
  · intro p hp s k hk hw
    rw [← (concatSec_getElem? hp hk).1]
    refine applyPatches_getElem? hin ?_
    rintro q hq ⟨hqs, hle, hlt⟩
    have hmem : q.place ∈ qs.map Patch.place := List.mem_map.2 ⟨q, hq, rfl⟩
    rw [hkeys, List.mem_flatMap] at hmem
    obtain ⟨p', hp', hmem⟩ := hmem
    obtain ⟨w, hw', heq⟩ := List.mem_map.1 hmem
    obtain ⟨hsec, hoff⟩ := Prod.mk.inj heq
    have hws : w.1 = s := hsec.trans hqs
    have hinw := (hobjs p'.obj (place_obj_mem hp')).inside w hw'
    rw [hws] at hinw hoff
    by_cases hpp : p' = p
    · subst hpp
      have := hw w hw' hws
      omega
    · have hdis := List.Pairwise.forall_of_forall_of_flip (l := place (fun _ => 0) objs)
        (R := fun p q : Placed => p ≠ q → p.off s + (p.obj.bytes s).length ≤ q.off s ∨ q.off s + (q.obj.bytes s).length ≤ p.off s)
        (fun x _ hx => absurd rfl hx) ((place_pairwise objs _).imp fun h _ => Or.inl (h s))
        ((place_pairwise objs _).imp fun h _ => Or.inr (h s)) hp' hp hpp
      omega
  · intro s
    rw [applyPatches_length hin, concatSec, List.length_flatMap]

/-! ## Long names -/

/-- If nothing else is wrong with a link, then no name of 31 characters is defined twice and no relocation names one. -/
def LongNamesUnused (objs : List Obj) : Prop :=
  SecsFit objs → RelocsDefined objs → (((symDefs objs).map Prod.fst).filter fun n => n.Short).Nodup →
    NoDupSyms objs ∧ ∀ o ∈ objs, ∀ r ∈ o.sreloc, r.name.Short

/-- Without long names in the way, linking is correct and complete whatever the stack held. -/
theorem LongNamesUnused.linkCorrect {objs : List Obj} (h : LongNamesUnused objs) (hobjs : ∀ o ∈ objs, o.RelocsInside)
    (stack : Nat → Byte) : LinkCorrect stack objs := by
  have hof : ∀ out, linkObjects stack objs = .ok out →
      SecsFit objs ∧ NoDupSyms objs ∧ RelocsDefined objs ∧ Linked objs out := by
    intro out hout
    obtain ⟨hfit, syms, hadd, qs, hqs, rfl⟩ := linkObjects_eq_ok hout
    have ht := TableOk.addSyms _ (TableOk.nil stack) hadd
    rw [List.nil_append] at ht
    have hdef : RelocsDefined objs := by
      intro o ho r hr
      rw [← place_obj objs (fun _ => 0)] at ho
      obtain ⟨p, hp, rfl⟩ := List.mem_map.1 ho
      obtain ⟨a, ha⟩ := (allPatches_iff syms _ _).1 ⟨qs, hqs⟩ p hp r hr
      obtain ⟨s, hs, hsr, hsd, -⟩ := ht.unique.findDefined_iff.1 ha
      obtain ⟨n, k, hn, hdef⟩ := ht.named s hs
      have hnr := ((cText_copyName n r.name (stack k)).1 (hn ▸ hsr)).1
      exact List.mem_map.2 ⟨_, hnr ▸ hdef hsd, rfl⟩
    have hnd := (h hfit hdef ht.nodup).1
    exact ⟨hfit, hnd, hdef, .of_patches hobjs hnd ht hqs⟩
  refine ⟨⟨?_, ?_⟩, fun out hout => (hof out hout).2.2.2⟩
  · rintro ⟨out, hout⟩
    obtain ⟨hfit, hnd, hdef, -⟩ := hof out hout
    exact ⟨hfit, hnd, hdef⟩
  · rintro ⟨hfit, hnd, hdef⟩
    obtain ⟨-, hshort⟩ := h hfit hdef (hnd.filter _)
    obtain ⟨syms, hadd⟩ := TableOk.addSyms_ok (symEntries (secBase objs) (place (fun _ => 0) objs)) (TableOk.nil stack) hnd
    have ht := TableOk.addSyms _ (TableOk.nil stack) hadd
    refine linkObjects_ok hfit hadd ht.unique ?_
    intro o ho r hr
    obtain ⟨⟨n, a⟩, hmem, heq⟩ := List.mem_map.1 (hdef o ho r hr)
    have hrn : n = r.name := heq
    subst hrn
    obtain ⟨s, hs, hsr, hsd, -⟩ := ht.found r.name a (hshort o ho r hr) hmem
    exact ⟨s, hs, hsr, hsd⟩

/-- Linking is correct and complete, whatever the stack held, exactly if long names are not in the way. -/
theorem link_correct_iff_longNamesUnused (objs : List Obj) (hobjs : ∀ o ∈ objs, o.RelocsInside) :
    (∀ stack, LinkCorrect stack objs) ↔ LongNamesUnused objs := by
  refine ⟨?_, fun h stack => h.linkCorrect hobjs stack⟩
  intro h hfit hdef hshort
  have hnd : NoDupSyms objs := by
    -- stale bytes that hide second definitions would let the link through
    obtain ⟨stale, hstale⟩ := addSyms_hidden (symEntries (secBase objs) (place (fun _ => 0) objs)) []
      (TableOk.nil (fun _ => 0#8)).unique (by simp) hshort
    obtain ⟨syms, hadd, hu, hall⟩ := hstale (fun k => stale.getD k 0#8) (by
      intro k b hk
      simp [hk])
    obtain ⟨out, hout⟩ := linkObjects_ok hfit hadd hu (fun o ho r hr => hall _ (Or.inl (hdef o ho r hr)))
    exact ((h _).1.1 ⟨out, hout⟩).2.1
  refine ⟨hnd, ?_⟩
  intro o ho r hr
  -- over a stack of ones, nothing of 31 characters is found
  obtain ⟨out, hout⟩ := (h fun _ => 1#8).1.2 ⟨hfit, hnd, hdef⟩
  obtain ⟨-, syms, hadd, qs, hqs, -⟩ := linkObjects_eq_ok hout
  have ht := TableOk.addSyms _ (TableOk.nil _) hadd
  rw [← place_obj objs (fun _ => 0)] at ho
  obtain ⟨p, hp, rfl⟩ := List.mem_map.1 ho
  obtain ⟨a, ha⟩ := (allPatches_iff syms _ _).1 ⟨qs, hqs⟩ p hp r hr
  obtain ⟨s, hs, hsr, -, -⟩ := ht.unique.findDefined_iff.1 ha
  obtain ⟨n, k, hn, -⟩ := ht.named s hs
  obtain ⟨hnr, hvis⟩ := (cText_copyName n r.name 1#8).1 (hn ▸ hsr)
  rcases hvis with hv | hv
  · exact hnr ▸ hv
  · exact absurd hv (by decide)

/-- A name of `n` letters. -/
def nameOfLength (n : Nat) (h : n ≤ 31) : SymName :=
  ⟨List.replicate n 0x61#8, by simpa using h, by simp⟩

/-- An object that calls a function it defines itself. -/
def callOnce (name : SymName) : Obj :=
  ⟨[0xE8#8, 0#8, 0#8, 0#8, 0#8], [], [], 0, [⟨name, some .text, 0#32, true⟩], [], [⟨.text, 1, .rel32, 0#32, name⟩]⟩

theorem callOnce_relocsInside (name : SymName) : (callOnce name).RelocsInside :=
  ⟨by simp [callOnce, Obj.relocs, Obj.bytes], by simp [callOnce, Obj.relocs]⟩

theorem link_correct_iff_longNamesUnused_call :
    (∀ o ∈ [callOnce (nameOfLength 30 (by decide))], o.RelocsInside) ∧
    ((∀ stack, LinkCorrect stack [callOnce (nameOfLength 30 (by decide))]) ↔
      LongNamesUnused [callOnce (nameOfLength 30 (by decide))]) := by
  have h : ∀ o ∈ [callOnce (nameOfLength 30 (by decide))], o.RelocsInside := by
    intro o ho
    rw [List.mem_singleton.1 ho]
    exact callOnce_relocsInside _
  exact ⟨h, link_correct_iff_longNamesUnused _ h⟩

/-- A call of a function with a name of 31 letters does not link over a stack of ones. -/
theorem link_correct_false :
    ¬∀ (stack : Nat → Byte) (objs : List Obj), (∀ o ∈ objs, o.RelocsInside) → LinkCorrect stack objs := by
  intro h
  have hobj : ∀ o ∈ [callOnce (nameOfLength 31 (by decide))], o.RelocsInside := by
    intro o ho
    rw [List.mem_singleton.1 ho]
    exact callOnce_relocsInside _
  have hfit : SecsFit [callOnce (nameOfLength 31 (by decide))] := by
    intro s m hm
    cases s with
    | text => rw [← Option.some.inj hm]; decide
    | rodata => rw [← Option.some.inj hm]; decide
    | data => rw [← Option.some.inj hm]; decide
    | bss => cases hm
  have hnd : NoDupSyms [callOnce (nameOfLength 31 (by decide))] := List.nodup_singleton _
  have hdef : RelocsDefined [callOnce (nameOfLength 31 (by decide))] := by
    intro o ho r hr
    rw [List.mem_singleton.1 ho] at hr
    rw [List.mem_singleton.1 hr]
    exact List.mem_singleton.2 rfl
  obtain ⟨out, hout⟩ := (h (fun _ => 1#8) _ hobj).1.2 ⟨hfit, hnd, hdef⟩
  obtain ⟨-, syms, hadd, qs, hqs, -⟩ := linkObjects_eq_ok hout
  have hsyms : syms = [⟨copyName (nameOfLength 31 (by decide)) 1#8, 84#32, true⟩] := (Except.ok.inj hadd).symm
  rw [hsyms] at hqs
  obtain ⟨a, ha⟩ := (allPatches_iff _ _ _).1 ⟨qs, hqs⟩ _ (List.mem_cons_self ..) _ (List.mem_cons_self ..)
  have hnone : findDefined [⟨copyName (nameOfLength 31 (by decide)) 1#8, 84#32, true⟩] (nameOfLength 31 (by decide)) = none := by
    decide
  exact nomatch hnone.symm.trans ha

end MiniOs32
