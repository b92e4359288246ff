import MiniOs32.Cc.Types

/-!
# Records laid out soundly

The layout of a record is computed from the sizes its fields have then. A field whose type is completed or defined anew afterwards
outgrows its place (`record_layout_false`). In every run in which no record is laid out while a field has its type, unless neither
its size nor its alignment changes, and in which sizes stay below 2^31, every completed record is laid out soundly
(`record_layout_of_settled`).
-/

namespace MiniOs32

/-- A field as a part of its record, with the size and alignment its type has now. -/
def TypeTable.part (T : TypeTable) (f : FieldEntry) : Part := ⟨(T.size f.type).toNat, (T.align f.type).toNat⟩

/-- A field at its offset. -/
def TypeTable.slot (T : TypeTable) (f : FieldEntry) : Slot := ⟨T.part f, f.offset.toNat⟩

/-- The record has been laid out, and no body of it is being read. -/
def StructEntry.Complete (s : StructEntry) : Prop := s.laid = true ∧ s.bodies = 0

/-- Every completed record is laid out soundly for the sizes its fields have now. -/
def TypeTable.Sound (T : TypeTable) : Prop :=
  ∀ s ∈ T.structs, s.Complete → WellLaid s.isUnion s.size.toNat s.align.toNat (s.fields.map T.slot)

/-- A layout unsettles nothing: the record's size is below 2^31, and where a field of it or of a completed record has its type, the
type's size and alignment are what they were. -/
def UnsettlesNothing (T : Option TypeTable) (op : TypeOp) : Prop :=
  match op with
  | .close i => ∀ T', T = some T' → ∀ s, T'.structs[i]? = some s →
      recordSize s.isUnion (s.fields.map T'.part) < 2 ^ 31 ∧
      ∀ t, s.type = some t → ∀ j q, T'.structs[j]? = some q → q.Complete ∨ j = i → ∀ f ∈ q.fields, f.type = .pool t →
        recordSize s.isUnion (s.fields.map T'.part) = (T'.size (.pool t)).toNat ∧
          maxAlign (s.fields.map T'.part) = (T'.align (.pool t)).toNat
  | _ => True

section Layout

variable {T T' : TypeTable} {s s' : StructEntry} {fs : List FieldEntry} {t : TypeRef} {off maxa : U32} {i : Nat}

/-- The alignments there are. -/
def AlignOk (a : U32) : Prop := a = 1#32 ∨ a = 2#32 ∨ a = 4#32

theorem AlignOk.pos {a : U32} (h : AlignOk a) : 0 < a.toNat := by
  rcases h with rfl | rfl | rfl <;> decide

/-- `align_to` rounds up. -/
theorem alignTo_toNat {n a : U32} (ha : AlignOk a) (hn : n.toNat < 2 ^ 31) : (alignTo n a).toNat = alignUp n.toNat a.toNat := by
  have h : ∀ k : Nat, k ≤ 2 → a = BitVec.ofNat 32 (2 ^ k) → (alignTo n a).toNat = alignUp n.toNat a.toNat := by
    rintro k hk rfl
    have h₁ : BitVec.ofNat 32 (2 ^ k) - 1#32 = BitVec.ofNat 32 (2 ^ k - 1) := by
      interval_cases k <;> decide
    have h₂ : (BitVec.ofNat 32 (2 ^ k)).toNat = 2 ^ k := by
      interval_cases k <;> decide
    have h₃ : (n + BitVec.ofNat 32 (2 ^ k) - 1#32).toNat = n.toNat + 2 ^ k - 1 := by
      interval_cases k <;> bv_omega
    rw [alignTo, h₁, toNat_and_not_low, h₃, h₂]
    rfl
  rcases ha with rfl | rfl | rfl
  · exact h 0 (by decide) rfl
  · exact h 1 (by decide) rfl
  · exact h 2 (by decide) rfl

/-- All alignments in the tables are possible ones. -/
def TypeTable.Aligned (T : TypeTable) : Prop := ∀ ty ∈ T.types, AlignOk ty.align

theorem TypeTable.Aligned.align (h : T.Aligned) (t : TypeRef) : AlignOk (T.align t) := by
  cases t with
  | base b => cases b <;> simp [TypeTable.align, BaseType.align, BaseType.size, AlignOk]
  | pool i =>
    cases hi : T.types[i]? with
    | none => exact .inl (by simp [TypeTable.align, hi])
    | some ty =>
      have := h ty (List.mem_of_getElem? hi)
      simpa [TypeTable.align, hi] using this

theorem TypeTable.Aligned.fieldAlign (h : T.Aligned) (f : FieldEntry) : T.fieldAlign f = T.align f.type := by
  unfold TypeTable.fieldAlign
  rcases h.align f.type with ha | ha | ha <;> rw [ha] <;> rfl

/-- The greater of two alignments, as the loop takes it. -/
theorem max_align {a b : U32} (ha : AlignOk a) (hb : AlignOk b) :
    AlignOk (if a.slt b then b else a) ∧ (if a.slt b then b else a).toNat = max b.toNat a.toNat := by
  rcases ha with rfl | rfl | rfl <;> rcases hb with rfl | rfl | rfl <;> exact ⟨by simp [AlignOk], by decide⟩

/-- The loop for a struct places its fields as they are to be placed. -/
theorem layStruct_eq (h : T.Aligned) (hm : AlignOk maxa) (hend : slotsEnd off.toNat (fs.map T.part) < 2 ^ 31) :
    (T.layStruct fs off maxa).1.map T.slot = slots off.toNat (fs.map T.part) ∧
      (T.layStruct fs off maxa).1.map (·.type) = fs.map (·.type) ∧
      (T.layStruct fs off maxa).2.1.toNat = slotsEnd off.toNat (fs.map T.part) ∧
      AlignOk (T.layStruct fs off maxa).2.2 ∧
      (T.layStruct fs off maxa).2.2.toNat = max maxa.toNat (maxAlign (fs.map T.part)) := by
  induction fs generalizing off maxa with
  | nil =>
    have := hm.pos
    refine ⟨rfl, rfl, rfl, hm, ?_⟩
    simp only [TypeTable.layStruct, maxAlign, List.map_nil, List.foldr_nil]
    lia
  | cons f fs ih =>
    have ha := h.align f.type
    have hpos : ∀ p ∈ fs.map T.part, 0 < p.align := by
      intro p hp
      obtain ⟨g, -, rfl⟩ := List.mem_map.mp hp
      exact (h.align g.type).pos
    have hle : alignUp off.toNat (T.align f.type).toNat + (T.size f.type).toNat ≤
        slotsEnd (alignUp off.toNat (T.align f.type).toNat + (T.size f.type).toNat) (fs.map T.part) := le_slotsEnd hpos
    have hup := le_alignUp (n := off.toNat) ha.pos
    simp only [List.map_cons, slotsEnd, TypeTable.part] at hend hle
    have hal : (alignTo off (T.align f.type)).toNat = alignUp off.toNat (T.align f.type).toNat := alignTo_toNat ha (by lia)
    have hnext : (alignTo off (T.align f.type) + T.size f.type).toNat =
        alignUp off.toNat (T.align f.type).toNat + (T.size f.type).toNat := by
      rw [BitVec.toNat_add, hal]
      exact Nat.mod_eq_of_lt (by lia)
    obtain ⟨hmax, hmaxN⟩ := max_align hm ha
    have hrest : slotsEnd (alignTo off (T.align f.type) + T.size f.type).toNat (fs.map T.part) < 2 ^ 31 := by
      rw [hnext]
      exact hend
    obtain ⟨h₁, h₂, h₃, h₄, h₅⟩ := ih hmax hrest
    rw [hnext] at h₁ h₃
    simp only [TypeTable.layStruct, h.fieldAlign, List.map_cons, slots, slotsEnd]
    refine ⟨?_, by rw [h₂], h₃, h₄, ?_⟩
    · rw [h₁]
      congr 1
      simp only [TypeTable.slot, TypeTable.part, hal]
    · rw [h₅, hmaxN]
      simp only [maxAlign, List.foldr_cons, TypeTable.part]
      lia

/-- The loop for a union. -/
theorem layUnion_eq {maxsz : U32} (h : T.Aligned) (hm : AlignOk maxa) (hs : maxsz.toNat < 2 ^ 31)
    (hmax : maxSize (fs.map T.part) < 2 ^ 31) :
    (T.layUnion fs maxsz maxa).1.map T.slot = (fs.map T.part).map (fun p => ⟨p, 0⟩) ∧
      (T.layUnion fs maxsz maxa).1.map (·.type) = fs.map (·.type) ∧
      (T.layUnion fs maxsz maxa).2.1.toNat = max maxsz.toNat (maxSize (fs.map T.part)) ∧
      AlignOk (T.layUnion fs maxsz maxa).2.2 ∧
      (T.layUnion fs maxsz maxa).2.2.toNat = max maxa.toNat (maxAlign (fs.map T.part)) := by
  induction fs generalizing maxsz maxa with
  | nil =>
    have := hm.pos
    refine ⟨rfl, rfl, ?_, hm, ?_⟩ <;>
    · simp only [TypeTable.layUnion, maxAlign, maxSize, List.map_nil, List.foldr_nil]
      lia
  | cons f fs ih =>
    have ha := h.align f.type
    have hfold : maxSize ((f :: fs).map T.part) = max (T.size f.type).toNat (maxSize (fs.map T.part)) := rfl
    rw [hfold] at hmax
    have hsz : (if maxsz.slt (T.size f.type) then T.size f.type else maxsz).toNat = max (T.size f.type).toNat maxsz.toNat := by
      have hlt : maxsz.slt (T.size f.type) = decide (maxsz.toNat < (T.size f.type).toNat) := by
        rw [BitVec.slt_eq_decide, BitVec.toInt_eq_toNat_of_lt (by lia), BitVec.toInt_eq_toNat_of_lt (by lia)]
        simp
      rw [hlt]
      by_cases hlt : maxsz.toNat < (T.size f.type).toNat
      · simp only [hlt, decide_true, if_true]
        lia
      · simp only [hlt, decide_false, Bool.false_eq_true, if_false]
        lia
    obtain ⟨hmx, hmaxN⟩ := max_align hm ha
    have hsmall : (if maxsz.slt (T.size f.type) then T.size f.type else maxsz).toNat < 2 ^ 31 := by
      rw [hsz]
      lia
    obtain ⟨h₁, h₂, h₃, h₄, h₅⟩ := ih hmx hsmall (by lia)
    simp only [TypeTable.layUnion, h.fieldAlign, List.map_cons]
    refine ⟨by rw [h₁]; rfl, by rw [h₂], ?_, h₄, ?_⟩
    · rw [h₃, hsz]
      simp only [maxSize, List.foldr_cons, TypeTable.part]
      lia
    · rw [h₅, hmaxN]
      simp only [maxAlign, List.foldr_cons, TypeTable.part]
      lia

/-- The layout of a record is sound for the sizes its fields have at the time. -/
theorem laidOut_wellLaid (h : T.Aligned) (hs : recordSize s.isUnion (s.fields.map T.part) < 2 ^ 31) :
    WellLaid s.isUnion (T.laidOut s).size.toNat (T.laidOut s).align.toNat ((T.laidOut s).fields.map T.slot) ∧
      (T.laidOut s).fields.map (·.type) = s.fields.map (·.type) ∧
      (T.laidOut s).size.toNat = recordSize s.isUnion (s.fields.map T.part) ∧
      AlignOk (T.laidOut s).align ∧ (T.laidOut s).align.toNat = maxAlign (s.fields.map T.part) := by
  have hpos : ∀ p ∈ s.fields.map T.part, 0 < p.align := by
    intro p hp
    obtain ⟨g, -, rfl⟩ := List.mem_map.mp hp
    exact (h.align g.type).pos
  have hone : AlignOk 1#32 := .inl rfl
  have hmax : ∀ n, max (1#32).toNat (maxAlign n) = maxAlign n := fun n => Nat.max_eq_right (maxAlign_pos n)
  cases hu : s.isUnion with
  | true =>
    rw [hu] at hs
    have hle : maxSize (s.fields.map T.part) ≤ recordSize true (s.fields.map T.part) := le_alignUp (maxAlign_pos _)
    obtain ⟨h₁, h₂, h₃, h₄, h₅⟩ := layUnion_eq h hone (show (0#32).toNat < 2 ^ 31 by decide)
      (show maxSize (s.fields.map T.part) < 2 ^ 31 by omega)
    have h₆ : (alignTo (T.layUnion s.fields 0#32 1#32).2.1 (T.layUnion s.fields 0#32 1#32).2.2).toNat =
        recordSize true (s.fields.map T.part) := by
      rw [alignTo_toNat h₄ (by rw [h₃]; simpa using by omega), h₃, h₅, hmax]
      simp [recordSize]
    rw [hmax] at h₅
    simp only [TypeTable.laidOut, hu, if_true]
    exact ⟨by rw [h₆, h₅, h₁]; exact .union, h₂, h₆, h₄, h₅⟩
  | false =>
    rw [hu] at hs
    have hle : slotsEnd 0 (s.fields.map T.part) ≤ recordSize false (s.fields.map T.part) := le_alignUp (maxAlign_pos _)
    obtain ⟨h₁, h₂, h₃, h₄, h₅⟩ := layStruct_eq h hone
      (show slotsEnd (0#32).toNat (s.fields.map T.part) < 2 ^ 31 by simpa using by omega)
    have h₆ : (alignTo (T.layStruct s.fields 0#32 1#32).2.1 (T.layStruct s.fields 0#32 1#32).2.2).toNat =
        recordSize false (s.fields.map T.part) := by
      rw [alignTo_toNat h₄ (by rw [h₃]; simpa using by omega), h₃, h₅, hmax]
      simp [recordSize]
    rw [hmax] at h₅
    simp only [TypeTable.laidOut, hu, Bool.false_eq_true, if_false]
    exact ⟨by rw [h₆, h₅, h₁]; exact .struct hpos, h₂, h₆, h₄, h₅⟩

end Layout

/-! ## What every operation keeps -/

/-- The tables are in order: fields have types that are there, alignments are possible ones, and completed records are sound. -/
structure TypeTable.Ok (T : TypeTable) : Prop where
  has : ∀ s ∈ T.structs, ∀ f ∈ s.fields, T.Has f.type
  aligned : T.Aligned
  structAligned : ∀ s ∈ T.structs, AlignOk s.align
  sound : T.Sound

/-- The types of one table are in another, as large and aligned as they were. -/
def TypeTable.Extends (T T' : TypeTable) : Prop := ∀ t, T.Has t → T'.Has t ∧ T'.size t = T.size t ∧ T'.align t = T.align t

section Steps

variable {T T' : TypeTable} {s s' : StructEntry} {t : TypeRef} {i : Nat}

/-- Fields whose types are as they were are where they were. -/
theorem map_slot_congr {fs : List FieldEntry}
    (h : ∀ f ∈ fs, T'.size f.type = T.size f.type ∧ T'.align f.type = T.align f.type) : fs.map T'.slot = fs.map T.slot := by
  refine List.map_congr_left fun f hf => ?_
  simp only [TypeTable.slot, TypeTable.part, (h f hf).1, (h f hf).2]

/-- A new type leaves the others as they were. -/
theorem newType_eq {kind : TypeKind} {size align : U32} (h : T.newType kind size align = some T') :
    T'.structs = T.structs ∧ T'.types = T.types ++ [⟨kind, size, align⟩] ∧ T.Extends T' := by
  unfold TypeTable.newType at h
  split at h
  · cases h
  · cases h
    refine ⟨rfl, rfl, fun t ht => ?_⟩
    cases t with
    | base b => exact ⟨trivial, rfl, rfl⟩
    | pool j =>
      have hj : j < T.types.length := ht
      refine ⟨?_, ?_, ?_⟩
      · simp only [TypeTable.Has, List.length_append]
        omega
      · simp [TypeTable.size, List.getElem?_append_left hj]
      · simp [TypeTable.align, List.getElem?_append_left hj]

theorem TypeTable.Ok.newType (hT : T.Ok) {kind : TypeKind} {size align : U32} (ha : AlignOk align)
    (h : T.newType kind size align = some T') : T'.Ok := by
  obtain ⟨hs, ht, hx⟩ := newType_eq h
  refine ⟨fun s hm f hf => ?_, fun ty hm => ?_, fun s hm => ?_, fun s hm hc => ?_⟩
  · rw [hs] at hm
    exact (hx _ (hT.has s hm f hf)).1
  · rw [ht] at hm
    rcases List.mem_append.mp hm with hm | hm
    · exact hT.aligned ty hm
    · cases List.mem_singleton.mp hm
      exact ha
  · rw [hs] at hm
    exact hT.structAligned s hm
  · rw [hs] at hm
    rw [map_slot_congr fun f hf => (hx _ (hT.has s hm f hf)).2]
    exact hT.sound s hm hc

/-- A struct may be changed to one that is in order itself. -/
theorem TypeTable.Ok.set (hT : T.Ok) (hf : ∀ f ∈ s'.fields, T.Has f.type) (ha : AlignOk s'.align)
    (hc : s'.Complete → WellLaid s'.isUnion s'.size.toNat s'.align.toNat (s'.fields.map T.slot)) :
    TypeTable.Ok { T with structs := T.structs.set i s' } := by
  refine ⟨fun s hm => ?_, hT.aligned, fun s hm => ?_, fun s hm => ?_⟩ <;> rcases List.mem_or_eq_of_mem_set hm with hm | rfl
  · exact hT.has s hm
  · exact hf
  · exact hT.structAligned s hm
  · exact ha
  · exact hT.sound s hm
  · exact hc

theorem TypeTable.Ok.structType (hT : T.Ok) (h : T.structType i = some T') : T'.Ok := by
  unfold TypeTable.structType at h
  obtain ⟨s, hs, h⟩ := Option.bind_eq_some_iff.mp h
  have hm := List.mem_of_getElem? hs
  cases ht : s.type with
  | some t =>
    rw [ht] at h
    cases h
    exact hT
  | none =>
    rw [ht] at h
    obtain ⟨T₁, h₁, h⟩ := Option.bind_eq_some_iff.mp h
    cases h
    have hT₁ := hT.newType (hT.structAligned s hm) h₁
    have hm₁ : s ∈ T₁.structs := (newType_eq h₁).1 ▸ hm
    exact hT₁.set (hT₁.has s hm₁) (hT₁.structAligned s hm₁) (hT₁.sound s hm₁)

theorem TypeTable.Ok.addStruct (hT : T.Ok) {x : List Byte} {u : Bool} {r : Nat × TypeTable} (h : T.addStruct x u = some r) : r.2.Ok := by
  unfold TypeTable.addStruct at h
  split at h
  · split at h
    · cases h
      exact hT
    · cases h
  · split at h
    · cases h
    · cases h
      refine ⟨fun s hm => ?_, hT.aligned, fun s hm => ?_, fun s hm => ?_⟩ <;>
        rcases List.mem_append.mp hm with hm | hm
      · exact hT.has s hm
      · cases List.mem_singleton.mp hm
        simp
      · exact hT.structAligned s hm
      · cases List.mem_singleton.mp hm
        exact .inl rfl
      · exact hT.sound s hm
      · cases List.mem_singleton.mp hm
        intro hc
        exact absurd hc.1 (by simp)

/-- A body that is entered or read leaves its record incomplete. -/
theorem TypeTable.Ok.reading (hT : T.Ok) (hs : T.structs[i]? = some s) {fs : List FieldEntry} {n : Nat} (hn : 0 < n)
    (hf : ∀ f ∈ fs, T.Has f.type) : TypeTable.Ok { T with structs := T.structs.set i { s with fields := fs, bodies := n } } :=
  hT.set hf (hT.structAligned s (List.mem_of_getElem? hs)) fun hc => absurd hc.2 (by simpa using by omega)

theorem retype_structs (T : TypeTable) (s : StructEntry) : (T.retype s).structs = T.structs := by
  unfold TypeTable.retype
  split <;> rfl

theorem retype_has (T : TypeTable) (s : StructEntry) (t : TypeRef) : (T.retype s).Has t ↔ T.Has t := by
  unfold TypeTable.retype
  split
  · cases t <;> simp [TypeTable.Has]
  · rfl

theorem TypeTable.Aligned.retype (h : T.Aligned) (hs : AlignOk s.align) : (T.retype s).Aligned := by
  unfold TypeTable.retype
  split
  · intro ty hm
    obtain ⟨j, hj⟩ := List.mem_iff_getElem?.mp hm
    simp only [List.getElem?_modify] at hj
    obtain ⟨ty', hty, rfl⟩ := Option.map_eq_some_iff.mp hj
    split
    · exact hs
    · exact h ty' (List.mem_of_getElem? hty)
  · exact h

/-- A type is as it was, unless it is the record's and the record has changed. -/
theorem retype_kept (h : ∀ j, s.type = some j → t = .pool j → s.size = T.size t ∧ s.align = T.align t) :
    (T.retype s).size t = T.size t ∧ (T.retype s).align t = T.align t := by
  unfold TypeTable.retype
  cases hs : s.type with
  | none => exact ⟨rfl, rfl⟩
  | some j =>
    cases t with
    | base b => exact ⟨rfl, rfl⟩
    | pool k =>
      by_cases hk : j = k
      · subst hk
        obtain ⟨h₁, h₂⟩ := h j hs rfl
        simp only [TypeTable.size, TypeTable.align, List.getElem?_modify] at h₁ h₂ ⊢
        cases hty : T.types[j]? with
        | none => simp
        | some ty =>
          rw [hty] at h₁ h₂
          simpa using ⟨h₁, h₂⟩
      · simp [TypeTable.size, TypeTable.align, hk]

/-- The closing brace of a body keeps the tables in order where it unsettles nothing. -/
theorem TypeTable.Ok.close (hT : T.Ok) (hs : T.structs[i]? = some s) (hg : UnsettlesNothing (some T) (.close i)) :
    TypeTable.Ok (({ T with structs := T.structs.set i { T.laidOut s with laid := true, bodies := s.bodies - 1 } } : TypeTable).retype
      { T.laidOut s with laid := true, bodies := s.bodies - 1 }) := by
  obtain ⟨hsize, hkeep⟩ := hg T rfl s hs
  obtain ⟨hp, htypes, hsz, hal, halN⟩ := laidOut_wellLaid hT.aligned hsize
  set s' : StructEntry := { T.laidOut s with laid := true, bodies := s.bodies - 1 } with hs'
  have hm := List.mem_of_getElem? hs
  have hty : s'.type = s.type := rfl
  -- The fields of the record have the types they had.
  have hfield : ∀ f ∈ s'.fields, ∃ g ∈ s.fields, g.type = f.type := by
    intro f hf
    have : f.type ∈ (T.laidOut s).fields.map (·.type) := List.mem_map_of_mem hf
    rw [htypes] at this
    obtain ⟨g, hg, hgt⟩ := List.mem_map.mp this
    exact ⟨g, hg, hgt⟩
  have hset : TypeTable.Ok { T with structs := T.structs.set i s' } := by
    refine hT.set (fun f hf => ?_) hal fun _ => hp
    obtain ⟨g, hg, hgt⟩ := hfield f hf
    exact hgt ▸ hT.has s hm g hg
  -- No field of a completed record changes its size.
  have hkept : ∀ j q, T.structs[j]? = some q → q.Complete ∨ j = i → ∀ f ∈ q.fields,
      (TypeTable.retype { T with structs := T.structs.set i s' } s').size f.type = T.size f.type ∧
        (TypeTable.retype { T with structs := T.structs.set i s' } s').align f.type = T.align f.type := by
    intro j q hq hc f hf
    refine retype_kept fun k hk hfk => ?_
    obtain ⟨h₁, h₂⟩ := hkeep k (hty ▸ hk) j q hq hc f hf hfk
    rw [← hfk] at h₁ h₂
    exact ⟨BitVec.eq_of_toNat_eq (hsz.trans h₁), BitVec.eq_of_toNat_eq (halN.trans h₂)⟩
  refine ⟨fun q hq f hf => ?_, hset.aligned.retype hal, fun q hq => ?_, fun q hq hc => ?_⟩
  · rw [retype_structs] at hq
    exact (retype_has _ _ _).mpr (hset.has q hq f hf)
  · rw [retype_structs] at hq
    exact hset.structAligned q hq
  · rw [retype_structs] at hq
    rcases List.mem_or_eq_of_mem_set hq with hq | rfl
    · obtain ⟨j, hj⟩ := List.mem_iff_getElem?.mp hq
      rw [map_slot_congr (hkept j q hj (.inl hc))]
      exact hT.sound q hq hc
    · rw [map_slot_congr fun f hf => ?_]
      · exact hp
      · obtain ⟨g, hg, hgt⟩ := hfield f hf
        exact hgt ▸ hkept i s hs (.inr rfl) g hg

/-- Every operation keeps the tables in order where it unsettles nothing. -/
theorem TypeTable.Ok.apply (hT : T.Ok) {op : TypeOp} (hg : UnsettlesNothing (some T) op) (h : T.apply op = some T') : T'.Ok := by
  cases op with
  | ptr b =>
    simp only [TypeTable.apply] at h
    split at h
    · exact hT.newType (.inr (.inr rfl)) h
    · cases h
  | array b n =>
    simp only [TypeTable.apply] at h
    split at h
    · exact hT.newType (hT.aligned.align b) h
    · cases h
  | tag x u =>
    obtain ⟨r, hr, h⟩ := Option.bind_eq_some_iff.mp h
    exact (hT.addStruct hr).structType h
  | enter x u =>
    obtain ⟨r, hr, rfl⟩ := Option.map_eq_some_iff.mp h
    have hr' := hT.addStruct hr
    rw [List.modify_eq_set_getElem?]
    cases hs : r.2.structs[r.1]? with
    | none => exact hr'
    | some s => exact hr'.reading hs (Nat.succ_pos _) (by simp)
  | field i x t =>
    obtain ⟨s, hs, h⟩ := Option.bind_eq_some_iff.mp h
    split at h
    · rename_i hc
      cases h
      refine hT.reading hs hc.2.1 fun f hf => ?_
      rcases List.mem_append.mp hf with hf | hf
      · exact hT.has s (List.mem_of_getElem? hs) f hf
      · cases List.mem_singleton.mp hf
        exact hc.1
    · cases h
  | close i =>
    obtain ⟨s, hs, h⟩ := Option.bind_eq_some_iff.mp h
    split at h
    · exact (hT.close hs hg).structType h
    · cases h

theorem TypeTable.Ok.initial : TypeTable.initial.Ok := by
  refine ⟨by simp [TypeTable.initial], fun ty hm => ?_, by simp [TypeTable.initial], fun s hm => by simp [TypeTable.initial] at hm⟩
  cases List.mem_singleton.mp hm
  exact .inr (.inr rfl)

end Steps

/-- In a run whose layouts unsettle nothing, every completed record is laid out soundly. -/
theorem record_layout_of_settled (ops : List TypeOp) (h : Meets typeStep UnsettlesNothing (some TypeTable.initial) ops) :
    ∀ T, runFrom typeStep (some TypeTable.initial) ops = some T → T.Sound := by
  have hstep : ∀ (T : Option TypeTable) (op : TypeOp), (∀ T', T = some T' → T'.Ok) → UnsettlesNothing T op →
      ∀ T', typeStep T op = some T' → T'.Ok := by
    intro T op hT hg T' h
    obtain ⟨T₁, rfl, h⟩ := Option.bind_eq_some_iff.mp h
    exact (hT T₁ rfl).apply hg h
  have hrun := inv_runFrom (fun T : Option TypeTable => ∀ T', T = some T' → T'.Ok) hstep
    (s := some TypeTable.initial) (by rintro T' h; cases h; exact .initial) h
  exact fun T hT => (hrun T hT).sound

/-- `struct P { char x; int y; };` -/
def pairOps : List TypeOp :=
  [.enter (asciiBytes "P") false, .field 0 (asciiBytes "x") (.base .char), .field 0 (asciiBytes "y") (.base .int), .close 0]

theorem record_layout_of_settled_pair : Meets typeStep UnsettlesNothing (some TypeTable.initial) pairOps ∧
    ∀ T, runFrom typeStep (some TypeTable.initial) pairOps = some T → T.Sound := by
  have h : Meets typeStep UnsettlesNothing (some TypeTable.initial) pairOps := by
    refine ⟨trivial, trivial, trivial, fun T hT s hs => ?_, trivial⟩
    cases hT
    cases hs
    exact ⟨by decide, fun t ht => nomatch ht⟩
  exact ⟨h, record_layout_of_settled pairOps h⟩

/-- `struct A; struct B { struct A a; int y; }; struct A { int p; int q; };` -/
def completedLaterOps : List TypeOp :=
  [.tag (asciiBytes "A") false, .enter (asciiBytes "B") false, .field 1 (asciiBytes "a") (.pool 1),
   .field 1 (asciiBytes "y") (.base .int), .close 1, .enter (asciiBytes "A") false, .field 0 (asciiBytes "p") (.base .int),
   .field 0 (asciiBytes "q") (.base .int), .close 0]

/-- The field `a` of `B` is eight bytes large at the end, and `y` begins where it begins. -/
theorem record_layout_false :
    ¬∀ (ops : List TypeOp) (T : TypeTable), runFrom typeStep (some TypeTable.initial) ops = some T → T.Sound := by
  intro h
  obtain ⟨T, hT, B, hB, hc, hy⟩ : ∃ T, runFrom typeStep (some TypeTable.initial) completedLaterOps = some T ∧
      ∃ B ∈ T.structs, (B.laid = true ∧ B.bodies = 0) ∧ B.isUnion = false ∧
        (B.fields.map T.slot).map (fun s => (s.offset, s.size)) = [(0, 8), (0, 4)] := by
    refine ⟨_, rfl, ?_⟩
    decide
  have hp := (h _ T hT B hB hc).apart
  obtain ⟨hu, hl⟩ := hy
  rw [hu, if_neg Bool.false_ne_true] at hp
  have hq : ((B.fields.map T.slot).map fun s => (s.offset, s.size)).Pairwise fun x y => x.1 + x.2 ≤ y.1 := List.pairwise_map.mpr hp
  rw [hl] at hq
  exact absurd hq (by decide)

end MiniOs32
