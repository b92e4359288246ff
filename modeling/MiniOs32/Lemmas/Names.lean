import MiniOs32.Kernel.Calls

/-!
# Stored names and directory look-up

What `name_eq_ci` decides, what `fs_find` and the search for a free slot return, and how the directory reads after one entry
has been replaced.
-/

namespace MiniOs32

/-- Two names are equal, whole, ignoring ASCII case. -/
def SameName (a b : List Byte) : Prop := a.map upper = b.map upper

instance (a b : List Byte) : Decidable (SameName a b) := inferInstanceAs (Decidable (_ = _))

theorem SameName.symm {a b : List Byte} (h : SameName a b) : SameName b a := Eq.symm h

theorem SameName.trans {a b c : List Byte} (h : SameName a b) (h' : SameName b c) : SameName a c := Eq.trans h h'

/-- A name and its normalised form are the same name. -/
theorem sameName_normalizeName {s : List Byte} (h : s.length ≤ fsNameLen) : SameName (normalizeName s) s := by
  rw [normalizeName_of_length_le h, SameName, List.map_map]
  exact List.map_congr_left (fun c _ => upper_upper c)

/-- The bytes of a field before its first NUL. -/
def cstr (l : List Byte) : List Byte := l.takeWhile (· != 0#8)

theorem cstr_of_isName {s : List Byte} (h : IsName s) : cstr s = s := by
  refine List.takeWhile_eq_self_iff.2 (fun c hc => ?_)
  simpa using h c hc

theorem isName_cstr (l : List Byte) : IsName (cstr l) := by
  intro c hc
  simpa using List.mem_takeWhile_imp hc

/-- A field that holds a name and then NULs reads as the name. -/
theorem cstr_append_replicate {s : List Byte} (h : IsName s) (n : Nat) : cstr (s ++ List.replicate n 0#8) = s := by
  rw [cstr, List.takeWhile_append_of_pos (fun c hc => by simpa using h c hc)]
  cases n with
  | zero => simp
  | succ n => simp [List.replicate_succ]

/-! ## The comparison -/

/-- The comparison loop agrees when the next `n` characters do, each name ending at its first NUL. -/
theorem nameEqCiLoop_iff (a b : List Byte) (n : Nat) :
    ∀ i, nameEqCiLoop a b i n = true ↔ SameName ((cstr (a.drop i)).take n) ((cstr (b.drop i)).take n) := by
  have hdrop : ∀ (l : List Byte) (i : Nat),
      (l.getD i 0#8 = 0#8 ∧ cstr (l.drop i) = []) ∨ (l.getD i 0#8 ≠ 0#8 ∧ cstr (l.drop i) = l.getD i 0#8 :: cstr (l.drop (i + 1))) := by
    intro l i
    by_cases hi : i < l.length
    · rw [List.getD_eq_getElem l 0#8 hi, List.drop_eq_getElem_cons hi, cstr, List.takeWhile_cons]
      by_cases h0 : l[i] = 0#8
      · exact Or.inl ⟨h0, by simp [h0]⟩
      · exact Or.inr ⟨h0, by simp [h0, cstr]⟩
    · rw [List.getD_eq_default l 0#8 (by omega), List.drop_eq_nil_of_le (by omega)]
      exact Or.inl ⟨rfl, rfl⟩
  induction n with
  | zero => intro i; simp [nameEqCiLoop, SameName]
  | succ n ih =>
    intro i
    simp only [nameEqCiLoop]
    rcases hdrop a i with ⟨ha, hca⟩ | ⟨ha, hca⟩ <;> rcases hdrop b i with ⟨hb, hcb⟩ | ⟨hb, hcb⟩
    · rw [hca, hcb, if_pos ⟨ha, hb⟩]
      simp [SameName]
    · rw [hca, hcb, if_neg (by tauto), if_pos (Or.inl ha)]
      simp [SameName]
    · rw [hca, hcb, if_neg (by tauto), if_pos (Or.inr hb)]
      simp [SameName]
    · rw [hca, hcb, if_neg (by tauto), if_neg (by tauto)]
      by_cases hu : upper (a.getD i 0#8) = upper (b.getD i 0#8)
      · rw [if_neg (not_not_intro hu), ih (i + 1)]
        simp only [SameName, List.take_succ_cons, List.map_cons, hu, List.cons.injEq, true_and]
      · rw [if_pos hu]
        simp only [SameName, List.take_succ_cons, List.map_cons, hu, List.cons.injEq, false_and, Bool.false_eq_true]

/-- `name_eq_ci` compares the first sixteen characters. -/
theorem nameEqCi_iff (e : Dirent) {name : List Byte} (h : IsName name) :
    nameEqCi e.name name = true ↔ SameName (e.str.take 16) (name.take 16) := by
  rw [nameEqCi, nameEqCiLoop_iff]
  simp only [List.drop_zero, cstr_of_isName h]
  rfl

/-- Whole names that are equal agree in their first sixteen characters. -/
theorem SameName.take {a b : List Byte} (h : SameName a b) (n : Nat) : SameName (a.take n) (b.take n) := by
  simp only [SameName, List.map_take]
  rw [show a.map upper = b.map upper from h]

/-- Names of which one has at most fifteen characters are equal as soon as their first sixteen characters agree. -/
theorem SameName.of_take {a b : List Byte} (hb : b.length ≤ 15) (h : SameName (a.take 16) (b.take 16)) : SameName a b := by
  have hl := congrArg List.length h
  simp only [List.length_map, List.length_take] at hl
  rwa [List.take_of_length_le (by omega), List.take_of_length_le (by omega)] at h

/-! ## Entries -/

@[simp] theorem Dirent.live_zero : Dirent.zero.live = false := by decide

theorem Dirent.live_iff (e : Dirent) : e.live = true ↔ e.str ≠ [] := by
  have hlen := e.nameLen
  unfold Dirent.live Dirent.str
  cases hn : e.name with
  | nil => simp [hn] at hlen
  | cons c cs =>
    by_cases h0 : c = 0#8 <;> simp [h0]

/-- A stored name reads back as the characters that were kept. -/
theorem Dirent.setName_str (e : Dirent) {name : List Byte} (hn : IsName name) (limit : Nat) (h : limit ≤ fsNameLen) :
    (e.setName name limit h).str = name.take limit :=
  cstr_append_replicate (fun c hc => hn c (List.mem_of_mem_take hc)) _

theorem saveEntry_str (e : Dirent) {name : List Byte} (hn : IsName name) (hl : name.length ≤ fsNameLen) (start size : U32) :
    (saveEntry e name start size).str = name := by
  have := e.setName_str hn fsNameLen (Nat.le_refl _)
  rwa [List.take_of_length_le hl] at this

theorem openEntry_str (e : Dirent) {name : List Byte} (hn : IsName name) (start : U32) :
    (openEntry e name start).str = name.take openNameLen :=
  e.setName_str hn openNameLen (by decide)

/-! ## The directory -/

/-- The entry at an index below the number of entries. -/
theorem Dir.get_eq (d : Dir) {i : Nat} (h : i < d.slots.length) : d.get i = d.slots[i] := List.getD_eq_getElem _ _ h

@[simp] theorem Dir.get_empty (i : Nat) : Dir.empty.get i = Dirent.zero := by
  simp only [Dir.get, Dir.empty, List.getD_eq_getElem?_getD, List.getElem?_replicate]
  split <;> rfl

theorem Dir.get_of_le (d : Dir) {i : Nat} (h : dirEntries ≤ i) : d.get i = Dirent.zero :=
  List.getD_eq_default _ _ (by rw [d.len]; exact h)

/-- Only an index inside the directory holds a live entry. -/
theorem Dir.lt_of_live (d : Dir) {i : Nat} (h : (d.get i).live = true) : i < dirEntries := by
  by_contra hi
  rw [d.get_of_le (by omega)] at h
  simp at h

@[simp] theorem Dir.get_set_self (d : Dir) {i : Nat} (h : i < dirEntries) (e : Dirent) : (d.set i e).get i = e := by
  have hi : i < d.slots.length := by rw [d.len]; exact h
  simp [Dir.get, Dir.set, List.getD_eq_getElem?_getD, hi]

theorem Dir.get_set_ne (d : Dir) {i j : Nat} (h : j ≠ i) (e : Dirent) : (d.set i e).get j = d.get j := by
  simp [Dir.get, Dir.set, List.getD_eq_getElem?_getD, List.getElem?_set_ne (Ne.symm h)]

theorem Dir.get_set (d : Dir) {i : Nat} (h : i < dirEntries) (e : Dirent) (j : Nat) :
    (d.set i e).get j = if j = i then e else d.get j := by
  split
  · rename_i hj; rw [hj, d.get_set_self h]
  · rename_i hj; exact d.get_set_ne hj e

/-- `fs_find` returns the first live entry the comparison accepts. -/
theorem fsFind_eq_some_iff (d : Dir) (name : List Byte) (i : Nat) :
    fsFind d name = some i ↔ ((d.get i).live = true ∧ nameEqCi (d.get i).name name = true) ∧
      ∀ j < i, ¬((d.get j).live = true ∧ nameEqCi (d.get j).name name = true) := by
  rw [fsFind, List.findIdx?_eq_some_iff_getElem]
  constructor
  · rintro ⟨hi, hp, hj⟩
    refine ⟨by simpa [d.get_eq hi] using hp, fun j hji => ?_⟩
    rw [d.get_eq (by omega)]
    simpa using hj j hji
  · rintro ⟨hp, hj⟩
    have hi : i < d.slots.length := by rw [d.len]; exact d.lt_of_live hp.1
    refine ⟨hi, by simpa [d.get_eq hi] using hp, fun j hji => ?_⟩
    have := hj j hji
    rw [d.get_eq (by omega)] at this
    simpa using this

/-- `fs_find` finds nothing when the comparison accepts no live entry. -/
theorem fsFind_eq_none_iff (d : Dir) (name : List Byte) :
    fsFind d name = none ↔ ∀ j, (d.get j).live = true → nameEqCi (d.get j).name name = false := by
  rw [fsFind, List.findIdx?_eq_none_iff]
  constructor
  · intro h j hj
    have hl : j < d.slots.length := by rw [d.len]; exact d.lt_of_live hj
    have := h _ (List.getElem_mem hl)
    rw [d.get_eq hl] at hj ⊢
    simpa [hj] using this
  · intro h x hx
    obtain ⟨j, hj, rfl⟩ := List.getElem_of_mem hx
    have := h j
    rw [d.get_eq hj] at this
    cases hx : d.slots[j].live <;> simp_all

theorem fsFind_live {d : Dir} {name : List Byte} {i : Nat} (h : fsFind d name = some i) : (d.get i).live = true :=
  ((fsFind_eq_some_iff d name i).1 h).1.1

theorem fsFind_lt {d : Dir} {name : List Byte} {i : Nat} (h : fsFind d name = some i) : i < dirEntries :=
  d.lt_of_live (fsFind_live h)

/-- The slot found by the search for a free one is inside the directory and free. -/
theorem firstFree_some {d : Dir} {i : Nat} (h : firstFree d = some i) : i < dirEntries ∧ (d.get i).live = false := by
  obtain ⟨hi, hp, -⟩ := List.findIdx?_eq_some_iff_getElem.1 h
  exact ⟨d.len ▸ hi, by simpa [d.get_eq hi] using hp⟩

/-- `fs_write` and `SYS_OPEN` choose the entry found or, when there is none, a free slot. -/
theorem fsPlace_some {d : Dir} {name : List Byte} {size : U32} {i : Nat} {start : U32} (h : fsPlace d name size = some (i, start)) :
    i < dirEntries ∧ (fsFind d name = some i ∨ (fsFind d name = none ∧ (d.get i).live = false)) := by
  unfold fsPlace at h
  cases hf : fsFind d name with
  | some j =>
    have hj := fsFind_lt hf
    simp only [hf] at h
    split at h <;> (simp only [Option.some.injEq, Prod.mk.injEq] at h; exact ⟨h.1 ▸ hj, Or.inl (by rw [h.1])⟩)
  | none =>
    simp only [hf] at h
    obtain ⟨j, hj, hij⟩ := Option.map_eq_some_iff.1 h
    simp only [Prod.mk.injEq] at hij
    obtain ⟨h1, h2⟩ := firstFree_some hj
    exact ⟨hij.1 ▸ h1, Or.inr ⟨rfl, hij.1 ▸ h2⟩⟩

end MiniOs32
