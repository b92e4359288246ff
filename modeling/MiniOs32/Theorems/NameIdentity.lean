import MiniOs32.Lemmas.Calls
import MiniOs32.Lib.Run

/-!
# Names identify files

Every filesystem call resolves its file through `fs_find`, and `fs_find` looks at the first sixteen characters only, although
an entry stores 47. The look-up is right exactly for the names that no live entry shadows; on runs that use such names
alone, saving or renaming to a new name touches no other file and two live entries never carry the same name.
-/

namespace MiniOs32

/-- What `fs_find` is for: it returns an entry that carries the whole name, and fails only when there is none. -/
def FindCorrect (d : Dir) (name : List Byte) : Prop :=
  match fsFind d name with
  | some i => (d.get i).live = true ∧ SameName (d.get i).str name
  | none => ∀ i, (d.get i).live = true → ¬SameName (d.get i).str name

/-- A live entry under another name that agrees with the given one in its first sixteen characters. -/
def Clash (e : Dirent) (name : List Byte) : Prop :=
  e.live = true ∧ SameName (e.str.take 16) (name.take 16) ∧ ¬SameName e.str name

/-- Every live entry that agrees with a name in sixteen characters only stands after a live entry that carries the name. -/
def Unshadowed (d : Dir) (name : List Byte) : Prop :=
  ∀ j, Clash (d.get j) name → ∃ i < j, (d.get i).live = true ∧ SameName (d.get i).str name

/-- No two live entries carry the same name. -/
def DistinctNames (d : Dir) : Prop :=
  ∀ i j, i ≠ j → (d.get i).live = true → (d.get j).live = true → ¬SameName (d.get i).str (d.get j).str

/-- No live entry carries the name. -/
def NewName (d : Dir) (name : List Byte) : Prop := ∀ i, (d.get i).live = true → ¬SameName (d.get i).str name

/-! ## The look-up -/

theorem findCorrect_iff_unshadowed (d : Dir) {name : List Byte} (hn : IsName name) : FindCorrect d name ↔ Unshadowed d name := by
  unfold FindCorrect
  cases hf : fsFind d name with
  | none =>
    have h := (fsFind_eq_none_iff d name).1 hf
    refine ⟨fun _ j hj => ?_, fun _ i hi hs => ?_⟩
    · have := (nameEqCi_iff (d.get j) hn).2 hj.2.1
      rw [h j hj.1] at this
      cases this
    · have := (nameEqCi_iff (d.get i) hn).2 (hs.take 16)
      rw [h i hi] at this
      cases this
  | some i =>
    obtain ⟨⟨hl, he⟩, hmin⟩ := (fsFind_eq_some_iff d name i).1 hf
    constructor
    · rintro ⟨-, hs⟩ j ⟨hjl, hj16, hjs⟩
      have hij : i ≤ j := by
        by_contra hlt
        exact hmin j (by omega) ⟨hjl, (nameEqCi_iff (d.get j) hn).2 hj16⟩
      have hne : i ≠ j := fun heq => hjs (heq ▸ hs)
      exact ⟨i, by omega, hl, hs⟩
    · intro h
      refine ⟨hl, ?_⟩
      by_contra hs
      obtain ⟨j, hji, hjl, hjs⟩ := h i ⟨hl, (nameEqCi_iff (d.get i) hn).1 he, hs⟩
      exact hmin j hji ⟨hjl, (nameEqCi_iff (d.get j) hn).2 (hjs.take 16)⟩

/-- Being unshadowed does not depend on the case a name is written in. -/
theorem Unshadowed.congr {d : Dir} {a b : List Byte} (h : SameName a b) (ha : Unshadowed d a) : Unshadowed d b := by
  intro j hj
  obtain ⟨i, hi, hl, hs⟩ := ha j ⟨hj.1, hj.2.1.trans (h.symm.take 16), fun hs => hj.2.2 (hs.trans h)⟩
  exact ⟨i, hi, hl, hs.trans h⟩

/-! ## One call -/

/-- A call's name argument has at most 47 characters and is not shadowed. -/
def GoodName (k : Kernel) (um : UserMem) (off : U32) : Prop :=
  ∀ s, nameAt um off = some s → s.length ≤ fsNameLen ∧ Unshadowed k.fs.dir s

/-- A save, a rename or a delete whose names are not shadowed, no rename being to the empty name. -/
def GoodNames (k : Kernel) (r : Request) : Prop :=
  match r.call with
  | .save nameOff _ _ => GoodName k r.um nameOff
  | .delete nameOff => GoodName k r.um nameOff
  | .rename oldOff newOff => GoodName k r.um oldOff ∧ GoodName k r.um newOff ∧ nameAt r.um newOff ≠ some []
  | _ => False

/-- What renaming does to the entry renamed: another name, everything else as it was. -/
def Renamed (e e' : Dirent) (name : List Byte) : Prop :=
  e'.live = true ∧ SameName e'.str name ∧ e'.start = e.start ∧ e'.size = e.size ∧ e'.flags = e.flags ∧ e'.reserved = e.reserved

/-- Saving under a new name leaves every live entry alone; renaming to a new name leaves every live entry alone but the one
renamed, which changes its name only. -/
def KeepsOthers (k : Kernel) (r : Request) : Prop :=
  match r.call with
  | .save nameOff _ _ => ∀ s, nameAt r.um nameOff = some s → NewName k.fs.dir s →
      ∀ i, (k.fs.dir.get i).live = true → (k.step r).fs.dir.get i = k.fs.dir.get i
  | .rename oldOff newOff => ∀ s t, nameAt r.um oldOff = some s → nameAt r.um newOff = some t → NewName k.fs.dir t →
      ∀ i, (k.fs.dir.get i).live = true →
        (¬SameName (k.fs.dir.get i).str s → (k.step r).fs.dir.get i = k.fs.dir.get i) ∧
        (SameName (k.fs.dir.get i).str s → Renamed (k.fs.dir.get i) ((k.step r).fs.dir.get i) t)
  | _ => True

/-- The look-up made by a call is right when the name it is given is not shadowed. -/
theorem GoodName.find {k : Kernel} {um : UserMem} {off : U32} (h : GoodName k um off) {s : List Byte}
    (hs : nameAt um off = some s) : FindCorrect k.fs.dir (normalizeName s) ∧ SameName (normalizeName s) s := by
  obtain ⟨hl, hu⟩ := h s hs
  have hsame := sameName_normalizeName hl
  exact ⟨(findCorrect_iff_unshadowed _ (normalizeName_isName (nameAt_isName hs))).2 (hu.congr hsame.symm), hsame⟩

/-- A right look-up that finds nothing means the name is new. -/
theorem FindCorrect.newName {d : Dir} {name : List Byte} (h : FindCorrect d name) (hf : fsFind d name = none) :
    NewName d name := by
  rw [FindCorrect, hf] at h
  exact h

/-- A right look-up that finds an entry finds the name. -/
theorem FindCorrect.same {d : Dir} {name : List Byte} (h : FindCorrect d name) {i : Nat} (hf : fsFind d name = some i) :
    SameName (d.get i).str name := by
  rw [FindCorrect, hf] at h
  exact h.2

/-- A right look-up of a new name finds nothing. -/
theorem FindCorrect.none_of_newName {d : Dir} {name : List Byte} (h : FindCorrect d name) (hn : NewName d name) :
    fsFind d name = none := by
  cases hf : fsFind d name with
  | none => rfl
  | some i => exact absurd (h.same hf) (hn i (fsFind_live hf))

/-- Replacing an entry keeps the names distinct when the new one, if live, carries a name that no other live entry has. -/
theorem DistinctNames.set {d : Dir} (hd : DistinctNames d) {i : Nat} (hi : i < dirEntries) {e : Dirent}
    (h : e.live = true → ∀ j ≠ i, (d.get j).live = true → ¬SameName (d.get j).str e.str) : DistinctNames (d.set i e) := by
  intro a b hab ha hb
  rw [d.get_set hi] at ha ⊢
  rw [d.get_set hi] at hb ⊢
  by_cases hai : a = i <;> by_cases hbi : b = i
  · exact absurd (hai.trans hbi.symm) hab
  · simp only [hai, hbi, if_true, if_false] at ha hb ⊢
    exact fun hs => h ha b hbi hb hs.symm
  · simp only [hai, hbi, if_true, if_false] at ha hb ⊢
    exact h hb a hai ha
  · simp only [hai, hbi, if_false] at ha hb ⊢
    exact hd a b hab ha hb

/-- Every call with good names keeps the names distinct. -/
theorem distinctNames_step (k : Kernel) (r : Request) (hd : DistinctNames k.fs.dir) (hg : GoodNames k r) :
    DistinctNames (k.step r).fs.dir := by
  obtain ⟨um, c⟩ := r
  cases c with
  | save nameOff bufOff size =>
    rcases sysSave_cases k um nameOff bufOff size with h | ⟨s, idx, start, -, hs, hp, h⟩ <;>
      simp only [Kernel.step, Kernel.syscall, h]
    · exact hd
    · obtain ⟨hfc, -⟩ := GoodName.find hg hs
      obtain ⟨hi, hplace⟩ := fsPlace_some hp
      refine hd.set hi (fun _ j hj hjl => ?_)
      rw [saveEntry_str _ (normalizeName_isName (nameAt_isName hs)) (normalizeName_length_le s)]
      rcases hplace with hf | ⟨hf, -⟩
      · exact fun hsame => hd j idx hj hjl (fsFind_live hf) (hsame.trans (hfc.same hf).symm)
      · exact hfc.newName hf j hjl
  | rename oldOff newOff =>
    rcases sysRename_cases k um oldOff newOff with h | ⟨s, t, idx, hs, ht, hfo, hfn, h⟩ <;>
      simp only [Kernel.step, Kernel.syscall, h]
    · exact hd
    · obtain ⟨hfc, -⟩ := GoodName.find hg.2.1 ht
      refine hd.set (fsFind_lt hfo) (fun _ j _ hjl => ?_)
      rw [Dirent.setName_str _ (normalizeName_isName (nameAt_isName ht)),
        List.take_of_length_le (normalizeName_length_le t)]
      exact hfc.newName hfn j hjl
  | delete nameOff =>
    rcases sysDelete_cases k um nameOff with h | ⟨s, idx, hs, hf, h⟩ <;> simp only [Kernel.step, Kernel.syscall, h]
    · exact hd
    · exact hd.set (fsFind_lt hf) (fun hl => by simp at hl)
  | _ => exact hg.elim

/-- A save under a new name with good names changes no live entry. -/
theorem save_keepsOthers (k : Kernel) (um : UserMem) (nameOff bufOff size : U32)
    (hg : GoodNames k ⟨um, .save nameOff bufOff size⟩) : KeepsOthers k ⟨um, .save nameOff bufOff size⟩ := by
  intro s hs hnew i hi
  rcases sysSave_cases k um nameOff bufOff size with h | ⟨s', idx, start, -, hs', hp, h⟩ <;>
    simp only [Kernel.step, Kernel.syscall, h]
  obtain rfl : s = s' := Option.some.inj (hs.symm.trans hs')
  obtain ⟨hfc, hsame⟩ := GoodName.find hg hs
  have hnone := hfc.none_of_newName (fun j hj hjs => hnew j hj (hjs.trans hsame))
  obtain ⟨-, hplace⟩ := fsPlace_some hp
  rcases hplace with hf | ⟨-, hfree⟩
  · rw [hnone] at hf
    cases hf
  · refine Dir.get_set_ne _ (fun heq => ?_) _
    rw [heq, hfree] at hi
    cases hi

/-- A rename to a new name with good names changes the name of the entry renamed and nothing else. -/
theorem rename_keepsOthers (k : Kernel) (um : UserMem) (oldOff newOff : U32) (hd : DistinctNames k.fs.dir)
    (hg : GoodNames k ⟨um, .rename oldOff newOff⟩) : KeepsOthers k ⟨um, .rename oldOff newOff⟩ := by
  intro s t hs ht hnew i hi
  obtain ⟨hfo, hso⟩ := GoodName.find hg.1 hs
  obtain ⟨hfn, hsn⟩ := GoodName.find hg.2.1 ht
  have hnone := hfn.none_of_newName (fun j hj hjs => hnew j hj (hjs.trans hsn))
  cases hf : fsFind k.fs.dir (normalizeName s) with
  | none =>
    have hstep : k.step ⟨um, .rename oldOff newOff⟩ = k := by
      simp [Kernel.step, Kernel.syscall, Kernel.sysRename, hs, ht, hf]
    rw [hstep]
    exact ⟨fun _ => rfl, fun hsame => absurd (hsame.trans hso.symm) (hfo.newName hf i hi)⟩
  | some idx =>
    have hidx := (hfo.same hf).trans hso
    have hlt := fsFind_lt hf
    have hstep : (k.step ⟨um, .rename oldOff newOff⟩).fs.dir =
        k.fs.dir.set idx ((k.fs.dir.get idx).setName (normalizeName t) fsNameLen (Nat.le_refl _)) := by
      simp [Kernel.step, Kernel.syscall, Kernel.sysRename, hs, ht, hf, hnone, Fs.syncDir]
    rw [hstep]
    refine ⟨fun hne => Dir.get_set_ne _ (fun heq => hne (by rw [heq]; exact hidx)) _, fun hsame => ?_⟩
    have heq : i = idx := by
      by_contra hne
      exact hd i idx hne hi (fsFind_live hf) (hsame.trans hidx.symm)
    subst heq
    rw [Dir.get_set_self _ hlt]
    have hstr := (k.fs.dir.get i).setName_str (normalizeName_isName (nameAt_isName ht)) fsNameLen (Nat.le_refl _)
    rw [List.take_of_length_le (normalizeName_length_le t)] at hstr
    refine ⟨?_, by rw [hstr]; exact hsn, rfl, rfl, rfl, rfl⟩
    rw [Dirent.live_iff, hstr]
    intro hnil
    have ht0 : t = [] := by simpa [normalizeName, fsNameLen] using hnil
    exact hg.2.2 (ht0 ▸ ht)

/-- Every call with good names leaves the other files alone. -/
theorem keepsOthers_step (k : Kernel) (r : Request) (hd : DistinctNames k.fs.dir) (hg : GoodNames k r) : KeepsOthers k r := by
  obtain ⟨um, c⟩ := r
  cases c with
  | save nameOff bufOff size => exact save_keepsOthers k um nameOff bufOff size hg
  | rename oldOff newOff => exact rename_keepsOthers k um oldOff newOff hd hg
  | delete nameOff => trivial
  | _ => exact hg.elim

/-! ## Whole runs -/

/-- `fs_find` is right exactly when no live entry shadows the name; and along every run of saves, renames and deletes whose
names are unshadowed when they are used, live names stay pairwise different and a new name never touches another file. -/
theorem names_identify_files_iff_unshadowed (k : Kernel) (rs : List Request) :
    (∀ (d : Dir) (name : List Byte), IsName name → name.length ≤ fsNameLen → (FindCorrect d name ↔ Unshadowed d name)) ∧
    (DistinctNames k.fs.dir → Meets Kernel.step GoodNames k rs →
      DistinctNames (runFrom Kernel.step k rs).fs.dir ∧ Meets Kernel.step KeepsOthers k rs) := by
  refine ⟨fun d name hn _ => findCorrect_iff_unshadowed d hn, fun hd hm => ⟨?_, ?_⟩⟩
  · exact @inv_runFrom _ _ _ GoodNames (fun k : Kernel => DistinctNames k.fs.dir) distinctNames_step k hd rs hm
  · exact @meets_of_inv _ _ _ GoodNames _ (fun k : Kernel => DistinctNames k.fs.dir) distinctNames_step keepsOthers_step k hd rs hm

/-- A directory with one file. -/
def oneFile (name : String) : Dir := Dir.empty.set 0 (saveEntry Dirent.zero (asciiBytes name) 201#32 3#32)

theorem oneFile_live {name : String} {i : Nat} (h : ((oneFile name).get i).live = true) : i = 0 := by
  by_contra hi
  rw [oneFile, Dir.get_set_ne _ hi, Dir.get_empty] at h
  simp at h

/-- The run rule at work: `NOTES.TXT` is saved beside `README.TXT`. -/
theorem names_identify_files_iff_unshadowed_notes :
    DistinctNames (oneFile "README.TXT") ∧
    Meets Kernel.step GoodNames (Kernel.fresh (oneFile "README.TXT") (Disk.blank 64#32 (by decide)))
      [⟨userText "notes.txt", .save 0#32 100#32 3#32⟩] ∧
    DistinctNames (runFrom Kernel.step (Kernel.fresh (oneFile "README.TXT") (Disk.blank 64#32 (by decide)))
      [⟨userText "notes.txt", .save 0#32 100#32 3#32⟩]).fs.dir := by
  have hd : DistinctNames (oneFile "README.TXT") := by
    intro i j hij hi hj
    exact absurd ((oneFile_live hi).trans (oneFile_live hj).symm) hij
  have hm : Meets Kernel.step GoodNames (Kernel.fresh (oneFile "README.TXT") (Disk.blank 64#32 (by decide)))
      [⟨userText "notes.txt", .save 0#32 100#32 3#32⟩] := by
    refine ⟨fun s hs => ?_, trivial⟩
    obtain rfl : asciiBytes "notes.txt" = s := Option.some.inj (Eq.trans (by decide) hs)
    refine ⟨by decide, fun j hj => ?_⟩
    obtain rfl := oneFile_live hj.1
    exact absurd hj.2.1 (by decide)
  have h := (names_identify_files_iff_unshadowed (Kernel.fresh (oneFile "README.TXT") (Disk.blank 64#32 (by decide)))
    [⟨userText "notes.txt", .save 0#32 100#32 3#32⟩]).2
  exact ⟨hd, hm, (h hd hm).1⟩

/-- With `ABCDEFGHIJKLMNOP1` on the disk, the different name `ABCDEFGHIJKLMNOP2` finds it. -/
theorem find_correct_of_every_name_false :
    ¬∀ (d : Dir) (name : List Byte), IsName name → name.length ≤ fsNameLen → FindCorrect d name := by
  intro h
  have hc := h (oneFile "ABCDEFGHIJKLMNOP1") (asciiBytes "ABCDEFGHIJKLMNOP2") (by unfold IsName; decide +kernel) (by decide)
  have hf : fsFind (oneFile "ABCDEFGHIJKLMNOP1") (asciiBytes "ABCDEFGHIJKLMNOP2") = some 0 :=
    (fsFind_eq_some_iff _ _ 0).2 ⟨by decide +kernel, fun j hj => absurd hj (Nat.not_lt_zero j)⟩
  exact absurd (hc.same hf) (by decide)

end MiniOs32
