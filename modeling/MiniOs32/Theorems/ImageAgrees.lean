import MiniOs32.Lib.Returns
import MiniOs32.Tools.Mkfs
import MiniOs32.Theorems.SaveLoad

/-!
# What the image builder packs is what the kernel loads

A tree is followed through `mkfs.py` to the disk and from there through `fs_load_dir` into the directory array. The entries the
builder writes are the bytes of the entries the kernel reads, in the order of the sorted keys; the running LBA is where the
padded data of an item starts. A look-up then finds the item's own entry as soon as no two keys agree in the characters that are
compared.
-/

namespace MiniOs32

/-! ## The tree -/

/-- What a tree holds under a path: the bytes of a file, or a subdirectory, whose path ends in `'/'`. -/
inductive HostTree.Holds : HostTree → List Char → Option (List Byte) → Prop
  | file (name : HostName) (data : List Byte) (rest : HostTree) : Holds (.file name data rest) name.val (some data)
  | subdir (name : HostName) (sub rest : HostTree) : Holds (.dir name sub rest) (name.val ++ ['/']) none
  | inside (name : HostName) {sub : HostTree} (rest : HostTree) {p : List Char} {x : Option (List Byte)} :
      Holds sub p x → Holds (.dir name sub rest) (name.val ++ ['/'] ++ p) x
  | besideFile (name : HostName) (data : List Byte) {rest : HostTree} {p : List Char} {x : Option (List Byte)} :
      Holds rest p x → Holds (.file name data rest) p x
  | besideDir (name : HostName) (sub : HostTree) {rest : HostTree} {p : List Char} {x : Option (List Byte)} :
      Holds rest p x → Holds (.dir name sub rest) p x

/-- A path is not empty and holds no NUL. -/
theorem HostTree.Holds.path {t : HostTree} {p : List Char} {x : Option (List Byte)} (h : t.Holds p x) :
    p ≠ [] ∧ Char.ofNat 0 ∉ p := by
  induction h with
  | file name data rest => exact ⟨name.property.1, name.property.2.2⟩
  | subdir name sub rest =>
    refine ⟨by simp, fun hmem => ?_⟩
    rcases List.mem_append.1 hmem with h | h
    · exact name.property.2.2 h
    · exact absurd (List.mem_singleton.1 h) (by decide)
  | inside name rest _ ih =>
    refine ⟨by simp, fun hmem => ?_⟩
    rcases List.mem_append.1 hmem with h | h
    · rcases List.mem_append.1 h with h | h
      · exact name.property.2.2 h
      · exact absurd (List.mem_singleton.1 h) (by decide)
    · exact ih.2 h
  | besideFile name data _ ih => exact ih
  | besideDir name sub _ ih => exact ih

/-- The path of a subdirectory ends in `'/'`. -/
theorem HostTree.Holds.slash_of_dir {t : HostTree} {p : List Char} (h : t.Holds p none) : p.getLast? = some '/' := by
  generalize hx : none = x at h
  induction h with
  | file name data rest => cases hx
  | subdir name sub rest => simp
  | inside name rest _ ih => rw [List.getLast?_append, ih hx]; rfl
  | besideFile name data _ ih => exact ih hx
  | besideDir name sub _ ih => exact ih hx

theorem mem_sortByKey {α : Type} {key : α → List Char} {l : List α} {a : α} : a ∈ sortByKey key l ↔ a ∈ l :=
  (List.mergeSort_perm l _).mem_iff

theorem mem_visitDir {pre : List Char} {files : List (HostName × List Byte)} {subs : List (HostName × List PackItem)} {it : PackItem} :
    it ∈ visitDir pre files subs ↔ (pre ≠ [] ∧ it = (pre, none)) ∨ (∃ f ∈ files, it = (pre ++ f.1.val, some f.2)) ∨
      ∃ s ∈ subs, it ∈ s.2 := by
  unfold visitDir
  rw [List.mem_append, List.mem_append, List.mem_map, List.mem_flatMap, or_assoc]
  refine or_congr ?_ (or_congr ?_ ?_)
  · split
    · rename_i h; simp [h]
    · rename_i h; simp [h]
  · simp only [mem_sortByKey, eq_comm (a := it)]
  · simp only [mem_sortByKey]

/-- What is collected below a directory is what the tree holds, under the prefix of the directory. -/
theorem mem_walk (t : HostTree) : ∀ {pre : List Char} {it : PackItem},
    ((∃ f ∈ t.files, it = (pre ++ f.1.val, some f.2)) ∨ ∃ s ∈ t.subWalks pre, it ∈ s.2) ↔
      ∃ p x, t.Holds p x ∧ it = (pre ++ p, x) := by
  induction t with
  | nil =>
    intro pre it
    simp only [HostTree.files, HostTree.subWalks, List.not_mem_nil, false_and, exists_false, or_false, false_iff, not_exists]
    rintro p x ⟨h, -⟩
    cases h
  | file name data rest ih =>
    intro pre it
    simp only [HostTree.files, HostTree.subWalks, List.mem_cons, exists_eq_or_imp, or_assoc, ih]
    constructor
    · rintro (h | ⟨p, x, h, rfl⟩)
      · exact ⟨_, _, .file name data rest, h⟩
      · exact ⟨p, x, .besideFile name data h, rfl⟩
    · rintro ⟨p, x, h, rfl⟩
      cases h with
      | file => exact Or.inl rfl
      | besideFile _ _ h => exact Or.inr ⟨p, x, h, rfl⟩
  | dir name sub rest ihs ihr =>
    intro pre it
    simp only [HostTree.files, HostTree.subWalks, List.mem_cons, exists_eq_or_imp, mem_visitDir, ihs]
    rw [or_left_comm, ihr]
    constructor
    · rintro ((⟨-, rfl⟩ | ⟨p, x, h, rfl⟩) | ⟨p, x, h, rfl⟩)
      · exact ⟨_, _, .subdir name sub rest, by simp⟩
      · exact ⟨_, x, .inside name rest h, by simp⟩
      · exact ⟨p, x, .besideDir name sub h, rfl⟩
    · rintro ⟨p, x, h, rfl⟩
      cases h with
      | subdir => exact Or.inl (Or.inl ⟨by simp, by simp⟩)
      | inside _ _ h => exact Or.inl (Or.inr ⟨_, x, h, by simp⟩)
      | besideDir _ _ h => exact Or.inr ⟨p, x, h, rfl⟩

/-- The items `collect` returns are what the tree holds, and every key fits. -/
theorem collect_spec {t : HostTree} {items : List PackItem} (h : collect t = .ok items) :
    (∀ p x, (p, x) ∈ items ↔ t.Holds p x) ∧ ∀ it ∈ items, it.1.length ≤ keyMax := by
  unfold collect at h
  dsimp only at h
  split at h
  · cases h
  · rename_i hfind
    cases h
    refine ⟨fun p x => ?_, fun it hit => ?_⟩
    · rw [mem_sortByKey, mem_visitDir, mem_walk]
      simp
    · rw [mem_sortByKey] at hit
      have := List.find?_eq_none.1 hfind it hit
      simpa using this

/-! ## The entries -/

theorem setSlice_append (a b c new : List Byte) : setSlice (a ++ b ++ c) a.length (a.length + b.length) new = a ++ new ++ c := by
  unfold setSlice
  rw [← List.length_append, List.drop_left, List.append_assoc a b c, List.take_left]

theorem packInto_append {a b c : List Byte} (hb : b.length = 4) (v : Nat) {r : List Byte}
    (h : packInto (a ++ b ++ c) a.length v = .ok r) : v < 2 ^ 32 ∧ r = a ++ le32 (BitVec.ofNat 32 v) ++ c := by
  unfold packInto at h
  split at h
  · rename_i hv
    rw [← hb, setSlice_append] at h
    cases h
    exact ⟨hv, rfl⟩
  · cases h

theorem encodeKey_length (key : List Char) : (encodeKey key).length ≤ fsNameLen := by
  simp [encodeKey, keyMax, fsNameLen]

/-- The entry of an item. -/
def itemEntry (key : List Char) (lba size : Nat) : Dirent :=
  ⟨encodeKey key ++ List.replicate (fsNameLen + 1 - (encodeKey key).length) 0#8, BitVec.ofNat 32 lba, BitVec.ofNat 32 size, 0#32, 0#32,
    by have := encodeKey_length key; simp; omega⟩

/-- The builder writes the entry as the kernel lays it out. -/
theorem packEntry_eq {key : List Char} {lba size : Nat} {r : List Byte} (h : packEntry key lba size = .ok r) :
    lba < 2 ^ 32 ∧ size < 2 ^ 32 ∧ r = (itemEntry key lba size).bytes := by
  have hlen := encodeKey_length key
  set name := encodeKey key ++ List.replicate (fsNameLen + 1 - (encodeKey key).length) 0#8 with hname
  have hname48 : name.length = 48 := (itemEntry key lba size).nameLen
  have h0 : setSlice (List.replicate entrySize 0#8) 0 (encodeKey key).length (encodeKey key) =
      name ++ List.replicate 4 0#8 ++ (List.replicate 4 0#8 ++ List.replicate 4 0#8 ++ List.replicate 4 0#8) := by
    unfold setSlice
    rw [List.drop_replicate, hname, List.take_zero, List.nil_append]
    simp only [List.append_assoc, List.replicate_append_replicate]
    congr 2
    have h1 : fsNameLen = 47 := rfl
    have h2 : entrySize = 64 := rfl
    lia
  unfold packEntry at h
  dsimp only at h
  obtain ⟨e1, h1, h⟩ := except_bind_eq_ok.1 h
  obtain ⟨e2, h2, h3⟩ := except_bind_eq_ok.1 h
  -- the three words go behind the name one after the other
  rw [h0, ← hname48] at h1
  obtain ⟨hlba, rfl⟩ := packInto_append rfl lba h1
  have hl1 : (name ++ le32 (BitVec.ofNat 32 lba)).length = 52 := by rw [List.length_append, le32_length, hname48]
  rw [← List.append_assoc, ← List.append_assoc, ← hl1] at h2
  rw [List.append_assoc (_ ++ _ ++ _)] at h2
  obtain ⟨hsize, rfl⟩ := packInto_append rfl size h2
  have hl2 : (name ++ le32 (BitVec.ofNat 32 lba) ++ le32 (BitVec.ofNat 32 size)).length = 56 := by
    rw [List.length_append, le32_length, hl1]
  rw [← List.append_assoc, ← hl2] at h3
  obtain ⟨-, rfl⟩ := packInto_append rfl 0 h3
  refine ⟨hlba, hsize, ?_⟩
  rw [show List.replicate 4 0#8 = le32 0#32 by decide]
  rfl

@[simp] theorem Dirent.bytes_length (e : Dirent) : e.bytes.length = direntSize := by
  simp [Dirent.bytes, e.nameLen, fsNameLen, direntSize]

/-! ## The loop -/

/-- The bytes of an item. -/
def blob (it : PackItem) : List Byte := it.2.getD []

/-- The sectors of an item. -/
def blobSectors (it : PackItem) : Nat := ((blob it).length + 511) / 512

/-- The bytes of an item, padded to whole sectors. -/
def padded (it : PackItem) : List Byte := blob it ++ List.replicate (blobSectors it * 512 - (blob it).length) 0#8

/-- Each item with the sector it starts in. -/
def placed (lba : Nat) : List PackItem → List (Nat × PackItem)
  | [] => []
  | it :: its => (lba, it) :: placed (lba + blobSectors it) its

/-- The entry of a placed item. -/
def placedEntry (q : Nat × PackItem) : Dirent := itemEntry q.2.1 q.1 (blob q.2).length

theorem padded_length (it : PackItem) : (padded it).length = blobSectors it * 512 := by
  simp only [padded, List.length_append, List.length_replicate, blobSectors]
  omega

@[simp] theorem placed_length (lba : Nat) (items : List PackItem) : (placed lba items).length = items.length := by
  induction items generalizing lba with
  | nil => rfl
  | cons it its ih => simp [placed, ih]

theorem placed_snd (lba : Nat) (items : List PackItem) : (placed lba items).map Prod.snd = items := by
  induction items generalizing lba with
  | nil => rfl
  | cons it its ih => simp [placed, ih]

/-- One turn: the next entry replaces zeros, and the padded bytes go behind the data. -/
theorem packItem_eq {i n : Nat} {D data : List Byte} {lba : Nat} {it : PackItem} {r : Packed} (hD : D.length = i * entrySize)
    (hdata : data.length % 512 = 0) (h : packItem ⟨D ++ List.replicate ((n + 1) * entrySize) 0#8, data, lba⟩ i it = .ok r) :
    lba < 2 ^ 32 ∧ (blob it).length < 2 ^ 32 ∧
      r = ⟨D ++ (placedEntry (lba, it)).bytes ++ List.replicate (n * entrySize) 0#8, data ++ padded it, lba + blobSectors it⟩ := by
  unfold packItem at h
  dsimp only at h
  obtain ⟨e, he, hr⟩ := except_bind_eq_ok.1 h
  obtain ⟨hlba, hsize, rfl⟩ := packEntry_eq he
  refine ⟨hlba, hsize, ?_⟩
  have hdir : setSlice (D ++ List.replicate ((n + 1) * entrySize) 0#8) (i * entrySize) ((i + 1) * entrySize)
      (placedEntry (lba, it)).bytes = D ++ (placedEntry (lba, it)).bytes ++ List.replicate (n * entrySize) 0#8 := by
    rw [show (n + 1) * entrySize = entrySize + n * entrySize by rw [Nat.add_mul, Nat.one_mul, Nat.add_comm],
      ← List.replicate_append_replicate, ← List.append_assoc, Nat.add_mul i 1, ← hD, Nat.one_mul]
    have := setSlice_append D (List.replicate entrySize 0#8) (List.replicate (n * entrySize) 0#8) (placedEntry (lba, it)).bytes
    rwa [List.length_replicate] at this
  have hpad : data ++ blob it ++ List.replicate (-((data ++ blob it).length : Int) % 512).toNat 0#8 = data ++ padded it := by
    rw [padded, List.append_assoc]
    congr 3
    rw [List.length_append, blobSectors]
    omega
  cases hr
  exact Packed.mk.injEq .. ▸ ⟨hdir, hpad, rfl⟩

/-- The loop writes one entry for each item and the padded bytes one behind the other. -/
theorem packItems_eq (items : List PackItem) : ∀ {i n : Nat} {D data : List Byte} {lba : Nat} {r : Packed},
    D.length = i * entrySize → data.length % 512 = 0 → items.length ≤ n →
    packItems i ⟨D ++ List.replicate (n * entrySize) 0#8, data, lba⟩ items = .ok r →
    (∀ q ∈ placed lba items, q.1 < 2 ^ 32 ∧ (blob q.2).length < 2 ^ 32) ∧
      r.directory = D ++ (placed lba items).flatMap (fun q => (placedEntry q).bytes) ++
        List.replicate ((n - items.length) * entrySize) 0#8 ∧
      r.data = data ++ items.flatMap padded := by
  induction items with
  | nil =>
    intro i n D data lba r _ _ _ h
    cases h
    simp [placed]
  | cons it its ih =>
    intro i n D data lba r hD hdata hn h
    obtain ⟨m, rfl⟩ : ∃ m, n = m + 1 := ⟨n - 1, by simp at hn; lia⟩
    obtain ⟨p, hp, h⟩ := except_bind_eq_ok.1 h
    obtain ⟨hlba, hsize, rfl⟩ := packItem_eq hD hdata hp
    have hD' : (D ++ (placedEntry (lba, it)).bytes).length = (i + 1) * entrySize := by
      rw [List.length_append, Dirent.bytes_length, hD, Nat.add_mul, Nat.one_mul]
      rfl
    have hdata' : (data ++ padded it).length % 512 = 0 := by
      rw [List.length_append, padded_length]
      lia
    obtain ⟨h1, h2, h3⟩ := ih hD' hdata' (by simpa using hn) h
    refine ⟨?_, ?_, ?_⟩
    · intro q hq
      rcases List.mem_cons.1 hq with rfl | hq
      · exact ⟨hlba, hsize⟩
      · exact h1 q hq
    · rw [h2, placed, List.flatMap_cons, List.length_cons, Nat.add_sub_add_right]
      simp only [List.append_assoc]
    · rw [h3, List.flatMap_cons, List.append_assoc]

/-- The padded bytes of a placed item lie where its sector says. -/
theorem placed_data (items : List PackItem) : ∀ {lba : Nat}, ∀ q ∈ placed lba items,
    lba ≤ q.1 ∧ (q.1 - lba + blobSectors q.2) * 512 ≤ (items.flatMap padded).length ∧
      ∀ i < (blob q.2).length, (items.flatMap padded).getD ((q.1 - lba) * 512 + i) 0#8 = (blob q.2).getD i 0#8 := by
  induction items with
  | nil => intro lba q hq; simp [placed] at hq
  | cons it its ih =>
    intro lba q hq
    rw [List.flatMap_cons, List.length_append, padded_length]
    rcases List.mem_cons.1 hq with rfl | hq
    · refine ⟨Nat.le_refl _, by simp, fun i hi => ?_⟩
      have hi' : i < (blob it).length := hi
      have hle : (blob it).length ≤ (padded it).length := by simp [padded]
      rw [Nat.sub_self, Nat.zero_mul, Nat.zero_add, List.getD_append _ _ _ _ (by omega), padded, List.getD_append _ _ _ _ hi']
    · obtain ⟨h1, h2, h3⟩ := ih q hq
      have hstart : (q.1 - lba) * 512 = blobSectors it * 512 + (q.1 - (lba + blobSectors it)) * 512 := by
        rw [← Nat.add_mul]
        congr 1
        omega
      refine ⟨Nat.le_trans (Nat.le_add_right _ _) h1, ?_, fun i hi => ?_⟩
      · rw [Nat.add_mul] at h2 ⊢
        rw [hstart, Nat.add_assoc]
        exact Nat.add_le_add_left h2 _
      · rw [hstart, Nat.add_assoc, List.getD_append_right _ _ _ _ (by rw [padded_length]; exact Nat.le_add_right _ _), padded_length,
          Nat.add_sub_cancel_left, h3 i hi]

/-! ## The directory the kernel reads -/

/-- The disk holds an image from the first directory sector on. -/
structure Disk.HoldsImage (d : Disk) (image : List Byte) : Prop where
  fits : fsDirLba * 512 + image.length ≤ d.limit * 512
  bytes : ∀ i < image.length, d.byteAt (fsDirLba + i / 512) (i % 512) = image.getD i 0#8

/-- The word at an offset where its bytes are. -/
theorem word32_of_getD {buf : Nat → Byte} {off : Nat} {bytes : List Byte} (pre post : List Byte) {w : U32} {n : Nat} (hpre : pre.length = n)
    (hb : bytes = pre ++ le32 w ++ post) (h : ∀ i < bytes.length, buf (off + i) = bytes.getD i 0#8) :
    word32 (buf (off + n)) (buf (off + n + 1)) (buf (off + n + 2)) (buf (off + n + 3)) = w := by
  subst hpre
  have hbyte : ∀ j < 4, buf (off + pre.length + j) = (le32 w).getD j 0#8 := by
    intro j hj
    have hlen : pre.length + j < bytes.length := by
      rw [hb, List.length_append, List.length_append, le32_length]
      omega
    rw [Nat.add_assoc, h _ hlen, hb, List.append_assoc, List.getD_append_right _ _ _ _ (by omega), Nat.add_sub_cancel_left,
      List.getD_append _ _ _ _ (by rw [le32_length]; exact hj)]
  rw [← Nat.add_zero (off + pre.length), hbyte 0 (by decide), Nat.add_zero, hbyte 1 (by decide), hbyte 2 (by decide), hbyte 3 (by decide)]
  exact word32_le32 w

/-- The entry at an offset where its bytes are. -/
theorem direntAt_eq {buf : Nat → Byte} {off : Nat} {e : Dirent} (h : ∀ i < direntSize, buf (off + i) = e.bytes.getD i 0#8) :
    direntAt buf off = e := by
  rw [← e.bytes_length] at h
  cases e with
  | mk name start size flags reserved hlen =>
    have h48 : name.length = 48 := hlen
    have hname : (List.range (fsNameLen + 1)).map (fun i => buf (off + i)) = name := by
      refine List.ext_getElem (by simp [hlen]) (fun i _ hi => ?_)
      rw [List.getElem_map, List.getElem_range, h i (by rw [Dirent.bytes_length, direntSize]; omega), Dirent.bytes]
      simp only [List.append_assoc]
      rw [List.getD_append _ _ _ _ hi, List.getD_eq_getElem _ _ hi]
    unfold direntAt
    simp only [Dirent.mk.injEq]
    refine ⟨hname, word32_of_getD name (le32 size ++ le32 flags ++ le32 reserved) h48 ?_ h,
      word32_of_getD (name ++ le32 start) (le32 flags ++ le32 reserved) ?_ ?_ h,
      word32_of_getD (name ++ le32 start ++ le32 size) (le32 reserved) ?_ ?_ h,
      word32_of_getD (name ++ le32 start ++ le32 size ++ le32 flags) [] ?_ ?_ h⟩
    all_goals simp only [Dirent.bytes, List.append_assoc, List.append_nil, List.length_append, le32_length, h48]

/-- Blocks of one length one behind the other. -/
theorem getD_flatMap_const {α β : Type} {f : α → List β} {n : Nat} (hf : ∀ a, (f a).length = n) (d : β) (l : List α) :
    ∀ {j : Nat} (hj : j < l.length) {i : Nat}, i < n → (l.flatMap f).getD (j * n + i) d = (f l[j]).getD i d := by
  induction l with
  | nil => intro j hj; simp at hj
  | cons a l ih =>
    intro j hj i hi
    rw [List.flatMap_cons]
    cases j with
    | zero => rw [Nat.zero_mul, Nat.zero_add, List.getD_append _ _ _ _ (by rw [hf]; exact hi)]; rfl
    | succ j =>
      rw [List.getD_append_right _ _ _ _ (by rw [hf, Nat.add_mul]; omega), hf,
        show (j + 1) * n + i - n = j * n + i by rw [Nat.add_mul]; omega, ih (by simpa using hj) hi]
      rfl

/-- A directory read from the bytes of some entries and zeros holds these entries. -/
theorem Dir.ofBytes_get {buf : Nat → Byte} {es : List Dirent} {n : Nat} (hn : es.length + n = dirEntries)
    (h : ∀ i < dirEntries * direntSize, buf i = (es.flatMap Dirent.bytes ++ List.replicate (n * direntSize) 0#8).getD i 0#8) :
    ∀ j, (Dir.ofBytes buf).get j = es.getD j Dirent.zero := by
  have hall : es.flatMap Dirent.bytes ++ List.replicate (n * direntSize) 0#8 =
      (es ++ List.replicate n Dirent.zero).flatMap Dirent.bytes := by
    rw [List.flatMap_append]
    congr 1
    clear hn h
    induction n with
    | zero => simp
    | succ n ih =>
      rw [List.replicate_succ, List.flatMap_cons, ← ih, Nat.add_mul, Nat.one_mul, Nat.add_comm, ← List.replicate_append_replicate]
      congr 1
  intro j
  by_cases hj : j < dirEntries
  · have hj' : j < (es ++ List.replicate n Dirent.zero).length := by simp [hn, hj]
    have hget : (Dir.ofBytes buf).get j = direntAt buf (j * direntSize) := by
      simp [Dir.get, Dir.ofBytes, List.getD_eq_getElem?_getD, hj]
    have hes : es.getD j Dirent.zero = (es ++ List.replicate n Dirent.zero)[j] := by
      rw [← List.getD_eq_getElem _ Dirent.zero hj']
      by_cases hjs : j < es.length
      · rw [List.getD_append _ _ _ _ hjs]
      · rw [List.getD_eq_default _ _ (by omega), List.getD_append_right _ _ _ _ (by omega)]
        simp only [List.getD_eq_getElem?_getD, List.getElem?_replicate]
        split <;> rfl
    rw [hget, hes]
    refine direntAt_eq (fun i hi => ?_)
    rw [h _ (by have : (j + 1) * direntSize ≤ dirEntries * direntSize := Nat.mul_le_mul_right _ hj
                rw [Nat.add_mul] at this
                omega), hall, getD_flatMap_const Dirent.bytes_length _ _ hj' hi]
  · rw [Dir.get_of_le _ (by omega), List.getD_eq_default _ _ (by omega)]

/-! ## Through the disk -/

/-- The bytes of the directory sectors, and behind them the data. -/
def imageOf (items : List PackItem) : List Byte :=
  ((placed fsDataLba items).map placedEntry).flatMap Dirent.bytes ++
    List.replicate ((dirEntries - items.length) * direntSize) 0#8 ++ items.flatMap padded

/-- What an accepted tree becomes. -/
theorem mkfs_eq {t : HostTree} {image : List Byte} (h : mkfs t dirSectors fsDataLba = .ok image) :
    ∃ items, collect t = .ok items ∧ items.length ≤ dirEntries ∧
      (∀ q ∈ placed fsDataLba items, q.1 < 2 ^ 32 ∧ (blob q.2).length < 2 ^ 32) ∧
      image = imageOf items := by
  unfold mkfs at h
  dsimp only at h
  obtain ⟨items, hitems, h⟩ := except_bind_eq_ok.1 h
  split at h
  · cases h
  · rename_i hn
    obtain ⟨p, hp, h⟩ := except_bind_eq_ok.1 h
    cases h
    have hn' : items.length ≤ dirEntries := by
      rw [show dirEntries = dirSectors * 512 / entrySize from rfl]
      omega
    obtain ⟨hq, hdir, hdata⟩ := packItems_eq items (i := 0) (D := []) (n := dirEntries) (by simp) (by simp) hn' hp
    refine ⟨items, hitems, hn', hq, ?_⟩
    rw [imageOf, hdir, hdata, List.nil_append, List.nil_append, List.flatMap_map]
    rfl

section

variable {items : List PackItem} {d : Disk} (hn : items.length ≤ dirEntries) (hd : d.HoldsImage (imageOf items))

include hn

theorem directory_length :
    (((placed fsDataLba items).map placedEntry).flatMap Dirent.bytes ++
      List.replicate ((dirEntries - items.length) * direntSize) 0#8).length = dirSectors * 512 := by
  rw [List.length_append, List.length_replicate, List.length_flatMap, List.map_map,
    show (fun e : Dirent => e.bytes.length) ∘ placedEntry = fun _ => direntSize from funext fun q => Dirent.bytes_length _,
    List.map_const', List.sum_replicate, placed_length, smul_eq_mul, ← Nat.add_mul, Nat.add_sub_cancel' hn]
  rfl

include hd

/-- The kernel reads the entries of the items, in their order, and nothing behind them. -/
theorem loadDir_eq : d.loadDir.disk = d ∧
    ∀ j, d.loadDir.dir.get j = ((placed fsDataLba items).map placedEntry).getD j Dirent.zero := by
  obtain ⟨hdisk, hbuf⟩ := d.readSectors_byteAt d.onMedium_dir
  have hlen := directory_length hn
  have hload : d.loadDir.dir = Dir.ofBytes (d.readSectors (BitVec.ofNat 32 fsDirLba) (BitVec.ofNat 32 dirSectors)).2 := rfl
  refine ⟨hdisk, fun j => ?_⟩
  rw [hload]
  refine Dir.ofBytes_get (n := dirEntries - items.length) (by simp; omega) (fun i hi => ?_) j
  have hi' : i < dirSectors * 512 := hi
  rw [hbuf i hi', show (BitVec.ofNat 32 fsDirLba).toNat = fsDirLba from rfl, hd.bytes i (by rw [imageOf, List.length_append]; omega),
    imageOf, List.getD_append _ _ _ _ (by omega)]

/-- Behind the items every entry is free. -/
theorem lt_of_loadDir_live {j : Nat} (hlive : (d.loadDir.dir.get j).live = true) : j < items.length := by
  by_contra hj
  rw [(loadDir_eq hn hd).2 j, List.getD_eq_default _ _ (by simpa using hj)] at hlive
  simp at hlive

/-- The disk holds the bytes of an item from its first sector on. -/
theorem item_on_disk {q : Nat × PackItem} (hq : q ∈ placed fsDataLba items) :
    d.OnMedium q.1 (sectorCount (blob q.2).length) ∧
      ∀ i < (blob q.2).length, d.byteAt (q.1 + i / 512) (i % 512) = (blob q.2).getD i 0#8 := by
  obtain ⟨hle, hroom, hbytes⟩ := placed_data items q hq
  have hlen := directory_length hn
  have hfits := hd.fits
  have htotal : (imageOf items).length = dirSectors * 512 + (items.flatMap padded).length := by
    rw [imageOf, List.length_append, hlen]
  have hdata : fsDataLba = fsDirLba + dirSectors := rfl
  have hsec : blobSectors q.2 = sectorCount (blob q.2).length := rfl
  have hsz : (blob q.2).length ≤ sectorCount (blob q.2).length * 512 := by unfold sectorCount; lia
  rw [hsec] at hroom
  refine ⟨⟨by lia, by lia⟩, fun i hi => ?_⟩
  have hI : dirSectors * 512 + ((q.1 - fsDataLba) * 512 + i) < (imageOf items).length := by lia
  have hbyte := hd.bytes _ hI
  rw [imageOf, List.getD_append_right _ _ _ _ (by lia), hlen, Nat.add_sub_cancel_left, hbytes i hi] at hbyte
  rw [← hbyte]
  congr 1 <;> lia

end

/-! ## The keys -/

/-- The bytes of an ASCII string. -/
def keyBytes (p : List Char) : List Byte := p.map Char.byte

theorem encodeKey_eq {p : List Char} (hascii : ∀ c ∈ p, c.toNat < 128) (hlen : p.length ≤ keyMax) : encodeKey p = keyBytes p := by
  have hfilter : p.filter (fun c => decide (c.toNat < 128)) = p := List.filter_eq_self.2 (fun c hc => by simpa using hascii c hc)
  rw [encodeKey, hfilter, List.take_of_length_le (by simpa using hlen)]
  rfl

theorem isName_keyBytes {p : List Char} (hascii : ∀ c ∈ p, c.toNat < 128) (hnul : Char.ofNat 0 ∉ p) : IsName (keyBytes p) := by
  intro b hb h0
  obtain ⟨c, hc, rfl⟩ := List.mem_map.1 hb
  have h128 := hascii c hc
  have hc0 : c.toNat = 0 := by
    have := congrArg BitVec.toNat h0
    simp only [Char.byte, BitVec.toNat_ofNat] at this
    omega
  have : c = Char.ofNat 0 := by
    rw [← hc0, Char.ofNat_toNat]
  exact hnul (this ▸ hc)

theorem placedEntry_str {q : Nat × PackItem} (hascii : ∀ c ∈ q.2.1, c.toNat < 128) (hnul : Char.ofNat 0 ∉ q.2.1)
    (hlen : q.2.1.length ≤ keyMax) : (placedEntry q).str = keyBytes q.2.1 := by
  have henc := encodeKey_eq hascii hlen
  have hname : (placedEntry q).name = keyBytes q.2.1 ++ List.replicate (fsNameLen + 1 - (keyBytes q.2.1).length) 0#8 := by
    rw [← henc]
    rfl
  rw [Dirent.str, hname]
  exact cstr_append_replicate (isName_keyBytes hascii hnul) _

/-- A spelling of a name in other letter case is a name. -/
theorem SameName.isName {a b : List Byte} (h : SameName a b) (hb : IsName b) : IsName a := by
  intro c hc h0
  have hmem : upper c ∈ b.map upper := h ▸ List.mem_map_of_mem hc
  obtain ⟨c', hc', hu⟩ := List.mem_map.1 hmem
  rw [h0, show upper 0#8 = 0#8 by decide] at hu
  exact upper_ne_zero (hb c' hc') hu

/-- No two keys agree, ignoring case, in the characters `name_eq_ci` compares. -/
def KeysDiffer (items : List PackItem) : Prop :=
  items.Pairwise fun a b => ¬SameName ((keyBytes a.1).take 16) ((keyBytes b.1).take 16)

section

variable {t : HostTree} {items : List PackItem} {d : Disk} (hc : collect t = .ok items) (hn : items.length ≤ dirEntries)
  (hascii : ∀ p x, t.Holds p x → ∀ c ∈ p, c.toNat < 128) (hd : d.HoldsImage (imageOf items))

include hc hn hascii hd

/-- The entry at the index of an item. -/
theorem loadDir_item {j : Nat} (hj : j < items.length) :
    ∃ lba, (lba, items[j]) ∈ placed fsDataLba items ∧ d.loadDir.dir.get j = placedEntry (lba, items[j]) ∧
      (d.loadDir.dir.get j).str = keyBytes items[j].1 ∧ (d.loadDir.dir.get j).live = true := by
  obtain ⟨hmem, hlen⟩ := collect_spec hc
  have hj' : j < (placed fsDataLba items).length := by simpa using hj
  have hsnd : (placed fsDataLba items)[j].2 = items[j] := by
    have := List.getElem_map (f := Prod.snd) (l := placed fsDataLba items) (i := j) (h := by simpa using hj)
    rw [← this]
    simp only [placed_snd]
  have hholds : t.Holds items[j].1 items[j].2 := (hmem _ _).1 (List.getElem_mem hj)
  have hget : d.loadDir.dir.get j = placedEntry ((placed fsDataLba items)[j].1, items[j]) := by
    rw [(loadDir_eq hn hd).2 j, List.getD_eq_getElem _ _ (by simpa using hj), List.getElem_map, ← hsnd]
  have hstr : (d.loadDir.dir.get j).str = keyBytes items[j].1 := by
    rw [hget]
    exact placedEntry_str (hascii _ _ hholds) hholds.path.2 (hlen _ (List.getElem_mem hj))
  refine ⟨(placed fsDataLba items)[j].1, ?_, hget, hstr, ?_⟩
  · rw [← hsnd]
    exact List.getElem_mem hj'
  · rw [Dirent.live_iff, hstr]
    simpa [keyBytes] using hholds.path.1

/-- Any spelling of a key finds the entry of its item. -/
theorem fsFind_item (hdiff : KeysDiffer items) {j : Nat} (hj : j < items.length) {s : List Byte} (hs : SameName s (keyBytes items[j].1)) :
    fsFind d.loadDir.dir (normalizeName s) = some j := by
  obtain ⟨hmem, hlen⟩ := collect_spec hc
  obtain ⟨-, -, -, hstr, hlive⟩ := loadDir_item hc hn hascii hd hj
  have hholds : t.Holds items[j].1 items[j].2 := (hmem _ _).1 (List.getElem_mem hj)
  have hname : IsName s := hs.isName (isName_keyBytes (hascii _ _ hholds) hholds.path.2)
  have hsl : s.length ≤ fsNameLen := by
    have h1 := congrArg List.length hs
    have h2 := hlen _ (List.getElem_mem hj)
    simp only [List.length_map, keyBytes] at h1
    rw [h1]
    exact h2
  have hsame : SameName (normalizeName s) (keyBytes items[j].1) := (sameName_normalizeName hsl).trans hs
  refine (fsFind_eq_some_iff _ _ _).2 ⟨⟨hlive, ?_⟩, fun i hi => ?_⟩
  · rw [nameEqCi_iff _ (normalizeName_isName hname), hstr]
    exact hsame.symm.take 16
  · rintro ⟨-, heq⟩
    obtain ⟨-, -, -, hstr', -⟩ := loadDir_item hc hn hascii hd (Nat.lt_trans hi hj)
    rw [nameEqCi_iff _ (normalizeName_isName hname), hstr'] at heq
    exact List.pairwise_iff_getElem.1 hdiff i j (Nat.lt_trans hi hj) hj hi (heq.trans (hsame.take 16))

end

/-- A disk that holds the image of an accepted tree: the kernel that reads its directory loads every file of the tree, under any
spelling of its path, has an empty entry for every subdirectory, and has no other entry. -/
theorem image_loads_as_packed {t : HostTree} {image : List Byte} (hmk : mkfs t dirSectors fsDataLba = .ok image)
    (hascii : ∀ p x, t.Holds p x → ∀ c ∈ p, c.toNat < 128) (hdiff : ∀ items, collect t = .ok items → KeysDiffer items)
    {d : Disk} (hd : d.HoldsImage image) (hw : d.wild = false) {k : Kernel} (hk : k.fs = d.loadDir) :
    (∀ p data, t.Holds p (some data) → data.length < 2 ^ 32 ∧
      ∀ s, SameName s (keyBytes p) → LoadsBack k s (BitVec.ofNat 32 data.length) (fun i => data.getD i 0#8)) ∧
    (∀ p, t.Holds p none → p.getLast? = some '/' ∧
      ∃ j, (k.fs.dir.get j).live = true ∧ (k.fs.dir.get j).str = keyBytes p ∧ (k.fs.dir.get j).size = 0#32) ∧
    (∀ j, (k.fs.dir.get j).live = true → ∃ p x, t.Holds p x ∧ (k.fs.dir.get j).str = keyBytes p ∧
      (k.fs.dir.get j).size.toNat = (x.getD []).length) ∧
    ∀ i j, (k.fs.dir.get i).live = true → (k.fs.dir.get j).live = true → SameName (k.fs.dir.get i).str (k.fs.dir.get j).str → i = j := by
  obtain ⟨items, hc, hn, hsmall, rfl⟩ := mkfs_eq hmk
  have hdiff := hdiff items hc
  obtain ⟨hmem, hlen⟩ := collect_spec hc
  obtain ⟨hdisk, -⟩ := loadDir_eq hn hd
  rw [hk]
  refine ⟨fun p data hp => ?_, fun p hp => ⟨hp.slash_of_dir, ?_⟩, fun j hlive => ?_, fun i j hi hj hsame => ?_⟩
  · obtain ⟨j, hj, hit⟩ := List.getElem_of_mem ((hmem _ _).2 hp)
    obtain ⟨lba, hq, hget, -, -⟩ := loadDir_item hc hn hascii hd hj
    obtain ⟨hon, hbytes⟩ := item_on_disk hn hd hq
    obtain ⟨hlba, hsize⟩ := hsmall _ hq
    rw [hit] at hget hon hbytes hsize
    have hstart : (k.fs.dir.get j).start.toNat = lba := by
      rw [hk, hget]
      exact Nat.mod_eq_of_lt hlba
    have hnat : (BitVec.ofNat 32 data.length).toNat = data.length := Nat.mod_eq_of_lt hsize
    refine ⟨hsize, fun s hs => @loadsBack_of_entry _ _ _ _ j ?_ ?_ (fun _ => ?_) (fun i hi => ?_) ?_⟩
    · rw [hk]
      exact fsFind_item hc hn hascii hd hdiff hj (by rw [hit]; exact hs)
    · rw [hk, hget]
      rfl
    · rw [hstart, hk, hdisk, hnat]
      exact hon
    · rw [hnat] at hi
      rw [hstart, hk, hdisk]
      exact hbytes i hi
    · rw [hk, hdisk]
      exact hw
  · obtain ⟨j, hj, hit⟩ := List.getElem_of_mem ((hmem _ _).2 hp)
    obtain ⟨lba, hq, hget, hstr, hlive⟩ := loadDir_item hc hn hascii hd hj
    rw [hit] at hget hstr
    exact ⟨j, hlive, hstr, by rw [hget]; rfl⟩
  · have hj := lt_of_loadDir_live hn hd hlive
    obtain ⟨lba, hq, hget, hstr, -⟩ := loadDir_item hc hn hascii hd hj
    refine ⟨items[j].1, items[j].2, (hmem _ _).1 (List.getElem_mem hj), hstr, ?_⟩
    rw [hget]
    exact Nat.mod_eq_of_lt (hsmall _ hq).2
  · have hi' := lt_of_loadDir_live hn hd hi
    have hj' := lt_of_loadDir_live hn hd hj
    obtain ⟨-, -, -, hstri, -⟩ := loadDir_item hc hn hascii hd hi'
    obtain ⟨-, -, -, hstrj, -⟩ := loadDir_item hc hn hascii hd hj'
    rw [hstri, hstrj] at hsame
    rcases Nat.lt_trichotomy i j with h | h | h
    · exact absurd (hsame.take 16) (List.pairwise_iff_getElem.1 hdiff i j hi' hj' h)
    · exact h
    · exact absurd (hsame.symm.take 16) (List.pairwise_iff_getElem.1 hdiff j i hj' hi' h)

/-! ## A tree -/

/-- The loop succeeds when no sector number and no size is too large for its field. -/
theorem packItems_ok (items : List PackItem) : ∀ (i : Nat) (p : Packed),
    (∀ q ∈ placed p.curLba items, q.1 < 2 ^ 32 ∧ (blob q.2).length < 2 ^ 32) → ∃ r, packItems i p items = .ok r := by
  induction items with
  | nil => intro i p _; exact ⟨p, rfl⟩
  | cons it its ih =>
    intro i p h
    obtain ⟨h1, h2⟩ := h _ List.mem_cons_self
    have hpack : ∃ e, packEntry it.1 p.curLba (blob it).length = .ok e := by
      dsimp only at h1 h2
      simp only [packEntry, packInto, if_pos h1, if_pos h2, if_pos (show 0 < 2 ^ 32 by decide), bind, Except.bind]
      exact ⟨_, rfl⟩
    obtain ⟨e, he⟩ := hpack
    have hitem : ∃ p', packItem p i it = .ok p' ∧ p'.curLba = p.curLba + blobSectors it := by
      unfold packItem
      dsimp only
      rw [show it.2.getD [] = blob it from rfl, he]
      exact ⟨_, rfl, rfl⟩
    obtain ⟨p', hp', hlba⟩ := hitem
    obtain ⟨r, hr⟩ := ih (i + 1) p' (fun q hq => h q (List.mem_cons_of_mem _ (hlba ▸ hq)))
    exact ⟨r, by rw [packItems, hp']; exact hr⟩

/-- A directory `d` with one file `f` of three bytes. -/
def smallTree : HostTree :=
  .dir ⟨['d'], by decide⟩ (.file ⟨['f'], by decide⟩ [1#8, 2#8, 3#8] .nil) .nil

theorem collect_smallTree : collect smallTree = .ok [(['d', '/'], none), (['d', '/', 'f'], some [1#8, 2#8, 3#8])] := by
  have h0 : ∀ {α : Type} (key : α → List Char), sortByKey key [] = [] := fun key => List.mergeSort_nil
  have h1 : ∀ {α : Type} (key : α → List Char) (a : α), sortByKey key [a] = [a] := fun key a => List.mergeSort_singleton a
  have h2 : sortByKey (fun it => it.1) [((['d', '/'] : List Char), (none : Option (List Byte))), (['d', '/', 'f'], some [1#8, 2#8, 3#8])] =
      [(['d', '/'], none), (['d', '/', 'f'], some [1#8, 2#8, 3#8])] :=
    List.mergeSort_of_pairwise (by decide)
  simp [collect, smallTree, HostTree.files, HostTree.subWalks, visitDir, h0, h1, h2, keyMax]

/-- The RAM disk a loader hands over with an image in it. -/
def diskOf (image : List Byte) : Disk :=
  { Disk.blank 8192#32 (by decide) with bytes := fun i => image.getD i 0#8 }

/-- It holds every image that fits. -/
theorem diskOf_holds {image : List Byte} (h : image.length ≤ 8192 * 512) : (diskOf image).HoldsImage image := by
  refine ⟨?_, fun i _ => ?_⟩
  · have hlimit : (diskOf image).limit = fsDirLba + 8192 := rfl
    lia
  · simp only [Disk.byteAt, diskOf, Disk.addr, Disk.blank, if_true]
    congr 1
    lia

/-- The tree is packed, and the file is loaded as `D/F`. -/
theorem image_loads_as_packed_small : ∃ image, mkfs smallTree dirSectors fsDataLba = .ok image ∧
    LoadsBack (Kernel.fresh (diskOf image).loadDir.dir (diskOf image).loadDir.disk) (asciiBytes "D/F") 3#32
      (fun i => [1#8, 2#8, 3#8].getD i 0#8) := by
  obtain ⟨p, hp⟩ := packItems_ok [(['d', '/'], none), (['d', '/', 'f'], some [1#8, 2#8, 3#8])] 0
    ⟨List.replicate (dirSectors * 512) 0#8, [], fsDataLba⟩ (by decide)
  have hmk : mkfs smallTree dirSectors fsDataLba = .ok (p.directory ++ p.data) := by
    unfold mkfs
    rw [collect_smallTree]
    simp only [bind, Except.bind]
    rw [if_neg (by decide), hp]
    rfl
  obtain ⟨items, hc, hn, -, himage⟩ := mkfs_eq hmk
  have hitems : items = [(['d', '/'], none), (['d', '/', 'f'], some [1#8, 2#8, 3#8])] := by
    rw [collect_smallTree] at hc
    cases hc
    rfl
  have hlen : (p.directory ++ p.data).length = 65 * 512 := by
    rw [himage, imageOf, List.length_append, directory_length hn, hitems]
    simp [padded_length, blobSectors, blob, dirSectors]
  have hd : (diskOf (p.directory ++ p.data)).HoldsImage (p.directory ++ p.data) := diskOf_holds (by omega)
  have hkeys := (collect_spec collect_smallTree).1
  have hfresh : ∀ fs : Fs, (Kernel.fresh fs.dir fs.disk).fs = fs := fun _ => rfl
  have hload := (image_loads_as_packed hmk ?_ ?_ hd rfl (hfresh _)).1 ['d', '/', 'f'] [1#8, 2#8, 3#8] ((hkeys _ _).1 (by simp))
  · exact ⟨_, hmk, hload.2 (asciiBytes "D/F") (by decide)⟩
  · intro q x h
    have hmem := (hkeys q x).2 h
    simp only [List.mem_cons, Prod.mk.injEq, List.not_mem_nil, or_false] at hmem
    rcases hmem with ⟨rfl, -⟩ | ⟨rfl, -⟩ <;> simp
  · intro items' h
    rw [collect_smallTree] at h
    cases h
    unfold KeysDiffer
    decide

end MiniOs32
