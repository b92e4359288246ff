import MiniOs32.Lemmas.Sectors

/-!
# What was saved is loaded

`SYS_SAVE` reports success as soon as it has a directory slot. On a RAM disk the data is stored exactly when the run of
sectors chosen lies inside the RAM disk and behind the directory: `disk_write_sectors` drops a run that does not fit without
a word, and the directory is written over a run inside its own sectors. The empty name is a third hole: it marks the slot
free again.
-/

namespace MiniOs32

/-- Loading a name with a large enough buffer returns these `n` bytes, writes nothing else, and touches no memory outside the
disk. -/
def LoadsBack (k : Kernel) (s : List Byte) (n : U32) (bytes : Nat → Byte) : Prop :=
  ∀ um nameOff bufOff max, nameAt um nameOff = some s → userRangeOk bufOff max = true → n ≤ max →
    (k.sysLoad um nameOff bufOff max).2.2 = n ∧
    (∀ i < n.toNat, (k.sysLoad um nameOff bufOff max).2.1 (bufOff.toNat + i) = bytes i) ∧
    (∀ j, ¬(bufOff.toNat ≤ j ∧ j < bufOff.toNat + n.toNat) → (k.sysLoad um nameOff bufOff max).2.1 j = um j) ∧
    (k.sysLoad um nameOff bufOff max).1.fs.disk.wild = false

/-- A save of any `n` bytes under a name that returns 0 has stored them. -/
def SavedIsLoaded (k : Kernel) (s : List Byte) (n : U32) : Prop :=
  ∀ um nameOff bufOff, nameAt um nameOff = some s → userRangeOk bufOff n = true →
    (k.sysSave um nameOff bufOff n).2 = 0#32 →
    LoadsBack (k.sysSave um nameOff bufOff n).1 s n (fun i => um (bufOff.toNat + i))

/-- The place `fs_write` chooses, if it finds one, is for a name that is not empty and, when there is anything to write, is a
run behind the directory and inside the RAM disk. -/
def SaveFits (k : Kernel) (s : List Byte) (n : U32) : Prop :=
  ∀ idx start, fsPlace k.fs.dir (normalizeName s) n = some (idx, start) →
    s ≠ [] ∧ (0 < n.toNat → fsDataLba ≤ start.toNat ∧
      start.toNat + sectorCount n.toNat ≤ fsDirLba + k.fs.disk.rdSectors.toNat)

/-! ## Loading -/

theorem normalizeName_eq_nil {s : List Byte} : normalizeName s = [] ↔ s = [] := by
  simp [normalizeName, fsNameLen]

/-- What a load returns once the entry is known and its run lies on the medium. -/
theorem loadsBack_of_entry {k : Kernel} {s : List Byte} {n : U32} {bytes : Nat → Byte} {idx : Nat}
    (hf : fsFind k.fs.dir (normalizeName s) = some idx) (hsize : (k.fs.dir.get idx).size = n)
    (hm : 0 < n.toNat → k.fs.disk.OnMedium (k.fs.dir.get idx).start.toNat (sectorCount n.toNat))
    (hb : ∀ i < n.toNat, k.fs.disk.byteAt ((k.fs.dir.get idx).start.toNat + i / 512) (i % 512) = bytes i)
    (hw : k.fs.disk.wild = false) : LoadsBack k s n bytes := by
  intro um nameOff bufOff max hname hr hmax
  subst hsize
  obtain ⟨data, hread, hdata⟩ := k.fs.read_spec hf (BitVec.not_lt.2 hmax) hm
  have hload : k.sysLoad um nameOff bufOff max = (k, (fun i => if bufOff.toNat ≤ i ∧
      i < bufOff.toNat + (k.fs.dir.get idx).size.toNat then data (i - bufOff.toNat) else um i), (k.fs.dir.get idx).size) := by
    simp [Kernel.sysLoad, hr, hname, hread]
  rw [hload]
  refine ⟨rfl, fun i hi => ?_, fun j hj => if_neg hj, hw⟩
  dsimp only
  rw [if_pos (by omega), Nat.add_sub_cancel_left, hdata i hi, hb i hi]

/-- The entry a save records is found again. -/
theorem fsFind_saveEntry {d : Dir} {s : List Byte} {n : U32} {idx : Nat} {start : U32} (hn : IsName s) (hne : s ≠ [])
    (hp : fsPlace d (normalizeName s) n = some (idx, start)) :
    fsFind (d.set idx (saveEntry (d.get idx) (normalizeName s) start n)) (normalizeName s) = some idx := by
  obtain ⟨hidx, hplace⟩ := fsPlace_some hp
  have hstr := saveEntry_str (d.get idx) (normalizeName_isName hn) (normalizeName_length_le s) start n
  refine fsFind_set hidx (hplace.imp id And.left) ?_ ?_
  · rw [Dirent.live_iff, hstr]
    exact fun h => hne (normalizeName_eq_nil.1 h)
  · rw [nameEqCi_iff _ (normalizeName_isName hn), hstr]
    rfl

/-- A save that fits is loaded back. -/
theorem savedIsLoaded_of_saveFits {k : Kernel} (hram : k.fs.disk.ram = true) (hwild : k.fs.disk.wild = false) {s : List Byte}
    (hs : IsName s) {n : U32} (hfit : SaveFits k s n) : SavedIsLoaded k s n := by
  intro um nameOff bufOff hname hr hret
  have hlim : k.fs.disk.limit = fsDirLba + k.fs.disk.rdSectors.toNat := by simp [Disk.limit, hram]
  rcases sysSave_cases k um nameOff bufOff n with heq | ⟨s', idx, start, -, hs', hp, heq⟩
  · rw [heq] at hret
    exact absurd (show fail = 0#32 from hret) (by decide)
  obtain rfl : s = s' := Option.some.inj (hname.symm.trans hs')
  obtain ⟨hne, hfits⟩ := hfit idx start hp
  have hidx := (fsPlace_some hp).1
  have hlen := userRangeOk_len hr
  have hfb : userFbOffset = 25165824 := rfl
  have hcount := sectorsOf_toNat (show n.toNat + 511 < 2 ^ 32 by lia)
  rw [heq]
  set e := saveEntry (k.fs.dir.get idx) (normalizeName s) start n with he
  set disk := k.fs.disk.writeSectors .save start (sectorsOf n) (fun i => um (bufOff.toNat + i)) with hdisk
  have hget : (k.fs.dir.set idx e).get idx = e := Dir.get_set_self _ hidx e
  obtain ⟨hsame, hsync⟩ := Fs.syncDir_byteAt ⟨k.fs.dir.set idx e, disk⟩
  rcases Nat.eq_zero_or_pos n.toNat with h0 | h0
  · -- nothing to write: the data run is empty and the write leaves the disk as it was
    have hsame' : k.fs.disk.SameMedium disk := by
      have hzero : sectorsOf n = 0#32 := BitVec.eq_of_toNat_eq (by rw [hcount, h0]; rfl)
      have hin : ∀ h : k.fs.disk.rdRangeOk start 0#32 = true, k.fs.disk.rdInside start 0#32 = true := by
        intro h
        simp only [Disk.rdRangeOk, hram, Bool.true_and, Bool.and_eq_true, Bool.not_eq_true', decide_eq_false_iff_not,
          decide_eq_true_eq, BitVec.add_zero] at h
        have h1 : fsDirLba ≤ start.toNat := BitVec.le_def.1 (BitVec.not_lt.1 h.1)
        have h2 := BitVec.le_def.1 h.2
        rw [sub_fsDirLba_toNat h1] at h2
        simp only [Disk.rdInside, decide_eq_true_eq]
        rw [show (0#32).toNat = 0 from rfl]
        lia
      rw [hdisk, hzero]
      unfold Disk.writeSectors
      rw [if_pos hram]
      split
      · rename_i hok
        exact ⟨rfl, rfl, by simp [hin hok]⟩
      · exact .refl _
    refine loadsBack_of_entry (fsFind_saveEntry hs hne hp) (congrArg Dirent.size hget) (fun h => by lia)
      (fun i hi => by lia) ?_
    exact (hsame'.trans hsame).wild.trans hwild
  · obtain ⟨hdata, hroom⟩ := hfits h0
    have hdir : fsDirLba ≤ fsDataLba := by decide
    have hon : k.fs.disk.OnMedium start.toNat (sectorCount n.toNat) := ⟨by lia, by lia⟩
    obtain ⟨hsame', hwrite⟩ := k.fs.disk.writeSectors_byteAt .save (fun i => um (bufOff.toNat + i)) (hcount ▸ hon)
    refine loadsBack_of_entry (fsFind_saveEntry hs hne hp) (congrArg Dirent.size hget)
      (fun _ => (hsame'.trans hsame).onMedium ?_) (fun i hi => ?_) ((hsame'.trans hsame).wild.trans hwild)
    · change k.fs.disk.OnMedium ((k.fs.dir.set idx e).get idx).start.toNat _
      rw [hget]
      exact hon
    · change (Fs.syncDir ⟨k.fs.dir.set idx e, disk⟩).disk.byteAt (((k.fs.dir.set idx e).get idx).start.toNat + i / 512) (i % 512) = _
      have hsec : i / 512 < sectorCount n.toNat := by unfold sectorCount; lia
      have hmod : i % 512 < 512 := Nat.mod_lt _ (by decide)
      have hl : k.fs.disk.OnMedium (start.toNat + i / 512) 1 := ⟨by lia, by lia⟩
      rw [hget]
      change (Fs.syncDir ⟨k.fs.dir.set idx e, disk⟩).disk.byteAt (start.toNat + i / 512) (i % 512) = _
      rw [hsync _ _ (hsame'.onMedium hl) hmod, if_neg (by lia)]
      change disk.byteAt (start.toNat + i / 512) (i % 512) = _
      rw [hwrite _ _ hl hmod, if_pos (by lia)]
      refine congrArg um ?_
      lia

/-! ## When it does not fit -/

/-- A program's memory with a name behind the arena and given bytes in the arena. -/
def nameMem (s : List Byte) (arena : Nat → Byte) : UserMem := fun i =>
  if userFbOffset ≤ i then s.getD (i - userFbOffset) 0#8 else arena i

/-- `user_copy_str` reads a name that ends in time. -/
theorem userCopyStrLoop_eq (um : UserMem) : ∀ (s : List Byte) (a n : Nat), IsName s → s.length < n →
    (∀ i, i ≤ s.length → um (a + i) = s.getD i 0#8) → userCopyStrLoop um a n = some s := by
  intro s
  induction s with
  | nil =>
    intro a n _ hlen hum
    obtain ⟨m, rfl⟩ := Nat.exists_eq_succ_of_ne_zero (by lia : n ≠ 0)
    have : um a = 0#8 := by simpa using hum 0 (Nat.le_refl _)
    simp [userCopyStrLoop, this]
  | cons c s ih =>
    intro a n hn hlen hum
    obtain ⟨m, rfl⟩ := Nat.exists_eq_succ_of_ne_zero (by lia : n ≠ 0)
    have hc : um a = c := by simpa using hum 0 (by lia)
    have hne : um a ≠ 0#8 := by rw [hc]; exact hn c (List.mem_cons_self ..)
    simp only [List.length_cons] at hlen
    rw [userCopyStrLoop, if_neg hne, ih (a + 1) m (fun x hx => hn x (List.mem_cons_of_mem _ hx)) (by lia), hc]
    · rfl
    · intro i hi
      have := hum (i + 1) (by simp only [List.length_cons]; lia)
      simpa [Nat.add_assoc, Nat.add_comm 1] using this

theorem nameAt_nameMem {s : List Byte} (hs : IsName s) (hl : s.length ≤ fsNameLen) (arena : Nat → Byte) :
    nameAt (nameMem s arena) (BitVec.ofNat 32 userFbOffset) = some s := by
  have h1 : fsNameLen = 47 := rfl
  unfold nameAt userCopyStr
  rw [if_neg (by decide), if_neg (by decide)]
  refine userCopyStrLoop_eq _ s _ _ hs ?_ (fun i _ => ?_)
  · rw [show userCopyStrLimit (BitVec.ofNat 32 userFbOffset) 64 = 63 from by decide]
    omega
  · change nameMem s arena (userFbOffset + i) = _
    simp [nameMem]

/-- Reading never takes a wild access back. -/
theorem Disk.readSectors_wild (d : Disk) (lba n : U32) (h : d.wild = true) : (d.readSectors lba n).1.wild = true := by
  unfold Disk.readSectors
  split
  · split
    · split
      · exact h
      · rfl
    · exact h
  · exact h

/-- Nor does writing. -/
theorem Disk.writeSectors_wild (d : Disk) (who : Writer) (lba count : U32) (buf : Nat → Byte) (h : d.wild = true) :
    (d.writeSectors who lba count buf).wild = true := by
  unfold Disk.writeSectors
  split
  · split
    · simp [h]
    · exact h
  · exact h

section Converse

variable {k : Kernel} {s : List Byte} {n : U32} (hs : IsName s) (hl : s.length ≤ fsNameLen) (hn : n.toNat ≤ userFbOffset)
  (h : SavedIsLoaded k s n) {idx : Nat} {start : U32} (hp : fsPlace k.fs.dir (normalizeName s) n = some (idx, start))

/-- The filesystem after saving one byte repeated. -/
def savedFs (k : Kernel) (s : List Byte) (n : U32) (idx : Nat) (start : U32) (b : Byte) : Fs :=
  Fs.syncDir ⟨k.fs.dir.set idx (saveEntry (k.fs.dir.get idx) (normalizeName s) start n),
    k.fs.disk.writeSectors .save start (sectorsOf n) (fun i => nameMem s (fun _ => b) (0 + i))⟩

include hn in
theorem userRangeOk_arena : userRangeOk 0#32 n = true := by
  have h1 : userFbOffset = 25165824 := rfl
  simp only [userRangeOk, BitVec.toNat_ofNat]
  rw [if_pos (by decide)]
  simpa using hn

include hs hl hn h hp in
/-- Loading after saving one byte repeated gives that byte back. -/
theorem loadsBack_savedFs (b : Byte) :
    LoadsBack ⟨savedFs k s n idx start b, k.ofiles⟩ s n (fun i => nameMem s (fun _ => b) (0 + i)) := by
  have hsave : k.sysSave (nameMem s fun _ => b) (BitVec.ofNat 32 userFbOffset) 0#32 n = (⟨savedFs k s n idx start b, k.ofiles⟩, 0#32) := by
    simp [Kernel.sysSave, userRangeOk_arena hn, nameAt_nameMem hs hl, Fs.write, hp, savedFs]
  have := h (nameMem s fun _ => b) (BitVec.ofNat 32 userFbOffset) 0#32 (nameAt_nameMem hs hl _) (userRangeOk_arena hn) (by rw [hsave])
  rw [hsave] at this
  exact this

include hs hl hn h hp in
/-- The load that follows succeeds. -/
theorem sysLoad_savedFs (b : Byte) (um : UserMem) (hum : nameAt um (BitVec.ofNat 32 userFbOffset) = some s) :
    let r := Kernel.sysLoad ⟨savedFs k s n idx start b, k.ofiles⟩ um (BitVec.ofNat 32 userFbOffset) 0#32 n
    r.2.2 = n ∧ (0 < n.toNat → r.2.1 0 = b) ∧ r.1.fs.disk.wild = false := by
  obtain ⟨h1, h2, -, h4⟩ := loadsBack_savedFs hs hl hn h hp b um (BitVec.ofNat 32 userFbOffset) 0#32 n hum
    (userRangeOk_arena hn) (BitVec.le_refl n)
  refine ⟨h1, fun h0 => ?_, h4⟩
  exact (h2 0 h0).trans (by simp [nameMem, userFbOffset])

include hs hl hn h hp in
/-- A save under the empty name is not found again. -/
theorem ne_nil_of_savedIsLoaded : s ≠ [] := by
  rintro rfl
  obtain ⟨h1, -⟩ := sysLoad_savedFs hs hl hn h hp 0#8 (nameMem [] fun _ => 0#8) (nameAt_nameMem hs hl _)
  have hnone : fsFind (savedFs k [] n idx start 0#8).dir (normalizeName []) = none := by
    refine (fsFind_eq_none_iff _ _).2 (fun j hj => ?_)
    rw [Dirent.live_iff] at hj
    by_contra hne
    rw [Bool.not_eq_false, nameEqCi_iff _ (normalizeName_isName hs)] at hne
    have hlen := congrArg List.length hne
    simp only [normalizeName, List.take_nil, List.map_nil, List.length_nil, List.length_map, List.length_take] at hlen
    have := List.length_pos_of_ne_nil hj
    omega
  have hfail : (Kernel.sysLoad ⟨savedFs k [] n idx start 0#8, k.ofiles⟩ (nameMem [] fun _ => 0#8) (BitVec.ofNat 32 userFbOffset) 0#32
      n).2.2 = fail := by
    simp [Kernel.sysLoad, userRangeOk_arena hn, nameAt_nameMem hs hl, Fs.read, hnone]
  rw [hfail] at h1
  rw [← h1] at hn
  exact absurd hn (by decide)

include hs hl hn h hp in
/-- The first byte loaded depends on what was saved. -/
theorem exists_byte_savedFs (h0 : 0 < n.toNat) {um : UserMem} (hum : nameAt um (BitVec.ofNat 32 userFbOffset) = some s)
    (heq : (Kernel.sysLoad ⟨savedFs k s n idx start 0#8, k.ofiles⟩ um (BitVec.ofNat 32 userFbOffset) 0#32 n).2.1 0 =
      (Kernel.sysLoad ⟨savedFs k s n idx start 1#8, k.ofiles⟩ um (BitVec.ofNat 32 userFbOffset) 0#32 n).2.1 0) : False := by
  have h1 := (sysLoad_savedFs hs hl hn h hp 0#8 um hum).2.1 h0
  have h2 := (sysLoad_savedFs hs hl hn h hp 1#8 um hum).2.1 h0
  rw [heq, h2] at h1
  exact absurd h1 (by decide)

include hs hl hn h hp in
/-- The run of a stored file lies inside the RAM disk and behind the directory. -/
theorem run_of_savedIsLoaded (hram : k.fs.disk.ram = true) (h0 : 0 < n.toNat) :
    fsDataLba ≤ start.toNat ∧ start.toNat + sectorCount n.toNat ≤ fsDirLba + k.fs.disk.rdSectors.toNat := by
  have hfb : userFbOffset = 25165824 := rfl
  have hum := nameAt_nameMem hs hl (fun _ => 0#8)
  have hcount := sectorsOf_toNat (show n.toNat + 511 < 2 ^ 32 by lia)
  have hpos : 0 < sectorCount n.toNat := by unfold sectorCount; lia
  have hlim : k.fs.disk.limit = fsDirLba + k.fs.disk.rdSectors.toNat := by simp [Disk.limit, hram]
  have hne := ne_nil_of_savedIsLoaded hs hl hn h hp
  have hidx := (fsPlace_some hp).1
  cases hok : k.fs.disk.rdRangeOk start (sectorsOf n) with
  | false =>
    -- the write was dropped, so the disk does not depend on the buffer
    refine (exists_byte_savedFs hs hl hn h hp h0 hum ?_).elim
    simp [savedFs, Disk.writeSectors, hram, hok]
  | true =>
    cases hin : k.fs.disk.rdInside start (sectorsOf n) with
    | false =>
      -- the check passed although the run is not inside: the copy went to other memory
      have hwild : (savedFs k s n idx start 0#8).disk.wild = true := by
        refine Disk.writeSectors_wild _ _ _ _ _ ?_
        simp [Disk.writeSectors, hram, hok, hin]
      obtain ⟨-, -, h3⟩ := sysLoad_savedFs hs hl hn h hp 0#8 _ hum
      have hread : (Kernel.sysLoad ⟨savedFs k s n idx start 0#8, k.ofiles⟩ (nameMem s fun _ => 0#8) (BitVec.ofNat 32 userFbOffset)
          0#32 n).1.fs.disk.wild = true := by
        rcases sysLoad_fst ⟨savedFs k s n idx start 0#8, k.ofiles⟩ (nameMem s fun _ => 0#8) (BitVec.ofNat 32 userFbOffset) 0#32 n with
          heq | ⟨t, -, heq⟩ <;> rw [heq]
        · exact hwild
        · exact Fs.read_disk Disk.readSectors_wild _ _ _ hwild
      rw [hread] at h3
      cases h3
    | true =>
      simp only [Disk.rdInside, decide_eq_true_eq, hcount] at hin
      refine ⟨?_, by lia⟩
      by_contra hlt
      -- the directory is written over the first sector of the run
      have hon : k.fs.disk.OnMedium start.toNat (sectorCount n.toNat) := ⟨hin.1, by lia⟩
      refine exists_byte_savedFs hs hl hn h hp h0 hum ?_
      have hbyte : ∀ b, (Kernel.sysLoad ⟨savedFs k s n idx start b, k.ofiles⟩ (nameMem s fun _ => 0#8) (BitVec.ofNat 32 userFbOffset)
          0#32 n).2.1 0 = (k.fs.dir.set idx (saveEntry (k.fs.dir.get idx) (normalizeName s) start n)).bytes.getD
            ((start.toNat - fsDirLba) * 512) 0#8 := by
        intro b
        obtain ⟨hsame', -⟩ := k.fs.disk.writeSectors_byteAt .save (fun i => nameMem s (fun _ => b) (0 + i)) (hcount ▸ hon)
        obtain ⟨hsame, hsync⟩ := Fs.syncDir_byteAt ⟨k.fs.dir.set idx (saveEntry (k.fs.dir.get idx) (normalizeName s) start n),
          k.fs.disk.writeSectors .save start (sectorsOf n) (fun i => nameMem s (fun _ => b) (0 + i))⟩
        have hget := Dir.get_set_self k.fs.dir hidx (saveEntry (k.fs.dir.get idx) (normalizeName s) start n)
        have hstart : ((savedFs k s n idx start b).dir.get idx).start = start := congrArg Dirent.start hget
        have hsize : ((savedFs k s n idx start b).dir.get idx).size = n := congrArg Dirent.size hget
        have hle : ¬n < ((savedFs k s n idx start b).dir.get idx).size := by rw [hsize]; exact BitVec.lt_irrefl n
        obtain ⟨data, hread, hdata⟩ := (savedFs k s n idx start b).read_spec (fsFind_saveEntry hs hne hp) hle (fun _ => by rw [hstart, hsize]; exact (hsame'.trans hsame).onMedium hon)
        rw [hsize] at hread hdata
        have hload : (Kernel.sysLoad ⟨savedFs k s n idx start b, k.ofiles⟩ (nameMem s fun _ => 0#8) (BitVec.ofNat 32 userFbOffset)
            0#32 n).2.1 0 = data 0 := by
          simp [Kernel.sysLoad, userRangeOk_arena hn, hum, hread, h0]
        rw [hload, hdata 0 h0, hstart]
        exact (hsync start.toNat 0 (hsame'.onMedium ⟨hon.1, by have := hon.2; lia⟩) (by decide)).trans
          (by rw [if_pos (by lia), Nat.add_zero])
      rw [hbyte 0#8, hbyte 1#8]

end Converse

/-- On a RAM disk, what `SYS_SAVE` reports as saved is what `SYS_LOAD` returns, for every buffer, exactly when the place chosen
fits. -/
theorem saved_is_loaded_iff_saveFits (k : Kernel) (hram : k.fs.disk.ram = true) (hwild : k.fs.disk.wild = false) (s : List Byte)
    (hs : IsName s) (hl : s.length ≤ fsNameLen) (n : U32) (hn : n.toNat ≤ userFbOffset) :
    SavedIsLoaded k s n ↔ SaveFits k s n := by
  refine ⟨fun h idx start hp => ?_, savedIsLoaded_of_saveFits hram hwild hs⟩
  exact ⟨ne_nil_of_savedIsLoaded hs hl hn h hp, fun h0 => run_of_savedIsLoaded hs hl hn h hp hram h0⟩

/-- The rule at work: three bytes saved as `A.TXT` on an empty disk of 100 sectors. -/
theorem saved_is_loaded_iff_saveFits_small :
    SaveFits (Kernel.fresh Dir.empty (Disk.blank 100#32 (by decide))) (asciiBytes "A.TXT") 3#32 ∧
    SavedIsLoaded (Kernel.fresh Dir.empty (Disk.blank 100#32 (by decide))) (asciiBytes "A.TXT") 3#32 := by
  have hfit : SaveFits (Kernel.fresh Dir.empty (Disk.blank 100#32 (by decide))) (asciiBytes "A.TXT") 3#32 := by
    intro idx start hp
    have heq : fsPlace (Kernel.fresh Dir.empty (Disk.blank 100#32 (by decide))).fs.dir (normalizeName (asciiBytes "A.TXT")) 3#32 =
        some (0, 201#32) := by decide +kernel
    rw [heq, Option.some.injEq, Prod.mk.injEq] at hp
    rw [← hp.2]
    decide
  exact ⟨hfit, (saved_is_loaded_iff_saveFits _ rfl rfl _ (by unfold IsName; decide) (by decide) _ (by decide)).2 hfit⟩

/-- A RAM disk of 65 sectors has one data sector: a save of 513 bytes returns 0 and is not stored. -/
theorem saved_is_loaded_false :
    ¬∀ (k : Kernel), k.fs.disk.ram = true → k.fs.disk.wild = false → ∀ (s : List Byte), IsName s → s.length ≤ fsNameLen →
      ∀ n : U32, n.toNat ≤ userFbOffset → SavedIsLoaded k s n := by
  intro h
  have hsave := h (Kernel.fresh Dir.empty (Disk.blank 65#32 (by decide))) rfl rfl (asciiBytes "A.TXT")
    (by unfold IsName; decide) (by decide) 513#32 (by decide)
  have heq : fsPlace (Kernel.fresh Dir.empty (Disk.blank 65#32 (by decide))).fs.dir (normalizeName (asciiBytes "A.TXT")) 513#32 =
      some (0, 201#32) := by decide +kernel
  have hrun := run_of_savedIsLoaded (by unfold IsName; decide) (by decide) (by decide) hsave heq rfl (by decide)
  exact absurd hrun.2 (by decide)

end MiniOs32
