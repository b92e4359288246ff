import MiniOs32.Lemmas.Extents
import MiniOs32.Lib.Run

/-!
# Files do not share sectors

A new run of sectors is placed one past the highest run the directory records, and a write handle records its run only when
it is closed. As long as runs are allocated while no write handle is open, the runs of live files stay disjoint, a handle
writes to no live file's sectors and no data write reaches the directory. Two handles open for writing at once are given the
same run.
-/

namespace MiniOs32

/-- A handle open for writing. -/
def OpenFile.Writing (f : OpenFile) : Prop := f.used = true ∧ f.mode = .write

/-- The runs of live files are disjoint, behind the directory, and on the medium. -/
structure DirOk (d : Dir) (limit : Nat) : Prop where
  disjoint : ∀ i j, i ≠ j → (d.get i).live = true → (d.get j).live = true → Disjoint (d.get i).extent (d.get j).extent
  data : ∀ i, (d.get i).live = true → 0 < (d.get i).size.toNat →
    fsDataLba ≤ (d.get i).start.toNat ∧ (d.get i).start.toNat + sectorCount (d.get i).size.toNat ≤ limit
  small : ∀ i, (d.get i).live = true → (d.get i).size.toNat + 511 < 2 ^ 32

/-- What holds between calls: the directory is in order, at most one handle is open for writing, its run lies past every live
file, and no other handle has anything to write out. -/
structure ExtentsInv (k : Kernel) : Prop where
  dir : DirOk k.fs.dir k.fs.disk.limit
  one : ∀ i j, (k.ofiles i).Writing → (k.ofiles j).Writing → i = j
  writer : ∀ i, (k.ofiles i).Writing → (k.ofiles i).WriterOk k.fs.disk.limit ∧ (k.ofiles i).dirIndex < dirEntries
  past : ∀ i, (k.ofiles i).Writing → ∀ j, (k.fs.dir.get j).live = true → 0 < (k.fs.dir.get j).size.toNat →
    (k.fs.dir.get j).start.toNat + sectorCount (k.fs.dir.get j).size.toNat ≤ (k.ofiles i).start.toNat
  reader : ∀ i, (k.ofiles i).used = true → (k.ofiles i).mode = .read → (k.ofiles i).sectorDirty = false

/-! ## The directory -/

theorem sectorCount_eq_zero {n : Nat} : sectorCount n = 0 ↔ n = 0 := by
  unfold sectorCount; omega

/-- The end `fs_next_free` computes is the exact one. -/
theorem DirOk.endLba_toNat {d : Dir} {limit : Nat} (h : DirOk d limit) (hl : limit ≤ ataSectors) {i : Nat}
    (hi : (d.get i).live = true) :
    (d.get i).endLba.toNat = (d.get i).start.toNat + sectorCount (d.get i).size.toNat := by
  rw [Dirent.endLba, BitVec.toNat_add, sectorsOf_toNat (h.small i hi)]
  refine Nat.mod_eq_of_lt ?_
  have h1 := (d.get i).start.isLt
  have h2 : ataSectors = 2 ^ 28 := rfl
  rcases Nat.eq_zero_or_pos (d.get i).size.toNat with h0 | h0
  · rw [h0, sectorCount_eq_zero.2 rfl]; omega
  · have := (h.data i hi h0).2
    omega

/-- Replacing one entry keeps the directory in order when the new run is on the medium and apart from the others. -/
theorem DirOk.set {d : Dir} {limit : Nat} (h : DirOk d limit) {i : Nat} (hi : i < dirEntries) {e : Dirent}
    (hsmall : e.live = true → e.size.toNat + 511 < 2 ^ 32)
    (hdata : e.live = true → 0 < e.size.toNat → fsDataLba ≤ e.start.toNat ∧ e.start.toNat + sectorCount e.size.toNat ≤ limit)
    (hdisj : e.live = true → 0 < e.size.toNat → ∀ j ≠ i, (d.get j).live = true → Disjoint e.extent (d.get j).extent) :
    DirOk (d.set i e) limit := by
  have hdisj' : e.live = true → ∀ j ≠ i, (d.get j).live = true → Disjoint e.extent (d.get j).extent := by
    intro hl j hj hjl
    rcases Nat.eq_zero_or_pos e.size.toNat with h0 | h0
    · have hempty : e.extent = ∅ := by simp [Dirent.extent, h0, sectorCount_eq_zero.2 rfl]
      rw [hempty]
      exact Set.empty_disjoint _
    · exact hdisj hl h0 j hj hjl
  refine ⟨fun a b hab ha hb => ?_, fun a ha => ?_, fun a ha => ?_⟩
  · rw [d.get_set hi] at ha hb ⊢
    rw [d.get_set hi]
    by_cases hai : a = i <;> by_cases hbi : b = i
    · exact absurd (hai.trans hbi.symm) hab
    · simp only [hai, hbi, if_true, if_false] at ha hb ⊢
      exact hdisj' ha b hbi hb
    · simp only [hai, hbi, if_true, if_false] at ha hb ⊢
      exact (hdisj' hb a hai ha).symm
    · simp only [hai, hbi, if_false] at ha hb ⊢
      exact h.disjoint a b hab ha hb
  · rw [d.get_set hi] at ha ⊢
    split at ha
    · rename_i hai; rw [if_pos hai]; exact hdata ha
    · rename_i hai; rw [if_neg hai]; exact h.data a ha
  · rw [d.get_set hi] at ha ⊢
    split at ha
    · rename_i hai; rw [if_pos hai]; exact hsmall ha
    · rename_i hai; rw [if_neg hai]; exact h.small a ha

/-- An entry that keeps the start and does not grow keeps the directory in order. -/
theorem DirOk.set_shrink {d : Dir} {limit : Nat} (h : DirOk d limit) {i : Nat} (hi : (d.get i).live = true) {e : Dirent}
    (hstart : e.start = (d.get i).start) (hsize : sectorCount e.size.toNat ≤ sectorCount (d.get i).size.toNat)
    (hsmall : e.size.toNat + 511 < 2 ^ 32) : DirOk (d.set i e) limit := by
  have hpos : 0 < e.size.toNat → 0 < (d.get i).size.toNat := by
    intro h0
    by_contra hz
    have : sectorCount (d.get i).size.toNat = 0 := sectorCount_eq_zero.2 (by lia)
    have := sectorCount_eq_zero.1 (show sectorCount e.size.toNat = 0 by lia)
    lia
  refine h.set (d.lt_of_live hi) (fun _ => hsmall) (fun _ h0 => ?_) (fun _ h0 j hj hjl => ?_)
  · have := h.data i hi (hpos h0)
    rw [hstart]
    lia
  · refine Set.disjoint_of_subset_left ?_ (h.disjoint i j (Ne.symm hj) hi hjl)
    intro s hs
    simp only [Dirent.extent, Set.mem_Ico, hstart] at hs ⊢
    lia

/-- A run that starts past the end of another does not meet it. -/
theorem disjoint_of_past {a m b n : Nat} (h : b + n ≤ a) : Disjoint (Set.Ico a (a + m)) (Set.Ico b (b + n)) := by
  rw [Set.disjoint_left]
  intro s hs hs'
  simp only [Set.mem_Ico] at hs hs'
  omega

/-- The run `SYS_OPEN` and a growing save choose lies past every other live file. -/
theorem DirOk.openPlace_past {d : Dir} {limit : Nat} (h : DirOk d limit) (hl : limit ≤ ataSectors) {name : List Byte} {i : Nat}
    {start : U32} (hp : openPlace d name = some (i, start)) :
    ∀ j ≠ i, (d.get j).live = true → (d.get j).start.toNat + sectorCount (d.get j).size.toNat ≤ start.toNat := by
  intro j hj hjl
  rw [← h.endLba_toNat hl hjl]
  exact (openPlace_some hp).2.2 j hj hjl

/-! ## Guards -/

/-- No handle is open for writing. -/
def NoWriter (k : Kernel) : Prop := ∀ i, ¬(k.ofiles i).Writing

/-- A save of this size takes a new run of sectors. -/
def Allocates (d : Dir) (name : List Byte) (size : U32) : Prop :=
  0 < size.toNat ∧ ∀ i, fsFind d name = some i → ¬sectorsOf size ≤ sectorsOf (d.get i).size

/-- What a call writes fits on the medium, and in a 32-bit size rounded up to a sector. -/
def WithinCapacity (k : Kernel) (r : Request) : Prop :=
  match r.call with
  | .save nameOff _ size => ∀ s idx start, nameAt r.um nameOff = some s →
      fsPlace k.fs.dir (normalizeName s) size = some (idx, start) → Allocates k.fs.dir (normalizeName s) size →
      start.toNat + sectorCount size.toNat ≤ k.fs.disk.limit
  | .fwrite fd _ len => ∀ i, getOfile k.ofiles fd = some i → (k.ofiles i).mode = .write →
      (k.ofiles i).start.toNat + sectorCount ((k.ofiles i).pos.toNat + len.toNat) ≤ k.fs.disk.limit ∧
      (k.ofiles i).pos.toNat + len.toNat + 511 < 2 ^ 32
  | _ => True

/-- A run of sectors is chosen only while no handle is open for writing. -/
def AllocatesAlone (k : Kernel) (r : Request) : Prop :=
  match r.call with
  | .save nameOff _ size => ∀ s, nameAt r.um nameOff = some s → Allocates k.fs.dir (normalizeName s) size → NoWriter k
  | .open _ mode => mode = 1#32 → NoWriter k
  | _ => True

/-- The sectors of a write. -/
def DiskWrite.sectors (w : DiskWrite) : Set Nat := Set.Ico w.lba.toNat (w.lba.toNat + w.count.toNat)

/-- A write by a handle meets no live file's run, and a data write meets no directory sector and stays on the medium. -/
def SafeWrite (k : Kernel) (w : DiskWrite) : Prop :=
  (w.who = .handle → ∀ i, (k.fs.dir.get i).live = true → Disjoint w.sectors (k.fs.dir.get i).extent) ∧
  (w.who ≠ .dir → ∀ s ∈ w.sectors, fsDataLba ≤ s ∧ s < k.fs.disk.limit)

/-- Every disk write a call issues is safe. -/
def SafeStep (k : Kernel) (r : Request) : Prop :=
  ∃ ws, (k.step r).fs.disk.writes = k.fs.disk.writes ++ ws ∧ ∀ w ∈ ws, SafeWrite k w

/-! ## One call -/

/-- Everything past the other files is past the file with a given run. -/
def PastLive (d : Dir) (start : U32) : Prop :=
  ∀ j, (d.get j).live = true → 0 < (d.get j).size.toNat →
    (d.get j).start.toNat + sectorCount (d.get j).size.toNat ≤ start.toNat

/-- The invariant after the directory has changed. -/
theorem ExtentsInv.withDir {k : Kernel} (h : ExtentsInv k) {fs : Fs} (hl : fs.disk.limit = k.fs.disk.limit)
    (hd : DirOk fs.dir k.fs.disk.limit) (hp : ∀ i, (k.ofiles i).Writing → PastLive fs.dir (k.ofiles i).start) :
    ExtentsInv ⟨fs, k.ofiles⟩ :=
  ⟨hl ▸ hd, h.one, fun i hi => hl ▸ h.writer i hi, hp, h.reader⟩

/-- The invariant after one handle has changed. -/
theorem ExtentsInv.withHandle {k : Kernel} (h : ExtentsInv k) {i : Fin openMax} {f : OpenFile} {disk : Disk}
    (hl : disk.limit = k.fs.disk.limit)
    (hw : f.Writing → (f.WriterOk k.fs.disk.limit ∧ f.dirIndex < dirEntries) ∧ PastLive k.fs.dir f.start ∧
      ∀ j ≠ i, ¬(k.ofiles j).Writing)
    (hr : f.used = true → f.mode = .read → f.sectorDirty = false) : ExtentsInv (k.setIo i f disk) := by
  refine ⟨hl ▸ h.dir, fun a b ha hb => ?_, fun a ha => ?_, fun a ha => ?_, fun a ha => ?_⟩
  · simp only [Kernel.setIo] at ha hb
    split at ha <;> split at hb
    · rename_i h1 h2; exact h1.trans h2.symm
    · rename_i h1 h2; exact absurd hb ((hw ha).2.2 b h2)
    · rename_i h1 h2; exact absurd ha ((hw hb).2.2 a h1)
    · exact h.one a b ha hb
  · simp only [Kernel.setIo] at ha ⊢
    rw [hl]
    split at ha
    · rename_i h1; rw [if_pos h1]; exact (hw ha).1
    · rename_i h1; rw [if_neg h1]; exact h.writer a ha
  · simp only [Kernel.setIo] at ha ⊢
    split at ha
    · rename_i h1; rw [if_pos h1]; exact (hw ha).2.1
    · rename_i h1; rw [if_neg h1]; exact h.past a ha
  · simp only [Kernel.setIo] at ha ⊢
    split at ha
    · rename_i h1; rw [if_pos h1]; exact hr ha
    · rename_i h1; rw [if_neg h1]; exact h.reader a ha

/-- A handle that is not in use threatens nothing. -/
theorem ExtentsInv.closeHandle {k : Kernel} (h : ExtentsInv k) (i : Fin openMax) {disk : Disk}
    (hl : disk.limit = k.fs.disk.limit) : ExtentsInv (k.setIo i OpenFile.zero disk) :=
  h.withHandle hl (fun hw => by cases hw.1) (fun hu => by cases hu)

/-- With one writer, the others are not writing. -/
theorem ExtentsInv.others {k : Kernel} (h : ExtentsInv k) {i : Fin openMax} (hi : (k.ofiles i).Writing) :
    ∀ j ≠ i, ¬(k.ofiles j).Writing := fun j hj hw => hj (h.one j i hw hi)

theorem SafeWrite.of_isDir (k : Kernel) {w : DiskWrite} (h : w.IsDir) : SafeWrite k w := by
  have hw : w.who = .dir := by rw [h]
  exact ⟨fun hh => (by rw [hw] at hh; cases hh), fun hh => absurd hw hh⟩

/-- What a handle in order writes to its region is safe. -/
theorem SafeWrite.of_handleIn {k : Kernel} {f : OpenFile} (hok : f.WriterOk k.fs.disk.limit)
    (hpast : PastLive k.fs.dir f.start) {w : DiskWrite} (h : w.HandleIn f.region) : SafeWrite k w := by
  obtain ⟨-, hcount, hmem⟩ := h
  have hone : w.sectors = Set.Ico w.lba.toNat (w.lba.toNat + 1) := by rw [DiskWrite.sectors, hcount]; rfl
  simp only [OpenFile.region, Set.mem_Ico] at hmem
  have hpos : 0 < f.size.toNat := by
    by_contra h0
    rw [sectorCount_eq_zero.2 (show f.size.toNat = 0 by lia)] at hmem
    lia
  have hroom := hok.room hpos
  have hdata := hok.data
  refine ⟨fun _ i hi => ?_, fun _ s hs => ?_⟩
  · rw [hone, Set.disjoint_left]
    intro s hs hs'
    simp only [Dirent.extent, Set.mem_Ico] at hs hs'
    have hsz : 0 < (k.fs.dir.get i).size.toNat := by
      by_contra h0
      rw [sectorCount_eq_zero.2 (show (k.fs.dir.get i).size.toNat = 0 by lia)] at hs'
      lia
    have := hpast i hi hsz
    lia
  · rw [hone, Set.mem_Ico] at hs
    lia

/-- The safe outcome of a call: the invariant again, and safe writes only. -/
def StepOk (k k' : Kernel) : Prop := ExtentsInv k' ∧ k.fs.disk.Adds k'.fs.disk (SafeWrite k)

theorem StepOk.refl {k : Kernel} (h : ExtentsInv k) : StepOk k k := ⟨h, .refl _ _⟩

/-- A call that only replaces directory entries. -/
theorem StepOk.syncDir {k : Kernel} (h : ExtentsInv k) {dir : Dir} (hd : DirOk dir k.fs.disk.limit)
    (hp : ∀ i, (k.ofiles i).Writing → PastLive dir (k.ofiles i).start) :
    StepOk k ⟨Fs.syncDir ⟨dir, k.fs.disk⟩, k.ofiles⟩ := by
  have hadds := Fs.syncDir_adds ⟨dir, k.fs.disk⟩
  exact ⟨h.withDir hadds.limit hd hp, hadds.mono fun w hw => SafeWrite.of_isDir k hw⟩

/-- What is past the live files of a directory is past those left when an entry shrinks or goes. -/
theorem PastLive.set {d : Dir} {start : U32} (h : PastLive d start) {i : Nat} (hi : i < dirEntries) {e : Dirent}
    (he : e.live = true → 0 < e.size.toNat → e.start.toNat + sectorCount e.size.toNat ≤ start.toNat) :
    PastLive (d.set i e) start := by
  intro j hj hs
  rw [d.get_set hi] at hj hs ⊢
  split at hj
  · rename_i hji; rw [if_pos hji] at hs ⊢; exact he hj hs
  · rename_i hji; rw [if_neg hji] at hs ⊢; exact h j hj hs

variable {k : Kernel} (h : ExtentsInv k)

include h

/-- `SYS_DELETE`. -/
theorem delete_ok (um : UserMem) (nameOff : U32) : StepOk k (k.sysDelete um nameOff).1 := by
  rcases sysDelete_cases k um nameOff with heq | ⟨s, idx, -, hf, heq⟩ <;> rw [heq]
  · exact .refl h
  · refine StepOk.syncDir h ?_ fun i hi => ?_
    · exact h.dir.set (fsFind_lt hf) (fun hl => by simp at hl) (fun hl => by simp at hl) (fun hl => by simp at hl)
    · exact PastLive.set (h.past i hi) (fsFind_lt hf) (fun hl => by simp at hl)

/-- `SYS_RENAME`. -/
theorem rename_ok (um : UserMem) (oldOff newOff : U32) : StepOk k (k.sysRename um oldOff newOff).1 := by
  rcases sysRename_cases k um oldOff newOff with heq | ⟨s, t, idx, -, -, hf, -, heq⟩ <;> rw [heq]
  · exact .refl h
  · have hlive := fsFind_live hf
    refine StepOk.syncDir h ?_ fun i hi => ?_
    · exact h.dir.set_shrink hlive rfl (Nat.le_refl _) (h.dir.small idx hlive)
    · exact PastLive.set (h.past i hi) (fsFind_lt hf) (fun _ => h.past i hi idx hlive)

/-- `SYS_SAVE`. -/
theorem save_ok (um : UserMem) (nameOff bufOff size : U32) (hc : WithinCapacity k ⟨um, .save nameOff bufOff size⟩)
    (ha : AllocatesAlone k ⟨um, .save nameOff bufOff size⟩) : StepOk k (k.sysSave um nameOff bufOff size).1 := by
  rcases sysSave_cases k um nameOff bufOff size with heq | ⟨s, idx, start, hr, hs, hp, heq⟩ <;> rw [heq]
  · exact .refl h
  · have hlen := userRangeOk_len hr
    have hfb : userFbOffset = 25165824 := rfl
    have hcount := sectorsOf_toNat (show size.toNat + 511 < 2 ^ 32 by lia)
    have hlim := k.fs.disk.limit_le
    set e := saveEntry (k.fs.dir.get idx) (normalizeName s) start size with he
    -- either the run of the entry is used again, or the call allocates past every other file
    have key : DirOk (k.fs.dir.set idx e) k.fs.disk.limit ∧
        (∀ i, (k.ofiles i).Writing → PastLive (k.fs.dir.set idx e) (k.ofiles i).start) ∧
        (0 < size.toNat → fsDataLba ≤ start.toNat ∧ start.toNat + sectorCount size.toNat ≤ k.fs.disk.limit) := by
      rcases fsPlace_start hp with ⟨hf, hle, hstart⟩ | ⟨hgrow, hplace⟩
      · have hlive := fsFind_live hf
        rw [BitVec.le_def, hcount, sectorsOf_toNat (h.dir.small idx hlive)] at hle
        have hpos : 0 < size.toNat → 0 < (k.fs.dir.get idx).size.toNat := by
          intro h0
          have : sectorCount size.toNat ≠ 0 := fun hz => by rw [sectorCount_eq_zero.1 hz] at h0; lia
          by_contra hz
          rw [sectorCount_eq_zero.2 (show (k.fs.dir.get idx).size.toNat = 0 by lia)] at hle
          lia
        refine ⟨h.dir.set_shrink hlive hstart hle (show size.toNat + 511 < 2 ^ 32 by lia), fun i hi => ?_, fun h0 => ?_⟩
        · refine PastLive.set (h.past i hi) (fsFind_lt hf) (fun _ h0 => ?_)
          have := h.past i hi idx hlive (hpos h0)
          show start.toNat + sectorCount size.toNat ≤ _
          rw [hstart]
          lia
        · have := h.dir.data idx hlive (hpos h0)
          rw [hstart]
          lia
      · obtain ⟨hidx, hdata, -⟩ := openPlace_some hplace
        have hpast := h.dir.openPlace_past hlim hplace
        have halloc : 0 < size.toNat → Allocates k.fs.dir (normalizeName s) size :=
          fun h0 => ⟨h0, fun i hi => (hgrow i hi).1 ▸ (hgrow i hi).2⟩
        have hroom : 0 < size.toNat → start.toNat + sectorCount size.toNat ≤ k.fs.disk.limit :=
          fun h0 => hc s idx start hs hp (halloc h0)
        refine ⟨h.dir.set hidx (fun _ => show size.toNat + 511 < 2 ^ 32 by lia) (fun _ h0 => ⟨hdata, hroom h0⟩)
          (fun _ _ j hj hjl => disjoint_of_past (hpast j hj hjl)), fun i hi => ?_, fun h0 => ⟨hdata, hroom h0⟩⟩
        refine PastLive.set (h.past i hi) hidx (fun _ h0 => ?_)
        exact absurd hi (ha s hs (halloc h0) i)
    obtain ⟨hdir, hpast, hdata⟩ := key
    have hsave : SafeWrite k ⟨.save, start, sectorsOf size⟩ := by
      refine ⟨fun hh => (by cases hh), fun _ x hx => ?_⟩
      simp only [DiskWrite.sectors, hcount, Set.mem_Ico] at hx
      have hpos : 0 < size.toNat := by
        by_contra h0
        rw [sectorCount_eq_zero.2 (show size.toNat = 0 by lia)] at hx
        lia
      have := hdata hpos
      lia
    have hadds := (Disk.writeSectors_adds k.fs.disk .save start (sectorsOf size) (fun i => um (bufOff.toNat + i)) hsave).trans
      ((Fs.syncDir_adds ⟨k.fs.dir.set idx e, k.fs.disk.writeSectors .save start (sectorsOf size)
        (fun i => um (bufOff.toNat + i))⟩).mono fun w hw => SafeWrite.of_isDir k hw)
    exact ⟨h.withDir hadds.limit hdir hpast, hadds⟩

/-- `SYS_OPEN`. -/
theorem open_ok (um : UserMem) (nameOff mode : U32) (ha : AllocatesAlone k ⟨um, .open nameOff mode⟩) :
    StepOk k (k.sysOpen um nameOff mode).1 := by
  rcases sysOpen_cases k um nameOff mode with
    heq | ⟨s, i, -, -, heq | ⟨idx, -, -, heq⟩ | ⟨idx, start, hmode, hp, heq⟩⟩ <;> rw [heq]
  · exact .refl h
  · exact ⟨h.closeHandle i rfl, .refl _ _⟩
  · exact ⟨h.withHandle rfl (fun hw => by cases hw.2) (fun _ _ => rfl), .refl _ _⟩
  · have hno := ha hmode
    obtain ⟨hidx, hdata, -⟩ := openPlace_some hp
    have hpast := h.dir.openPlace_past k.fs.disk.limit_le hp
    set e := openEntry (k.fs.dir.get idx) (normalizeName s) start with he
    have hsize : e.size.toNat = 0 := rfl
    have hdir : DirOk (k.fs.dir.set idx e) k.fs.disk.limit :=
      h.dir.set hidx (fun _ => by omega) (fun _ h0 => by omega) (fun _ h0 => by omega)
    obtain ⟨hinv, hadds⟩ := StepOk.syncDir h hdir (fun j hj => absurd hj (hno j))
    refine ⟨hinv.withHandle rfl (fun _ => ⟨⟨⟨Nat.le_refl _, hdata, fun h0 => ?_,
      show 0 + 511 < 2 ^ 32 by decide, fun hv => by cases hv⟩, hidx⟩,
      ?_, fun j _ => hno j⟩) (fun _ hm => by cases hm), hadds⟩
    · exact absurd h0 (Nat.lt_irrefl 0)
    · intro j hj hs
      have hji : j ≠ idx := by
        intro hji
        change 0 < ((k.fs.dir.set idx e).get j).size.toNat at hs
        rw [hji, Dir.get_set_self _ hidx] at hs
        omega
      change ((k.fs.dir.set idx e).get j).live = true at hj
      change ((k.fs.dir.set idx e).get j).start.toNat + sectorCount ((k.fs.dir.set idx e).get j).size.toNat ≤ start.toNat
      rw [Dir.get_set_ne _ hji] at hj ⊢
      exact hpast j hji hj

/-- `SYS_FREAD`. -/
theorem fread_ok (um : UserMem) (fd off len : U32) : StepOk k (k.sysFread um fd off len).1 := by
  rcases sysFread_fst k um fd off len with heq | ⟨i, n, hi, hm, heq⟩ <;> rw [heq]
  · exact .refl h
  · obtain ⟨hd, hg, hadds⟩ := freadLoop_ok n (k.ofiles i) k.fs.disk um off.toNat n (h.reader i (getOfile_used hi) hm)
    refine ⟨h.withHandle hadds.limit (fun hw => ?_) (fun _ _ => hd), hadds.mono fun _ hf => hf.elim⟩
    have := hw.2
    rw [hg.mode, hm] at this
    cases this

/-- `SYS_FWRITE`. -/
theorem fwrite_ok (um : UserMem) (fd off len : U32) (hc : WithinCapacity k ⟨um, .fwrite fd off len⟩) :
    StepOk k (k.sysFwrite um fd off len).1 := by
  rcases sysFwrite_cases k um fd off len with heq | ⟨i, hi, hm, -, -, heq⟩ <;> rw [heq]
  · exact .refl h
  · have hw : (k.ofiles i).Writing := ⟨getOfile_used hi, hm⟩
    obtain ⟨hwok, hidx⟩ := h.writer i hw
    obtain ⟨hroom, hsmall⟩ := hc i hi hm
    obtain ⟨hok, hg, hadds⟩ := fwriteLoop_ok k.fs.disk.limit_le len.toNat (k.ofiles i) k.fs.disk
      (fun j => um (off.toNat + j)) len.toNat hwok (fun _ => hroom) hsmall
    have hpast : PastLive k.fs.dir (fwriteLoop len.toNat (k.ofiles i) k.fs.disk (fun j => um (off.toNat + j)) len.toNat).1.start :=
      hg.start ▸ h.past i hw
    refine ⟨h.withHandle hadds.limit (fun _ => ⟨⟨hok, hg.dirIndex ▸ hidx⟩, hpast, h.others hw⟩) (fun _ hr => ?_),
      hadds.mono fun w hin => SafeWrite.of_handleIn hok hpast hin⟩
    rw [hg.mode, hm] at hr
    cases hr

/-- `SYS_CLOSE`. -/
theorem close_ok (fd : U32) : StepOk k (k.sysClose fd).1 := by
  rcases sysClose_cases k fd with heq | ⟨i, hi, ⟨-, heq⟩ | ⟨hm, heq⟩⟩ <;> rw [heq]
  · exact .refl h
  · exact ⟨h.closeHandle i rfl, .refl _ _⟩
  · have hw : (k.ofiles i).Writing := ⟨getOfile_used hi, hm⟩
    obtain ⟨hok, hidx⟩ := h.writer i hw
    have hpast := h.past i hw
    have hfl := (ofileFlush_adds (d := k.fs.disk) hok.buffer).mono fun w hin => SafeWrite.of_handleIn hok hpast hin
    have hdir : DirOk (k.fs.dir.set (k.ofiles i).dirIndex (closeEntry (k.fs.dir.get (k.ofiles i).dirIndex) (k.ofiles i)))
        k.fs.disk.limit := by
      refine h.dir.set hidx (fun _ => hok.small) (fun _ h0 => ⟨hok.data, hok.room h0⟩) (fun _ _ j _ hjl => ?_)
      rcases Nat.eq_zero_or_pos (k.fs.dir.get j).size.toNat with h0 | h0
      · have hempty : (k.fs.dir.get j).extent = ∅ := by simp [Dirent.extent, h0, sectorCount_eq_zero.2 rfl]
        rw [hempty]
        exact Set.disjoint_empty _
      · exact disjoint_of_past (hpast j hjl h0)
    have hadds := hfl.trans ((Fs.syncDir_adds ⟨k.fs.dir.set (k.ofiles i).dirIndex
      (closeEntry (k.fs.dir.get (k.ofiles i).dirIndex) (k.ofiles i)), (ofileFlush (k.ofiles i) k.fs.disk).2⟩).mono
        fun w hin => SafeWrite.of_isDir k hin)
    refine ⟨(h.closeHandle i rfl).withDir hadds.limit hdir (fun j hj => ?_), hadds⟩
    simp only [Kernel.setIo] at hj
    split at hj
    · cases hj.1
    · rename_i hji; exact absurd hj (h.others hw j hji)

/-- `SYS_SEEK`. -/
theorem seek_ok (fd pos : U32) : StepOk k (k.sysSeek fd pos).1 := by
  rcases sysSeek_cases k fd pos with heq | ⟨i, p, hi, hp, ⟨hm, heq⟩ | ⟨hm, heq⟩⟩ <;> rw [heq]
  · exact .refl h
  · exact ⟨h.withHandle rfl (fun hw => by rw [OpenFile.Writing, hm] at hw; cases hw.2) (fun _ _ => rfl), .refl _ _⟩
  · have hw : (k.ofiles i).Writing := ⟨getOfile_used hi, hm⟩
    obtain ⟨hok, hidx⟩ := h.writer i hw
    have hpast := h.past i hw
    have hfl := (ofileFlush_adds (d := k.fs.disk) hok.buffer).mono fun w hin => SafeWrite.of_handleIn hok hpast hin
    have hle : p.toNat ≤ (k.ofiles i).size.toNat := by
      rw [hp, OpenFile.seekPos]
      generalize (if pos.toInt < 0 then 0#32 else pos) = q
      split
      · exact Nat.le_refl _
      · rename_i hlt
        exact BitVec.le_def.1 (BitVec.not_lt.1 hlt)
    refine ⟨h.withHandle hfl.limit (fun _ => ⟨⟨⟨hle, hok.data, hok.room, hok.small, fun hv => by cases hv⟩, hidx⟩, hpast,
      h.others hw⟩) (fun _ _ => rfl), hfl⟩

/-- `SYS_LOAD`. -/
theorem load_ok (um : UserMem) (nameOff bufOff max : U32) : StepOk k (k.sysLoad um nameOff bufOff max).1 := by
  rcases sysLoad_fst k um nameOff bufOff max with heq | ⟨s, -, heq⟩ <;> rw [heq]
  · exact .refl h
  · have hadds : k.fs.disk.Adds (k.fs.read (normalizeName s) max).1.disk (SafeWrite k) :=
      Fs.read_disk (P := fun d => k.fs.disk.Adds d (SafeWrite k)) (fun d lba n hd => hd.trans (d.readSectors_adds lba n _))
        k.fs _ max (.refl _ _)
    refine ⟨h.withDir hadds.limit ?_ ?_, hadds⟩
    · rw [Fs.read_dir]; exact h.dir
    · rw [Fs.read_dir]; exact h.past

/-- `SYS_SYNC` issues no disk write of the filesystem. -/
theorem sync_ok (status : U32) : StepOk k (k.sysSync status).1 := by
  have hadds : k.fs.disk.Adds (k.fs.disk.sync status).1 (SafeWrite k) := by
    unfold Disk.sync
    split
    · exact .refl _ _
    · split
      · exact .refl _ _
      · exact ⟨rfl, [], by simp, by simp⟩
  rw [sysSync_fst]
  exact ⟨h.withDir hadds.limit h.dir h.past, hadds⟩

omit h

/-- Every call that is within capacity and allocates alone keeps the invariant and issues safe writes. -/
theorem extentsInv_step (k : Kernel) (r : Request) (h : ExtentsInv k) (hg : WithinCapacity k r ∧ AllocatesAlone k r) :
    StepOk k (k.step r) := by
  obtain ⟨um, c⟩ := r
  cases c with
  | load nameOff bufOff max => exact load_ok h um nameOff bufOff max
  | save nameOff bufOff size => exact save_ok h um nameOff bufOff size hg.1 hg.2
  | rename oldOff newOff => exact rename_ok h um oldOff newOff
  | delete nameOff => exact delete_ok h um nameOff
  | «open» nameOff mode => exact open_ok h um nameOff mode hg.2
  | fread fd off len => exact fread_ok h um fd off len
  | fwrite fd off len => exact fwrite_ok h um fd off len hg.1
  | close fd => exact close_ok h fd
  | seek fd pos => exact seek_ok h fd pos
  | sync status => exact sync_ok h status

/-! ## Whole runs -/

/-- From any directory in order with no file open, along every run within capacity in which runs of sectors are chosen only
while no handle is open for writing: the runs of live files stay disjoint, and every disk write is safe. -/
theorem extents_disjoint_of_allocatesAlone (k : Kernel) (rs : List Request) (hd : DirOk k.fs.dir k.fs.disk.limit)
    (hn : ∀ i, (k.ofiles i).used = false)
    (hm : Meets Kernel.step (fun k r => WithinCapacity k r ∧ AllocatesAlone k r) k rs) :
    (∀ i j, i ≠ j → ((runFrom Kernel.step k rs).fs.dir.get i).live = true →
      ((runFrom Kernel.step k rs).fs.dir.get j).live = true →
      Disjoint ((runFrom Kernel.step k rs).fs.dir.get i).extent ((runFrom Kernel.step k rs).fs.dir.get j).extent) ∧
    Meets Kernel.step SafeStep k rs := by
  have hunused : ∀ i, ¬(k.ofiles i).Writing := fun i hw => by rw [OpenFile.Writing, hn i] at hw; cases hw.1
  have h0 : ExtentsInv k := ⟨hd, fun i _ hi => absurd hi (hunused i), fun i hi => absurd hi (hunused i),
    fun i hi => absurd hi (hunused i), fun i hi => by rw [hn i] at hi; cases hi⟩
  have hstep := fun k r (h : ExtentsInv k) hg => (extentsInv_step k r h hg).1
  exact ⟨(inv_runFrom ExtentsInv hstep h0 hm).dir.disjoint,
    meets_of_inv ExtentsInv hstep (fun k r h hg => (extentsInv_step k r h hg).2.writes) h0 hm⟩

/-- A kernel after boot with an empty disk of 100 sectors. -/
def blankKernel : Kernel := Kernel.fresh Dir.empty (Disk.blank 100#32 (by decide))

theorem blankKernel_dirOk : DirOk blankKernel.fs.dir blankKernel.fs.disk.limit :=
  ⟨fun i _ _ hi => by simp [blankKernel, Kernel.fresh] at hi, fun i hi => by simp [blankKernel, Kernel.fresh] at hi,
    fun i hi => by simp [blankKernel, Kernel.fresh] at hi⟩

/-- The run rule at work: a file is opened for writing, written and closed. -/
theorem extents_disjoint_of_allocatesAlone_one_file :
    Meets Kernel.step (fun k r => WithinCapacity k r ∧ AllocatesAlone k r) blankKernel
      [⟨userText "A", .open 0#32 1#32⟩, ⟨userText "A", .fwrite 3#32 0#32 1#32⟩, ⟨userText "", .close 3#32⟩] ∧
    Meets Kernel.step SafeStep blankKernel
      [⟨userText "A", .open 0#32 1#32⟩, ⟨userText "A", .fwrite 3#32 0#32 1#32⟩, ⟨userText "", .close 3#32⟩] := by
  have hm : Meets Kernel.step (fun k r => WithinCapacity k r ∧ AllocatesAlone k r) blankKernel
      [⟨userText "A", .open 0#32 1#32⟩, ⟨userText "A", .fwrite 3#32 0#32 1#32⟩, ⟨userText "", .close 3#32⟩] := by
    refine ⟨⟨trivial, fun _ i hw => by cases hw.1⟩, ⟨fun i hi _ => ?_, trivial⟩, ⟨trivial, trivial⟩, trivial⟩
    obtain rfl : (⟨0, by decide⟩ : Fin openMax) = i := Option.some.inj (Eq.trans (by decide +kernel) hi)
    decide +kernel
  exact ⟨hm, (extents_disjoint_of_allocatesAlone blankKernel _ blankKernel_dirOk (fun _ => rfl) hm).2⟩

/-- Two files are opened for writing before either is written: the calls of the run. -/
def twoWriters : List Request :=
  [⟨userText "A", .open 0#32 1#32⟩, ⟨userText "B", .open 0#32 1#32⟩, ⟨userText "A", .fwrite 3#32 0#32 1#32⟩,
    ⟨userText "B", .fwrite 4#32 0#32 1#32⟩, ⟨userText "", .close 3#32⟩, ⟨userText "", .close 4#32⟩]

/-- That run is within capacity and ends with both files on sector 201. -/
theorem extents_disjoint_false :
    ¬∀ (k : Kernel) (rs : List Request), DirOk k.fs.dir k.fs.disk.limit → (∀ i, (k.ofiles i).used = false) →
      Meets Kernel.step WithinCapacity k rs →
      ∀ i j, i ≠ j → ((runFrom Kernel.step k rs).fs.dir.get i).live = true →
        ((runFrom Kernel.step k rs).fs.dir.get j).live = true →
        Disjoint ((runFrom Kernel.step k rs).fs.dir.get i).extent ((runFrom Kernel.step k rs).fs.dir.get j).extent := by
  intro h
  have hm : Meets Kernel.step WithinCapacity blankKernel twoWriters := by
    refine ⟨trivial, trivial, fun i hi _ => ?_, fun i hi _ => ?_, trivial, trivial, trivial⟩
    · obtain rfl : (⟨0, by decide⟩ : Fin openMax) = i := Option.some.inj (Eq.trans (by decide +kernel) hi)
      decide +kernel
    · obtain rfl : (⟨1, by decide⟩ : Fin openMax) = i := Option.some.inj (Eq.trans (by decide +kernel) hi)
      decide +kernel
  have hd := h blankKernel twoWriters blankKernel_dirOk (fun _ => rfl) hm 0 1 (by decide) (by decide +kernel) (by decide +kernel)
  have h0 : 201 ∈ ((runFrom Kernel.step blankKernel twoWriters).fs.dir.get 0).extent := by
    rw [Dirent.extent, Set.mem_Ico]
    decide +kernel
  have h1 : 201 ∈ ((runFrom Kernel.step blankKernel twoWriters).fs.dir.get 1).extent := by
    rw [Dirent.extent, Set.mem_Ico]
    decide +kernel
  exact Set.disjoint_left.1 hd h0 h1

end MiniOs32
