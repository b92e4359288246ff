import MiniOs32.Lemmas.Calls
import MiniOs32.Lemmas.Io

/-!
# Runs of sectors

The sectors a file occupies, the place a new run is given, and the sectors a write handle reaches. A handle owns a region
that starts where it was opened and grows with its size; everything it writes out lies in that region.
-/

namespace MiniOs32

/-- The sectors that hold `n` bytes. -/
def sectorCount (n : Nat) : Nat := (n + 511) / 512

/-- One past the last sector of the medium. -/
def Disk.limit (d : Disk) : Nat := if d.ram then fsDirLba + d.rdSectors.toNat else ataSectors

theorem Disk.limit_le (d : Disk) : d.limit ≤ ataSectors := by
  unfold Disk.limit
  split
  · rename_i h
    have := (d.rdBound h).2
    have h1 : fsDirLba = 137 := rfl
    have h2 : ataSectors = 2 ^ 28 := rfl
    omega
  · exact Nat.le_refl _

/-- The sectors of an entry: `[start, start + ceil(size / 512))`. -/
def Dirent.extent (e : Dirent) : Set Nat := Set.Ico e.start.toNat (e.start.toNat + sectorCount e.size.toNat)

/-- The 32-bit count is the exact one unless the size is within 511 of 2^32. -/
theorem sectorsOf_toNat {size : U32} (h : size.toNat + 511 < 2 ^ 32) : (sectorsOf size).toNat = sectorCount size.toNat := by
  rw [sectorsOf, BitVec.toNat_udiv, BitVec.toNat_add, show (511#32).toNat = 511 from rfl, show (512#32).toNat = 512 from rfl,
    Nat.mod_eq_of_lt h, sectorCount]

/-- What `user_range_ok` accepts is at most 24MB long. -/
theorem userRangeOk_len {off len : U32} (h : userRangeOk off len = true) : len.toNat ≤ userFbOffset := by
  have h1 : userFbOffset = 25165824 := rfl
  have h2 : userFbSize = 16777216 := rfl
  unfold userRangeOk at h
  split at h
  · simp only [decide_eq_true_eq] at h; omega
  · split at h
    · cases h
    · simp only [decide_eq_true_eq] at h; omega

/-! ## The next free sector -/

theorem maxLba_left (m e : U32) : m ≤ maxLba m e := by
  unfold maxLba
  split
  · rename_i h; exact BitVec.le_of_lt h
  · exact BitVec.le_refl m

theorem maxLba_right (m e : U32) : e ≤ maxLba m e := by
  unfold maxLba
  split
  · exact BitVec.le_refl e
  · rename_i h; exact BitVec.not_lt.1 h

/-- A running maximum is at least where it started and at least every element it took. -/
theorem foldl_maxLba {α : Type*} (p : α → Bool) (f : α → U32) (l : List α) : ∀ m : U32,
    m ≤ l.foldl (fun m a => if p a then maxLba m (f a) else m) m ∧
    ∀ a ∈ l, p a = true → f a ≤ l.foldl (fun m a => if p a then maxLba m (f a) else m) m := by
  induction l with
  | nil => intro m; simp
  | cons b l ih =>
    intro m
    simp only [List.foldl_cons]
    obtain ⟨h1, h2⟩ := ih (if p b then maxLba m (f b) else m)
    have hm : m ≤ (if p b then maxLba m (f b) else m) := by
      split
      · exact maxLba_left m (f b)
      · exact BitVec.le_refl m
    refine ⟨BitVec.le_trans hm h1, fun a ha hp => ?_⟩
    rcases List.mem_cons.1 ha with rfl | ha
    · exact BitVec.le_trans (by rw [if_pos hp]; exact maxLba_right m (f a)) h1
    · exact h2 a ha hp

theorem fsNextFree_spec (d : Dir) :
    fsDataLba ≤ (fsNextFree d).toNat ∧ ∀ i, (d.get i).live = true → (d.get i).endLba.toNat ≤ (fsNextFree d).toNat := by
  obtain ⟨h1, h2⟩ := foldl_maxLba Dirent.live Dirent.endLba d.slots (BitVec.ofNat 32 fsDataLba)
  refine ⟨BitVec.le_def.1 h1, fun i hi => ?_⟩
  have hl : i < d.slots.length := by rw [d.len]; exact d.lt_of_live hi
  rw [d.get_eq hl] at hi ⊢
  exact BitVec.le_def.1 (h2 _ (List.getElem_mem hl) hi)

theorem fsNextFreeExcl_spec (d : Dir) (excl : Nat) :
    fsDataLba ≤ (fsNextFreeExcl d excl).toNat ∧
    ∀ i ≠ excl, (d.get i).live = true → (d.get i).endLba.toNat ≤ (fsNextFreeExcl d excl).toNat := by
  obtain ⟨h1, h2⟩ := foldl_maxLba (fun p : Dirent × Nat => p.1.live && p.2 != excl) (fun p => p.1.endLba) d.slots.zipIdx
    (BitVec.ofNat 32 fsDataLba)
  refine ⟨BitVec.le_def.1 h1, fun i hne hi => ?_⟩
  have hl : i < d.slots.length := by rw [d.len]; exact d.lt_of_live hi
  rw [d.get_eq hl] at hi ⊢
  refine BitVec.le_def.1 (h2 (d.slots[i], i) (List.mem_zipIdx_iff_getElem?.2 (List.getElem?_eq_getElem hl)) ?_)
  simp [hi, hne]

/-- `SYS_OPEN` chooses the entry found, past every other file, or a free slot, past every file. -/
theorem openPlace_some {d : Dir} {name : List Byte} {i : Nat} {start : U32} (h : openPlace d name = some (i, start)) :
    i < dirEntries ∧ fsDataLba ≤ start.toNat ∧
      ∀ j ≠ i, (d.get j).live = true → (d.get j).endLba.toNat ≤ start.toNat := by
  unfold openPlace at h
  cases hf : fsFind d name with
  | some j =>
    simp only [hf, Option.some.injEq, Prod.mk.injEq] at h
    obtain ⟨rfl, rfl⟩ := h
    exact ⟨fsFind_lt hf, (fsNextFreeExcl_spec d j).1, (fsNextFreeExcl_spec d j).2⟩
  | none =>
    simp only [hf] at h
    obtain ⟨j, hj, hij⟩ := Option.map_eq_some_iff.1 h
    simp only [Prod.mk.injEq] at hij
    obtain ⟨rfl, rfl⟩ := hij
    exact ⟨(firstFree_some hj).1, (fsNextFree_spec d).1, fun l _ hl => (fsNextFree_spec d).2 l hl⟩

/-- `fs_write` reuses the run of the entry found when it is large enough, and otherwise goes past every other file. -/
theorem fsPlace_start {d : Dir} {name : List Byte} {size : U32} {i : Nat} {start : U32}
    (h : fsPlace d name size = some (i, start)) :
    (fsFind d name = some i ∧ sectorsOf size ≤ sectorsOf (d.get i).size ∧ start = (d.get i).start) ∨
    ((∀ j, fsFind d name = some j → j = i ∧ ¬sectorsOf size ≤ sectorsOf (d.get i).size) ∧
      openPlace d name = some (i, start)) := by
  unfold fsPlace at h
  unfold openPlace
  cases hf : fsFind d name with
  | some j =>
    simp only [hf] at h
    split at h
    · rename_i hle
      simp only [Option.some.injEq, Prod.mk.injEq] at h
      obtain ⟨rfl, rfl⟩ := h
      exact Or.inl ⟨rfl, hle, rfl⟩
    · rename_i hle
      simp only [Option.some.injEq, Prod.mk.injEq] at h
      obtain ⟨rfl, rfl⟩ := h
      refine Or.inr ⟨fun l hl => ?_, rfl⟩
      obtain rfl := Option.some.inj hl
      exact ⟨rfl, hle⟩
  | none =>
    simp only [hf] at h
    exact Or.inr ⟨fun l hl => (by cases hl), h⟩

/-! ## Writes issued -/

/-- The disk is the same medium and has issued more writes, all of them in a given set. -/
structure Disk.Adds (d d' : Disk) (p : DiskWrite → Prop) : Prop where
  limit : d'.limit = d.limit
  writes : ∃ ws, d'.writes = d.writes ++ ws ∧ ∀ w ∈ ws, p w

theorem Disk.Adds.refl (d : Disk) (p : DiskWrite → Prop) : d.Adds d p := ⟨rfl, [], by simp, by simp⟩

theorem Disk.Adds.trans {d d' d'' : Disk} {p : DiskWrite → Prop} (h : d.Adds d' p) (h' : d'.Adds d'' p) : d.Adds d'' p := by
  obtain ⟨hl, ws, hw, hp⟩ := h
  obtain ⟨hl', ws', hw', hp'⟩ := h'
  refine ⟨hl'.trans hl, ws ++ ws', by rw [hw', hw, List.append_assoc], fun w hmem => ?_⟩
  exact (List.mem_append.1 hmem).elim (hp w) (hp' w)

theorem Disk.Adds.mono {d d' : Disk} {p q : DiskWrite → Prop} (h : d.Adds d' p) (hpq : ∀ w, p w → q w) : d.Adds d' q := by
  obtain ⟨hl, ws, hw, hp⟩ := h
  exact ⟨hl, ws, hw, fun w hmem => hpq w (hp w hmem)⟩

theorem Disk.writeSectors_adds (d : Disk) (who : Writer) (lba count : U32) (buf : Nat → Byte) {p : DiskWrite → Prop}
    (hp : p ⟨who, lba, count⟩) : d.Adds (d.writeSectors who lba count buf) p := by
  have hone : ∀ w ∈ [(⟨who, lba, count⟩ : DiskWrite)], p w := by
    intro w hw
    rw [List.mem_singleton] at hw
    exact hw ▸ hp
  unfold Disk.writeSectors
  split
  · rename_i hr
    split
    · exact ⟨by simp [Disk.limit, hr], _, rfl, hone⟩
    · exact Disk.Adds.refl d p
  · rename_i hr
    exact ⟨by simp [Disk.limit, hr], _, rfl, hone⟩

theorem Disk.readSectors_adds (d : Disk) (lba n : U32) (p : DiskWrite → Prop) : d.Adds (d.readSectors lba n).1 p := by
  unfold Disk.readSectors
  split
  · rename_i hr
    split
    · split
      · exact Disk.Adds.refl d p
      · exact ⟨by simp [Disk.limit, hr], [], by simp, by simp⟩
    · exact Disk.Adds.refl d p
  · exact Disk.Adds.refl d p

/-- A directory write. -/
def DiskWrite.IsDir (w : DiskWrite) : Prop := w = ⟨.dir, BitVec.ofNat 32 fsDirLba, BitVec.ofNat 32 dirSectors⟩

theorem Fs.syncDir_adds (k : Fs) : k.disk.Adds k.syncDir.disk DiskWrite.IsDir :=
  Disk.writeSectors_adds _ _ _ _ _ rfl

/-! ## The region of a write handle -/

/-- The sectors a write handle has reached: from where it was opened on, as far as its size. -/
def OpenFile.region (f : OpenFile) : Set Nat := Set.Ico f.start.toNat (f.start.toNat + sectorCount f.size.toNat)

/-- A handle's write of one sector in a set. -/
def DiskWrite.HandleIn (s : Set Nat) (w : DiskWrite) : Prop := w.who = .handle ∧ w.count = 1#32 ∧ w.lba.toNat ∈ s

/-- A write handle in order: the position is within the size, the region is on the medium behind the directory, and a buffer
waiting to be written belongs to the region. -/
structure OpenFile.WriterOk (f : OpenFile) (limit : Nat) : Prop where
  pos_le : f.pos.toNat ≤ f.size.toNat
  data : fsDataLba ≤ f.start.toNat
  room : 0 < f.size.toNat → f.start.toNat + sectorCount f.size.toNat ≤ limit
  small : f.size.toNat + 511 < 2 ^ 32
  buffer : f.sectorValid = true → f.sectorDirty = true → f.curLba.toNat ∈ f.region

/-- Writing the buffer out stays in the region. -/
theorem ofileFlush_adds {f : OpenFile} {d : Disk} (h : f.sectorValid = true → f.sectorDirty = true → f.curLba.toNat ∈ f.region) :
    d.Adds (ofileFlush f d).2 (DiskWrite.HandleIn f.region) := by
  unfold ofileFlush
  split
  · exact Disk.Adds.refl d _
  · rename_i hv
    simp only [Bool.or_eq_true, Bool.not_eq_true', not_or, Bool.not_eq_false] at hv
    exact Disk.writeSectors_adds d _ _ _ _ ⟨rfl, rfl, h hv.1 hv.2⟩

/-- Writing the buffer out changes the dirty mark only. -/
theorem ofileFlush_fst (f : OpenFile) (d : Disk) : ∃ b, (ofileFlush f d).1 = { f with sectorDirty := b } := by
  unfold ofileFlush
  split
  · exact ⟨f.sectorDirty, rfl⟩
  · exact ⟨false, rfl⟩

/-- Loading a sector leaves the buffer on that sector and everything else about the file as it was. -/
theorem ofileLoadSector_fst (f : OpenFile) (d : Disk) (lba : U32) :
    ∃ b s, (ofileLoadSector f d lba).1 = { f with curLba := lba, sectorValid := true, sectorDirty := b, sector := s } := by
  obtain ⟨b, hb⟩ := ofileFlush_fst f d
  unfold ofileLoadSector
  split
  · rename_i h
    simp only [Bool.and_eq_true, beq_iff_eq] at h
    refine ⟨f.sectorDirty, f.sector, ?_⟩
    rw [← h.2, ← h.1]
  · dsimp only
    split
    · exact ⟨_, _, by rw [hb]⟩
    · exact ⟨_, _, by rw [hb]⟩

/-- Loading a sector writes at most the old buffer out. -/
theorem ofileLoadSector_adds {f : OpenFile} {d : Disk} (lba : U32)
    (h : f.sectorValid = true → f.sectorDirty = true → f.curLba.toNat ∈ f.region) :
    d.Adds (ofileLoadSector f d lba).2 (DiskWrite.HandleIn f.region) := by
  have hfl := ofileFlush_adds (d := d) h
  unfold ofileLoadSector
  split
  · exact Disk.Adds.refl d _
  · dsimp only
    split
    · exact hfl
    · exact hfl.trans (Disk.readSectors_adds _ _ _ _)

/-- The file `g` is the file `f` written further: same place, no smaller. -/
structure OpenFile.Grown (f g : OpenFile) : Prop where
  used : g.used = f.used
  mode : g.mode = f.mode
  dirIndex : g.dirIndex = f.dirIndex
  start : g.start = f.start
  size : f.size.toNat ≤ g.size.toNat

theorem OpenFile.Grown.refl (f : OpenFile) : f.Grown f := ⟨rfl, rfl, rfl, rfl, Nat.le_refl _⟩

theorem OpenFile.Grown.trans {f g h : OpenFile} (h1 : f.Grown g) (h2 : g.Grown h) : f.Grown h :=
  ⟨h2.used.trans h1.used, h2.mode.trans h1.mode, h2.dirIndex.trans h1.dirIndex, h2.start.trans h1.start,
    h1.size.trans h2.size⟩

theorem sectorCount_mono {a b : Nat} (h : a ≤ b) : sectorCount a ≤ sectorCount b := by
  unfold sectorCount; omega

/-- The region only grows. -/
theorem OpenFile.Grown.region_subset {f g : OpenFile} (h : f.Grown g) : f.region ⊆ g.region := by
  intro s hs
  have := sectorCount_mono h.size
  simp only [OpenFile.region, Set.mem_Ico, h.start] at hs ⊢
  omega

theorem OpenFile.chunk_le (f : OpenFile) (left : Nat) : f.chunk left ≤ left := Nat.min_le_right _ _

theorem OpenFile.chunk_pos (f : OpenFile) {left : Nat} (h : 0 < left) : 0 < f.chunk left := by
  have : f.secOff < 512 := Nat.mod_lt _ (by decide)
  exact Nat.lt_min.2 ⟨by omega, h⟩

/-- The file after the first half of an iteration of `SYS_FWRITE`. -/
theorem fwriteFill_fst (f : OpenFile) (d : Disk) (src : Nat → Byte) (left : Nat) :
    ∃ s, (fwriteFill f d src left).1 = { f with
      curLba := f.posLba, sectorValid := true, sectorDirty := true, sector := s
      pos := f.pos + BitVec.ofNat 32 (f.chunk left)
      size := if f.size < f.pos + BitVec.ofNat 32 (f.chunk left) then f.pos + BitVec.ofNat 32 (f.chunk left) else f.size } := by
  obtain ⟨b, s, h⟩ := ofileLoadSector_fst f d f.posLba
  refine ⟨fun i => if f.secOff ≤ i ∧ i < f.secOff + f.chunk left then src (i - f.secOff) else s i, ?_⟩
  simp only [fwriteFill, h]

/-- Moving the position on does not wrap while the file stays below 2^32 bytes. -/
theorem OpenFile.pos_add_toNat (f : OpenFile) {n : Nat} (h : f.pos.toNat + n < 2 ^ 32) :
    (f.pos + BitVec.ofNat 32 n).toNat = f.pos.toNat + n := by
  rw [BitVec.toNat_add, BitVec.toNat_ofNat, Nat.add_mod_mod, Nat.mod_eq_of_lt h]

/-- The sector of the position, when the position is on the medium. -/
theorem OpenFile.posLba_toNat (f : OpenFile) (h : f.start.toNat + f.pos.toNat / 512 < 2 ^ 32) :
    f.posLba.toNat = f.start.toNat + f.pos.toNat / 512 := by
  rw [OpenFile.posLba, BitVec.toNat_add, BitVec.toNat_udiv]
  exact Nat.mod_eq_of_lt h

/-- The sector of the position, by the number of the sector in the file. -/
theorem OpenFile.posLba_eq (f : OpenFile) : f.posLba = f.start + BitVec.ofNat 32 (f.pos.toNat / 512) := by
  rw [OpenFile.posLba]
  refine congrArg (f.start + ·) (BitVec.eq_of_toNat_eq ?_)
  have := f.pos.isLt
  rw [BitVec.toNat_udiv, show (512#32).toNat = 512 from rfl, BitVec.toNat_ofNat, Nat.mod_eq_of_lt (by omega)]

/-- The place `SYS_SEEK` moves to. -/
theorem OpenFile.seekPos_toNat (f : OpenFile) (p : U32) : (f.seekPos p).toNat = min (max p.toInt 0).toNat f.size.toNat := by
  have hint := BitVec.toInt_eq_toNat_cond p
  have hp := p.isLt
  unfold OpenFile.seekPos
  dsimp only
  by_cases hneg : p.toInt < 0
  · rw [if_pos hneg, if_neg (by rw [BitVec.lt_def]; exact Nat.not_lt_zero _), max_eq_right (by lia)]
    simp
  · rw [if_neg hneg, max_eq_left (by lia)]
    have hnat : p.toInt.toNat = p.toNat := by
      split at hint <;> lia
    rw [hnat]
    split
    · rename_i hlt
      rw [BitVec.lt_def] at hlt
      lia
    · rename_i hlt
      rw [BitVec.lt_def] at hlt
      lia

section Fwrite

variable {f : OpenFile} {limit left : Nat} (h : f.WriterOk limit) (hl : limit ≤ ataSectors) (hpos : 0 < left)
  (hroom : f.start.toNat + sectorCount (f.pos.toNat + left) ≤ limit) (hsmall : f.pos.toNat + left + 511 < 2 ^ 32)

include h hl hpos hroom hsmall

/-- The first half of an iteration keeps the handle in order and moves the position by the piece copied. -/
theorem fwriteFill_ok (d : Disk) (src : Nat → Byte) :
    (fwriteFill f d src left).1.WriterOk limit ∧ f.Grown (fwriteFill f d src left).1 ∧
    (fwriteFill f d src left).1.pos.toNat = f.pos.toNat + f.chunk left ∧
    d.Adds (fwriteFill f d src left).2 (DiskWrite.HandleIn f.region) := by
  have hn := f.chunk_le left
  have hn0 := f.chunk_pos hpos
  have hata : ataSectors = 2 ^ 28 := rfl
  have hcount : f.pos.toNat / 512 < sectorCount (f.pos.toNat + f.chunk left) := by unfold sectorCount; lia
  have hmono : sectorCount (f.pos.toNat + f.chunk left) ≤ sectorCount (f.pos.toNat + left) := sectorCount_mono (by lia)
  have hp := f.pos_add_toNat (n := f.chunk left) (by lia)
  have hlba := f.posLba_toNat (by lia)
  obtain ⟨s, hs⟩ := fwriteFill_fst f d src left
  have hsize : ((fwriteFill f d src left).1.size.toNat = f.pos.toNat + f.chunk left ∧ f.size.toNat < f.pos.toNat + f.chunk left) ∨
      ((fwriteFill f d src left).1.size.toNat = f.size.toNat ∧ f.pos.toNat + f.chunk left ≤ f.size.toNat) := by
    rw [hs]
    dsimp only
    split
    · rename_i hlt
      exact Or.inl ⟨hp, by rw [BitVec.lt_def, hp] at hlt; exact hlt⟩
    · rename_i hlt
      exact Or.inr ⟨rfl, by rw [BitVec.not_lt, BitVec.le_def, hp] at hlt; exact hlt⟩
  have hpos' : (fwriteFill f d src left).1.pos.toNat = f.pos.toNat + f.chunk left := by rw [hs]; exact hp
  have hstart : (fwriteFill f d src left).1.start = f.start := by rw [hs]
  have hcur : (fwriteFill f d src left).1.curLba = f.posLba := by rw [hs]
  refine ⟨⟨by lia, by rw [hstart]; exact h.data, fun _ => ?_, ?_, fun _ _ => ?_⟩,
    ⟨by rw [hs], by rw [hs], by rw [hs], hstart, by lia⟩, hpos', ?_⟩
  · rw [hstart]
    rcases hsize with ⟨h1, -⟩ | ⟨h1, h2⟩
    · rw [h1]; lia
    · rw [h1]; exact h.room (by lia)
  · have := h.small
    lia
  · have hmono' := sectorCount_mono (show f.pos.toNat + f.chunk left ≤ (fwriteFill f d src left).1.size.toNat by lia)
    rw [OpenFile.region, Set.mem_Ico, hcur, hstart, hlba]
    lia
  · exact ofileLoadSector_adds f.posLba h.buffer

/-- One iteration of `SYS_FWRITE` keeps the handle in order and writes to its region only. -/
theorem fwriteStep_ok (d : Disk) (src : Nat → Byte) :
    (fwriteStep f d src left).1.WriterOk limit ∧ f.Grown (fwriteStep f d src left).1 ∧
    (fwriteStep f d src left).1.pos.toNat = f.pos.toNat + f.chunk left ∧
    d.Adds (fwriteStep f d src left).2 (DiskWrite.HandleIn (fwriteStep f d src left).1.region) := by
  obtain ⟨hok, hgrown, hp, hadds⟩ := fwriteFill_ok h hl hpos hroom hsmall d src
  have hsub := hgrown.region_subset
  unfold fwriteStep
  dsimp only
  split
  · obtain ⟨b, hb⟩ := ofileFlush_fst (fwriteFill f d src left).1 (fwriteFill f d src left).2
    have hfl := ofileFlush_adds (d := (fwriteFill f d src left).2) hok.buffer
    rw [hb]
    exact ⟨⟨hok.pos_le, hok.data, hok.room, hok.small, fun hv => by cases hv⟩,
      ⟨hgrown.used, hgrown.mode, hgrown.dirIndex, hgrown.start, hgrown.size⟩, hp,
      (hadds.mono fun w hw => ⟨hw.1, hw.2.1, hsub hw.2.2⟩).trans hfl⟩
  · exact ⟨hok, hgrown, hp, hadds.mono fun w hw => ⟨hw.1, hw.2.1, hsub hw.2.2⟩⟩

end Fwrite

/-- `SYS_FWRITE` keeps a write handle in order and writes to its region only. -/
theorem fwriteLoop_ok {limit : Nat} (hl : limit ≤ ataSectors) (fuel : Nat) :
    ∀ (f : OpenFile) (d : Disk) (src : Nat → Byte) (left : Nat), f.WriterOk limit →
      (0 < left → f.start.toNat + sectorCount (f.pos.toNat + left) ≤ limit) → f.pos.toNat + left + 511 < 2 ^ 32 →
      (fwriteLoop fuel f d src left).1.WriterOk limit ∧ f.Grown (fwriteLoop fuel f d src left).1 ∧
      d.Adds (fwriteLoop fuel f d src left).2 (DiskWrite.HandleIn (fwriteLoop fuel f d src left).1.region) := by
  induction fuel with
  | zero => intro f d src left h _ _; exact ⟨h, .refl f, .refl d _⟩
  | succ fuel ih =>
    intro f d src left h hroom hsmall
    simp only [fwriteLoop]
    split
    · exact ⟨h, .refl f, .refl d _⟩
    · rename_i hne
      have hpos : 0 < left := Nat.pos_of_ne_zero hne
      have hn := f.chunk_le left
      obtain ⟨hok, hgrown, hp, hadds⟩ := fwriteStep_ok h hl hpos (hroom hpos) hsmall d src
      have heq : f.pos.toNat + f.chunk left + (left - f.chunk left) = f.pos.toNat + left := by omega
      obtain ⟨hok', hgrown', hadds'⟩ := ih (fwriteStep f d src left).1 (fwriteStep f d src left).2
        (fun i => src (f.chunk left + i)) (left - f.chunk left) hok
        (fun _ => by rw [hp, hgrown.start, heq]; exact hroom hpos) (by omega)
      have hsub := hgrown'.region_subset
      exact ⟨hok', hgrown.trans hgrown', (hadds.mono fun w hw => ⟨hw.1, hw.2.1, hsub hw.2.2⟩).trans hadds'⟩

/-- A read handle never has anything to write out, so `SYS_FREAD` issues nothing. -/
theorem freadLoop_ok (fuel : Nat) : ∀ (f : OpenFile) (d : Disk) (um : UserMem) (dst left : Nat), f.sectorDirty = false →
    (freadLoop fuel f d um dst left).1.sectorDirty = false ∧ f.Grown (freadLoop fuel f d um dst left).1 ∧
    d.Adds (freadLoop fuel f d um dst left).2.1 (fun _ => False) := by
  induction fuel with
  | zero => intro f d um dst left h; exact ⟨h, .refl f, .refl d _⟩
  | succ fuel ih =>
    intro f d um dst left h
    simp only [freadLoop]
    split
    · exact ⟨h, .refl f, .refl d _⟩
    · have hload : (ofileLoadSector f d f.posLba).1.sectorDirty = false ∧ d.Adds (ofileLoadSector f d f.posLba).2 (fun _ => False) := by
        have hflush : ofileFlush f d = (f, d) := by simp [ofileFlush, h]
        unfold ofileLoadSector
        split
        · exact ⟨h, .refl d _⟩
        · rw [hflush]
          dsimp only
          split
          · exact ⟨rfl, .refl d _⟩
          · exact ⟨rfl, Disk.readSectors_adds _ _ _ _⟩
      obtain ⟨b, s, hs⟩ := ofileLoadSector_fst f d f.posLba
      obtain ⟨h1, h2, h3⟩ := ih (freadStep f d left).1 (freadStep f d left).2.1
        (fun i => if dst ≤ i ∧ i < dst + f.chunk left then (freadStep f d left).2.2 (i - dst) else um i)
        (dst + f.chunk left) (left - f.chunk left) hload.1
      refine ⟨h1, OpenFile.Grown.trans ?_ h2, hload.2.trans h3⟩
      simp only [freadStep, hs]
      exact ⟨rfl, rfl, rfl, rfl, Nat.le_refl _⟩

end MiniOs32
