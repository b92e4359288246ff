import MiniOs32.Lemmas.Names

/-!
# What each filesystem call can do

One inversion lemma per call: the state it leaves and the decisions that led there. Later results split on these and never
unfold a call again.
-/

namespace MiniOs32

/-- `SYS_SAVE` fails and changes nothing, or writes one run of sectors and one entry. -/
theorem sysSave_cases (k : Kernel) (um : UserMem) (nameOff bufOff size : U32) :
    k.sysSave um nameOff bufOff size = (k, fail) ∨
    ∃ uname idx start, userRangeOk bufOff size = true ∧ nameAt um nameOff = some uname ∧
      fsPlace k.fs.dir (normalizeName uname) size = some (idx, start) ∧
      k.sysSave um nameOff bufOff size =
        (⟨Fs.syncDir ⟨k.fs.dir.set idx (saveEntry (k.fs.dir.get idx) (normalizeName uname) start size),
          k.fs.disk.writeSectors .save start (sectorsOf size) (fun i => um (bufOff.toNat + i))⟩, k.ofiles⟩, 0#32) := by
  unfold Kernel.sysSave
  by_cases hr : userRangeOk bufOff size = true
  · cases hn : nameAt um nameOff with
    | none => exact Or.inl (by simp [hr])
    | some uname =>
      cases hp : fsPlace k.fs.dir (normalizeName uname) size with
      | none => exact Or.inl (by simp [hr, Fs.write, hp, fail])
      | some p => exact Or.inr ⟨uname, p.1, p.2, hr, rfl, hp, by simp [hr, Fs.write, hp]⟩
  · exact Or.inl (by simp [hr])

/-- `SYS_RENAME` fails and changes nothing, or stores the new name in the entry found under the old one. -/
theorem sysRename_cases (k : Kernel) (um : UserMem) (oldOff newOff : U32) :
    k.sysRename um oldOff newOff = (k, fail) ∨
    ∃ oldu newu idx, nameAt um oldOff = some oldu ∧ nameAt um newOff = some newu ∧
      fsFind k.fs.dir (normalizeName oldu) = some idx ∧ fsFind k.fs.dir (normalizeName newu) = none ∧
      k.sysRename um oldOff newOff =
        (⟨Fs.syncDir ⟨k.fs.dir.set idx ((k.fs.dir.get idx).setName (normalizeName newu) fsNameLen (Nat.le_refl _)),
          k.fs.disk⟩, k.ofiles⟩, 0#32) := by
  unfold Kernel.sysRename
  cases ho : nameAt um oldOff with
  | none => exact Or.inl rfl
  | some oldu =>
    cases hn : nameAt um newOff with
    | none => exact Or.inl rfl
    | some newu =>
      cases hfo : fsFind k.fs.dir (normalizeName oldu) with
      | none => exact Or.inl (by simp [hfo])
      | some idx =>
        cases hfn : fsFind k.fs.dir (normalizeName newu) with
        | some j => exact Or.inl (by simp [hfo, hfn])
        | none => exact Or.inr ⟨oldu, newu, idx, rfl, rfl, hfo, hfn, by simp [hfo, hfn]⟩

/-- `SYS_DELETE` fails and changes nothing, or clears the entry found. -/
theorem sysDelete_cases (k : Kernel) (um : UserMem) (nameOff : U32) :
    k.sysDelete um nameOff = (k, fail) ∨
    ∃ uname idx, nameAt um nameOff = some uname ∧ fsFind k.fs.dir (normalizeName uname) = some idx ∧
      k.sysDelete um nameOff = (⟨Fs.syncDir ⟨k.fs.dir.set idx Dirent.zero, k.fs.disk⟩, k.ofiles⟩, 0#32) := by
  unfold Kernel.sysDelete
  cases hn : nameAt um nameOff with
  | none => exact Or.inl rfl
  | some uname =>
    cases hf : fsFind k.fs.dir (normalizeName uname) with
    | none => exact Or.inl (by simp [hf])
    | some idx => exact Or.inr ⟨uname, idx, rfl, hf, by simp [hf]⟩

/-- `SYS_LOAD` only reads. -/
theorem sysLoad_fst (k : Kernel) (um : UserMem) (nameOff bufOff max : U32) :
    (k.sysLoad um nameOff bufOff max).1 = k ∨
    ∃ uname, nameAt um nameOff = some uname ∧
      (k.sysLoad um nameOff bufOff max).1 = ⟨(k.fs.read (normalizeName uname) max).1, k.ofiles⟩ := by
  unfold Kernel.sysLoad
  split
  · exact Or.inl rfl
  · split
    · exact Or.inl rfl
    · rename_i uname hn
      refine Or.inr ⟨uname, hn, ?_⟩
      split <;> simp_all

/-- The handle `SYS_OPEN` sets up for reading an entry. -/
def readHandle (idx : Nat) (e : Dirent) : OpenFile :=
  { OpenFile.zero with used := true, mode := .read, dirIndex := idx, start := e.start, size := e.size }

/-- The handle `SYS_OPEN` sets up for writing. -/
def writeHandle (idx : Nat) (start : U32) : OpenFile :=
  { OpenFile.zero with used := true, mode := .write, dirIndex := idx, start := start }

/-- `SYS_OPEN` fails, leaving at most an unused handle cleared, or opens a free handle for reading an entry, or opens one for
writing and records an empty file. -/
theorem sysOpen_cases (k : Kernel) (um : UserMem) (nameOff mode : U32) :
    k.sysOpen um nameOff mode = (k, fail) ∨
    ∃ uname i, nameAt um nameOff = some uname ∧ allocFd k.ofiles = some i ∧
      (k.sysOpen um nameOff mode = (k.setOfile i OpenFile.zero, fail) ∨
      (∃ idx, mode = 0#32 ∧ fsFind k.fs.dir (normalizeName uname) = some idx ∧
        k.sysOpen um nameOff mode = (k.setOfile i (readHandle idx (k.fs.dir.get idx)), BitVec.ofNat 32 (i.val + 3))) ∨
      (∃ idx start, mode = 1#32 ∧ openPlace k.fs.dir (normalizeName uname) = some (idx, start) ∧
        k.sysOpen um nameOff mode =
          (Kernel.setOfile ⟨Fs.syncDir ⟨k.fs.dir.set idx (openEntry (k.fs.dir.get idx) (normalizeName uname) start),
            k.fs.disk⟩, k.ofiles⟩ i (writeHandle idx start), BitVec.ofNat 32 (i.val + 3)))) := by
  unfold Kernel.sysOpen
  cases hn : nameAt um nameOff with
  | none => exact Or.inl rfl
  | some uname =>
    cases ha : allocFd k.ofiles with
    | none => exact Or.inl (by simp)
    | some i =>
      refine Or.inr ⟨uname, i, rfl, rfl, ?_⟩
      by_cases h0 : mode = 0#32
      · cases hf : fsFind k.fs.dir (normalizeName uname) with
        | none => exact Or.inl (by simp [h0, hf])
        | some idx => exact Or.inr (Or.inl ⟨idx, h0, rfl, by simp [h0, hf, readHandle]⟩)
      · by_cases h1 : mode = 1#32
        · cases hp : openPlace k.fs.dir (normalizeName uname) with
          | none => exact Or.inl (by simp [h1, hp])
          | some p => exact Or.inr (Or.inr ⟨p.1, p.2, h1, rfl, by simp [h1, hp, writeHandle]⟩)
        · exact Or.inl (by simp [h0, h1])

/-- `SYS_FREAD` changes nothing, or moves a read handle on. -/
theorem sysFread_fst (k : Kernel) (um : UserMem) (fd off len : U32) :
    (k.sysFread um fd off len).1 = k ∨
    ∃ i n, getOfile k.ofiles fd = some i ∧ (k.ofiles i).mode = .read ∧
      (k.sysFread um fd off len).1 = k.setIo i (freadLoop n (k.ofiles i) k.fs.disk um off.toNat n).1
        (freadLoop n (k.ofiles i) k.fs.disk um off.toNat n).2.1 := by
  unfold Kernel.sysFread
  split
  · exact Or.inl rfl
  · split
    · exact Or.inl rfl
    · rename_i i hi
      dsimp only
      split
      · exact Or.inl rfl
      · rename_i hm
        split
        · exact Or.inl rfl
        · split
          · exact Or.inl rfl
          · exact Or.inr ⟨i, _, hi, not_not.1 hm, rfl⟩

/-- `SYS_FWRITE` changes nothing, or moves a write handle on. -/
theorem sysFwrite_cases (k : Kernel) (um : UserMem) (fd off len : U32) :
    (k.sysFwrite um fd off len).1 = k ∨
    ∃ i, getOfile k.ofiles fd = some i ∧ (k.ofiles i).mode = .write ∧ userRangeOk off len = true ∧ len ≠ 0#32 ∧
      (k.sysFwrite um fd off len).1 =
        k.setIo i (fwriteLoop len.toNat (k.ofiles i) k.fs.disk (fun j => um (off.toNat + j)) len.toNat).1
          (fwriteLoop len.toNat (k.ofiles i) k.fs.disk (fun j => um (off.toNat + j)) len.toNat).2 := by
  unfold Kernel.sysFwrite
  split
  · exact Or.inl rfl
  · rename_i hr
    split
    · exact Or.inl rfl
    · rename_i i hi
      split
      · exact Or.inl rfl
      · rename_i hm
        split
        · exact Or.inl rfl
        · rename_i hl
          exact Or.inr ⟨i, hi, not_not.1 hm, by simpa using hr, hl, rfl⟩

/-- `SYS_CLOSE` fails, or frees a read handle, or flushes a write handle and records its run and its size. -/
theorem sysClose_cases (k : Kernel) (fd : U32) :
    k.sysClose fd = (k, fail) ∨
    ∃ i, getOfile k.ofiles fd = some i ∧
      (((k.ofiles i).mode = .read ∧ k.sysClose fd = (k.setOfile i OpenFile.zero, 0#32)) ∨
      ((k.ofiles i).mode = .write ∧ k.sysClose fd =
        (Kernel.setOfile ⟨Fs.syncDir ⟨k.fs.dir.set (k.ofiles i).dirIndex
            (closeEntry (k.fs.dir.get (k.ofiles i).dirIndex) (k.ofiles i)), (ofileFlush (k.ofiles i) k.fs.disk).2⟩, k.ofiles⟩
          i OpenFile.zero, 0#32))) := by
  have hfl : ∀ f d, (ofileFlush f d).1.dirIndex = f.dirIndex ∧ ∀ e, closeEntry e (ofileFlush f d).1 = closeEntry e f := by
    intro f d
    unfold ofileFlush
    split <;> exact ⟨rfl, fun _ => rfl⟩
  unfold Kernel.sysClose
  cases hi : getOfile k.ofiles fd with
  | none => exact Or.inl rfl
  | some i =>
    refine Or.inr ⟨i, rfl, ?_⟩
    cases hm : (k.ofiles i).mode with
    | read => exact Or.inl ⟨rfl, by simp [hm]⟩
    | write => exact Or.inr ⟨rfl, by simp [hm, hfl]⟩

/-- `SYS_SEEK` fails, or drops the buffered sector of a handle after writing it out and moves the position. -/
theorem sysSeek_cases (k : Kernel) (fd pos : U32) :
    k.sysSeek fd pos = (k, fail) ∨
    ∃ i p, getOfile k.ofiles fd = some i ∧ p = (k.ofiles i).seekPos pos ∧
      (((k.ofiles i).mode = .read ∧ k.sysSeek fd pos =
        (k.setIo i { k.ofiles i with pos := p, sectorValid := false, sectorDirty := false } k.fs.disk, p)) ∨
      ((k.ofiles i).mode = .write ∧ k.sysSeek fd pos =
        (k.setIo i { k.ofiles i with pos := p, sectorValid := false, sectorDirty := false }
          (ofileFlush (k.ofiles i) k.fs.disk).2, p))) := by
  have hfl : ∀ f d, ∃ b, (ofileFlush f d).1 = { f with sectorDirty := b } := by
    intro f d
    unfold ofileFlush
    split
    · exact ⟨f.sectorDirty, rfl⟩
    · exact ⟨false, rfl⟩
  unfold Kernel.sysSeek
  cases hi : getOfile k.ofiles fd with
  | none => exact Or.inl rfl
  | some i =>
    refine Or.inr ⟨i, _, rfl, rfl, ?_⟩
    cases hm : (k.ofiles i).mode with
    | read => exact Or.inl ⟨rfl, by simp [hm]⟩
    | write =>
      obtain ⟨b, hb⟩ := hfl (k.ofiles i) k.fs.disk
      exact Or.inr ⟨rfl, by simp [hm, hb, OpenFile.seekPos]⟩

/-- `SYS_SYNC` fails and changes nothing, or writes the covered image again. -/
theorem sysSync_fst (k : Kernel) (status : U32) : (k.sysSync status).1 = ⟨⟨k.fs.dir, (k.fs.disk.sync status).1⟩, k.ofiles⟩ := rfl

end MiniOs32
