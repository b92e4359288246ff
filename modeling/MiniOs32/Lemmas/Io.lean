import MiniOs32.Kernel.Calls

/-!
# Disk traffic of the handles

A handle reaches the disk through single sectors only: it reads one, or it writes its buffer out. Whatever these two
operations keep is kept by every loop built from them.
-/

namespace MiniOs32

/-- The sector offset the bound checks start from. -/
theorem sub_fsDirLba_toNat {lba : U32} (h : fsDirLba ≤ lba.toNat) :
    (lba - BitVec.ofNat 32 fsDirLba).toNat = lba.toNat - fsDirLba :=
  BitVec.toNat_sub_of_le (BitVec.le_def.2 h)

/-- A descriptor names a handle in use. -/
theorem getOfile_used {fs : OpenFiles} {fd : U32} {i : Fin openMax} (h : getOfile fs fd = some i) : (fs i).used = true := by
  unfold getOfile at h
  dsimp only at h
  split at h
  · split at h
    · rename_i hu
      rw [← Option.some.inj h]
      exact hu
    · cases h
  · cases h

section Traffic

variable {P : Disk → Prop} (hw : ∀ d lba buf, P d → P (d.writeSectors .handle lba 1#32 buf))
  (hr : ∀ d lba, P d → P (d.readSectors lba 1#32).1)

include hw

theorem ofileFlush_disk (f : OpenFile) {d : Disk} (h : P d) : P (ofileFlush f d).2 := by
  unfold ofileFlush
  split
  · exact h
  · exact hw d _ _ h

include hr

theorem ofileLoadSector_disk (f : OpenFile) {d : Disk} (lba : U32) (h : P d) : P (ofileLoadSector f d lba).2 := by
  have hfl := ofileFlush_disk hw f h
  unfold ofileLoadSector
  split
  · exact h
  · dsimp only
    split
    · exact hfl
    · exact hr _ _ hfl

theorem freadLoop_disk (fuel : Nat) : ∀ (f : OpenFile) {d : Disk} (um : UserMem) (dst left : Nat), P d →
    P (freadLoop fuel f d um dst left).2.1 := by
  induction fuel with
  | zero => intro f d um dst left h; exact h
  | succ fuel ih =>
    intro f d um dst left h
    simp only [freadLoop]
    split
    · exact h
    · exact ih _ _ _ _ (ofileLoadSector_disk hw hr f f.posLba h)

theorem fwriteStep_disk (f : OpenFile) {d : Disk} (src : Nat → Byte) (left : Nat) (h : P d) :
    P (fwriteStep f d src left).2 := by
  have hl := ofileLoadSector_disk hw hr f f.posLba h
  unfold fwriteStep
  dsimp only
  split
  · exact ofileFlush_disk hw _ hl
  · exact hl

theorem fwriteLoop_disk (fuel : Nat) : ∀ (f : OpenFile) {d : Disk} (src : Nat → Byte) (left : Nat), P d →
    P (fwriteLoop fuel f d src left).2 := by
  induction fuel with
  | zero => intro f d src left h; exact h
  | succ fuel ih =>
    intro f d src left h
    simp only [fwriteLoop]
    split
    · exact h
    · exact ih _ _ _ (fwriteStep_disk hw hr f src left h)

end Traffic

/-- `fs_read` only reads. -/
theorem Fs.read_disk {P : Disk → Prop} (hr : ∀ d lba n, P d → P (d.readSectors lba n).1) (k : Fs) (name : List Byte) (max : U32)
    (h : P k.disk) : P (k.read name max).1.disk := by
  unfold Fs.read
  split
  · exact h
  · dsimp only
    split
    · exact h
    · dsimp only
      split <;> split <;> first | exact h | exact hr _ _ _ h | exact hr _ _ _ (hr _ _ _ h)

/-- `fs_read` leaves the directory alone. -/
theorem Fs.read_dir (k : Fs) (name : List Byte) (max : U32) : (k.read name max).1.dir = k.dir := by
  unfold Fs.read
  split
  · rfl
  · dsimp only
    split <;> rfl

end MiniOs32
