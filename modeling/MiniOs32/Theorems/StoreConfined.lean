import MiniOs32.Lemmas.Steps
import MiniOs32.Lib.Run

/-!
# Persistent writes stay inside the store

Every `nvme_write` must land behind the header sector, inside the partition, and inside the image the header declares. Both
bound checks on the way add a sector number and a count in 32 bits, so a run of sectors that ends at or past sector 2^32
passes them with a small sum. Only `SYS_SAVE` can be made to issue such a run, through a directory entry with a corrupt
start; every other writer is safe whatever the directory holds.
-/

namespace MiniOs32

/-- An NVMe write behind the header, inside the partition and inside the declared image, in exact arithmetic. -/
def Store.Confines (st : Store) (w : NvmeWrite) : Prop :=
  st.firstLba.toNat < w.lba.toNat ∧ w.lba.toNat + w.count.toNat - 1 ≤ st.lastLba.toNat ∧
    w.lba.toNat + w.count.toNat - 1 ≤ st.firstLba.toNat + st.fsSectors.toNat

/-- Every NVMe write issued so far is confined. -/
def Disk.Confined (d : Disk) : Prop := ∀ w ∈ d.nvmeWrites, d.store.Confines w

/-- The sectors of a run, counted from the first directory sector, end before sector 2^32. -/
def NoWrap (lba count : U32) : Prop := lba.toNat < fsDirLba ∨ lba.toNat - fsDirLba + count.toNat < 2 ^ 32

/-! ## The bound checks -/

/-- An entry `store_scan` accepted has room for the header and the image. -/
theorem Store.room (st : Store) (h : st.ready = true) : st.firstLba.toNat + st.fsSectors.toNat ≤ st.lastLba.toNat := by
  have hok := st.accepted h
  have hf := st.fsSectors.isLt
  have h1 := st.firstLba.isLt
  have h2 := st.lastLba.isLt
  simp only [storeEntryOk, Bool.and_eq_true, Bool.not_eq_true', decide_eq_false_iff_not, BitVec.le_def, BitVec.lt_def,
    BitVec.toNat_add, BitVec.toNat_sub, BitVec.toNat_ofNat, BitVec.toNat_setWidth] at hok
  omega

/-- `store_lba_ok` refuses an empty run. -/
theorem Store.lbaOk_pos {st : Store} {lba : U64} {count : U32} (h : st.lbaOk lba count = true) : 0 < count.toNat := by
  simp only [Store.lbaOk, Bool.and_eq_true, bne_iff_ne, ne_eq] at h
  rcases Nat.eq_zero_or_pos count.toNat with h0 | h0
  · exact absurd (BitVec.eq_of_toNat_eq h0) h.1.1.2
  · exact h0

/-- What `store_lba_ok` checks, when its own sum does not wrap. -/
theorem Store.lbaOk_bounds {st : Store} {lba : U64} {count : U32} (h : st.lbaOk lba count = true)
    (hw : lba.toNat + count.toNat ≤ 2 ^ 64) :
    st.firstLba.toNat < lba.toNat ∧ lba.toNat + count.toNat - 1 ≤ st.lastLba.toNat := by
  have hpos := Store.lbaOk_pos h
  have h1 := lba.isLt
  have h2 := count.isLt
  simp only [Store.lbaOk, Bool.and_eq_true, Bool.not_eq_true', decide_eq_false_iff_not, BitVec.le_def, BitVec.lt_def,
    BitVec.toNat_add, BitVec.toNat_sub, BitVec.toNat_ofNat, BitVec.toNat_setWidth] at h
  obtain ⟨⟨-, hf⟩, hl⟩ := h
  exact ⟨by omega, by omega⟩

/-- `store_write_through` issues confined writes only, unless its sum wraps. -/
theorem Store.writeThrough_confines {st : Store} {lba count : U32} {buf : Nat → Byte} (hw : NoWrap lba count) :
    ∀ w ∈ (st.writeThrough lba count buf).toList, st.Confines w := by
  intro w h
  unfold Store.writeThrough at h
  split at h
  · simp at h
  · rename_i hready
    simp only [Bool.or_eq_true, Bool.not_eq_true', decide_eq_true_eq, not_or, Bool.not_eq_false, BitVec.not_lt] at hready
    obtain ⟨hready, hdir⟩ := hready
    replace hdir : fsDirLba ≤ lba.toNat := BitVec.le_def.1 hdir
    have hroom := st.room hready
    have hoff := sub_fsDirLba_toNat hdir
    dsimp only at h
    split at h
    · simp at h
    · rename_i hfit
      split at h
      · rename_i hok
        simp only [Option.toList_some, List.mem_singleton] at h
        subst h
        have hsum : lba.toNat - fsDirLba + count.toNat ≤ st.fsSectors.toNat := by
          have hlt : lba.toNat - fsDirLba + count.toNat < 2 ^ 32 := hw.resolve_left (by omega)
          have := BitVec.le_def.1 (BitVec.not_lt.1 hfit)
          rwa [BitVec.toNat_add, hoff, Nat.mod_eq_of_lt hlt] at this
        have hpos := Store.lbaOk_pos hok
        have hlast := st.lastLba.isLt
        have htarget : (st.firstLba + 1#64 + (lba - BitVec.ofNat 32 fsDirLba).setWidth 64).toNat =
            st.firstLba.toNat + 1 + (lba.toNat - fsDirLba) := by
          simp only [BitVec.toNat_add, BitVec.toNat_setWidth, hoff, BitVec.toNat_ofNat]
          omega
        obtain ⟨hf, hl⟩ := Store.lbaOk_bounds hok (by rw [htarget]; omega)
        exact ⟨hf, hl, by simp only [htarget]; omega⟩
      · simp at h

/-! ## Writers -/

@[simp] theorem Disk.writeSectors_store (d : Disk) (who : Writer) (lba count : U32) (buf : Nat → Byte) :
    (d.writeSectors who lba count buf).store = d.store := by
  unfold Disk.writeSectors
  split
  · split <;> rfl
  · rfl

/-- A disk write whose sum does not wrap keeps the NVMe writes confined. -/
theorem Disk.Confined.writeSectors {d : Disk} (h : d.Confined) (who : Writer) {lba count : U32} (buf : Nat → Byte)
    (hw : NoWrap lba count) : (d.writeSectors who lba count buf).Confined := by
  intro w hmem
  rw [Disk.writeSectors_store]
  unfold Disk.writeSectors at hmem
  split at hmem
  · split at hmem
    · rcases List.mem_append.1 hmem with hold | hnew
      · exact h w hold
      · exact Store.writeThrough_confines hw w hnew
    · exact h w hmem
  · exact h w hmem

/-- Reading issues nothing. -/
theorem Disk.Confined.readSectors (d : Disk) (lba n : U32) (h : d.Confined) : (d.readSectors lba n).1.Confined := by
  unfold Disk.readSectors
  split
  · split
    · split <;> exact h
    · exact h
  · exact h

/-- One sector never wraps. -/
theorem noWrap_one (lba : U32) : NoWrap lba 1#32 := by
  have := lba.isLt
  have hdir : fsDirLba = 137 := rfl
  simp only [NoWrap, BitVec.toNat_ofNat]
  omega

/-- The directory never wraps. -/
theorem noWrap_dir : NoWrap (BitVec.ofNat 32 fsDirLba) (BitVec.ofNat 32 dirSectors) := Or.inr (by decide)

/-- A handle's sector write keeps the NVMe writes confined. -/
theorem Disk.Confined.handleWrite (d : Disk) (lba : U32) (buf : Nat → Byte) (h : d.Confined) :
    (d.writeSectors .handle lba 1#32 buf).Confined := h.writeSectors .handle buf (noWrap_one lba)

/-- `fs_sync_dir` keeps the NVMe writes confined. -/
theorem Disk.Confined.syncDir {k : Fs} (h : k.disk.Confined) : k.syncDir.disk.Confined := h.writeSectors .dir _ noWrap_dir

/-- `SYS_SYNC` never writes more than the declared image. -/
theorem Disk.syncSectors_le (d : Disk) : d.syncSectors.toNat ≤ d.store.fsSectors.toNat := by
  unfold Disk.syncSectors
  split
  · exact Nat.le_refl _
  · rename_i hlt
    exact BitVec.le_def.1 (BitVec.not_lt.1 hlt)

/-- `SYS_SYNC` keeps the NVMe writes confined. -/
theorem Disk.Confined.sync {d : Disk} (h : d.Confined) (status : U32) : (d.sync status).1.Confined := by
  unfold Disk.sync
  split
  · exact h
  · rename_i hready
    split
    · exact h
    · rename_i hok
      intro w hmem
      rcases List.mem_append.1 hmem with hold | hnew
      · exact h w hold
      · simp only [List.mem_singleton] at hnew
        subst hnew
        have hroom := d.store.room (by simpa using hready)
        have hlast := d.store.lastLba.isLt
        have hn := d.syncSectors_le
        have hsum : (d.store.firstLba + 1#64).toNat ≤ d.store.firstLba.toNat + 1 := by
          simp only [BitVec.toNat_add, BitVec.toNat_ofNat]
          omega
        obtain ⟨hf, hl⟩ := Store.lbaOk_bounds (by simpa using hok) (by omega)
        refine ⟨hf, hl, ?_⟩
        dsimp only
        omega

/-! ## Whole runs -/

/-- A save whose run of sectors does not wrap; any other call. -/
def SaveNoWrap (k : Kernel) (r : Request) : Prop :=
  match r.call with
  | .save nameOff _ size => ∀ s idx start, nameAt r.um nameOff = some s →
      fsPlace k.fs.dir (normalizeName s) size = some (idx, start) → NoWrap start (sectorsOf size)
  | _ => True

/-- A call keeps the NVMe writes confined when its save, if it is one, does not wrap. -/
theorem confined_step (k : Kernel) (r : Request) (h : k.fs.disk.Confined) (hg : SaveNoWrap k r) :
    (k.step r).fs.disk.Confined := by
  refine Kernel.step_disk (fun d lba hd => Disk.Confined.readSectors d lba 1#32 hd) Disk.Confined.handleWrite
    (fun _ hd => Disk.Confined.syncDir hd) (fun _ status hd => Disk.Confined.sync hd status) k r ?_ ?_ h
  · intro nameOff bufOff max s _ hd
    exact Fs.read_disk Disk.Confined.readSectors k.fs _ max hd
  · intro nameOff bufOff size s idx start hcall hs hp hd
    have hwrap : NoWrap start (sectorsOf size) := by
      unfold SaveNoWrap at hg
      rw [hcall] at hg
      exact hg s idx start hs hp
    exact hd.writeSectors .save _ hwrap

/-- Along every run in which no save's run of sectors wraps, whatever the directory holds, every NVMe write issued is
confined. -/
theorem nvme_writes_confined_of_saves_noWrap (k : Kernel) (rs : List Request) (h0 : k.fs.disk.nvmeWrites = [])
    (hm : Meets Kernel.step SaveNoWrap k rs) : (runFrom Kernel.step k rs).fs.disk.Confined := by
  refine inv_runFrom (fun k => k.fs.disk.Confined) confined_step ?_ hm
  intro w hw
  rw [h0] at hw
  cases hw

/-- A directory whose only file starts near the end of the 32-bit sector space. -/
def corruptDir : Dir := Dir.empty.set 0 (saveEntry Dirent.zero (asciiBytes "A") 0xFFFFFFFF#32 71168#32)

/-- A partition of 2^33 sectors with a store header for an image of 64 sectors. -/
def wideStore : Store := ⟨true, 2048#64, 2048#64 + 2 ^ 33, 64#32, fun _ => by decide⟩

/-- A RAM disk of 64 sectors mirrored to the wide store. -/
def wideDisk : Disk := { Disk.blank 64#32 (by decide) with store := wideStore, nvmeWrites := [] }

/-- The run rule at work: a delete on the corrupt directory. -/
theorem nvme_writes_confined_of_saves_noWrap_delete :
    Meets Kernel.step SaveNoWrap (Kernel.fresh corruptDir wideDisk) [⟨userText "A", .delete 0#32⟩] ∧
    (runFrom Kernel.step (Kernel.fresh corruptDir wideDisk) [⟨userText "A", .delete 0#32⟩]).fs.disk.Confined :=
  ⟨⟨trivial, trivial⟩, nvme_writes_confined_of_saves_noWrap _ _ rfl ⟨trivial, trivial⟩⟩

/-- Saving 139 sectors over that file issues an NVMe write 2^32 sectors behind the image it should stay in. -/
theorem nvme_writes_confined_false :
    ¬∀ (k : Kernel) (rs : List Request), k.fs.disk.nvmeWrites = [] → (runFrom Kernel.step k rs).fs.disk.Confined := by
  intro h
  have hc := h (Kernel.fresh corruptDir wideDisk) [⟨userText "A", .save 0#32 100#32 71168#32⟩] rfl
  have hw : ((runFrom Kernel.step (Kernel.fresh corruptDir wideDisk)
      [⟨userText "A", .save 0#32 100#32 71168#32⟩]).fs.disk.nvmeWrites.map (fun w => (w.lba, w.count))).head? =
      some (4294969207#64, 139#32) := by decide
  obtain ⟨w, hmem, heq⟩ := List.mem_map.1 (List.mem_of_mem_head? (Option.mem_def.2 hw))
  have := (hc w hmem).2.2
  simp only [Prod.mk.injEq] at heq
  rw [heq.1, heq.2] at this
  revert this
  decide

end MiniOs32
