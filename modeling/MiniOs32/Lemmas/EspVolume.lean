import MiniOs32.Lemmas.EspRead

/-!
# The volume of a partition

Where the FAT has room for its entries, nothing that is written to the partition is written over: the boot sector, each copy of the FAT and
the clusters are found again.
-/

namespace MiniOs32

/-- The volume of the boot sector. -/
def espVolume (partSectors fatSectors : Nat) : FatVolume := ⟨512, 1, 32, 2, fatSectors, partSectors, 2⟩

section Partition

variable {s : Fat32} {T p : Nat}

@[simp] theorem espVolume_dataStart (T f : Nat) : (espVolume T f).dataStart = 32 + 2 * f := rfl

theorem espVolume_count (h : T = 32 + 2 * s.fatSectors + s.clusters) : (espVolume T s.fatSectors).count = s.clusters := by
  rw [FatVolume.count, espVolume_dataStart, espVolume]
  dsimp only
  omega

theorem espVolume_fatEntries (T f : Nat) : (espVolume T f).fatEntries = 128 * f := by
  rw [FatVolume.fatEntries, espVolume]
  dsimp only
  omega

theorem espVolume_regions (h : T = 32 + 2 * s.fatSectors + s.clusters) : (espVolume T s.fatSectors).regions =
    [(0, 32), (32 + 0 * s.fatSectors, s.fatSectors), (32 + 1 * s.fatSectors, s.fatSectors), (32 + 2 * s.fatSectors, s.clusters * 1)] := by
  rw [FatVolume.regions, espVolume_count h, espVolume_dataStart]
  rfl

/-! ## The boot sector -/

/-- The first sector is the boot sector. -/
theorem partition_boot (hp : p < 512) : s.partition T p = espBootSector T s.fatSectors p := by
  have hboot : Image.overlay Image.zeros 0 512 (espBootSector T s.fatSectors) p = espBootSector T s.fatSectors p := by
    rw [Image.overlay, if_pos (by omega), Nat.sub_zero]
  have hdata : p < 512 * s.dataStart := by
    unfold Fat32.dataStart
    omega
  rw [Fat32.partition, Image.overlay_out (.inl hdata), List.range_succ, List.range_one, List.foldl_append, List.foldl_cons, List.foldl_cons,
    List.foldl_nil, List.foldl_nil, Image.overlay_out (by omega), Image.overlay_out (by omega), Image.overlay_out (by omega),
    Image.overlay_out (by omega), hboot]

/-- A field of the boot sector. -/
theorem partition_number {off n v : Nat} (h : off + n ≤ 512) (hf : (espBootSector T s.fatSectors).slice off n = bytesLE n v) (hv : v < 256 ^ n) :
    (s.partition T).number off n = v :=
  Image.number_of_bytes ((Image.slice_congr fun i hi => partition_boot (by omega)).trans hf) hv

theorem ofBoot_partition (hT : T < 2 ^ 32) (hf : s.fatSectors < 2 ^ 32) :
    FatVolume.ofBoot (s.partition T) =
      if (espVolume T s.fatSectors).dataStart ≤ T ∧ 65525 ≤ (espVolume T s.fatSectors).count ∧ (espVolume T s.fatSectors).count ≤ 0x0FFFFFF5
      then some (espVolume T s.fatSectors) else none := by
  have h11 : (s.partition T).number 11 2 = 512 := partition_number (by decide) rfl (by decide)
  have h13 : (s.partition T).number 13 1 = 1 := partition_number (by decide) rfl (by decide)
  have h14 : (s.partition T).number 14 2 = 32 := partition_number (by decide) rfl (by decide)
  have h16 : (s.partition T).number 16 1 = 2 := partition_number (by decide) rfl (by decide)
  have h19 : (s.partition T).number 19 2 = 0 := partition_number (by decide) rfl (by decide)
  have h22 : (s.partition T).number 22 2 = 0 := partition_number (by decide) rfl (by decide)
  have h32 : (s.partition T).number 32 4 = T := partition_number (by decide) rfl hT
  have h36 : (s.partition T).number 36 4 = s.fatSectors := partition_number (by decide) rfl hf
  have h44 : (s.partition T).number 44 4 = 2 := partition_number (by decide) rfl (by decide)
  have h510 : (s.partition T).number 510 2 = 0xAA55 := partition_number (by decide) rfl (by decide)
  rw [FatVolume.ofBoot]
  simp only [h11, h13, h14, h16, h19, h22, h32, h36, h44, h510, if_true]
  exact if_congr (by simp [espVolume]) rfl rfl

/-! ## The FATs and the clusters -/

/-- An entry of `fat_blob`. -/
theorem slice_fatBlob {c : Nat} (hc : c < s.clusters + 2) : s.fatBlob.slice (4 * c) 4 = bytesLE 4 (s.fat c) := by
  have hbytes : (Image.ofList (bytesLE 4 (s.fat c))).slice 0 4 = bytesLE 4 (s.fat c) := Image.slice_ofList _
  refine (Image.slice_congr fun i hi => ?_).trans hbytes
  have hdiv : (4 * c + i) / 4 = c := by lia
  have hmod : (4 * c + i) % 4 = 0 + i := by lia
  rw [Fat32.fatBlob, if_pos (by lia), hdiv, hmod, Image.ofList]

/-- A byte of a copy of the FAT. -/
theorem partition_fat {copy : Nat} (hfits : s.clusters + 2 ≤ 128 * s.fatSectors) (hcopy : copy < 2) (hp : p < 512 * s.fatSectors) :
    s.partition T (512 * (32 + copy * s.fatSectors) + p) = s.fatBlob p := by
  have hlen : s.fatBlobLen = 512 * s.fatSectors := by
    unfold Fat32.fatBlobLen
    lia
  have hcopies : copy = 0 ∨ copy = 1 := by lia
  rw [Fat32.partition, List.range_succ, List.range_one, List.foldl_append, List.foldl_cons, List.foldl_cons, List.foldl_nil, List.foldl_nil, hlen]
  rcases hcopies with rfl | rfl
  · rw [Image.overlay_out (.inl (by unfold Fat32.dataStart; lia)), Image.overlay_out (.inl (by lia)), Image.overlay_in hp]
  · rw [Image.overlay_out (.inl (by unfold Fat32.dataStart; lia)), Image.overlay_in hp]

theorem shows_partition {copy : Nat} (hsum : T = 32 + 2 * s.fatSectors + s.clusters) (hfits : s.clusters + 2 ≤ 128 * s.fatSectors)
    (hfew : s.clusters ≤ 0x0FFFFFF5) (hcopy : copy < 2) : (espVolume T s.fatSectors).Shows (s.partition T) copy s where
  count := espVolume_count hsum
  few := hfew
  next := fun c hc => by
    have hslice : (s.partition T).slice (512 * (32 + copy * s.fatSectors) + 4 * c) 4 = bytesLE 4 (s.fat c) := by
      refine (Image.slice_congr fun i hi => ?_).trans (slice_fatBlob hc)
      rw [Nat.add_assoc]
      exact partition_fat hfits hcopy (by lia)
    rw [FatVolume.next, espVolume]
    dsimp only
    rw [ Image.number, hslice, valueLE_bytesLE, Nat.mod_mod_of_dvd _ (by decide)]
  cluster := fun c hlow hc => by
    rw [FatVolume.cluster, FatVolume.dataStart, FatVolume.clusterBytes, espVolume]
    dsimp only
    rw [Nat.one_mul]
    refine Image.slice_congr fun i hi => ?_
    have hoff : 512 * (32 + 2 * s.fatSectors) + 512 * (c - 2) + i = 512 * s.dataStart + (512 * (c - 2) + i) := by
      unfold Fat32.dataStart
      lia
    rw [hoff]
    exact Image.overlay_in (by lia)

end Partition

end MiniOs32
