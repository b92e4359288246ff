import MiniOs32.Lemmas.EspVolume

/-!
# The EFI system partition read back

The number of sectors for a FAT and the number of clusters depend on each other. The loop that finds them settles, but for two sizes out of
130, where it goes to and fro between one sector too few and enough; it stops at too few.
-/

namespace MiniOs32

/-! ## The property -/

/-- A volume is read back: its FAT has an entry for every cluster, its regions are apart and inside the partition, and below the root either
copy of the FAT gives the tree, with its names in upper case. -/
structure EspRight (partSectors : Nat) (tree : FileTree) (m : Image) (v : FatVolume) : Prop where
  boot : FatVolume.ofBoot m = some v
  total : v.total = partSectors
  fat : v.count + 2 ≤ v.fatEntries
  disjoint : v.regions.Pairwise fun r r' => r.1 + r.2 ≤ r'.1 ∨ r'.1 + r'.2 ≤ r.1
  inside : ∀ r ∈ v.regions, r.1 + r.2 ≤ partSectors
  reads : ∀ copy < v.fats, ∃ n, ∀ fuel ≥ n, v.dirTree m copy fuel v.root = some (tree.rename (List.map upper))

/-! ## The size of a FAT -/

section Sizes

variable {T : Int} {n : Nat}

theorem sizeTurns_snd (T : Int) (n : Nat) : (Fat32.sizeTurns T n).2 = T - 32 - 2 * (Fat32.sizeTurns T n).1 := by
  cases n with
  | zero => exact (sub_zero _).symm
  | succ n => rfl

/-- By how many entries the FAT is too large for the sectors it leaves, after some turns. -/
def sizeError (T : Int) (n : Nat) : Int := 130 * (Fat32.sizeTurns T n).1 - (T - 30)

/-- A turn divides the error by 64, with the other sign, and rounds up. -/
theorem sizeError_turn (T : Int) (n : Nat) :
    -2 * sizeError T n ≤ 128 * sizeError T (n + 1) ∧ 128 * sizeError T (n + 1) ≤ -2 * sizeError T n + 16510 := by
  have hturn : (Fat32.sizeTurns T (n + 1)).1 = (((Fat32.sizeTurns T n).2 + 2) * 4 + 512 - 1) / 512 := rfl
  rw [sizeTurns_snd] at hturn
  unfold sizeError
  rw [hturn]
  lia

/-- Eight turns leave less than three entries. -/
theorem sizeError_eight (h0 : 0 ≤ T) (hT : T < 2 ^ 32) : -2 ≤ sizeError T 8 ∧ sizeError T 8 ≤ 129 := by
  have hfirst : sizeError T 0 = -(T - 30) := by
    rw [sizeError, Fat32.sizeTurns, mul_zero, zero_sub]
  have h1 : -2 * sizeError T 0 ≤ 128 * sizeError T 1 ∧ 128 * sizeError T 1 ≤ -2 * sizeError T 0 + 16510 := sizeError_turn T 0
  have h2 : -2 * sizeError T 1 ≤ 128 * sizeError T 2 ∧ 128 * sizeError T 2 ≤ -2 * sizeError T 1 + 16510 := sizeError_turn T 1
  have h3 : -2 * sizeError T 2 ≤ 128 * sizeError T 3 ∧ 128 * sizeError T 3 ≤ -2 * sizeError T 2 + 16510 := sizeError_turn T 2
  have h4 : -2 * sizeError T 3 ≤ 128 * sizeError T 4 ∧ 128 * sizeError T 4 ≤ -2 * sizeError T 3 + 16510 := sizeError_turn T 3
  have h5 : -2 * sizeError T 4 ≤ 128 * sizeError T 5 ∧ 128 * sizeError T 5 ≤ -2 * sizeError T 4 + 16510 := sizeError_turn T 4
  have h6 : -2 * sizeError T 5 ≤ 128 * sizeError T 6 ∧ 128 * sizeError T 6 ≤ -2 * sizeError T 5 + 16510 := sizeError_turn T 5
  have h7 : -2 * sizeError T 6 ≤ 128 * sizeError T 7 ∧ 128 * sizeError T 7 ≤ -2 * sizeError T 6 + 16510 := sizeError_turn T 6
  have h8 : -2 * sizeError T 7 ≤ 128 * sizeError T 8 ∧ 128 * sizeError T 8 ≤ -2 * sizeError T 7 + 16510 := sizeError_turn T 7
  lia

/-- For two sizes out of 130 a FAT that is too small is too small again two turns later. -/
theorem sizeError_neg (hT : (T - 30) % 130 = 1 ∨ (T - 30) % 130 = 2) (hn : sizeError T n < 0) : sizeError T (n + 2) < 0 := by
  have h1 := sizeError_turn T n
  have h2 : _ ∧ 128 * sizeError T (n + 2) ≤ -2 * sizeError T (n + 1) + 16510 := sizeError_turn T (n + 1)
  unfold sizeError at *
  omega

/-- Where the FAT stays too small. -/
theorem sizeError_neg_iff (h0 : 30 < T) (hT : T < 2 ^ 32) : sizeError T 8 < 0 ↔ (T - 30) % 130 = 1 ∨ (T - 30) % 130 = 2 := by
  refine ⟨fun h => ?_, fun h => ?_⟩
  · have hlow := (sizeError_eight (by omega) hT).1
    unfold sizeError at h hlow
    omega
  · have hfirst : sizeError T 0 < 0 := by
      rw [sizeError, Fat32.sizeTurns]
      omega
    exact sizeError_neg h (sizeError_neg h (sizeError_neg h (sizeError_neg h hfirst)))

end Sizes

/-- The sectors that a partition of a FAT32 volume has at most. -/
def espSectorsMax : Nat := 272629781

/-- The loop for the sizes settles. -/
def SizesSettle (T : Nat) : Prop := (T - 30) % 130 ≠ 1 ∧ (T - 30) % 130 ≠ 2

instance (T : Nat) : Decidable (SizesSettle T) := inferInstanceAs (Decidable (_ ∧ _))

/-- The sizes of a volume in a partition. -/
structure FatSizes (T : Nat) (s : Fat32) : Prop where
  sum : T = 32 + 2 * s.fatSectors + s.clusters
  enough : 65525 ≤ s.clusters
  fits : s.clusters + 2 ≤ 128 * s.fatSectors ↔ SizesSettle T
  few : SizesSettle T → (s.clusters ≤ 0x0FFFFFF5 ↔ T ≤ espSectorsMax)

theorem FatSizes.congr {T : Nat} {s s' : Fat32} (h : FatSizes T s) (hf : s'.fatSectors = s.fatSectors) (hc : s'.clusters = s.clusters) :
    FatSizes T s' := by
  obtain ⟨hsum, henough, hfits, hfew⟩ := h
  rw [← hf, ← hc] at hsum hfits
  rw [← hc] at henough hfew
  exact ⟨hsum, henough, hfits, hfew⟩

theorem init_sizes {T : Nat} {s : Fat32} (hT : T < 2 ^ 32) (h : Fat32.init T = some s) : FatSizes T s ∧ s.nextFree = 2 ∧ s.data = Image.zeros := by
  rw [Fat32.init] at h
  have hsnd := sizeTurns_snd T 8
  split at h
  · cases h
  · next hc =>
    cases h
    have hlow := sizeError_eight (T := T) (by lia) (by lia)
    have hpos : (30 : Int) < T := by
      unfold sizeError at hlow
      lia
    have hiff := sizeError_neg_iff hpos (by lia)
    unfold sizeError at hiff hlow
    refine ⟨⟨?_, ?_, ?_, ?_⟩, rfl, rfl⟩
    · dsimp only
      lia
    · dsimp only
      lia
    · dsimp only [SizesSettle]
      lia
    · dsimp only [SizesSettle, espSectorsMax]
      lia

/-! ## The partition -/

section Mkesp

variable {T : Nat} {tree : FileTree} {m : Image} {s : Fat32}

theorem init_free (hT : T < 2 ^ 32) (h : Fat32.init T = some s) : s.Free := by
  obtain ⟨-, hnext, hdata⟩ := init_sizes hT h
  exact ⟨hnext.ge, by omega, fun p _ => congrFun hdata p⟩

/-- A partition holds its tree. -/
theorem mkesp_eq (h : mkesp T tree = some m) :
    ∃ s : Fat32, m = s.partition T ∧ T < 2 ^ 32 ∧ FatSizes T s ∧ ∃ es, s.DirAt 2 es ∧ s.Stored tree es := by
  rw [mkesp] at h
  obtain ⟨s₀, h₀, h⟩ := Option.bind_eq_some_iff.mp h
  obtain ⟨⟨root, s₁⟩, h₁, h⟩ := Option.bind_eq_some_iff.mp h
  dsimp only at h
  split at h
  · cases h
  · next hroot =>
    obtain rfl : root = 2 := not_not.mp hroot
    obtain ⟨s, h₂, h⟩ := Option.bind_eq_some_iff.mp h
    split at h
    · cases h
    · next hT =>
      have hT : T < 2 ^ 32 := by omega
      obtain ⟨hlater₁, hempty, hfirst, hnext⟩ := Fat32.allocDir (init_free hT h₀) h₁
      obtain ⟨hlater₂, hstored⟩ := Fat32.buildRoot_stored hlater₁.free hempty (by omega) h₂
      have hsizes := (init_sizes hT h₀).1.congr (hlater₂.fatSectors.trans hlater₁.fatSectors) (hlater₂.clusters.trans hlater₁.clusters)
      exact ⟨s, (Option.some.inj h).symm, hT, hsizes, hstored⟩

/-- Sizes that settle, and not too many clusters: the partition is read back. -/
theorem right_of_sizes (hn : tree.ShortNames) (h : mkesp T tree = some m) (hmax : T ≤ espSectorsMax) (hsettle : SizesSettle T) :
    ∃ v, EspRight T tree m v := by
  obtain ⟨s, rfl, hT, ⟨hsum, henough, hfits, hfew⟩, es, hroot, hstored⟩ := mkesp_eq h
  replace hfits := hfits.mpr hsettle
  replace hfew := (hfew hsettle).mpr hmax
  have hcount : (espVolume T s.fatSectors).count = s.clusters := espVolume_count hsum
  refine ⟨espVolume T s.fatSectors, ?_, rfl, ?_, ?_, ?_, fun copy hcopy => ?_⟩
  · rw [ofBoot_partition hT (by lia), hcount, espVolume_dataStart, if_pos (by lia)]
  · rw [hcount, espVolume_fatEntries]
    exact hfits
  · rw [espVolume_regions hsum]
    simp only [List.pairwise_cons, List.forall_mem_cons, List.not_mem_nil, false_imp_iff, implies_true, List.Pairwise.nil, and_true]
    lia
  · rw [espVolume_regions hsum]
    simp only [List.forall_mem_cons, List.not_mem_nil, false_imp_iff, implies_true, and_true]
    lia
  · have hshows := shows_partition hsum hfits hfew hcopy
    obtain ⟨n, hread⟩ := hstored.read hn hshows
    refine ⟨n + 1, fun fuel hfuel => ?_⟩
    obtain ⟨fuel, rfl⟩ : ∃ f, fuel = f + 1 := ⟨fuel - 1, by lia⟩
    have hdir : s.DirAt 2 ([] ++ es) := hroot
    exact hdir.dirTree hshows nofun (hstored.entries hn hfew) (hread fuel (by lia))

/-- A partition that is read back has sizes that settle. -/
theorem sizes_of_right {v : FatVolume} (h : mkesp T tree = some m) (hv : EspRight T tree m v) : T ≤ espSectorsMax ∧ SizesSettle T := by
  obtain ⟨s, rfl, hT, ⟨hsum, henough, hfits, hfew⟩, -⟩ := mkesp_eq h
  have hboot := hv.boot
  rw [ofBoot_partition hT (by omega)] at hboot
  split at hboot
  · next hc =>
    obtain rfl := Option.some.inj hboot
    have hcount : (espVolume T s.fatSectors).count = s.clusters := espVolume_count hsum
    have hfat := hv.fat
    rw [hcount, espVolume_fatEntries] at hfat
    have hsettle := hfits.mp hfat
    rw [hcount] at hc
    exact ⟨(hfew hsettle).mp hc.2.2, hsettle⟩
  · cases hboot

/-- A partition is read back if and only if the loop for its sizes settles, and it has no more clusters than FAT32 can tell apart. -/
theorem esp_reads_back_iff (hn : tree.ShortNames) (h : mkesp T tree = some m) :
    (∃ v, EspRight T tree m v) ↔ T ≤ espSectorsMax ∧ SizesSettle T :=
  ⟨fun ⟨_, hv⟩ => sizes_of_right h hv, fun hs => right_of_sizes hn h hs.1 hs.2⟩

end Mkesp

/-- A file, and a directory in a directory with a file and an empty one. -/
def someTree : FileTree :=
  .dir (asciiBytes "EFI")
    (.dir (asciiBytes "BOOT") (.file (asciiBytes "BOOTX64.EFI") (asciiBytes "MZ") (.file (asciiBytes "empty") [] .nil)) .nil)
    (.file (asciiBytes "fs.bin") (List.replicate 700 0x55#8) .nil)

/-- The default size. -/
theorem esp_reads_back_default : ∃ m v, mkesp 94208 someTree = some m ∧ EspRight 94208 someTree m v := by
  have hsome : (mkesp 94208 someTree).isSome := by decide +kernel
  obtain ⟨m, hm⟩ := Option.isSome_iff_exists.mp hsome
  have hshort : someTree.ShortNames := by
    refine ⟨⟨asciiBytes "EFI", [], by decide⟩, ⟨⟨asciiBytes "BOOT", [], by decide⟩, ⟨⟨asciiBytes "BOOTX64", asciiBytes "EFI", by decide⟩,
      ⟨asciiBytes "empty", [], by decide⟩, trivial⟩, trivial⟩, ⟨asciiBytes "fs", asciiBytes "bin", by decide⟩, trivial⟩
  obtain ⟨v, hv⟩ := (esp_reads_back_iff hshort hm).mpr (by decide)
  exact ⟨m, v, hm, hv⟩

/-- 64MB: the FAT is two entries short. -/
theorem esp_reads_back_false : ∃ m, mkesp 131072 someTree = some m ∧ ¬∃ v, EspRight 131072 someTree m v := by
  have hsome : (mkesp 131072 someTree).isSome := by decide +kernel
  obtain ⟨m, hm⟩ := Option.isSome_iff_exists.mp hsome
  exact ⟨m, hm, fun ⟨v, hv⟩ => absurd (sizes_of_right hm hv).2 (by decide)⟩

end MiniOs32
