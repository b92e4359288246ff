import MiniOs32.Lemmas.EspEntries
import MiniOs32.Lemmas.EspStored

/-!
# A stored tree read back

A volume that shows the entries of `fat` and the bytes of the clusters as they are gives back the chains, the files and the directories.
-/

namespace MiniOs32

/-- A volume shows the FAT and the clusters. -/
structure FatVolume.Shows (v : FatVolume) (m : Image) (copy : Nat) (s : Fat32) : Prop where
  count : v.count = s.clusters
  few : s.clusters ≤ 0x0FFFFFF5
  next : ∀ c < s.clusters + 2, v.next m copy c = s.fat c % 2 ^ 28
  cluster : ∀ c, 2 ≤ c → c < s.clusters + 2 → v.cluster m c = s.data.slice (512 * (c - 2)) 512

namespace FatVolume

section Shows

variable {v : FatVolume} {m : Image} {copy : Nat} {s : Fat32} {c n fuel : Nat} {bs : List Byte} {es : List (List Byte)}

/-- A chain is read to its end. -/
theorem Shows.chain (h : v.Shows m copy s) (hc : 2 ≤ c) (hend : c + (n + 1) ≤ s.clusters + 2)
    (hfat : ∀ i < n + 1, s.fat (c + i) = if i = n then 0x0FFFFFFF else c + i + 1) (hfuel : n < fuel) :
    v.chain m copy fuel c = some (List.range' c (n + 1)) := by
  induction n generalizing c fuel with
  | zero =>
    obtain ⟨fuel, rfl⟩ : ∃ k, fuel = k + 1 := ⟨fuel - 1, by lia⟩
    have hlast := hfat 0 (by lia)
    rw [if_pos rfl, Nat.add_zero] at hlast
    have hnext : 0x0FFFFFF8 ≤ v.next m copy c := by
      rw [h.next c (by lia), hlast]
      decide
    rw [FatVolume.chain, if_neg (by rw [h.count]; lia), if_pos hnext]
    rfl
  | succ n ih =>
    obtain ⟨fuel, rfl⟩ : ∃ k, fuel = k + 1 := ⟨fuel - 1, by lia⟩
    have hfew := h.few
    have hfirst := hfat 0 (by lia)
    rw [if_neg (by lia), Nat.add_zero] at hfirst
    have hnext : v.next m copy c = c + 1 := by
      rw [h.next c (by lia), hfirst]
      exact Nat.mod_eq_of_lt (by lia)
    have hrest := @ih (c + 1) fuel (by lia) (by lia) (fun i hi => by
      have hat := hfat (i + 1) (by lia)
      have hplace : c + (i + 1) = c + 1 + i := by lia
      rw [hplace] at hat
      rw [hat]
      exact if_congr (by lia) rfl rfl) (by lia)
    rw [FatVolume.chain, if_neg (by rw [h.count]; lia), hnext, if_neg (by lia), hrest]
    rfl

/-- The bytes of clusters one behind the other. -/
theorem Shows.clusters (h : v.Shows m copy s) (hc : 2 ≤ c) (hend : c + n ≤ s.clusters + 2) :
    (List.range' c n).flatMap (v.cluster m) = s.data.slice (512 * (c - 2)) (512 * n) := by
  induction n generalizing c with
  | zero => rfl
  | succ n ih =>
    have hoff : 512 * (c + 1 - 2) = 512 * (c - 2) + 512 := by lia
    have hlen : 512 * (n + 1) = 512 + 512 * n := by lia
    rw [List.range'_succ, List.flatMap_cons, h.cluster c hc (by lia), ih (by lia) (by lia), hoff, hlen, Image.slice_add]

theorem Shows.chainBytes (h : v.Shows m copy s) (hc : 2 ≤ c) (hend : c + (n + 1) ≤ s.clusters + 2)
    (hfat : ∀ i < n + 1, s.fat (c + i) = if i = n then 0x0FFFFFFF else c + i + 1) :
    v.chainBytes m copy c = some (s.data.slice (512 * (c - 2)) (512 * (n + 1))) := by
  have hcount : n < v.count := by
    rw [h.count]
    omega
  rw [FatVolume.chainBytes, h.chain hc hend hfat hcount, Option.map_some, h.clusters hc hend]

/-- A file is read back. -/
theorem Shows.fileBytes (h : v.Shows m copy s) (hat : s.FileAt c bs) (name : List Byte) :
    v.fileBytes m copy ⟨name, false, c, bs.length⟩ = some bs := by
  obtain ⟨n, hn⟩ : ∃ n, Fat32.clustersFor bs.length = n + 1 := ⟨Fat32.clustersFor bs.length - 1, by
    have := Fat32.clustersFor_bounds bs.length
    omega⟩
  have hroom := (Fat32.clustersFor_bounds bs.length).2
  have hend := hat.high
  have hfat := hat.fat
  rw [hn] at hroom hend hfat
  rw [Nat.add_sub_cancel] at hfat
  rw [FatVolume.fileBytes]
  dsimp only
  by_cases hb : bs.length = 0
  · rw [if_pos hb, List.length_eq_zero_iff.mp hb]
  · rw [if_neg hb, h.chainBytes hat.low hend hfat, Option.bind_some, Image.length_slice, if_pos hroom, Image.take_slice hroom, hat.data]

/-- The block of a directory is read back. -/
theorem Shows.dirBytes (h : v.Shows m copy s) (hat : s.DirAt c es) :
    v.chainBytes m copy c = some (es.flatten ++ List.replicate (512 - es.flatten.length) 0#8) := by
  have hhigh := hat.high
  have hfat : ∀ i < 0 + 1, s.fat (c + i) = if i = 0 then 0x0FFFFFFF else c + i + 1 := by
    intro i hi
    obtain rfl : i = 0 := by omega
    rw [if_pos rfl]
    exact hat.fat
  rw [h.chainBytes hat.low (by omega) hfat, ← hat.data]

end Shows

end FatVolume

namespace Fat32

section Read

variable {v : FatVolume} {m : Image} {copy : Nat} {s : Fat32} {t : FileTree} {es : List (List Byte)}

/-- The entries of stored children are as long as they should be, and none is the end of its directory. -/
theorem Stored.entries (h : s.Stored t es) (hn : t.ShortNames) (hfew : s.clusters ≤ 0x0FFFFFF5) : ∀ e ∈ es, e.length = 32 ∧ e.head? ≠ some 0#8 := by
  induction h with
  | nil => exact nofun
  | empty he hrest ih =>
    have hentry := entryOf_entryFor hn.1 (by decide) rfl he
    exact List.forall_mem_cons.mpr ⟨⟨hentry.1, hentry.2.1⟩, ih hn.2⟩
  | file he hne hat hrest ih =>
    have hhigh := hat.high
    have hentry := entryOf_entryFor hn.1 (by omega) rfl he
    exact List.forall_mem_cons.mpr ⟨⟨hentry.1, hentry.2.1⟩, ih hn.2⟩
  | dir he hdots hat hsub hrest ihsub ih =>
    have hhigh := hat.high
    have hentry := entryOf_entryFor hn.1 (by omega) rfl he
    exact List.forall_mem_cons.mpr ⟨⟨hentry.1, hentry.2.1⟩, ih hn.2.2⟩

/-- The tree below a stored directory, given the one below its entries. -/
theorem DirAt.dirTree {c fuel : Nat} {dots : List (List Byte)} {u : FileTree} (hv : v.Shows m copy s) (hat : s.DirAt c (dots ++ es))
    (hdots : ∀ e ∈ dots, e.length = 32 ∧ e.head? ≠ some 0#8 ∧ FatVolume.entryOf e = none)
    (hes : ∀ e ∈ es, e.length = 32 ∧ e.head? ≠ some 0#8)
    (hu : v.entriesTree m copy (v.dirTree m copy fuel) (es.filterMap FatVolume.entryOf) = some u) : v.dirTree m copy (fuel + 1) c = some u := by
  have hall : ∀ e ∈ dots ++ es, e.length = 32 ∧ e.head? ≠ some 0#8 := by
    intro e he
    rcases List.mem_append.mp he with he | he
    · exact ⟨(hdots e he).1, (hdots e he).2.1⟩
    · exact hes e he
  have hnone : dots.filterMap FatVolume.entryOf = [] := List.filterMap_eq_nil_iff.mpr fun e he => (hdots e he).2.2
  rw [FatVolume.dirTree, hv.dirBytes hat, Option.bind_some, entriesOf_block hall hat.room, List.filterMap_append, hnone, List.nil_append, hu]

/-- Stored children are read back, with their names in upper case. -/
theorem Stored.read (h : s.Stored t es) (hn : t.ShortNames) (hv : v.Shows m copy s) : ∃ n, ∀ fuel ≥ n,
    v.entriesTree m copy (v.dirTree m copy fuel) (es.filterMap FatVolume.entryOf) = some (t.rename (List.map upper)) := by
  have hfew := hv.few
  induction h with
  | nil => exact ⟨0, fun _ _ => rfl⟩
  | empty he hrest ih =>
    obtain ⟨n, hrest'⟩ := ih hn.2
    have hentry := (entryOf_entryFor hn.1 (by decide) rfl he).2.2
    refine ⟨n, fun fuel hfuel => ?_⟩
    rw [List.filterMap_cons_some hentry, FatVolume.entriesTree, hrest' fuel hfuel]
    rfl
  | file he hne hat hrest ih =>
    obtain ⟨n, hrest'⟩ := ih hn.2
    have hhigh := hat.high
    have hentry := (entryOf_entryFor hn.1 (by lia) rfl he).2.2
    refine ⟨n, fun fuel hfuel => ?_⟩
    have hbytes := hv.fileBytes hat
    rw [List.filterMap_cons_some hentry, FatVolume.entriesTree, hrest' fuel hfuel]
    dsimp only
    rw [if_neg (by decide), show decide (0x20#8 &&& 0x10#8 ≠ 0#8) = false from rfl, hbytes]
    rfl
  | @dir x sub rest c parent dots e es es' he hdots hat hsub hrest ihsub ih =>
    obtain ⟨n, hrest'⟩ := ih hn.2.2
    obtain ⟨k, hsub'⟩ := ihsub hn.2.1
    have hhigh := hat.high
    have hentry := (entryOf_entryFor hn.1 (by lia) rfl he).2.2
    have hes := hsub.entries hn.2.1 hfew
    refine ⟨max n (k + 1), fun fuel hfuel => ?_⟩
    obtain ⟨fuel, rfl⟩ : ∃ f, fuel = f + 1 := ⟨fuel - 1, by lia⟩
    have hdir := hat.dirTree hv (entryOf_dotEntries hdots) hes (hsub' fuel (by lia))
    rw [List.filterMap_cons_some hentry, FatVolume.entriesTree, hrest' (fuel + 1) (by lia)]
    dsimp only
    rw [if_pos (by decide), hdir]
    rfl

end Read

end Fat32

end MiniOs32
