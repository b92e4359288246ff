import MiniOs32.Tools.Mkesp

/-!
# What `build_dir` leaves

A directory that is entered takes clusters from `next_free` on. Its files are written at once, its subdirectories have an empty cluster each
until they are built themselves; what is built later writes to these and to new clusters, and to no other.
-/

namespace MiniOs32

namespace Fat32

/-! ## Clusters -/

/-- A cluster is the same in two states: its entry in `fat` and its bytes. -/
def SameAt (s s' : Fat32) (c : Nat) : Prop := s'.fat c = s.fat c ∧ ∀ j < 512, s'.data (512 * (c - 2) + j) = s.data (512 * (c - 2) + j)

theorem SameAt.refl (s : Fat32) (c : Nat) : s.SameAt s c := ⟨rfl, fun _ _ => rfl⟩

theorem SameAt.trans {s s' s'' : Fat32} {c : Nat} (h : s.SameAt s' c) (h' : s'.SameAt s'' c) : s.SameAt s'' c :=
  ⟨h'.1.trans h.1, fun j hj => (h'.2 j hj).trans (h.2 j hj)⟩

/-- `next_free` is a cluster or past the last one, and no byte from it on is written. -/
structure Free (s : Fat32) : Prop where
  low : 2 ≤ s.nextFree
  high : s.nextFree ≤ s.clusters + 2
  zeros : ∀ p, 512 * (s.nextFree - 2) ≤ p → s.data p = 0#8

/-- From one state to another only clusters of a list and new ones are written. -/
structure Later (s s' : Fat32) (cs : List Nat) : Prop where
  clusters : s'.clusters = s.clusters
  fatSectors : s'.fatSectors = s.fatSectors
  next : s.nextFree ≤ s'.nextFree
  free : s'.Free
  same : ∀ c, 2 ≤ c → c < s.nextFree → c ∉ cs → s.SameAt s' c
  fat : ∀ c < s.nextFree, s'.fat c = s.fat c

section Later

variable {s s' s'' : Fat32} {cs ds : List Nat}

theorem Later.refl (h : s.Free) : s.Later s cs := ⟨rfl, rfl, le_rfl, h, fun c _ _ _ => .refl s c, fun _ _ => rfl⟩

theorem Later.trans (h : s.Later s' cs) (h' : s'.Later s'' ds) (hds : ∀ d ∈ ds, d < s.nextFree → d ∈ cs) : s.Later s'' cs where
  clusters := h'.clusters.trans h.clusters
  fatSectors := h'.fatSectors.trans h.fatSectors
  next := h.next.trans h'.next
  free := h'.free
  same := fun c hc hlt hn => (h.same c hc hlt hn).trans (h'.same c hc (hlt.trans_le h.next) fun hd => hn (hds c hd hlt))
  fat := fun c hc => (h'.fat c (hc.trans_le h.next)).trans (h.fat c hc)

theorem Later.mono (h : s.Later s' cs) (hsub : ∀ c ∈ cs, c ∈ ds) : s.Later s' ds :=
  ⟨h.clusters, h.fatSectors, h.next, h.free, fun c hc hlt hn => h.same c hc hlt fun hm => hn (hsub c hm), h.fat⟩

end Later

/-! ## Chains -/

/-- The entries of a chain that is linked: each has the next cluster, the last one the mark of the end. -/
theorem linkChain_apply (fat : Nat → Nat) (first n c : Nat) :
    linkChain fat first n c = if first ≤ c ∧ c < first + n then (if c - first = n - 1 then 0x0FFFFFFF else c + 1) else fat c := by
  have hloop : ∀ k, (List.range k).foldl (fun fat i => Function.update fat (first + i) (if i = n - 1 then 0x0FFFFFFF else first + i + 1)) fat c =
      if first ≤ c ∧ c < first + k then (if c - first = n - 1 then 0x0FFFFFFF else c + 1) else fat c := by
    intro k
    induction k with
    | zero => exact (if_neg (by omega)).symm
    | succ k ih =>
      rw [List.range_succ, List.foldl_append, List.foldl_cons, List.foldl_nil]
      by_cases hk : c = first + k
      · subst hk
        have hin : first ≤ first + k ∧ first + k < first + (k + 1) := by omega
        rw [Function.update_self, if_pos hin, Nat.add_sub_cancel_left]
      · rw [Function.update_of_ne hk, ih]
        exact if_congr (by omega) rfl rfl
  exact hloop n

theorem clustersFor_bounds (n : Nat) : 1 ≤ clustersFor n ∧ n ≤ 512 * clustersFor n := by
  unfold clustersFor
  omega

/-- A file is in a chain of clusters. -/
structure FileAt (s : Fat32) (c : Nat) (bs : List Byte) : Prop where
  low : 2 ≤ c
  high : c + clustersFor bs.length ≤ s.clusters + 2
  fat : ∀ i < clustersFor bs.length, s.fat (c + i) = if i = clustersFor bs.length - 1 then 0x0FFFFFFF else c + i + 1
  data : s.data.slice (512 * (c - 2)) bs.length = bs

/-- A directory is in a cluster. -/
structure DirAt (s : Fat32) (c : Nat) (es : List (List Byte)) : Prop where
  low : 2 ≤ c
  high : c < s.clusters + 2
  fat : s.fat c = 0x0FFFFFFF
  room : es.flatten.length ≤ 512
  data : s.data.slice (512 * (c - 2)) 512 = es.flatten ++ List.replicate (512 - es.flatten.length) 0#8

/-- A cluster for a directory that is not built yet. -/
structure EmptyAt (s : Fat32) (c : Nat) : Prop where
  low : 2 ≤ c
  high : c < s.clusters + 2
  fat : s.fat c = 0x0FFFFFFF
  data : ∀ j < 512, s.data (512 * (c - 2) + j) = 0#8

section Same

variable {s s' : Fat32} {c : Nat} {bs : List Byte} {es : List (List Byte)}

theorem FileAt.congr (h : s.FileAt c bs) (hc : s'.clusters = s.clusters)
    (hsame : ∀ d, c ≤ d → d < c + clustersFor bs.length → s.SameAt s' d) : s'.FileAt c bs where
  low := h.low
  high := hc ▸ h.high
  fat := fun i hi => (hsame (c + i) (by lia) (by lia)).1.trans (h.fat i hi)
  data := by
    have hlow := h.low
    have hbounds := clustersFor_bounds bs.length
    refine (Image.slice_congr fun i hi => ?_).trans h.data
    have hat := (hsame (c + i / 512) (by lia) (by lia)).2 (i % 512) (by lia)
    have hoff : 512 * (c + i / 512 - 2) + i % 512 = 512 * (c - 2) + i := by lia
    rwa [hoff] at hat

theorem EmptyAt.congr (h : s.EmptyAt c) (hc : s'.clusters = s.clusters) (hsame : s.SameAt s' c) : s'.EmptyAt c where
  low := h.low
  high := hc ▸ h.high
  fat := hsame.1.trans h.fat
  data := fun j hj => (hsame.2 j hj).trans (h.data j hj)

theorem DirAt.congr (h : s.DirAt c es) (hc : s'.clusters = s.clusters) (hsame : s.SameAt s' c) : s'.DirAt c es where
  low := h.low
  high := hc ▸ h.high
  fat := hsame.1.trans h.fat
  room := h.room
  data := (Image.slice_congr fun i hi => hsame.2 i hi).trans h.data

end Same

/-! ## Steps -/

section Steps

variable {s s' : Fat32} {c n p : Nat} {bs : List Byte} {es : List (List Byte)}

theorem written_in (h : p < bs.length) : (s.writeClusterData c bs).data (512 * (c - 2) + p) = Image.ofList bs p := Image.overlay_in h

theorem written_out (h : p < 512 * (c - 2) ∨ 512 * (c - 2) + bs.length ≤ p) : (s.writeClusterData c bs).data p = s.data p :=
  Image.overlay_out h

theorem allocChain_eq (h : s.allocChain n = some (c, s')) : c = s.nextFree ∧ s.nextFree + clustersFor n ≤ s.clusters + 2 ∧
    s' = { s with fat := linkChain s.fat s.nextFree (clustersFor n), nextFree := s.nextFree + clustersFor n } := by
  rw [allocChain] at h
  split at h
  · cases h
  · obtain ⟨rfl, rfl⟩ := Prod.mk.inj (Option.some.inj h)
    exact ⟨rfl, by omega, rfl⟩

theorem allocChain_later (hs : s.Free) (h : s.allocChain n = some (c, s')) : s.Later s' [] := by
  obtain ⟨-, hroom, rfl⟩ := allocChain_eq h
  have hlow := hs.low
  have hfat : ∀ d < s.nextFree, linkChain s.fat s.nextFree (clustersFor n) d = s.fat d := fun d hd => by
    rw [linkChain_apply, if_neg (by omega)]
  have hzeros : ∀ p, 512 * (s.nextFree + clustersFor n - 2) ≤ p → s.data p = 0#8 := fun p hp => hs.zeros p (by omega)
  exact ⟨rfl, rfl, Nat.le_add_right _ _, ⟨hlow.trans (Nat.le_add_right _ _), hroom, hzeros⟩, fun d _ hd _ => ⟨hfat d hd, fun _ _ => rfl⟩, hfat⟩

/-- A file that is written to a new chain. -/
theorem writeFile (hs : s.Free) (h : s.allocChain bs.length = some (c, s')) :
    s.Later (s'.writeClusterData c bs) [] ∧ (s'.writeClusterData c bs).FileAt c bs ∧ c = s.nextFree ∧
      (s'.writeClusterData c bs).nextFree = s.nextFree + clustersFor bs.length := by
  have hlater := allocChain_later hs h
  obtain ⟨rfl, hroom, hs'⟩ := allocChain_eq h
  have hlow := hs.low
  have hbounds := clustersFor_bounds bs.length
  have hnext : s'.nextFree = s.nextFree + clustersFor bs.length := by rw [hs']
  have hout : ∀ p, p < 512 * (s.nextFree - 2) ∨ 512 * (s'.nextFree - 2) ≤ p → (s'.writeClusterData s.nextFree bs).data p = s'.data p :=
    fun p hp => written_out (by lia)
  refine ⟨⟨hlater.clusters, hlater.fatSectors, hlater.next, ⟨hlater.free.low, hlater.free.high, fun p hp => ?_⟩, fun d hd hlt hn => ⟨?_, fun j hj => ?_⟩,
    hlater.fat⟩, ⟨hlow, ?_, fun i hi => ?_, ?_⟩, rfl, hnext⟩
  · rw [hout p (.inr hp)]
    exact hlater.free.zeros p hp
  · exact hlater.fat d hlt
  · rw [hout _ (.inl (by lia))]
    exact (hlater.same d hd hlt hn).2 j hj
  · exact hlater.clusters ▸ hroom
  · have hfat : (s'.writeClusterData s.nextFree bs).fat = linkChain s.fat s.nextFree (clustersFor bs.length) := by rw [hs']; rfl
    rw [hfat, linkChain_apply, if_pos (by lia), Nat.add_sub_cancel_left]
  · refine (Image.slice_congr fun i hi => ?_).trans (Image.slice_ofList bs)
    rw [Nat.zero_add]
    exact written_in hi

/-- A new cluster for a directory. -/
theorem allocDir (hs : s.Free) (h : s.allocChain 512 = some (c, s')) :
    s.Later s' [] ∧ s'.EmptyAt c ∧ c = s.nextFree ∧ s'.nextFree = s.nextFree + 1 := by
  have hlater := allocChain_later hs h
  obtain ⟨rfl, hroom, hs'⟩ := allocChain_eq h
  have hone : clustersFor 512 = 1 := rfl
  rw [hone] at hroom hs'
  have hlow := hs.low
  refine ⟨hlater, ⟨hlow, ?_, ?_, fun j _ => ?_⟩, rfl, by rw [hs']⟩
  · rw [hlater.clusters]
    omega
  · rw [hs']
    dsimp only
    rw [linkChain_apply, if_pos (by omega), Nat.sub_self, if_pos rfl]
  · rw [hs']
    exact hs.zeros _ (Nat.le_add_right _ _)

/-- A block that is written to the empty cluster of a directory. -/
theorem writeBlock (hs : s.Free) (hc : s.EmptyAt c) (hlt : c < s.nextFree) (hroom : es.flatten.length ≤ 512) :
    s.Later (s.writeClusterData c es.flatten) [c] ∧ (s.writeClusterData c es.flatten).DirAt c es := by
  have hlow := hc.low
  have hout : ∀ d, 2 ≤ d → d ≠ c → ∀ j < 512, (s.writeClusterData c es.flatten).data (512 * (d - 2) + j) = s.data (512 * (d - 2) + j) :=
    fun d hd hne j hj => written_out (by lia)
  refine ⟨⟨rfl, rfl, le_rfl, ⟨hs.low, hs.high, fun p hp => ?_⟩, fun d hd _ hn => ⟨rfl, hout d hd fun heq => hn (heq ▸ List.mem_singleton_self d)⟩,
    fun _ _ => rfl⟩, ⟨hlow, hc.high, hc.fat, hroom, ?_⟩⟩
  · have hp' : 512 * (s.nextFree - 2) ≤ p := hp
    exact (written_out (.inr (by lia))).trans (hs.zeros p hp')
  · exact Image.slice_eq_append_zeros hroom (fun i hi => written_in hi) fun i hi h =>
      (written_out (.inr (by lia))).trans (hc.data i h)

end Steps

end Fat32

end MiniOs32
