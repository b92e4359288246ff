import MiniOs32.Theorems.HandleIsolation
import MiniOs32.Theorems.HandlePath

/-!
# Files and handles that hold a content

The content of a closed file is on the disk, in the run of its entry; that of a write handle is on the disk up to the sector it
has buffered. Both keep their content while nothing reaches their sectors, and a handle's content grows by what is appended.
-/

namespace MiniOs32

/-! ## What a call leaves on the disk -/

/-- The disk after some work that reached no data sector outside a set. -/
structure Disk.KeepsData (d d' : Disk) (touched : Set Nat) : Prop where
  ram : d'.ram = d.ram
  rdSectors : d'.rdSectors = d.rdSectors
  bytes : ∀ l, l ∉ touched → fsDataLba ≤ l → d.OnMedium l 1 → ∀ i < 512, d'.byteAt l i = d.byteAt l i

theorem Disk.KeepsData.refl (d : Disk) (touched : Set Nat) : d.KeepsData d touched := ⟨rfl, rfl, fun _ _ _ _ _ _ => rfl⟩

theorem Disk.KeepsData.limit {d d' : Disk} {touched : Set Nat} (h : d.KeepsData d' touched) : d'.limit = d.limit := by
  simp only [Disk.limit, h.ram, h.rdSectors]

theorem Disk.KeepsData.onMedium {d d' : Disk} {touched : Set Nat} (h : d.KeepsData d' touched) {l n : Nat} (hl : d.OnMedium l n) :
    d'.OnMedium l n := by
  rw [Disk.OnMedium, h.limit]
  exact hl

theorem Disk.KeepsData.trans {a b c : Disk} {touched : Set Nat} (h : a.KeepsData b touched) (h' : b.KeepsData c touched) :
    a.KeepsData c touched :=
  ⟨h'.ram.trans h.ram, h'.rdSectors.trans h.rdSectors, fun l hl hd hm i hi =>
    (h'.bytes l hl hd (h.onMedium hm) i hi).trans (h.bytes l hl hd hm i hi)⟩

/-- Reading keeps everything. -/
theorem Disk.KeepsData.readSectors (d : Disk) (lba n : U32) (touched : Set Nat) : d.KeepsData (d.readSectors lba n).1 touched := by
  unfold Disk.readSectors
  split
  · split
    · split
      · exact .refl d _
      · exact ⟨rfl, rfl, fun _ _ _ _ _ _ => rfl⟩
    · exact .refl d _
  · exact .refl d _

/-- A write of sectors on the medium reaches those. -/
theorem Disk.KeepsData.writeSectors (d : Disk) (who : Writer) {lba count : U32} (buf : Nat → Byte)
    (h : d.OnMedium lba.toNat count.toNat) :
    d.KeepsData (d.writeSectors who lba count buf) (Set.Ico lba.toNat (lba.toNat + count.toNat)) := by
  obtain ⟨hs, hb⟩ := d.writeSectors_byteAt who buf h
  refine ⟨hs.ram, hs.rdSectors, ?_⟩
  intro l hl _ hm i hi
  rw [hb l i hm hi]
  exact if_neg hl

/-- Writing the directory reaches no data sector. -/
theorem Disk.KeepsData.syncDir (k : Fs) (touched : Set Nat) : k.disk.KeepsData k.syncDir.disk touched := by
  obtain ⟨hs, hb⟩ := k.syncDir_byteAt
  refine ⟨hs.ram, hs.rdSectors, ?_⟩
  intro l _ hd hm i hi
  rw [hb l i hm hi]
  exact if_neg (by omega)

theorem Disk.KeepsData.mono {d d' : Disk} {s t : Set Nat} (h : d.KeepsData d' s) (hst : s ⊆ t) : d.KeepsData d' t :=
  ⟨h.ram, h.rdSectors, fun l hl => h.bytes l (fun hs => hl (hst hs))⟩

/-- `SYS_SYNC` writes to the drive only. -/
theorem Disk.KeepsData.sync (d : Disk) (status : U32) (touched : Set Nat) : d.KeepsData (d.sync status).1 touched := by
  unfold Disk.sync
  split
  · exact .refl d _
  · split
    · exact .refl d _
    · exact ⟨rfl, rfl, fun _ _ _ _ _ _ => rfl⟩

/-- The log of writes accounts for the bytes: a sector none of the new writes names keeps its bytes. -/
def Disk.Traced (d d' : Disk) : Prop :=
  d'.ram = d.ram ∧ d'.rdSectors = d.rdSectors ∧ ∃ ws, d'.writes = d.writes ++ ws ∧
    ∀ l, d.OnMedium l 1 → (∀ w ∈ ws, d.OnMedium w.lba.toNat w.count.toNat ∧ l ∉ w.sectors) →
      ∀ i < 512, d'.byteAt l i = d.byteAt l i

theorem Disk.Traced.refl (d : Disk) : d.Traced d := ⟨rfl, rfl, [], by simp, fun _ _ _ _ _ => rfl⟩

/-- A write is accounted for. -/
theorem Disk.Traced.writeSectors {d d' : Disk} (h : d.Traced d') (who : Writer) (lba count : U32) (buf : Nat → Byte) :
    d.Traced (d'.writeSectors who lba count buf) := by
  obtain ⟨hram, hrd, ws, hw, hb⟩ := h
  have hlim : d'.limit = d.limit := by simp only [Disk.limit, hram, hrd]
  by_cases hissued : (d'.writeSectors who lba count buf).writes = d'.writes ++ [⟨who, lba, count⟩]
  · have hsame : (d'.writeSectors who lba count buf).ram = d'.ram ∧ (d'.writeSectors who lba count buf).rdSectors = d'.rdSectors := by
      unfold Disk.writeSectors
      split
      · split <;> exact ⟨rfl, rfl⟩
      · exact ⟨rfl, rfl⟩
    refine ⟨hsame.1.trans hram, hsame.2.trans hrd, ws ++ [⟨who, lba, count⟩], by rw [hissued, hw, List.append_assoc], ?_⟩
    intro l hl hmem i hi
    obtain ⟨hon, hout⟩ := hmem ⟨who, lba, count⟩ (by simp)
    have hon' : d'.OnMedium lba.toNat count.toNat := by rw [Disk.OnMedium, hlim]; exact hon
    have hl' : d'.OnMedium l 1 := by rw [Disk.OnMedium, hlim]; exact hl
    rw [(d'.writeSectors_byteAt who buf hon').2 l i hl' hi]
    refine (if_neg hout).trans ?_
    exact hb l hl (fun w hw => hmem w (by simp [hw])) i hi
  · have hnone : d'.writeSectors who lba count buf = d' := by
      unfold Disk.writeSectors at hissued ⊢
      split
      · rename_i hr
        rw [if_pos hr] at hissued
        split
        · rename_i hok
          rw [if_pos hok] at hissued
          exact absurd rfl hissued
        · rfl
      · rename_i hr
        rw [if_neg hr] at hissued
        exact absurd rfl hissued
    rw [hnone]
    exact ⟨hram, hrd, ws, hw, hb⟩

/-- A read issues nothing. -/
theorem Disk.Traced.readSectors {d d' : Disk} (h : d.Traced d') (lba n : U32) : d.Traced (d'.readSectors lba n).1 := by
  unfold Disk.readSectors
  split
  · split
    · split <;> exact h
    · exact h
  · exact h

/-- Work accounted for whose writes lie in a set on the medium reaches that set only. -/
theorem Disk.Traced.keepsData {d d' : Disk} (h : d.Traced d') {s : Set Nat} {p : DiskWrite → Prop} (ha : d.Adds d' p)
    (hp : ∀ w, p w → d.OnMedium w.lba.toNat w.count.toNat ∧ w.sectors ⊆ s) : d.KeepsData d' s := by
  obtain ⟨hram, hrd, ws, hw, hb⟩ := h
  obtain ⟨-, ws', hw', hp'⟩ := ha
  obtain rfl : ws = ws' := List.append_cancel_left (hw.symm.trans hw')
  refine ⟨hram, hrd, ?_⟩
  intro l hl _ hm i hi
  refine hb l hm (fun w hmem => ?_) i hi
  obtain ⟨h1, h2⟩ := hp w (hp' w hmem)
  exact ⟨h1, fun hs => hl (h2 hs)⟩

/-- A handle's write in a region on the medium. -/
theorem handleIn_sectors {d : Disk} {f : OpenFile} (hok : f.WriterOk d.limit) {w : DiskWrite} (h : w.HandleIn f.region) :
    d.OnMedium w.lba.toNat w.count.toNat ∧ w.sectors ⊆ f.region := by
  obtain ⟨-, hcount, hmem⟩ := h
  have hone : w.count.toNat = 1 := by rw [hcount]; rfl
  have hdir : fsDirLba ≤ fsDataLba := by decide
  have hdata := hok.data
  rw [OpenFile.region, Set.mem_Ico] at hmem
  have hpos : 0 < f.size.toNat := by
    by_contra h0
    rw [sectorCount_eq_zero.2 (show f.size.toNat = 0 by lia)] at hmem
    lia
  have hroom := hok.room hpos
  refine ⟨⟨by lia, by lia⟩, ?_⟩
  intro l hl
  rw [DiskWrite.sectors, Set.mem_Ico, hone] at hl
  rw [OpenFile.region, Set.mem_Ico]
  lia

/-! ## Files and handles that hold their content -/

/-- The file in a slot holds a content. -/
structure Kernel.SlotHolds (k : Kernel) (j : Nat) (bs : List Byte) : Prop where
  live : (k.fs.dir.get j).live = true
  size : (k.fs.dir.get j).size.toNat = bs.length
  bytes : ∀ q < bs.length, k.fs.disk.byteAt ((k.fs.dir.get j).start.toNat + q / 512) (q % 512) = bs.getD q 0#8

/-- A write handle holds a content, the last sector of it in the buffer or everything on the disk. -/
structure OpenFile.HandleHolds (f : OpenFile) (d : Disk) (bs : List Byte) : Prop where
  size : f.size.toNat = bs.length
  stored : Holds f d (fun q => bs.getD q 0#8) bs.length ∨
    (f.sectorValid = false ∧ ∀ q < bs.length, d.byteAt (f.start.toNat + q / 512) (q % 512) = bs.getD q 0#8)

/-- The sector of a byte of a file with a run on the medium. -/
theorem sector_of_byte {d : Disk} {start n q : Nat} (hq : q < n) (hdata : fsDataLba ≤ start) (hroom : start + sectorCount n ≤ d.limit) :
    start + q / 512 < start + sectorCount n ∧ fsDataLba ≤ start + q / 512 ∧ d.OnMedium (start + q / 512) 1 := by
  have hdir : fsDirLba ≤ fsDataLba := by decide
  have hsec : q / 512 < sectorCount n := by unfold sectorCount; lia
  exact ⟨by lia, by lia, by lia, by lia⟩

/-- A file keeps its content while its run is not reached and its entry keeps its place and size. -/
theorem Kernel.SlotHolds.keep {k k' : Kernel} {j : Nat} {bs : List Byte} (h : k.SlotHolds j bs) (hd : DirOk k.fs.dir k.fs.disk.limit)
    {touched : Set Nat} (hk : k.fs.disk.KeepsData k'.fs.disk touched) (hlive : (k'.fs.dir.get j).live = true)
    (hstart : (k'.fs.dir.get j).start = (k.fs.dir.get j).start) (hsize : (k'.fs.dir.get j).size = (k.fs.dir.get j).size)
    (ht : Disjoint touched (k.fs.dir.get j).extent) : k'.SlotHolds j bs := by
  refine ⟨hlive, by rw [hsize, h.size], ?_⟩
  intro q hq
  obtain ⟨hdata, hroom⟩ := hd.data j h.live (by rw [h.size]; omega)
  obtain ⟨h1, h2, h3⟩ := sector_of_byte (q := q) (by rw [h.size]; exact hq) hdata hroom
  rw [hstart, ← h.bytes q hq]
  refine hk.bytes _ (fun hmem => ?_) h2 h3 _ (Nat.mod_lt _ (by decide))
  exact Set.disjoint_left.1 ht hmem ⟨Nat.le_add_right _ _, h1⟩

/-- A handle keeps its content while its region is not reached. -/
theorem OpenFile.HandleHolds.keep {f : OpenFile} {d d' : Disk} {bs : List Byte} (h : f.HandleHolds d bs) (hok : f.WriterOk d.limit)
    {touched : Set Nat} (hk : d.KeepsData d' touched) (ht : Disjoint touched f.region) : f.HandleHolds d' bs := by
  have hbyte : ∀ q < bs.length, d'.byteAt (f.start.toNat + q / 512) (q % 512) = d.byteAt (f.start.toNat + q / 512) (q % 512) := by
    intro q hq
    have hroom := hok.room (by rw [h.size]; omega)
    obtain ⟨h1, h2, h3⟩ := sector_of_byte (q := q) (by rw [h.size]; exact hq) hok.data hroom
    refine hk.bytes _ (fun hmem => ?_) h2 h3 _ (Nat.mod_lt _ (by decide))
    exact Set.disjoint_left.1 ht hmem ⟨Nat.le_add_right _ _, h1⟩
  refine ⟨h.size, ?_⟩
  rcases h.stored with hs | ⟨hv, hb⟩
  · refine Or.inl { hs with whole := ?_ }
    intro i hi
    rw [hbyte i (by omega)]
    exact hs.whole i hi
  · exact Or.inr ⟨hv, fun q hq => (hbyte q hq).trans (hb q hq)⟩

/-- Writing the buffer out puts the whole content on the disk, in the handle's region. -/
theorem OpenFile.HandleHolds.flush {f : OpenFile} {d : Disk} {bs : List Byte} (h : f.HandleHolds d bs) (hok : f.WriterOk d.limit) :
    d.KeepsData (ofileFlush f d).2 f.region ∧
    ∀ q < bs.length, (ofileFlush f d).2.byteAt (f.start.toNat + q / 512) (q % 512) = bs.getD q 0#8 := by
  have htr : d.Traced (ofileFlush f d).2 :=
    ofileFlush_disk (P := fun e => d.Traced e) (fun e lba buf he => he.writeSectors .handle lba 1#32 buf) f (.refl d)
  have hk := htr.keepsData (ofileFlush_adds (d := d) hok.buffer) (fun w hw => handleIn_sectors hok hw)
  refine ⟨hk, ?_⟩
  rcases h.stored with hs | ⟨hv, hb⟩
  · have hdir : fsDirLba ≤ fsDataLba := by decide
    have hdata := hok.data
    refine (hs.flush fun hpos => ⟨by omega, ?_⟩).2
    rw [← h.size] at hpos ⊢
    exact hok.room hpos
  · have heq : ofileFlush f d = (f, d) := by simp [ofileFlush, hv]
    rw [heq]
    exact hb

/-- A handle just opened holds nothing. -/
theorem writeHandle_holds (idx : Nat) (start : U32) (d : Disk) : (writeHandle idx start).HandleHolds d [] :=
  ⟨rfl, Or.inr ⟨rfl, fun q hq => absurd hq (Nat.not_lt_zero q)⟩⟩

/-- Bytes appended through a handle are behind what it held; nothing before its region is reached. -/
theorem OpenFile.HandleHolds.fwrite {f : OpenFile} {d : Disk} {bs : List Byte} (h : f.HandleHolds d bs) (hw : f.Writing)
    (hok : f.WriterOk d.limit) (hpos : f.pos = f.size) (hbuf : f.pos.toNat % 512 ≠ 0 → f.sectorValid = true) {n : Nat}
    (src : Nat → Byte) (hroom : f.start.toNat + sectorCount (f.pos.toNat + n) ≤ d.limit) (hsmall : f.pos.toNat + n + 511 < 2 ^ 32) :
    (fwriteLoop n f d src n).1.HandleHolds (fwriteLoop n f d src n).2 (bs ++ (List.range n).map src) ∧
    d.KeepsData (fwriteLoop n f d src n).2 (fwriteLoop n f d src n).1.region := by
  have hp : f.pos.toNat = bs.length := by rw [hpos, h.size]
  set c : Nat → Byte := fun q => (bs ++ (List.range n).map src).getD q 0#8 with hc
  have hcl : ∀ q < bs.length, c q = bs.getD q 0#8 := by
    intro q hq
    rw [hc]
    dsimp only
    rw [List.getD_append _ _ _ _ hq]
  have hstart : Holds f d c bs.length := by
    rcases h.stored with hs | ⟨hv, hb⟩
    · refine { hs with whole := ?_, buffer := ?_ }
      · intro i hi
        rw [hcl i (by lia)]
        exact hs.whole i hi
      · intro hne
        obtain ⟨h1, h2, h3, h4⟩ := hs.buffer hne
        refine ⟨h1, h2, h3, ?_⟩
        intro j hj
        rw [hcl _ (by lia)]
        exact h4 j hj
    · have hzero : bs.length % 512 = 0 := by
        by_contra hne
        rw [← hp] at hne
        rw [hbuf hne] at hv
        cases hv
      refine ⟨hw, hp, h.size, ?_, fun _ => hv, fun hne => absurd hzero hne⟩
      intro i hi
      rw [hcl i (by lia)]
      exact hb i (by lia)
  have hdir : fsDirLba ≤ fsDataLba := by decide
  have hdata := hok.data
  have hsrc : ∀ i < n, src i = c (bs.length + i) := by
    intro i hi
    rw [hc]
    dsimp only
    rw [List.getD_append_right _ _ _ _ (by lia), Nat.add_sub_cancel_left]
    simp [List.getD_eq_getElem?_getD, hi]
  obtain ⟨hfin, -, -⟩ := fwriteLoop_holds (c := c) n f d src bs.length n (Nat.le_refl n) hstart
    (fun _ => ⟨by lia, by rw [← hp]; exact hroom⟩) hsrc (by lia)
  obtain ⟨hok', -, hadds⟩ := fwriteLoop_ok d.limit_le n f d src n hok (fun _ => hroom) hsmall
  have htr : d.Traced (fwriteLoop n f d src n).2 :=
    fwriteLoop_disk (P := fun e => d.Traced e) (fun e lba buf he => he.writeSectors .handle lba 1#32 buf)
      (fun e lba he => he.readSectors lba 1#32) n f src n (.refl d)
  have hlen : bs.length + n = (bs ++ (List.range n).map src).length := by simp
  rw [hlen] at hfin
  exact ⟨⟨hfin.size, Or.inl hfin⟩, htr.keepsData hadds (fun w hw => handleIn_sectors hok' hw)⟩

/-! ## Names -/

/-- No two live entries have names the comparison of sixteen characters takes for the same. -/
def NamesApart (d : Dir) : Prop :=
  ∀ i j, (d.get i).live = true → (d.get j).live = true → SameName ((d.get i).str.take 16) ((d.get j).str.take 16) → i = j

/-- The name a live entry carries finds it. -/
theorem NamesApart.find {d : Dir} (h : NamesApart d) {j : Nat} (hl : (d.get j).live = true) : fsFind d (d.get j).str = some j := by
  have hn : IsName (d.get j).str := isName_cstr _
  refine (fsFind_eq_some_iff d _ j).2 ⟨⟨hl, (nameEqCi_iff _ hn).2 rfl⟩, ?_⟩
  rintro i hi ⟨hil, hie⟩
  have := h i j hil hl ((nameEqCi_iff _ hn).1 hie)
  omega

/-- Giving one entry a name that no other live entry matches. -/
theorem NamesApart.set {d : Dir} (h : NamesApart d) {i : Nat} (hi : i < dirEntries) {e : Dirent}
    (he : e.live = true → ∀ j ≠ i, (d.get j).live = true → ¬SameName ((d.get j).str.take 16) (e.str.take 16)) :
    NamesApart (d.set i e) := by
  intro a b ha hb hab
  rw [d.get_set hi] at ha hab
  rw [d.get_set hi] at hb hab
  by_cases hai : a = i
  · by_cases hbi : b = i
    · rw [hai, hbi]
    · rw [if_pos hai] at ha hab
      rw [if_neg hbi] at hb hab
      exact absurd hab.symm (he ha b hbi hb)
  · rw [if_neg hai] at ha hab
    by_cases hbi : b = i
    · rw [if_pos hbi] at hb hab
      exact absurd hab (he hb a hai ha)
    · rw [if_neg hbi] at hb hab
      exact h a b ha hb hab

/-- A name put where a look-up of it leads meets no other entry. -/
theorem NamesApart.place {d : Dir} (h : NamesApart d) {name : List Byte} (hn : IsName name) {i : Nat}
    (hf : fsFind d name = some i ∨ fsFind d name = none) :
    ∀ j ≠ i, (d.get j).live = true → ¬SameName ((d.get j).str.take 16) (name.take 16) := by
  intro j hj hjl hsame
  rcases hf with hf | hf
  · have hm := ((fsFind_eq_some_iff d name i).1 hf).1
    have := (nameEqCi_iff _ hn).1 hm.2
    exact hj (h j i hjl hm.1 (hsame.trans this.symm))
  · have := (fsFind_eq_none_iff d name).1 hf j hjl
    rw [(nameEqCi_iff _ hn).2 hsame] at this
    cases this

end MiniOs32
