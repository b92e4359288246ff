import MiniOs32.Kernel.Store
import MiniOs32.Theorems.StoreConfined

/-!
# The store mirrors the RAM disk

After `store_init` the covered sectors, those below both sizes, hold the same bytes in the RAM disk and in the image on the
drive. `disk_write_sectors` copies into the RAM disk whatever fits the RAM disk, but writes through only what fits the declared
image as a whole, so a run that crosses the end of a smaller image changes covered sectors of the RAM disk alone.
-/

namespace MiniOs32

/-! ## Disk operations -/

/-- The operations that write: `disk_write_sectors`, and `SYS_SYNC` with an `nvme_write` that succeeds. -/
inductive DiskOp where
  | write (who : Writer) (lba count : U32) (buf : Nat → Byte)
  | sync

/-- One operation. -/
def Disk.op (d : Disk) : DiskOp → Disk
  | .write who lba count buf => d.writeSectors who lba count buf
  | .sync => (d.sync 0#32).1

/-- The sectors both copies hold. -/
def Disk.covered (d : Disk) : Nat := min d.store.fsSectors.toNat d.rdSectors.toNat

/-- The covered sectors of the RAM disk are those of the image on a drive. -/
def Disk.Mirrors (d : Disk) (med : Medium) : Prop :=
  ∀ s < d.covered, ∀ j < 512, d.bytes (s * 512 + j) = med (d.store.firstLba.toNat + 1 + s) j

/-- A write the RAM disk accepts does not wrap, and lies wholly below the end of the declared image or wholly behind it. -/
def OneSided (d : Disk) : DiskOp → Prop
  | .write _ lba count _ => d.rdRangeOk lba count = true → NoWrap lba count ∧
      (lba.toNat - fsDirLba + count.toNat ≤ d.store.fsSectors.toNat ∨ d.store.fsSectors.toNat ≤ lba.toNat - fsDirLba)
  | .sync => True

/-! ## The drive after a list of writes -/

@[simp] theorem Medium.after_nil (med : Medium) : med.after [] = med := rfl

@[simp] theorem Medium.after_append (med : Medium) (ws vs : List NvmeWrite) :
    med.after (ws ++ vs) = (med.after ws).after vs := List.foldl_append

@[simp] theorem Medium.after_singleton (med : Medium) (w : NvmeWrite) : med.after [w] = w.apply med := rfl

/-- A block no write reaches keeps its bytes. -/
theorem Medium.after_of_notMem (ws : List NvmeWrite) (med : Medium) (s : Nat)
    (h : ∀ w ∈ ws, ¬(w.lba.toNat ≤ s ∧ s < w.lba.toNat + w.count.toNat)) : med.after ws s = med s := by
  induction ws generalizing med with
  | nil => rfl
  | cons w ws ih =>
    have hw : w.apply med s = med s := by
      funext j
      exact if_neg (h w List.mem_cons_self)
    rw [← hw]
    exact ih (w.apply med) (fun v hv => h v (List.mem_cons_of_mem _ hv))

/-! ## The bound checks let the image through -/

/-- A run inside the image passes `store_lba_ok`. -/
theorem Store.lbaOk_of_inside {st : Store} (hr : st.ready = true) {off : Nat} {lba : U64} {count : U32}
    (hlba : lba.toNat = st.firstLba.toNat + 1 + off) (hpos : 0 < count.toNat)
    (hfit : off + count.toNat ≤ st.fsSectors.toNat) : st.lbaOk lba count = true := by
  have hroom := st.room hr
  have hlast := st.lastLba.isLt
  have hc := count.isLt
  have hne : count ≠ 0#32 := by
    intro h0
    rw [h0] at hpos
    exact absurd hpos (by decide)
  have hsum : (lba + count.setWidth 64 - 1#64).toNat = lba.toNat + count.toNat - 1 := by
    simp only [BitVec.toNat_sub, BitVec.toNat_add, BitVec.toNat_setWidth, BitVec.toNat_ofNat]
    lia
  simp only [Store.lbaOk, Bool.and_eq_true, Bool.not_eq_true', decide_eq_false_iff_not, BitVec.le_def, BitVec.lt_def, bne_iff_ne,
    hsum]
  exact ⟨⟨⟨hr, hne⟩, by lia⟩, by lia⟩

/-- The write-through of a run inside the image. -/
theorem Store.writeThrough_inside {st : Store} (hr : st.ready = true) {lba count : U32} (buf : Nat → Byte)
    (hdir : fsDirLba ≤ lba.toNat) (hpos : 0 < count.toNat) (hfit : lba.toNat - fsDirLba + count.toNat ≤ st.fsSectors.toNat) :
    ∃ t : U64, t.toNat = st.firstLba.toNat + 1 + (lba.toNat - fsDirLba) ∧
      st.writeThrough lba count buf = some ⟨t, count, buf⟩ := by
  have hoff := sub_fsDirLba_toNat hdir
  have hroom := st.room hr
  have hlast := st.lastLba.isLt
  have hfs := st.fsSectors.isLt
  have ht : (st.firstLba + 1#64 + (lba - BitVec.ofNat 32 fsDirLba).setWidth 64).toNat =
      st.firstLba.toNat + 1 + (lba.toNat - fsDirLba) := by
    simp only [BitVec.toNat_add, BitVec.toNat_setWidth, hoff, BitVec.toNat_ofNat]
    omega
  have hd : ¬lba < BitVec.ofNat 32 fsDirLba := BitVec.not_lt.2 (BitVec.le_def.2 hdir)
  have hf : ¬st.fsSectors < lba - BitVec.ofNat 32 fsDirLba + count := by
    rw [BitVec.lt_def, BitVec.toNat_add, hoff, Nat.mod_eq_of_lt (by omega)]
    omega
  refine ⟨_, ht, ?_⟩
  unfold Store.writeThrough
  rw [if_neg (by simp [hr, hd])]
  dsimp only
  rw [if_neg hf, if_pos (Store.lbaOk_of_inside hr ht hpos hfit)]

/-- Nothing is written through for a run behind the image. -/
theorem Store.writeThrough_behind {st : Store} {lba count : U32} (buf : Nat → Byte) (hdir : fsDirLba ≤ lba.toNat)
    (hw : lba.toNat - fsDirLba + count.toNat < 2 ^ 32) (hbehind : st.fsSectors.toNat ≤ lba.toNat - fsDirLba) :
    st.writeThrough lba count buf = none := by
  have hoff := sub_fsDirLba_toNat hdir
  unfold Store.writeThrough
  split
  · rfl
  · dsimp only
    split
    · rfl
    · rename_i hfit
      split
      · rename_i hok
        have hpos := Store.lbaOk_pos hok
        have hle := BitVec.le_def.1 (BitVec.not_lt.1 hfit)
        rw [BitVec.toNat_add, hoff, Nat.mod_eq_of_lt hw] at hle
        omega
      · rfl

/-! ## One operation -/

/-- What the mirror rests on: an armed store over a RAM disk, and a drive whose image is the covered part of the RAM disk. -/
structure Disk.Armed (d : Disk) (st : Store) (rd : U32) (med : Medium) : Prop where
  ram : d.ram = true
  store : d.store = st
  rdSectors : d.rdSectors = rd
  ready : st.ready = true
  mirrors : d.Mirrors (med.after d.nvmeWrites)
  confined : ∀ w ∈ d.nvmeWrites, st.Confines w

/-- The RAM disk's byte after a copy into it, by sector. -/
theorem Disk.ramCopyIn_sector {d : Disk} (hram : d.ram = true) (lba count : U32) (buf : Nat → Byte) (s j : Nat) (hj : j < 512) :
    d.ramCopyIn lba count buf (s * 512 + j) =
      if lba.toNat - fsDirLba ≤ s ∧ s < lba.toNat - fsDirLba + count.toNat then
        buf ((s - (lba.toNat - fsDirLba)) * 512 + j) else d.bytes (s * 512 + j) := by
  have haddr : d.addr lba.toNat = (lba.toNat - fsDirLba) * 512 := by simp [Disk.addr, hram]
  unfold Disk.ramCopyIn
  rw [haddr]
  by_cases hs : lba.toNat - fsDirLba ≤ s ∧ s < lba.toNat - fsDirLba + count.toNat
  · rw [if_pos (by omega), if_pos hs]
    exact congrArg buf (by omega)
  · rw [if_neg (by omega), if_neg hs]

/-- What `rd_range_ok` accepts without a wrapped sum lies inside the RAM disk. -/
theorem Disk.rdInside_of_rangeOk {d : Disk} {lba count : U32} (h : d.rdRangeOk lba count = true) (hw : NoWrap lba count) :
    d.rdInside lba count = true ∧ fsDirLba ≤ lba.toNat := by
  simp only [Disk.rdRangeOk, Bool.and_eq_true, Bool.not_eq_true', decide_eq_false_iff_not, decide_eq_true_eq,
    BitVec.not_lt] at h
  obtain ⟨⟨-, hdir⟩, hle⟩ := h
  replace hdir : fsDirLba ≤ lba.toNat := BitVec.le_def.1 hdir
  have hlt : lba.toNat - fsDirLba + count.toNat < 2 ^ 32 := hw.resolve_left (by omega)
  have hle := BitVec.le_def.1 hle
  rw [BitVec.toNat_add, sub_fsDirLba_toNat hdir, Nat.mod_eq_of_lt hlt] at hle
  simp only [Disk.rdInside, decide_eq_true_eq]
  exact ⟨⟨hdir, hle⟩, hdir⟩

/-- A one-sided write keeps the mirror. -/
theorem Disk.Armed.write {d : Disk} {st : Store} {rd : U32} {med : Medium} (h : d.Armed st rd med) (who : Writer)
    (lba count : U32) (buf : Nat → Byte) (hs : OneSided d (.write who lba count buf)) :
    (d.writeSectors who lba count buf).Armed st rd med := by
  have hkeep := h
  obtain ⟨hram, hst, hrd, hready, hmir, hconf⟩ := h
  unfold Disk.writeSectors
  rw [if_pos hram]
  by_cases hok : d.rdRangeOk lba count = true
  swap
  · rw [if_neg hok]
    exact hkeep
  rw [if_pos hok]
  obtain ⟨hw, hside⟩ := hs hok
  obtain ⟨hin, hdir⟩ := Disk.rdInside_of_rangeOk hok hw
  have hlt : lba.toNat - fsDirLba + count.toNat < 2 ^ 32 := hw.resolve_left (by lia)
  have hnew : ∀ w ∈ d.nvmeWrites ++ (d.store.writeThrough lba count buf).toList, st.Confines w := by
    intro w hmem
    rcases List.mem_append.1 hmem with hold | hnew
    · exact hconf w hold
    · exact hst ▸ Store.writeThrough_confines hw w hnew
  refine ⟨hram, hst, hrd, hready, ?_, hnew⟩
  intro s hs j hj
  replace hs : s < d.covered := hs
  have hold := hmir s hs j hj
  dsimp only
  rw [if_pos hin, Disk.ramCopyIn_sector hram _ _ _ _ _ hj, Medium.after_append]
  have hfs : s < d.store.fsSectors.toNat := lt_of_lt_of_le hs (Nat.min_le_left _ _)
  rcases hside with hbelow | hbehind
  · rcases Nat.eq_zero_or_pos count.toNat with hzero | hpos
    · -- an empty run: nothing is copied, and `store_lba_ok` refuses to write it through
      rw [if_neg (by lia), hold]
      cases hwt : d.store.writeThrough lba count buf with
      | none => rfl
      | some w =>
        have hc : w.count = count := by
          unfold Store.writeThrough at hwt
          split at hwt
          · cases hwt
          · dsimp only at hwt
            split at hwt
            · cases hwt
            · split at hwt
              · cases hwt; rfl
              · cases hwt
        rw [Option.toList_some, Medium.after_singleton]
        exact (if_neg (by rw [hc]; lia)).symm
    · obtain ⟨t, ht, hwt⟩ := Store.writeThrough_inside (hst ▸ hready) buf hdir hpos hbelow
      rw [hwt, Option.toList_some, Medium.after_singleton]
      unfold NvmeWrite.apply
      dsimp only
      rw [ht]
      by_cases hin : lba.toNat - fsDirLba ≤ s ∧ s < lba.toNat - fsDirLba + count.toNat
      · rw [if_pos hin, if_pos (by lia)]
        exact congrArg buf (by lia)
      · rw [if_neg hin, if_neg (by lia)]
        exact hold
  · rw [Store.writeThrough_behind buf hdir hlt hbehind, if_neg (by lia)]
    exact hold

/-- The number of sectors `SYS_SYNC` writes is the number of covered ones. -/
theorem Disk.syncSectors_toNat (d : Disk) : d.syncSectors.toNat = d.covered := by
  unfold Disk.syncSectors Disk.covered
  split
  · rename_i h
    exact (Nat.min_eq_left (Nat.le_of_lt (BitVec.lt_def.1 h))).symm
  · rename_i h
    exact (Nat.min_eq_right (BitVec.le_def.1 (BitVec.not_lt.1 h))).symm

/-- The first sector of the image, in exact arithmetic. -/
theorem Store.image_toNat {st : Store} (hr : st.ready = true) : (st.firstLba + 1#64).toNat = st.firstLba.toNat + 1 := by
  have hok := st.accepted hr
  have h1 := st.firstLba.isLt
  have h2 := st.lastLba.isLt
  simp only [storeEntryOk, Bool.and_eq_true, Bool.not_eq_true', decide_eq_false_iff_not, BitVec.le_def] at hok
  simp only [BitVec.toNat_add, BitVec.toNat_ofNat]
  lia

/-- `SYS_SYNC` keeps the mirror. -/
theorem Disk.Armed.sync {d : Disk} {st : Store} {rd : U32} {med : Medium} (h : d.Armed st rd med) :
    (d.sync 0#32).1.Armed st rd med := by
  have hconf : (d.sync 0#32).1.Confined := Disk.Confined.sync (fun w hw => h.store.symm ▸ h.confined w hw) 0#32
  unfold Disk.sync at hconf ⊢
  split
  · exact h
  · rename_i hr
    split
    · exact h
    · rename_i hok
      rw [if_neg hr, if_neg hok] at hconf
      obtain ⟨hram, hst, hrd, hready, hmir, -⟩ := h
      refine ⟨hram, hst, hrd, hready, ?_, fun w hw => hst ▸ hconf w hw⟩
      intro s hs j hj
      replace hs : s < d.covered := hs
      have himage := Store.image_toNat (hst ▸ hready : d.store.ready = true)
      dsimp only
      rw [Medium.after_append, Medium.after_singleton]
      unfold NvmeWrite.apply
      dsimp only
      rw [himage, d.syncSectors_toNat, if_pos (by omega)]
      exact congrArg d.bytes (by omega)

/-! ## Bringing the store up -/

/-- The number of sectors `store_init` loads is the number of covered ones. -/
theorem StoreFound.loadSectors_toNat (f : StoreFound) (rd : U32) :
    (f.loadSectors rd).toNat = min f.fsSectors.toNat rd.toNat := by
  unfold StoreFound.loadSectors
  split
  · rename_i h
    exact (Nat.min_eq_right (Nat.le_of_lt (BitVec.lt_def.1 h))).symm
  · rename_i h
    exact (Nat.min_eq_left (BitVec.le_def.1 (BitVec.not_lt.1 h))).symm

/-- The byte `store_init` loads, by sector. -/
theorem loadImageSectors_sector (med : Medium) (f : StoreFound) (n : U32) (bytes : Nat → Byte) (s j : Nat) (hs : s < n.toNat)
    (hj : j < 512) : loadImageSectors med f.firstLba n bytes (s * 512 + j) = med (f.firstLba.toNat + 1 + s) j := by
  have himage : (f.firstLba + 1#64).toNat = f.firstLba.toNat + 1 := by
    have hready : f.arm.ready = true := rfl
    exact Store.image_toNat hready
  have hdiv : (s * 512 + j) / 512 = s := by omega
  have hmod : (s * 512 + j) % 512 = j := by omega
  unfold loadImageSectors
  rw [if_pos (by omega), himage, hdiv, hmod]

/-- What `store_init` does when it arms the store. -/
theorem storeInit_ready {ni : NvmeInfo} {stack : Nat → Byte} {med : Medium} {d : Disk} (hnew : d.store.ready = false)
    (hok : (storeInit ni stack med d).2.store.ready = true) :
    ∃ f, storeScan ni stack med = .inr f ∧ d.ram = true ∧ ni.initOk = true ∧ f.loadSectors d.rdSectors ≠ 0#32 ∧
      storeInit ni stack med d = (.ok, d.bringUp med f) := by
  unfold storeInit at hok ⊢
  by_cases hram : d.ram = true
  · by_cases hinit : ni.initOk = true
    · cases hscan : storeScan ni stack med with
      | inl st => simp [hram, hinit, hscan, hnew] at hok
      | inr f =>
        by_cases hn : f.loadSectors d.rdSectors = 0#32
        · simp [hram, hinit, hscan, hn, hnew] at hok
        · exact ⟨f, rfl, hram, hinit, hn, by simp [hram, hinit, hn]⟩
    · simp [hram, hinit, hnew] at hok
  · simp [hram, hnew] at hok

/-- The disk `store_init` brings up mirrors the drive. -/
theorem Disk.Armed.bringUp {med : Medium} {d : Disk} (h0 : d.nvmeWrites = []) (f : StoreFound) (hram : d.ram = true) :
    (d.bringUp med f).Armed f.arm d.rdSectors med := by
  refine ⟨hram, rfl, rfl, rfl, ?_, ?_⟩
  · intro s hs j hj
    have hw : (d.bringUp med f).nvmeWrites = [] := h0
    rw [hw, Medium.after_nil]
    refine loadImageSectors_sector med f _ _ s j ?_ hj
    rw [f.loadSectors_toNat]
    exact hs
  · intro w hw
    have hw : w ∈ d.nvmeWrites := hw
    rw [h0] at hw
    cases hw

/-- One operation keeps the mirror when it is one-sided. -/
theorem Disk.Armed.op {st : Store} {rd : U32} {med : Medium} (d : Disk) (o : DiskOp) (h : d.Armed st rd med)
    (hs : OneSided d o) : (d.op o).Armed st rd med := by
  cases o with
  | write who lba count buf => exact h.write who lba count buf hs
  | sync => exact h.sync

/-! ## The next boot -/

/-- The blocks `store_scan` may read: the GPT header, the entry table, and the first block of every entry. -/
def ScanReads (stack : Nat → Byte) (med : Medium) (s : Nat) : Prop :=
  s = 1 ∨ ∃ g, readGpt (med 1) = some g ∧ ∃ i < g.entries.toNat,
    s = g.block i ∨ s = (u64At (g.entry (tableBuf stack (med (g.block i))) i) 32).toNat

/-- Entry `i + 1` is in the table block of entry `i` unless a block starts with it. -/
theorem Gpt.block_succ {g : Gpt} {i : Nat} (h : (i + 1) % g.perSector ≠ 0) : g.block (i + 1) = g.block i := by
  have hdvd : ¬g.perSector ∣ i + 1 := fun hd => h (Nat.mod_eq_zero_of_dvd hd)
  unfold Gpt.block
  rw [Nat.succ_div, if_neg hdvd, Nat.add_zero]

/-- The walk over the entries finds the same on two drives that agree where it reads. -/
theorem scanEntries_congr {stack : Nat → Byte} {med med' : Medium} {g : Gpt} (n : Nat) : ∀ (i : Nat) (tbl : Nat → Byte),
    (∀ k, i ≤ k → k < i + n → med' (g.block k) = med (g.block k)) →
    (∀ k, i ≤ k → k < i + n →
      let first := (u64At (g.entry (tableBuf stack (med (g.block k))) k) 32).toNat
      med' first = med first) →
    (i % g.perSector ≠ 0 → tbl = tableBuf stack (med (g.block i))) →
    scanEntries stack med' g n i tbl = scanEntries stack med g n i tbl := by
  -- the buffer holds the block of the current entry, whichever iteration read it
  induction n with
  | zero => intros; rfl
  | succ n ih =>
    intro i tbl hblock hfirst htbl
    have hi : med' (g.block i) = med (g.block i) := hblock i (Nat.le_refl i) (by omega)
    have hbuf : (if i % g.perSector = 0 then tableBuf stack (med (g.block i)) else tbl) =
        tableBuf stack (med (g.block i)) := by
      split
      · rfl
      · rename_i hne
        exact htbl hne
    have hrest := ih (i + 1) (tableBuf stack (med (g.block i))) (fun k h1 h2 => hblock k (by omega) (by omega))
      (fun k h1 h2 => hfirst k (by omega) (by omega)) (fun hne => by rw [Gpt.block_succ hne])
    have hf := hfirst i (Nat.le_refl i) (by omega)
    dsimp only at hf
    rw [scanEntries_step, scanEntries_step]
    dsimp only
    rw [hi, hbuf, hrest, hf]

/-- `store_scan` finds the same on two drives that agree on the blocks it reads. -/
theorem storeScan_congr {ni : NvmeInfo} {stack : Nat → Byte} {med med' : Medium}
    (h : ∀ s, ScanReads stack med s → med' s = med s) : storeScan ni stack med' = storeScan ni stack med := by
  unfold storeScan
  rw [h 1 (Or.inl rfl)]
  cases hg : readGpt (med 1) with
  | none => rfl
  | some g =>
    have hwalk : scanEntries stack med' g g.entries.toNat 0 (tableBuf stack stack) =
        scanEntries stack med g g.entries.toNat 0 (tableBuf stack stack) := scanEntries_congr g.entries.toNat 0 (tableBuf stack stack)
      (fun k _ hk => h _ (Or.inr ⟨g, hg, k, by omega, Or.inl rfl⟩))
      (fun k _ hk => h _ (Or.inr ⟨g, hg, k, by omega, Or.inr rfl⟩)) (fun hne => absurd (Nat.zero_mod _) hne)
    dsimp only
    rw [hwalk]

/-- No block `store_scan` reads lies in the image. -/
def ScanOutside (stack : Nat → Byte) (med : Medium) (f : StoreFound) : Prop :=
  ∀ s, ScanReads stack med s → s ≤ f.firstLba.toNat ∨ f.firstLba.toNat + f.fsSectors.toNat < s

/-- Writes confined to the image leave a scan that reads outside it as it was. -/
theorem storeScan_after {ni : NvmeInfo} {stack : Nat → Byte} {med : Medium} {f : StoreFound} {ws : List NvmeWrite}
    (hws : ∀ w ∈ ws, f.arm.Confines w) (hout : ScanOutside stack med f) :
    storeScan ni stack (med.after ws) = storeScan ni stack med := by
  refine storeScan_congr ?_
  intro s hs
  refine Medium.after_of_notMem ws med s ?_
  intro w hw hmem
  obtain ⟨h1, -, h3⟩ := hws w hw
  have hfirst : f.arm.firstLba = f.firstLba := rfl
  have hfs : f.arm.fsSectors = f.fsSectors := rfl
  rw [hfirst] at h1 h3
  rw [hfs] at h3
  rcases hout s hs with hle | hlt
  · omega
  · omega

/-- A later boot from the drive brings the covered sectors of the working copy back: whatever copy the loader took, and whatever
lies behind the table buffer, when `store_scan` reads no block of the image. -/
def Disk.Reloads (d : Disk) (ni : NvmeInfo) (f : StoreFound) (med : Medium) : Prop :=
  ∀ (stack : Nat → Byte) (boot : Disk), boot.ram = true → boot.rdSectors = d.rdSectors → storeScan ni stack med = .inr f →
    ScanOutside stack med f →
    (storeInit ni stack (med.after d.nvmeWrites) boot).2.store = d.store ∧
    ∀ s < d.covered, ∀ j < 512,
      (storeInit ni stack (med.after d.nvmeWrites) boot).2.bytes (s * 512 + j) = d.bytes (s * 512 + j)

/-- An armed disk is what the next boot reloads. -/
theorem Disk.Armed.reloads {d : Disk} {f : StoreFound} {rd : U32} {med : Medium} {ni : NvmeInfo} (h : d.Armed f.arm rd med)
    (hinit : ni.initOk = true) (hn : f.loadSectors rd ≠ 0#32) : d.Reloads ni f med := by
  intro stack boot hram hrd hscan hout
  have hagain : storeScan ni stack (med.after d.nvmeWrites) = .inr f := by rw [storeScan_after h.confined hout, hscan]
  have hboot : boot.rdSectors = rd := hrd.trans h.rdSectors
  have heq : storeInit ni stack (med.after d.nvmeWrites) boot = (.ok, boot.bringUp (med.after d.nvmeWrites) f) := by
    unfold storeInit
    simp [hram, hinit, hagain, hboot, hn]
  rw [heq]
  refine ⟨h.store.symm, ?_⟩
  intro s hs j hj
  have hcov : s < (f.loadSectors boot.rdSectors).toNat := by
    rw [f.loadSectors_toNat, hrd]
    have harm : d.store.fsSectors = f.fsSectors := by rw [h.store]; rfl
    rw [← harm]
    exact hs
  have hmir := h.mirrors s hs j hj
  have harm : d.store.firstLba = f.firstLba := by rw [h.store]; rfl
  rw [hmir, harm]
  exact loadImageSectors_sector (med.after d.nvmeWrites) f _ _ s j hcov hj

/-! ## Whole runs -/

/-- After `store_init` has succeeded, and along every run of disk writes and syncs in which no write the RAM disk accepts wraps or
crosses the end of the declared image, the covered sectors are the same in the RAM disk and on the drive, and the next boot
reloads them. -/
theorem store_mirrors_of_oneSided (ni : NvmeInfo) (stack : Nat → Byte) (med : Medium) (d : Disk) (ops : List DiskOp)
    (hnew : d.store.ready = false) (h0 : d.nvmeWrites = []) (hok : (storeInit ni stack med d).2.store.ready = true)
    (hm : Meets Disk.op OneSided (storeInit ni stack med d).2 ops) :
    let e := runFrom Disk.op (storeInit ni stack med d).2 ops
    e.Mirrors (med.after e.nvmeWrites) ∧ ∃ f, storeScan ni stack med = .inr f ∧ e.Reloads ni f med := by
  obtain ⟨f, hscan, hram, hinit, hn, heq⟩ := storeInit_ready hnew hok
  rw [heq] at hm ⊢
  have harmed := inv_runFrom (fun e => e.Armed f.arm d.rdSectors med) Disk.Armed.op
    (Disk.Armed.bringUp h0 f hram) hm
  exact ⟨harmed.mirrors, f, hscan, harmed.reloads hinit hn⟩

/-- A drive with one partition, blocks 3 to 67, that carries a header for an image of 64 sectors of zeros. -/
def smallDrive : Medium := fun s j =>
  if s = 1 then
    if j < 8 then (asciiBytes "EFI PART").getD j 0#8
    else if j = 72 then 2#8 else if j = 80 then 1#8 else if j = 84 then 128#8 else 0#8
  else if s = 2 then if j = 0 then 1#8 else if j = 32 then 3#8 else if j = 40 then 67#8 else 0#8
  else if s = 3 then (le32 storeMagic0 ++ le32 storeMagic1 ++ le32 storeVersion ++ le32 64#32).getD j 0#8
  else 0#8

/-- A controller with 512-byte blocks. -/
def plainNvme : NvmeInfo := ⟨true, true, 512#32⟩

/-- A RAM disk of 65 sectors, one more than the image. -/
def widerDisk : Disk := Disk.blank 65#32 (by decide)

/-- The run rule at work: the last covered sector is written, then everything is synced. -/
theorem store_mirrors_of_oneSided_last :
    let d := (storeInit plainNvme (fun _ => 0#8) smallDrive widerDisk).2
    let ops := [DiskOp.write .handle 200#32 1#32 (fun _ => 7#8), DiskOp.sync]
    Meets Disk.op OneSided d ops ∧ (runFrom Disk.op d ops).Mirrors (smallDrive.after (runFrom Disk.op d ops).nvmeWrites) := by
  have hok : (storeInit plainNvme (fun _ => 0#8) smallDrive widerDisk).2.store.ready = true := by decide
  have hm : Meets Disk.op OneSided (storeInit plainNvme (fun _ => 0#8) smallDrive widerDisk).2
      [DiskOp.write .handle 200#32 1#32 (fun _ => 7#8), DiskOp.sync] :=
    ⟨fun _ => ⟨noWrap_one 200#32, Or.inl (by decide)⟩, trivial, trivial⟩
  exact ⟨hm, (store_mirrors_of_oneSided _ _ _ _ _ rfl rfl hok hm).1⟩

/-- A write of the last covered sector together with the one behind it reaches the RAM disk only. -/
theorem store_mirrors_false :
    ¬∀ (ni : NvmeInfo) (stack : Nat → Byte) (med : Medium) (d : Disk) (ops : List DiskOp), d.store.ready = false →
      d.nvmeWrites = [] → (storeInit ni stack med d).2.store.ready = true →
      let e := runFrom Disk.op (storeInit ni stack med d).2 ops
      e.Mirrors (med.after e.nvmeWrites) := by
  intro h
  have hok : (storeInit plainNvme (fun _ => 0#8) smallDrive widerDisk).2.store.ready = true := by decide
  have hm := h plainNvme (fun _ => 0#8) smallDrive widerDisk [DiskOp.write .save 200#32 2#32 (fun _ => 7#8)] rfl rfl hok
  have hbyte := hm 63 (by decide) 0 (by decide)
  revert hbyte
  decide

end MiniOs32
