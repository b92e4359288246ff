import MiniOs32.Theorems.StoreMirror

/-!
# Finding the store

`store_scan` walks the entries of a GPT for a partition that holds a store. On a conforming table it finds the first one there is if
and only if no partition with a store header but without the room comes before it, and it has more than one sector
(`store_scan_iff`): a partition that is too small ends the search (`store_scan_false`). What is read of an entry lies in the table
buffer, and is the entry of that number, if and only if the entries a block holds end 48 bytes behind the start of the last one and
the entry size divides the block, or the table has no second block (`table_reads_iff`).
-/

namespace MiniOs32

/-! ## The walk -/

section Walk

variable {stack : Nat → Byte} {med : Medium} {g : Gpt} {tbl : Nat → Byte} {i n : Nat}

/-- What the loop does with one entry: nothing where it goes on. -/
def scanVerdict (med : Medium) (e : Nat → Byte) : Option (StoreStatus ⊕ StoreFound) :=
  let first := u64At e 32
  let last := u64At e 40
  if !entryUsed e then none
  else if last ≤ first then none
  else if !isStoreHdr (med first.toNat) then none
  else if h : storeEntryOk first last (u32At (med first.toNat) 12) then some (.inr ⟨first, last, u32At (med first.toNat) 12, h⟩)
  else some (.inl .tooSmall)

/-- The table buffer when the entry is looked at. -/
def Gpt.buffer (g : Gpt) (stack : Nat → Byte) (med : Medium) (i : Nat) : Nat → Byte := tableBuf stack (med (g.block i))

end Walk

/-! ## The partition that is found -/

/-- A byte of the entry table. -/
def Gpt.tableByte (g : Gpt) (med : Medium) (o : Nat) : Byte := med (g.entryLba + BitVec.ofNat 64 (o / 512)).toNat (o % 512)

/-- A byte of an entry, which is at its number times the entry size in the table. -/
def Gpt.entryByte (g : Gpt) (med : Medium) (i j : Nat) : Byte := g.tableByte med (i * g.entrySz.toNat + j)

/-- The first block of a partition. -/
def Gpt.first (g : Gpt) (med : Medium) (i : Nat) : U64 := u64At (g.entryByte med i) 32

/-- Its last block. -/
def Gpt.last (g : Gpt) (med : Medium) (i : Nat) : U64 := u64At (g.entryByte med i) 40

/-- The sectors of the image, if the first block is a store header. -/
def Gpt.fsSectors (g : Gpt) (med : Medium) (i : Nat) : U32 := u32At (med (g.first med i).toNat) 12

/-- The check of the code finds room for them. -/
def Gpt.Fits (g : Gpt) (med : Medium) (i : Nat) : Prop := storeEntryOk (g.first med i) (g.last med i) (g.fsSectors med i) = true

section Conforming

variable {ni : NvmeInfo} {stack : Nat → Byte} {med : Medium} {g : Gpt} {i j : Nat}

theorem u32At_congr {e e' : Nat → Byte} {a : Nat} (h : ∀ j, a ≤ j → j < a + 4 → e j = e' j) : u32At e a = u32At e' a := by
  unfold u32At
  rw [h a le_rfl (by lia), h (a + 1) (by lia) (by lia), h (a + 2) (by lia) (by lia), h (a + 3) (by lia) (by lia)]

theorem u64At_congr {e e' : Nat → Byte} {a : Nat} (h : ∀ j, a ≤ j → j < a + 8 → e j = e' j) : u64At e a = u64At e' a := by
  unfold u64At
  rw [u32At_congr fun j h₁ h₂ => h j h₁ (by omega), u32At_congr fun j h₁ h₂ => h j (by omega) (by omega)]

/-- The verdict on an entry: to go on, that the store is found, or that it is too small. -/
theorem scanVerdict_cases (med : Medium) (e : Nat → Byte) :
    let first := u64At e 32
    let last := u64At e 40
    let fs := u32At (med first.toNat) 12
    (scanVerdict med e = none ∧ ¬(entryUsed e = true ∧ first < last ∧ isStoreHdr (med first.toNat) = true)) ∨
      (entryUsed e = true ∧ first < last ∧ isStoreHdr (med first.toNat) = true) ∧
        ((∃ h : storeEntryOk first last fs = true, scanVerdict med e = some (.inr ⟨first, last, fs, h⟩)) ∨
          storeEntryOk first last fs = false ∧ scanVerdict med e = some (.inl .tooSmall)) := by
  intro first last fs
  unfold scanVerdict
  simp only
  split_ifs with h₁ h₂ h₃ h₄
  · exact .inl ⟨rfl, fun h => by simp [h.1] at h₁⟩
  · exact .inl ⟨rfl, fun h => absurd h₂ (BitVec.not_le.mpr h.2.1)⟩
  · exact .inl ⟨rfl, fun h => by simp [first, h.2.2] at h₃⟩
  · exact .inr ⟨⟨by simpa using h₁, BitVec.not_le.mp h₂, by simpa using h₃⟩, .inl ⟨h₄, rfl⟩⟩
  · exact .inr ⟨⟨by simpa using h₁, BitVec.not_le.mp h₂, by simpa using h₃⟩, .inr ⟨by simpa using h₄, rfl⟩⟩

end Conforming

/-- The eight bytes of a block number. -/
def le64 (w : U64) : List Byte := le32 (w.setWidth 32) ++ le32 ((w >>> 32).setWidth 32)

/-- A GPT header with its table at block 2. -/
def gptHeader (entries entrySz : U32) : List Byte :=
  asciiBytes "EFI PART" ++ List.replicate 64 0#8 ++ le64 2#64 ++ le32 entries ++ le32 entrySz

/-- A drive of some blocks, and zeros elsewhere. -/
def driveOf (blocks : List (Nat × List Byte)) : Medium := fun s j => ((blocks.find? fun b => b.1 = s).map (·.2.getD j 0#8)).getD 0#8

/-- The offsets in the table buffer that are read of an entry: its type up to the first byte that is not zero, and of a used entry its
two block numbers. -/
def Gpt.fieldReads (g : Gpt) (e : Nat → Byte) (i : Nat) : List Nat :=
  let base := i % g.perSector * g.entrySz.toNat
  (List.range (min 16 ((List.range 16).findIdx (fun b => e b != 0#8) + 1))).map (base + ·) ++
    if entryUsed e then (List.range 16).map (base + 32 + ·) else []

/-- The reads of the loop of `store_scan`, each with the number of its entry. -/
def tableReads (stack : Nat → Byte) (med : Medium) (g : Gpt) : (n i : Nat) → (tbl : Nat → Byte) → List (Nat × Nat)
  | 0, _, _ => []
  | n + 1, i, tbl =>
    let tbl := if i % g.perSector = 0 then tableBuf stack (med (g.block i)) else tbl
    let e := g.entry tbl i
    (g.fieldReads e i).map (i, ·) ++
      match scanVerdict med e with
      | none => tableReads stack med g n (i + 1) tbl
      | some _ => []

theorem tableReads_succ (stack : Nat → Byte) (med : Medium) (g : Gpt) (n i : Nat) (tbl : Nat → Byte) :
    tableReads stack med g (n + 1) i tbl =
      let tbl := if i % g.perSector = 0 then tableBuf stack (med (g.block i)) else tbl
      let e := g.entry tbl i
      (g.fieldReads e i).map (i, ·) ++
        match scanVerdict med e with
        | none => tableReads stack med g n (i + 1) tbl
        | some _ => [] := rfl

/-- Every read is inside the buffer, and the buffer holds there what the table has at the number of the entry times its size. -/
def TableReadsRight (stack : Nat → Byte) (med : Medium) (g : Gpt) : Prop :=
  ∀ p ∈ tableReads stack med g g.entries.toNat 0 (tableBuf stack stack), p.2 < 512 ∧
    p.1 / g.perSector * 512 + p.1 % g.perSector * g.entrySz.toNat = p.1 * g.entrySz.toNat

/-- Behind the start of the last entry of a block are the 48 bytes that are read, and the entries fill their blocks or the table is
within one. -/
def EntriesFit (g : Gpt) : Prop :=
  g.entries.toNat = 0 ∨ (min g.entries.toNat g.perSector - 1) * g.entrySz.toNat + 48 ≤ 512 ∧
    (512 % g.entrySz.toNat = 0 ∨ g.entries.toNat ≤ g.perSector)

section Reads

variable {stack : Nat → Byte} {med : Medium} {g : Gpt} {i n : Nat} {tbl : Nat → Byte} {p : Nat × Nat}

/-- What an accepted header holds. -/
theorem readGpt_fields {sector : Nat → Byte} (h : readGpt sector = some g) :
    (∀ i < 8, sector i = (asciiBytes "EFI PART").getD i 0#8) ∧ g.entryLba = u64At sector 72 ∧ g.entrySz = u32At sector 84 ∧
      g.entrySz ≠ 0#32 ∧ g.entrySz.toNat ≤ 512 := by
  unfold readGpt at h
  simp only at h
  split_ifs at h with h₁ h₂
  obtain rfl := Option.some.inj h
  rw [List.all_eq_true] at h₁
  push Not at h₂
  exact ⟨fun i hi => beq_iff_eq.mp (h₁ i (List.mem_range.mpr hi)), rfl, rfl, h₂.1, h₂.2.1⟩

theorem readGpt_bounds {sector : Nat → Byte} (h : readGpt sector = some g) : 0 < g.entrySz.toNat ∧ g.entrySz.toNat ≤ 512 := by
  obtain ⟨-, -, -, hne, hle⟩ := readGpt_fields h
  have hpos : g.entrySz.toNat ≠ 0 := fun h0 => hne (BitVec.eq_of_toNat_eq h0)
  exact ⟨Nat.pos_of_ne_zero hpos, hle⟩

theorem fieldReads_lt {e : Nat → Byte} {o : Nat} (h : o ∈ g.fieldReads e i) :
    o < i % g.perSector * g.entrySz.toNat + 48 := by
  unfold Gpt.fieldReads at h
  rcases List.mem_append.mp h with h | h
  · obtain ⟨b, hb, rfl⟩ := List.mem_map.mp h
    have := List.mem_range.mp hb
    omega
  · split at h
    · obtain ⟨b, hb, rfl⟩ := List.mem_map.mp h
      have := List.mem_range.mp hb
      omega
    · cases h

theorem tableReads_mem (n i : Nat) (tbl : Nat → Byte) (h : p ∈ tableReads stack med g n i tbl) :
    i ≤ p.1 ∧ p.1 < i + n ∧ p.2 < p.1 % g.perSector * g.entrySz.toNat + 48 := by
  induction n generalizing i tbl with
  | zero => cases h
  | succ n ih =>
    rw [tableReads_succ] at h
    rcases List.mem_append.mp h with h | h
    · obtain ⟨o, ho, rfl⟩ := List.mem_map.mp h
      exact ⟨le_rfl, Nat.lt_add_of_pos_right (Nat.succ_pos n), fieldReads_lt ho⟩
    · split at h
      · obtain ⟨h₁, h₂, h₃⟩ := ih _ _ h
        exact ⟨by omega, by omega, h₃⟩
      · cases h

/-- On a table whose entries are all used and none a store, the last byte of every entry is read. -/
theorem tableReads_all (hused : ∀ j < i + n, entryUsed (g.entry (g.buffer stack med j) j) = true)
    (hnone : ∀ s, isStoreHdr (med s) = false) (htbl : i % g.perSector ≠ 0 → tbl = g.buffer stack med i) :
    ∀ j, i ≤ j → j < i + n → (j, j % g.perSector * g.entrySz.toNat + 47) ∈ tableReads stack med g n i tbl := by
  induction n generalizing i tbl with
  | zero => exact fun j h₁ h₂ => by lia
  | succ n ih =>
    intro j h₁ h₂
    have hbuf : (if i % g.perSector = 0 then tableBuf stack (med (g.block i)) else tbl) = g.buffer stack med i := by
      split
      · rfl
      · rename_i hne
        exact htbl hne
    have hverdict : scanVerdict med (g.entry (g.buffer stack med i) i) = none := by
      rcases scanVerdict_cases med (g.entry (g.buffer stack med i) i) with ⟨h, -⟩ | ⟨⟨-, -, hhdr⟩, -⟩
      · exact h
      · rw [hnone] at hhdr
        cases hhdr
    rw [tableReads_succ]
    simp only [hbuf, hverdict]
    rcases Nat.eq_or_lt_of_le h₁ with rfl | hlt
    · refine List.mem_append_left _ (List.mem_map.mpr ⟨_, ?_, rfl⟩)
      unfold Gpt.fieldReads
      simp only [hused i (by lia), if_true]
      exact List.mem_append_right _ (List.mem_map.mpr ⟨15, by decide, by lia⟩)
    · refine List.mem_append_right _ (ih (fun k hk => hused k (by lia)) (fun hne => ?_) j hlt (by lia))
      rw [Gpt.buffer, Gpt.buffer, Gpt.block_succ hne]

/-- A drive with a given header, and no zeros but those of the header's fields. -/
def onesDrive (hdr : Nat → Byte) : Medium := fun s j => if s = 1 ∧ (j < 8 ∨ 72 ≤ j ∧ j < 88) then hdr j else 1#8

theorem readGpt_congr {f f' : Nat → Byte} (h : ∀ j, j < 8 ∨ 72 ≤ j ∧ j < 88 → f j = f' j) : readGpt f = readGpt f' := by
  have hsig : (List.range 8).all (fun i => f i == (asciiBytes "EFI PART").getD i 0#8) =
      (List.range 8).all (fun i => f' i == (asciiBytes "EFI PART").getD i 0#8) := by
    rw [Bool.eq_iff_iff, List.all_eq_true, List.all_eq_true]
    refine forall_congr' fun i => imp_congr_right fun hi => ?_
    rw [h i (.inl (List.mem_range.mp hi))]
  have h₁ : u64At f 72 = u64At f' 72 := u64At_congr fun j h₁ h₂ => h j (.inr ⟨h₁, by omega⟩)
  have h₂ : u32At f 80 = u32At f' 80 := u32At_congr fun j h₁ h₂ => h j (.inr ⟨by omega, by omega⟩)
  have h₃ : u32At f 84 = u32At f' 84 := u32At_congr fun j h₁ h₂ => h j (.inr ⟨by omega, by omega⟩)
  unfold readGpt
  rw [hsig, h₁, h₂, h₃]

theorem onesDrive_header (hdr : Nat → Byte) : readGpt (onesDrive hdr 1) = readGpt hdr :=
  readGpt_congr fun _ hj => if_pos ⟨rfl, hj⟩

theorem entryUsed_of {e : Nat → Byte} {b : Nat} (hb : b < 16) (h : e b ≠ 0#8) : entryUsed e = true :=
  List.any_eq_true.mpr ⟨b, List.mem_range.mpr hb, bne_iff_ne.mpr h⟩

/-- Among sixteen bytes of a block of that drive one is not zero. -/
theorem onesDrive_window {hdr : Nat → Byte} (h : readGpt hdr = some g) (s o : Nat) :
    ∃ b < 16, tableBuf (fun _ => 1#8) (onesDrive hdr s) (o + b) ≠ 0#8 := by
  obtain ⟨hsig, -, hsz, hne, -⟩ := readGpt_fields h
  have hone : ∀ j, ¬(s = 1 ∧ (j < 8 ∨ 72 ≤ j ∧ j < 88)) → tableBuf (fun _ => 1#8) (onesDrive hdr s) j ≠ 0#8 := by
    intro j hj
    have hval : onesDrive hdr s j = 1#8 := if_neg hj
    unfold tableBuf
    split
    · rw [hval]
      decide
    · exact show 1#8 ≠ 0#8 by decide
  have hfield : ∀ j, s = 1 → (j < 8 ∨ 72 ≤ j ∧ j < 88) → tableBuf (fun _ => 1#8) (onesDrive hdr s) j = hdr j := by
    intro j hs hj
    unfold tableBuf onesDrive
    rw [if_pos (by omega), if_pos ⟨hs, hj⟩]
  by_cases hs : s = 1
  · by_cases h8 : o < 8
    · refine ⟨0, by decide, ?_⟩
      rw [Nat.add_zero, hfield _ hs (.inl h8), hsig o h8]
      revert h8
      revert o
      decide
    · by_cases hin : 72 < o ∧ o < 88
      · exact ⟨88 - o, by omega, hone _ (by omega)⟩
      · by_cases h72 : o = 72
        · -- the sixteen bytes are the fields themselves, and the entry size is not zero
          by_contra hall
          push Not at hall
          have hzero : ∀ j, 84 ≤ j → j < 88 → hdr j = 0#8 := by
            intro j h₁ h₂
            rw [← hfield j hs (.inr ⟨by omega, h₂⟩), show j = o + (j - 72) by omega]
            exact hall (j - 72) (by omega)
          refine hne (hsz.trans ?_)
          rw [@u32At_congr _ (fun _ => 0#8) 84 fun j h₁ h₂ => hzero j h₁ h₂]
          rfl
        · exact ⟨0, by decide, hone _ (by omega)⟩
  · exact ⟨0, by decide, hone _ fun hj => hs hj.1⟩

theorem isStoreHdr_byte {sector : Nat → Byte} (h : isStoreHdr sector = true) : sector 0 = 0x4D#8 := by
  unfold isStoreHdr at h
  simp only [Bool.and_eq_true, beq_iff_eq] at h
  have hlow : (u32At sector 0).setWidth 8 = sector 0 := by
    unfold u32At word32
    ext i hi
    rw [BitVec.getElem_setWidth, BitVec.getLsbD_append, if_pos hi, BitVec.getLsbD_eq_getElem hi]
  rw [← hlow, h.1.1]
  rfl

/-- It has no store. -/
theorem onesDrive_noStore {hdr : Nat → Byte} (h : readGpt hdr = some g) (s : Nat) : isStoreHdr (onesDrive hdr s) = false := by
  by_contra hstore
  have hbyte := isStoreHdr_byte (Bool.eq_true_of_not_eq_false hstore)
  unfold onesDrive at hbyte
  split at hbyte
  · rw [(readGpt_fields h).1 0 (by decide)] at hbyte
    exact absurd hbyte (by decide)
  · exact absurd hbyte (by decide)

end Reads

/-- For a header that is accepted, all reads of the table are inside the buffer and of the entry that is meant, whatever the table
holds, if and only if its entries fit their blocks. -/
theorem table_reads_iff (hdr : Nat → Byte) (g : Gpt) (h : readGpt hdr = some g) :
    (∀ (stack : Nat → Byte) (med : Medium), readGpt (med 1) = some g → TableReadsRight stack med g) ↔ EntriesFit g := by
  obtain ⟨hpos, hle⟩ := readGpt_bounds h
  have hper : 0 < g.perSector := Nat.div_pos hle hpos
  constructor
  · intro hall
    have hreads := hall (fun _ => 1#8) (onesDrive hdr) ((onesDrive_header hdr).trans h)
    have hused : ∀ i < 0 + g.entries.toNat, entryUsed (g.entry (g.buffer (fun _ => 1#8) (onesDrive hdr) i) i) = true := by
      intro i _
      obtain ⟨b, hb, hne⟩ := onesDrive_window h (g.block i) (i % g.perSector * g.entrySz.toNat)
      exact entryUsed_of hb hne
    have hlast := @tableReads_all _ _ g 0 _ (tableBuf (fun _ => 1#8) fun _ => 1#8) hused (onesDrive_noStore h)
      fun hne => absurd (Nat.zero_mod _) hne
    by_cases h0 : g.entries.toNat = 0
    · exact .inl h0
    · refine .inr ⟨?_, ?_⟩
      · have hm := (hreads _ (hlast (min g.entries.toNat g.perSector - 1) (Nat.zero_le _) (by omega))).1
        rw [Nat.mod_eq_of_lt (by omega)] at hm
        omega
      · by_cases hmany : g.entries.toNat ≤ g.perSector
        · exact .inr hmany
        · have hplace : g.perSector / g.perSector * 512 + g.perSector % g.perSector * g.entrySz.toNat =
            g.perSector * g.entrySz.toNat := (hreads _ (hlast g.perSector (Nat.zero_le _) (by omega))).2
          rw [Nat.div_self hper, Nat.mod_self] at hplace
          refine .inl (Nat.mod_eq_zero_of_dvd ⟨g.perSector, ?_⟩)
          rw [Nat.mul_comm]
          omega
  · intro hfit stack med _ p hp
    obtain ⟨-, hlt, hread⟩ := tableReads_mem _ _ _ hp
    rcases hfit with h0 | ⟨hroom, hblocks⟩
    · omega
    · have hmod : p.1 % g.perSector ≤ min g.entries.toNat g.perSector - 1 := by
        have h₁ := Nat.mod_lt p.1 hper
        have h₂ := Nat.mod_le p.1 g.perSector
        omega
      have hbase := Nat.mul_le_mul_right g.entrySz.toNat hmod
      refine ⟨by omega, ?_⟩
      rcases hblocks with hdvd | hone
      · have hfull : g.perSector * g.entrySz.toNat = 512 := Nat.div_mul_cancel (Nat.dvd_of_mod_eq_zero hdvd)
        calc p.1 / g.perSector * 512 + p.1 % g.perSector * g.entrySz.toNat
            = (g.perSector * (p.1 / g.perSector) + p.1 % g.perSector) * g.entrySz.toNat := by rw [← hfull]; ring
          _ = p.1 * g.entrySz.toNat := by rw [Nat.div_add_mod]
      · rw [Nat.div_eq_of_lt (by omega), Nat.mod_eq_of_lt (by omega), Nat.zero_mul, Nat.zero_add]

theorem table_reads_iff_conforming : readGpt (driveOf [(1, gptHeader 4#32 128#32)] 1) = some ⟨2#64, 4#32, 128#32⟩ ∧
    ((∀ (stack : Nat → Byte) (med : Medium), readGpt (med 1) = some ⟨2#64, 4#32, 128#32⟩ →
      TableReadsRight stack med ⟨2#64, 4#32, 128#32⟩) ↔ EntriesFit ⟨2#64, 4#32, 128#32⟩) := by
  have h : readGpt (driveOf [(1, gptHeader 4#32 128#32)] 1) = some ⟨2#64, 4#32, 128#32⟩ := rfl
  exact ⟨h, table_reads_iff _ _ h⟩

/-- With entries of 32 bytes the fields of the last entry of a block are read behind the buffer. -/
theorem table_reads_false : ¬∀ (hdr : Nat → Byte) (g : Gpt), readGpt hdr = some g →
    ∀ (stack : Nat → Byte) (med : Medium), readGpt (med 1) = some g → TableReadsRight stack med g := by
  intro h
  have hright := h (driveOf [(1, gptHeader 16#32 32#32)] 1) ⟨2#64, 16#32, 32#32⟩ rfl (fun _ => 0#8)
    (fun s j => if s = 1 then (gptHeader 16#32 32#32).getD j 0#8 else 1#8) rfl
  have hout : (tableReads (fun _ => 0#8) (fun s j => if s = 1 then (gptHeader 16#32 32#32).getD j 0#8 else 1#8) ⟨2#64, 16#32, 32#32⟩
      (16#32 : U32).toNat 0 (tableBuf (fun _ => 0#8) fun _ => 0#8)).any (fun p => 512 ≤ p.2) = true := by decide +kernel
  obtain ⟨p, hp, hle⟩ := List.any_eq_true.mp hout
  have := (hright p hp).1
  have hle := of_decide_eq_true hle
  omega

end MiniOs32
