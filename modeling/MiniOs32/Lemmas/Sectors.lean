import MiniOs32.Lemmas.Extents

/-!
# What is on the disk

Reading and writing runs of sectors that lie on the medium, as statements about single bytes: both backends behave like one
array of sectors there. From them, what `fs_read` returns for an entry whose run lies on the medium.
-/

namespace MiniOs32

/-- Byte `i` of sector `lba`. -/
def Disk.byteAt (d : Disk) (lba i : Nat) : Byte := d.bytes (d.addr lba + i)

/-- A run of sectors on the medium. -/
def Disk.OnMedium (d : Disk) (lba count : Nat) : Prop := fsDirLba ≤ lba ∧ lba + count ≤ d.limit

/-- The same medium with the same accidents, whatever it holds. -/
structure Disk.SameMedium (d d' : Disk) : Prop where
  ram : d'.ram = d.ram
  rdSectors : d'.rdSectors = d.rdSectors
  wild : d'.wild = d.wild

theorem Disk.SameMedium.refl (d : Disk) : d.SameMedium d := ⟨rfl, rfl, rfl⟩

theorem Disk.SameMedium.trans {a b c : Disk} (h : a.SameMedium b) (h' : b.SameMedium c) : a.SameMedium c :=
  ⟨h'.ram.trans h.ram, h'.rdSectors.trans h.rdSectors, h'.wild.trans h.wild⟩

theorem Disk.SameMedium.limit {d d' : Disk} (h : d.SameMedium d') : d'.limit = d.limit := by
  simp only [Disk.limit, h.ram, h.rdSectors]

theorem Disk.SameMedium.onMedium {d d' : Disk} (h : d.SameMedium d') {lba count : Nat} (hm : d.OnMedium lba count) :
    d'.OnMedium lba count := by rw [Disk.OnMedium, h.limit]; exact hm

/-- A run on the medium has no more sectors than a word counts. -/
theorem Disk.OnMedium.lt {d : Disk} {lba count : Nat} (h : d.OnMedium lba count) : lba + count < 2 ^ 32 := by
  have h1 := d.limit_le
  have h2 : ataSectors = 2 ^ 28 := rfl
  have h3 := h.2
  omega

/-- On the medium, the range check of the RAM disk is exact. -/
theorem Disk.OnMedium.rd {d : Disk} (hr : d.ram = true) {lba count : U32} (h : d.OnMedium lba.toNat count.toNat) :
    d.rdRangeOk lba count = true ∧ d.rdInside lba count = true := by
  have hlt := h.lt
  have hlim : d.limit = fsDirLba + d.rdSectors.toNat := by simp [Disk.limit, hr]
  obtain ⟨h1, h2⟩ := h
  have hsub := sub_fsDirLba_toNat h1
  have hadd : (lba - BitVec.ofNat 32 fsDirLba + count).toNat = lba.toNat - fsDirLba + count.toNat := by
    rw [BitVec.toNat_add, hsub]
    exact Nat.mod_eq_of_lt (by omega)
  constructor
  · simp only [Disk.rdRangeOk, hr, Bool.true_and, Bool.and_eq_true, Bool.not_eq_true', decide_eq_false_iff_not, decide_eq_true_eq]
    exact ⟨BitVec.not_lt.2 (BitVec.le_def.2 h1), BitVec.le_def.2 (by omega)⟩
  · simp only [Disk.rdInside, decide_eq_true_eq]
    omega

/-- Bytes of different sectors are at different places of the medium. -/
theorem Disk.addr_eq {d : Disk} {l : Nat} (h : d.OnMedium l 1) :
    d.addr l = if d.ram then (l - fsDirLba) * 512 else l * 512 := by
  have h1 := d.limit_le
  have h2 := h.2
  unfold Disk.addr
  split
  · rfl
  · rw [Nat.mod_eq_of_lt (by omega)]

/-- Writing a run on the medium changes the bytes of its sectors only. -/
theorem Disk.writeSectors_byteAt (d : Disk) (who : Writer) {lba count : U32} (buf : Nat → Byte)
    (h : d.OnMedium lba.toNat count.toNat) :
    d.SameMedium (d.writeSectors who lba count buf) ∧ ∀ l i, d.OnMedium l 1 → i < 512 →
      (d.writeSectors who lba count buf).byteAt l i =
        if lba.toNat ≤ l ∧ l < lba.toNat + count.toNat then buf ((l - lba.toNat) * 512 + i) else d.byteAt l i := by
  have h2 := d.limit_le
  have hata : ataSectors = 2 ^ 28 := rfl
  cases hr : d.ram with
  | true =>
    obtain ⟨hok, hin⟩ := h.rd hr
    have heq : d.writeSectors who lba count buf = { d with
        bytes := d.ramCopyIn lba count buf, writes := d.writes ++ [⟨who, lba, count⟩]
        nvmeWrites := d.nvmeWrites ++ (d.store.writeThrough lba count buf).toList } := by
      simp [Disk.writeSectors, hr, hok, hin]
    rw [heq]
    refine ⟨⟨rfl, rfl, rfl⟩, fun l i hl hi => ?_⟩
    have h1 := h.1
    have hl1 := hl.1
    have haddr : d.addr l = (l - fsDirLba) * 512 := by rw [Disk.addr_eq hl, hr]; rfl
    have hstart : d.addr lba.toNat = (lba.toNat - fsDirLba) * 512 := by simp [Disk.addr, hr]
    change d.ramCopyIn lba count buf (d.addr l + i) = _
    rw [Disk.ramCopyIn, haddr, hstart]
    by_cases hc : lba.toNat ≤ l ∧ l < lba.toNat + count.toNat
    · rw [if_pos hc, if_pos (by lia)]
      refine congrArg buf ?_
      lia
    · rw [if_neg hc, if_neg (by lia), Disk.byteAt, haddr]
  | false =>
    have heq : d.writeSectors who lba count buf = { d with
        bytes := d.ataCopyIn lba count buf, writes := d.writes ++ [⟨who, lba, count⟩] } := by
      simp [Disk.writeSectors, hr]
    rw [heq]
    refine ⟨⟨rfl, rfl, rfl⟩, fun l i hl hi => ?_⟩
    have h1 := h.2
    have hl1 := hl.2
    have haddr : d.addr l = l * 512 := by rw [Disk.addr_eq hl, hr]; rfl
    change d.ataCopyIn lba count buf (d.addr l + i) = _
    have hdiv : (l * 512 + i) / 512 = l := by lia
    have hmod : (l * 512 + i) % 512 = i := by lia
    simp only [Disk.ataCopyIn, haddr, hdiv, hmod, Disk.byteAt]
    rcases Nat.eq_zero_or_pos count.toNat with h0 | h0
    · rw [if_neg (by lia), if_neg (by lia)]
    rw [Nat.mod_eq_of_lt (show lba.toNat < ataSectors by lia)]
    by_cases hc : lba.toNat ≤ l ∧ l < lba.toNat + count.toNat
    · have hs : (l + ataSectors - lba.toNat) % ataSectors = l - lba.toNat := by
        rw [show l + ataSectors - lba.toNat = l - lba.toNat + ataSectors by lia, Nat.add_mod_right]
        exact Nat.mod_eq_of_lt (by lia)
      rw [if_pos hc, hs, if_pos (by lia)]
    · rw [if_neg hc, if_neg]
      rintro ⟨-, hs⟩
      apply hc
      by_cases hle : lba.toNat ≤ l
      · rw [show l + ataSectors - lba.toNat = l - lba.toNat + ataSectors by lia, Nat.add_mod_right,
          Nat.mod_eq_of_lt (by lia)] at hs
        lia
      · rw [Nat.mod_eq_of_lt (by lia)] at hs
        lia

/-- Reading a run on the medium returns its bytes. -/
theorem Disk.readSectors_byteAt (d : Disk) {lba count : U32} (h : d.OnMedium lba.toNat count.toNat) :
    (d.readSectors lba count).1 = d ∧ ∀ i < count.toNat * 512,
      (d.readSectors lba count).2 i = d.byteAt (lba.toNat + i / 512) (i % 512) := by
  cases hr : d.ram with
  | true =>
    obtain ⟨hok, hin⟩ := h.rd hr
    have h1 := h.1
    refine ⟨by simp [Disk.readSectors, hr, hok, hin], fun i hi => ?_⟩
    simp only [Disk.readSectors, hr, hok, hin, if_true, Disk.byteAt, Disk.addr]
    refine congrArg d.bytes ?_
    lia
  | false => exact ⟨by simp [Disk.readSectors, hr], fun i _ => by simp [Disk.readSectors, hr, Disk.byteAt]⟩

/-- The directory sectors are on the medium. -/
theorem Disk.onMedium_dir (d : Disk) : d.OnMedium (BitVec.ofNat 32 fsDirLba).toNat (BitVec.ofNat 32 dirSectors).toNat := by
  refine ⟨Nat.le_refl _, ?_⟩
  unfold Disk.limit
  split
  · rename_i hr
    exact Nat.add_le_add_left (d.rdBound hr).1 fsDirLba
  · decide

/-- `fs_sync_dir` changes the directory sectors only. -/
theorem Fs.syncDir_byteAt (k : Fs) : k.disk.SameMedium k.syncDir.disk ∧ ∀ l i, k.disk.OnMedium l 1 → i < 512 →
    k.syncDir.disk.byteAt l i = if l < fsDataLba then k.dir.bytes.getD ((l - fsDirLba) * 512 + i) 0#8 else k.disk.byteAt l i := by
  obtain ⟨hs, hb⟩ := k.disk.writeSectors_byteAt .dir (fun i => k.dir.bytes.getD i 0#8) k.disk.onMedium_dir
  refine ⟨hs, fun l i hl hi => ?_⟩
  rw [Fs.syncDir, hb l i hl hi]
  have h1 := hl.1
  by_cases hlt : l < fsDataLba
  · rw [if_pos hlt, if_pos ⟨h1, hlt⟩]; rfl
  · rw [if_neg hlt, if_neg (fun hc => hlt hc.2)]

/-- `fs_read` of an entry whose run lies on the medium returns its size and its bytes, and changes nothing. -/
theorem Fs.read_spec (k : Fs) {name : List Byte} {max : U32} {idx : Nat} (hf : fsFind k.dir name = some idx)
    (hmax : ¬max < (k.dir.get idx).size)
    (hm : 0 < (k.dir.get idx).size.toNat →
      k.disk.OnMedium (k.dir.get idx).start.toNat (sectorCount (k.dir.get idx).size.toNat)) :
    ∃ data, k.read name max = (k, some ((k.dir.get idx).size, data)) ∧
      ∀ i < (k.dir.get idx).size.toNat, data i = k.disk.byteAt ((k.dir.get idx).start.toNat + i / 512) (i % 512) := by
  set e := k.dir.get idx with he
  have hfull : (e.size / 512#32).toNat = e.size.toNat / 512 := by simp
  have hrem : (e.size % 512#32).toNat = e.size.toNat % 512 := by simp
  have hsc : sectorCount e.size.toNat = e.size.toNat / 512 + if 0 < e.size.toNat % 512 then 1 else 0 := by
    unfold sectorCount; split <;> lia
  -- the whole sectors
  have h1 : ∃ b1, (if 0#32 < e.size / 512#32 then k.disk.readSectors e.start (e.size / 512#32) else (k.disk, fun _ => 0#8)) =
      (k.disk, b1) ∧ ∀ i < e.size.toNat / 512 * 512, b1 i = k.disk.byteAt (e.start.toNat + i / 512) (i % 512) := by
    split
    · rename_i hpos
      rw [BitVec.lt_def, hfull] at hpos
      have hpos' : 0 < e.size.toNat / 512 := hpos
      have hon : k.disk.OnMedium e.start.toNat (e.size / 512#32).toNat := by
        have := hm (by lia)
        rw [hfull]
        exact ⟨this.1, by have := this.2; lia⟩
      obtain ⟨hd, hb⟩ := k.disk.readSectors_byteAt hon
      exact ⟨_, Prod.ext hd rfl, fun i hi => hb i (by rw [hfull]; exact hi)⟩
    · rename_i hpos
      rw [BitVec.lt_def, hfull] at hpos
      have hpos' : ¬0 < e.size.toNat / 512 := hpos
      exact ⟨_, rfl, fun i hi => by lia⟩
  -- the last, partial sector
  have h2 : ∃ b2, (if 0#32 < e.size % 512#32 then k.disk.readSectors (e.start + e.size / 512#32) 1#32 else (k.disk, fun _ => 0#8)) =
      (k.disk, b2) ∧ (∀ i < e.size.toNat % 512, b2 i = k.disk.byteAt (e.start.toNat + e.size.toNat / 512) i) := by
    split
    · rename_i hpos
      rw [BitVec.lt_def, hrem] at hpos
      have hpos' : 0 < e.size.toNat % 512 := hpos
      rw [if_pos hpos'] at hsc
      have hon := hm (by lia)
      have hadd : (e.start + e.size / 512#32).toNat = e.start.toNat + e.size.toNat / 512 := by
        rw [BitVec.toNat_add, hfull]
        exact Nat.mod_eq_of_lt (by have := hon.lt; lia)
      have hon' : k.disk.OnMedium (e.start + e.size / 512#32).toNat (1#32).toNat := by
        rw [hadd]
        exact ⟨by have := hon.1; lia, by have := hon.2; rw [show (1#32).toNat = 1 from rfl]; lia⟩
      obtain ⟨hd, hb⟩ := k.disk.readSectors_byteAt hon'
      refine ⟨_, Prod.ext hd rfl, fun i hi => ?_⟩
      have hlt : e.size.toNat % 512 < 512 := Nat.mod_lt _ (by decide)
      refine (hb i (by rw [show (1#32).toNat = 1 from rfl]; lia)).trans ?_
      rw [hadd, Nat.div_eq_of_lt (by lia : i < 512), Nat.mod_eq_of_lt (by lia : i < 512), Nat.add_zero]
    · rename_i hpos
      rw [BitVec.lt_def, hrem] at hpos
      have hpos' : ¬0 < e.size.toNat % 512 := hpos
      exact ⟨_, rfl, fun i hi => by lia⟩
  obtain ⟨b1, hb1, hbytes1⟩ := h1
  obtain ⟨b2, hb2, hbytes2⟩ := h2
  refine ⟨fun i => if i < (e.size / 512#32).toNat * 512 then b1 i else b2 (i - (e.size / 512#32).toNat * 512), ?_, fun i hi => ?_⟩
  · simp only [Fs.read, hf, ← he, if_neg hmax, hb1, hb2]
  · dsimp only
    rw [hfull]
    split
    · rename_i hlt
      exact hbytes1 i hlt
    · rename_i hlt
      rw [hbytes2 _ (by lia)]
      have hdiv : i / 512 = e.size.toNat / 512 := by lia
      have hmod : i % 512 = i - e.size.toNat / 512 * 512 := by lia
      rw [hdiv, hmod]

/-! ## Finding the entry just written -/

/-- An entry put where a name was looked up, and carrying the name, is what the next look-up finds. -/
theorem fsFind_set {d : Dir} {name : List Byte} {i : Nat} (hi : i < dirEntries)
    (h : fsFind d name = some i ∨ fsFind d name = none) {e : Dirent} (hl : e.live = true) (he : nameEqCi e.name name = true) :
    fsFind (d.set i e) name = some i := by
  refine (fsFind_eq_some_iff _ _ _).2 ⟨by rw [Dir.get_set_self _ hi]; exact ⟨hl, he⟩, fun j hj => ?_⟩
  rw [Dir.get_set_ne _ (by omega)]
  rcases h with h | h
  · exact ((fsFind_eq_some_iff _ _ _).1 h).2 j hj
  · rintro ⟨hjl, hje⟩
    rw [(fsFind_eq_none_iff _ _).1 h j hjl] at hje
    cases hje

end MiniOs32
