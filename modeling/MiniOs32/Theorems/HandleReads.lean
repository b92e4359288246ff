import MiniOs32.Lemmas.Steps
import MiniOs32.Theorems.HandleIsolation
import MiniOs32.Theorems.HandlePath

/-!
# Reading through a handle

`SYS_FREAD` fetches the sector of the position, keeps it in the handle's buffer and copies a piece at a time; `SYS_LOAD` reads
all whole sectors of the file in one run and the rest of it through a bounce buffer. As long as the entry and the sectors of
the file stay as they are, the buffer of a read handle holds what the disk holds and every `SYS_FREAD` returns the bytes of the
file at its position. On a RAM disk these are the bytes `SYS_LOAD` returns when the whole sectors of the file are all on the
disk or all off it: a run that reaches past the end is refused as a whole, while its single sectors are not.
-/

namespace MiniOs32

/-! ## Bytes of a file, a sector at a time -/

/-- Byte `j` of what a read of one sector returns. -/
def Disk.sectorByte (d : Disk) (lba : U32) (j : Nat) : Byte := (d.readSectors lba 1#32).2 j

/-- Byte `p` of the file that starts at a sector. -/
def Disk.fileByte (d : Disk) (start : U32) (p : Nat) : Byte := d.sectorByte (start + BitVec.ofNat 32 (p / 512)) (p % 512)

/-- Reading changes no sector. -/
theorem Disk.sectorByte_readSectors (d : Disk) (lba n : U32) (l : U32) (j : Nat) :
    (d.readSectors lba n).1.sectorByte l j = d.sectorByte l j := by
  rw [Disk.sectorByte, Disk.readSectors_readSectors, Disk.sectorByte]

/-- A read handle whose buffer, when it is valid, holds a sector of the file as the disk has it. -/
structure OpenFile.ReadsFrom (f : OpenFile) (d : Disk) : Prop where
  used : f.used = true
  mode : f.mode = .read
  pos_le : f.pos.toNat ≤ f.size.toNat
  clean : f.sectorDirty = false
  buffer : f.sectorValid = true → ∃ q < sectorCount f.size.toNat, f.curLba = f.start + BitVec.ofNat 32 q ∧
    ∀ j < 512, f.sector j = d.sectorByte f.curLba j

/-- The handle `g` is the handle `f` moved to a position. -/
structure OpenFile.MovedTo (f g : OpenFile) (p : Nat) : Prop where
  start : g.start = f.start
  size : g.size = f.size
  dirIndex : g.dirIndex = f.dirIndex
  pos : g.pos.toNat = p

/-- Loading the sector of the position gives that sector, and nothing else changes. -/
theorem ofileLoadSector_reads {f : OpenFile} {d : Disk} (h : f.ReadsFrom d) :
    ∃ s, (ofileLoadSector f d f.posLba).1 = { f with curLba := f.posLba, sectorValid := true, sectorDirty := false, sector := s } ∧
      (∀ j < 512, s j = d.sectorByte f.posLba j) ∧
      ∀ l j, (ofileLoadSector f d f.posLba).2.sectorByte l j = d.sectorByte l j := by
  unfold ofileLoadSector
  split
  · rename_i hcur
    simp only [Bool.and_eq_true, beq_iff_eq] at hcur
    obtain ⟨q, -, -, hbuf⟩ := h.buffer hcur.1
    refine ⟨f.sector, ?_, fun j hj => ?_, fun _ _ => rfl⟩
    · rw [← hcur.2, ← hcur.1, ← h.clean]
    · rw [← hcur.2]
      exact hbuf j hj
  · have hflush : ofileFlush f d = (f, d) := by simp [ofileFlush, h.clean]
    rw [hflush]
    dsimp only
    rw [if_neg (by rw [h.mode]; simp)]
    exact ⟨(d.readSectors f.posLba 1#32).2, rfl, fun j _ => rfl, fun l j => d.sectorByte_readSectors _ _ l j⟩

section Step

variable {f : OpenFile} {d : Disk} {left : Nat} (h : f.ReadsFrom d) (hpos : 0 < left) (hle : f.pos.toNat + left ≤ f.size.toNat)

include h hpos hle

/-- One iteration of the loop of `SYS_FREAD`. -/
theorem freadStep_reads :
    (freadStep f d left).1.ReadsFrom (freadStep f d left).2.1 ∧
    f.MovedTo (freadStep f d left).1 (f.pos.toNat + f.chunk left) ∧
    (∀ l j, (freadStep f d left).2.1.sectorByte l j = d.sectorByte l j) ∧
    ∀ j < f.chunk left, (freadStep f d left).2.2 j = d.fileByte f.start (f.pos.toNat + j) := by
  obtain ⟨s, hs, hbytes, hdisk⟩ := ofileLoadSector_reads h
  have hn := f.chunk_le left
  have hsize := f.size.isLt
  have hmoved := f.pos_add_toNat (n := f.chunk left) (by lia)
  have hsec : f.chunk left ≤ 512 - f.pos.toNat % 512 := Nat.min_le_left _ _
  refine ⟨⟨?_, ?_, ?_, ?_, fun _ => ?_⟩, ⟨?_, ?_, ?_, ?_⟩, hdisk, fun j hj => ?_⟩
  · simp only [freadStep, hs, h.used]
  · simp only [freadStep, hs, h.mode]
  · simp only [freadStep, hs, hmoved]
    lia
  · simp only [freadStep, hs]
  · refine ⟨f.pos.toNat / 512, ?_, ?_, fun j hj => ?_⟩
    · simp only [freadStep, hs, sectorCount]
      lia
    · simp only [freadStep, hs]
      exact f.posLba_eq
    · simp only [freadStep, hs]
      rw [hbytes j hj, hdisk]
  · simp only [freadStep, hs]
  · simp only [freadStep, hs]
  · simp only [freadStep, hs]
  · simp only [freadStep, hs, hmoved]
  · simp only [freadStep, hs]
    rw [hbytes _ (by simp only [OpenFile.secOff]; lia), Disk.fileByte, f.posLba_eq, OpenFile.secOff]
    have hdiv : (f.pos.toNat + j) / 512 = f.pos.toNat / 512 := by lia
    have hmod : (f.pos.toNat + j) % 512 = f.pos.toNat % 512 + j := by lia
    rw [hdiv, hmod]

end Step

/-- The loop of `SYS_FREAD` copies the bytes of the file from the position on, whatever the pieces. -/
theorem freadLoop_reads (fuel : Nat) : ∀ (f : OpenFile) (d : Disk) (um : UserMem) (dst left : Nat), left ≤ fuel →
    f.ReadsFrom d → f.pos.toNat + left ≤ f.size.toNat →
    (freadLoop fuel f d um dst left).1.ReadsFrom (freadLoop fuel f d um dst left).2.1 ∧
    f.MovedTo (freadLoop fuel f d um dst left).1 (f.pos.toNat + left) ∧
    (∀ l j, (freadLoop fuel f d um dst left).2.1.sectorByte l j = d.sectorByte l j) ∧
    ∀ a, (freadLoop fuel f d um dst left).2.2 a =
      if dst ≤ a ∧ a < dst + left then d.fileByte f.start (f.pos.toNat + (a - dst)) else um a := by
  induction fuel with
  | zero =>
    intro f d um dst left hfuel h _
    obtain rfl : left = 0 := by lia
    refine ⟨h, ⟨rfl, rfl, rfl, rfl⟩, fun _ _ => rfl, fun a => ?_⟩
    rw [if_neg (by lia)]
    rfl
  | succ fuel ih =>
    intro f d um dst left hfuel h hle
    simp only [freadLoop]
    split
    · rename_i h0
      subst h0
      refine ⟨h, ⟨rfl, rfl, rfl, rfl⟩, fun _ _ => rfl, fun a => ?_⟩
      rw [if_neg (by lia)]
    · rename_i hne
      have hpos : 0 < left := Nat.pos_of_ne_zero hne
      have hn := f.chunk_le left
      have hn0 := f.chunk_pos hpos
      obtain ⟨hr, hmoved, hdisk, hbytes⟩ := freadStep_reads h hpos hle
      obtain ⟨hr', hmoved', hdisk', hmem'⟩ := ih (freadStep f d left).1 (freadStep f d left).2.1
        (fun i => if dst ≤ i ∧ i < dst + f.chunk left then (freadStep f d left).2.2 (i - dst) else um i)
        (dst + f.chunk left) (left - f.chunk left) (by lia) hr (by rw [hmoved.pos, hmoved.size]; lia)
      refine ⟨hr', ⟨hmoved'.start.trans hmoved.start, hmoved'.size.trans hmoved.size, hmoved'.dirIndex.trans hmoved.dirIndex, ?_⟩,
        fun l j => (hdisk' l j).trans (hdisk l j), fun a => ?_⟩
      · rw [hmoved'.pos, hmoved.pos]
        lia
      · refine (hmem' a).trans ?_
        by_cases hlow : dst ≤ a ∧ a < dst + f.chunk left
        · rw [if_neg (by lia), if_pos hlow, if_pos (by lia), hbytes _ (by lia)]
        · rw [if_neg hlow]
          by_cases hin : dst + f.chunk left ≤ a ∧ a < dst + f.chunk left + (left - f.chunk left)
          · rw [if_pos hin, if_pos (by lia), hmoved.start, hmoved.pos, Disk.fileByte, hdisk, Disk.fileByte,
              show f.pos.toNat + f.chunk left + (a - (dst + f.chunk left)) = f.pos.toNat + (a - dst) by lia]
          · rw [if_neg hin, if_neg (by lia)]

/-! ## Loading the same file -/

/-- The whole sectors of the file lie all on the RAM disk or all off it. Any file on an ATA disk will do. -/
def Disk.HoldsWhole (d : Disk) (e : Dirent) : Prop :=
  d.ram = true → 0 < e.size.toNat / 512 →
    d.OnMedium e.start.toNat (e.size.toNat / 512) ∨ e.start.toNat + e.size.toNat / 512 ≤ fsDirLba ∨
      (d.limit ≤ e.start.toNat ∧ e.start.toNat + e.size.toNat / 512 ≤ 2 ^ 32)

/-- A run off the RAM disk is refused. -/
theorem Disk.rdRangeOk_off {d : Disk} (hr : d.ram = true) {lba count : U32} (h0 : 0 < count.toNat)
    (h : lba.toNat < fsDirLba ∨ (d.limit ≤ lba.toNat ∧ lba.toNat + count.toNat ≤ 2 ^ 32)) : d.rdRangeOk lba count = false := by
  have hlim : d.limit = fsDirLba + d.rdSectors.toNat := by simp [Disk.limit, hr]
  have hdir : fsDirLba = 137 := rfl
  simp only [Disk.rdRangeOk, hr, Bool.true_and, Bool.and_eq_false_iff, Bool.not_eq_false', decide_eq_true_eq,
    decide_eq_false_iff_not]
  rcases h with h | ⟨h1, h2⟩
  · exact Or.inl (BitVec.lt_def.2 h)
  · refine Or.inr (BitVec.not_le.2 (BitVec.lt_def.2 ?_))
    have hadd : (lba - BitVec.ofNat 32 fsDirLba + count).toNat = lba.toNat - fsDirLba + count.toNat := by
      rw [BitVec.toNat_add, sub_fsDirLba_toNat (by omega)]
      exact Nat.mod_eq_of_lt (by omega)
    omega

/-- A run read at once gives the bytes its sectors give one by one. -/
theorem Disk.readSectors_fileByte {d : Disk} {start count : U32} {p : Nat} (hp : p < count.toNat * 512)
    (h : d.ram = true → d.OnMedium start.toNat count.toNat ∨ start.toNat + count.toNat ≤ fsDirLba ∨
      (d.limit ≤ start.toNat ∧ start.toNat + count.toNat ≤ 2 ^ 32)) :
    (d.readSectors start count).2 p = d.fileByte start p := by
  have hone : (1#32).toNat = 1 := rfl
  have hq : p / 512 < count.toNat := by lia
  have hlba : (start + BitVec.ofNat 32 (p / 512)).toNat = (start.toNat + p / 512) % 2 ^ 32 := by
    have := count.isLt
    rw [BitVec.toNat_add, BitVec.toNat_ofNat, Nat.mod_eq_of_lt (show p / 512 < 2 ^ 32 by lia)]
  have hmod : p % 512 < 512 := Nat.mod_lt _ (by decide)
  cases hr : d.ram with
  | false =>
    simp only [Disk.fileByte, Disk.sectorByte, Disk.readSectors, hr, Disk.addr, Bool.false_eq_true, if_false, hlba]
    refine congrArg d.bytes ?_
    have hata : ataSectors = 2 ^ 28 := rfl
    rw [hata]
    lia
  | true =>
    rcases h hr with hon | hoff
    · have hlt := hon.lt
      rw [Nat.mod_eq_of_lt (by lia)] at hlba
      have hon1 : d.OnMedium (start + BitVec.ofNat 32 (p / 512)).toNat (1#32).toNat := by
        rw [hlba, hone]
        exact ⟨by have := hon.1; lia, by have := hon.2; lia⟩
      rw [(d.readSectors_byteAt hon).2 p hp, Disk.fileByte, Disk.sectorByte, (d.readSectors_byteAt hon1).2 _ (by rw [hone]; lia), hlba,
        Nat.div_eq_of_lt hmod, Nat.mod_mod, Nat.add_zero]
    · have hrun := @Disk.rdRangeOk_off d hr start count (by lia) (by lia)
      have hdir : fsDirLba = 137 := rfl
      rw [Nat.mod_eq_of_lt (by lia)] at hlba
      have hsec := @Disk.rdRangeOk_off d hr (start + BitVec.ofNat 32 (p / 512)) 1#32 (by decide)
        (by rw [hlba, hone]; lia)
      simp [Disk.fileByte, Disk.sectorByte, Disk.readSectors, hr, hrun, hsec]

/-- Every `SYS_LOAD` that finds an entry and has room for it returns this byte at position `p` of the file. -/
def Kernel.LoadGives (k : Kernel) (idx p : Nat) (b : Byte) : Prop :=
  ∀ um nameOff bufOff max s, nameAt um nameOff = some s → fsFind k.fs.dir (normalizeName s) = some idx →
    (k.fs.dir.get idx).size ≤ max →
    (∃ data, (k.fs.read (normalizeName s) max).2 = some ((k.fs.dir.get idx).size, data) ∧ data p = b) ∧
    (userRangeOk bufOff max = true → (k.sysLoad um nameOff bufOff max).2.1 (bufOff.toNat + p) = b)

/-- What is loaded is what the sectors of the file give one by one. -/
theorem Kernel.loadGives_fileByte {k : Kernel} {idx p : Nat} (h : k.fs.disk.HoldsWhole (k.fs.dir.get idx))
    (hp : p < (k.fs.dir.get idx).size.toNat) : k.LoadGives idx p (k.fs.disk.fileByte (k.fs.dir.get idx).start p) := by
  intro um nameOff bufOff max s hname hf hmax
  set e := k.fs.dir.get idx with he
  have hfull : (e.size / 512#32).toNat = e.size.toNat / 512 := by simp
  have hrem : (e.size % 512#32).toNat = e.size.toNat % 512 := by simp
  have hread := k.fs.read_snd (normalizeName s) max hf
  dsimp only at hread
  rw [← he, if_neg (BitVec.not_lt.2 hmax)] at hread
  set data : Nat → Byte := fun i =>
    if i < (e.size / 512#32).toNat * 512 then
      (if 0#32 < e.size / 512#32 then (k.fs.disk.readSectors e.start (e.size / 512#32)).2 else fun _ => 0#8) i
    else (if 0#32 < e.size % 512#32 then (k.fs.disk.readSectors (e.start + e.size / 512#32) 1#32).2 else fun _ => 0#8)
      (i - (e.size / 512#32).toNat * 512) with hdata
  have hbyte : data p = k.fs.disk.fileByte e.start p := by
    rw [hdata]
    dsimp only
    by_cases hlt : p < (e.size / 512#32).toNat * 512
    · have hpos : 0 < (e.size / 512#32).toNat := by lia
      rw [if_pos hlt, if_pos (show 0#32 < e.size / 512#32 from BitVec.lt_def.2 hpos)]
      refine Disk.readSectors_fileByte hlt (fun hr => ?_)
      rw [hfull] at hpos ⊢
      exact h hr hpos
    · rw [hfull] at hlt
      have hpos : 0 < (e.size % 512#32).toNat := by rw [hrem]; lia
      have hlba : e.size / 512#32 = BitVec.ofNat 32 (p / 512) := by
        refine BitVec.eq_of_toNat_eq ?_
        have := e.size.isLt
        rw [hfull, BitVec.toNat_ofNat, Nat.mod_eq_of_lt (by lia)]
        lia
      have hoff : p - e.size.toNat / 512 * 512 = p % 512 := by lia
      rw [hfull, if_neg hlt, if_pos (show 0#32 < e.size % 512#32 from BitVec.lt_def.2 hpos), hoff, hlba]
      rfl
  refine ⟨⟨data, hread, hbyte⟩, fun hr => ?_⟩
  have hload : (k.sysLoad um nameOff bufOff max).2.1 = fun i =>
      if bufOff.toNat ≤ i ∧ i < bufOff.toNat + e.size.toNat then data (i - bufOff.toNat) else um i := by
    rcases hfs : k.fs.read (normalizeName s) max with ⟨fs, res⟩
    rw [hfs] at hread
    dsimp only at hread
    subst hread
    simp [Kernel.sysLoad, hr, hname, hfs]
  rw [hload]
  dsimp only
  rw [if_pos (by lia), Nat.add_sub_cancel_left]
  exact hbyte

/-! ## Runs -/

/-- The step leaves the entry and the sectors of a file as they are, and does not close the handle. -/
def Undisturbed (i : Fin openMax) (idx : Nat) (k : Kernel) (r : Request) : Prop :=
  (k.step r).fs.dir.get idx = k.fs.dir.get idx ∧
  (∀ q < sectorCount (k.fs.dir.get idx).size.toNat, ∀ j < 512,
    (k.step r).fs.disk.sectorByte ((k.fs.dir.get idx).start + BitVec.ofNat 32 q) j =
      k.fs.disk.sectorByte ((k.fs.dir.get idx).start + BitVec.ofNat 32 q) j) ∧
  ∀ fd, r.call = .close fd → getOfile k.ofiles fd ≠ some i

/-- A `SYS_FREAD` on the handle returns as many bytes as are wanted and left, they are the bytes `SYS_LOAD` returns from the
position on, nothing else is written, and the position moves by that number; a `SYS_SEEK` moves it to the place asked for,
clamped to the file. -/
def ReadRight (i : Fin openMax) (idx : Nat) (k : Kernel) (r : Request) : Prop :=
  let pos := (k.ofiles i).pos.toNat
  let size := (k.fs.dir.get idx).size.toNat
  (∀ fd off len, r.call = .fread fd off len → getOfile k.ofiles fd = some i → userRangeOk off len = true →
    (k.sysFread r.um fd off len).2.2.toNat = min len.toNat (size - pos) ∧
    (∀ j < min len.toNat (size - pos), k.LoadGives idx (pos + j) ((k.sysFread r.um fd off len).2.1 (off.toNat + j))) ∧
    (∀ a, ¬(off.toNat ≤ a ∧ a < off.toNat + min len.toNat (size - pos)) → (k.sysFread r.um fd off len).2.1 a = r.um a) ∧
    ((k.step r).ofiles i).pos.toNat = pos + min len.toNat (size - pos)) ∧
  (∀ fd p, r.call = .seek fd p → getOfile k.ofiles fd = some i →
    ((k.step r).ofiles i).pos.toNat = min (max p.toInt 0).toNat size)

/-- Handle `i` reads the file of entry `idx`. -/
structure Reading (i : Fin openMax) (idx : Nat) (k : Kernel) : Prop where
  reads : (k.ofiles i).ReadsFrom k.fs.disk
  start : (k.ofiles i).start = (k.fs.dir.get idx).start
  size : (k.ofiles i).size = (k.fs.dir.get idx).size

theorem Kernel.setIo_self (k : Kernel) (i : Fin openMax) : k.setIo i (k.ofiles i) k.fs.disk = k := by
  have hof : (fun j => if j = i then k.ofiles i else k.ofiles j) = k.ofiles := by
    funext j
    split
    · rename_i hji
      rw [hji]
    · rfl
  simp only [Kernel.setIo, hof]

/-- `SYS_FREAD` on a read handle: what it copies, what it returns, and where it leaves the handle. -/
theorem Reading.sysFread {i : Fin openMax} {idx : Nat} {k : Kernel} (h : Reading i idx k) (um : UserMem) {fd off len : U32}
    (hi : getOfile k.ofiles fd = some i) (hr : userRangeOk off len = true) {n : Nat}
    (hn : n = min len.toNat ((k.ofiles i).size.toNat - (k.ofiles i).pos.toNat)) :
    ∃ f d, k.sysFread um fd off len = (k.setIo i f d, (fun a => if off.toNat ≤ a ∧ a < off.toNat + n then
        k.fs.disk.fileByte (k.ofiles i).start ((k.ofiles i).pos.toNat + (a - off.toNat)) else um a), BitVec.ofNat 32 n) ∧
      f.ReadsFrom d ∧ (k.ofiles i).MovedTo f ((k.ofiles i).pos.toNat + n) ∧
      ∀ l j, d.sectorByte l j = k.fs.disk.sectorByte l j := by
  set f0 := k.ofiles i with hf0
  have hmode : f0.mode = .read := h.reads.mode
  have hlen := len.isLt
  -- nothing to read: the call returns 0 and changes nothing
  have hnone : n = 0 → k.sysFread um fd off len = (k, um, 0#32) → ∃ f d, k.sysFread um fd off len = (k.setIo i f d,
      (fun a => if off.toNat ≤ a ∧ a < off.toNat + n then k.fs.disk.fileByte f0.start (f0.pos.toNat + (a - off.toNat)) else um a),
      BitVec.ofNat 32 n) ∧ f.ReadsFrom d ∧ f0.MovedTo f (f0.pos.toNat + n) ∧
      ∀ l j, d.sectorByte l j = k.fs.disk.sectorByte l j := by
    intro h0 heq
    have hmem : (fun a => if off.toNat ≤ a ∧ a < off.toNat + n then
        k.fs.disk.fileByte f0.start (f0.pos.toNat + (a - off.toNat)) else um a) = um := by
      funext a
      rw [if_neg (by lia)]
    refine ⟨f0, k.fs.disk, ?_, h.reads, ⟨rfl, rfl, rfl, by lia⟩, fun _ _ => rfl⟩
    rw [heq, hmem, hf0, k.setIo_self, h0]
  by_cases hl0 : len = 0#32
  · refine hnone (by rw [hn, hl0]; simp) ?_
    rw [hl0] at hr
    simp [Kernel.sysFread, hr, hi, ← hf0, hmode, hl0]
  by_cases hend : f0.size ≤ f0.pos
  · refine hnone (by rw [BitVec.le_def] at hend; lia) ?_
    simp [Kernel.sysFread, hr, hi, ← hf0, hmode, hl0, hend]
  · have hword : (if f0.size - f0.pos < len then f0.size - f0.pos else len) = BitVec.ofNat 32 n := by
      have hle : f0.pos ≤ f0.size := BitVec.le_of_lt (BitVec.not_le.1 hend)
      have hsub := BitVec.toNat_sub_of_le hle
      refine BitVec.eq_of_toNat_eq ?_
      rw [BitVec.toNat_ofNat, Nat.mod_eq_of_lt (by lia), hn]
      split
      · rename_i hlt
        rw [BitVec.lt_def] at hlt
        lia
      · rename_i hlt
        rw [BitVec.lt_def] at hlt
        lia
    have hnat : (BitVec.ofNat 32 n).toNat = n := by rw [BitVec.toNat_ofNat, Nat.mod_eq_of_lt (by lia)]
    have hlt : f0.pos.toNat < f0.size.toNat := by rw [BitVec.le_def] at hend; lia
    obtain ⟨h1, h2, h3, h4⟩ := freadLoop_reads n f0 k.fs.disk um off.toNat n (Nat.le_refl n) h.reads (by lia)
    refine ⟨(freadLoop n f0 k.fs.disk um off.toNat n).1, (freadLoop n f0 k.fs.disk um off.toNat n).2.1, ?_, h1, h2, h3⟩
    rw [← funext h4]
    simp only [Kernel.sysFread, hr, Bool.not_true, Bool.false_eq_true, if_false, hi, ← hf0, hmode, ne_eq, not_true_eq_false,
      hl0, hend, hword, hnat]

/-- The medium never changes its kind or its size. -/
theorem Kernel.step_medium (k : Kernel) (r : Request) :
    (k.step r).fs.disk.ram = k.fs.disk.ram ∧ (k.step r).fs.disk.rdSectors = k.fs.disk.rdSectors := by
  have hwrite : ∀ (d : Disk) who lba count buf,
      (d.writeSectors who lba count buf).ram = d.ram ∧ (d.writeSectors who lba count buf).rdSectors = d.rdSectors := by
    intro d who lba count buf
    unfold Disk.writeSectors
    split
    · split <;> exact ⟨rfl, rfl⟩
    · exact ⟨rfl, rfl⟩
  have hread : ∀ (d : Disk) lba n, (d.readSectors lba n).1.ram = d.ram ∧ (d.readSectors lba n).1.rdSectors = d.rdSectors := by
    intro d lba n
    unfold Disk.readSectors
    split
    · split
      · split <;> exact ⟨rfl, rfl⟩
      · exact ⟨rfl, rfl⟩
    · exact ⟨rfl, rfl⟩
  have hsync : ∀ (d : Disk) status, (d.sync status).1.ram = d.ram ∧ (d.sync status).1.rdSectors = d.rdSectors := by
    intro d status
    unfold Disk.sync
    split
    · exact ⟨rfl, rfl⟩
    · split <;> exact ⟨rfl, rfl⟩
  refine Kernel.step_disk (P := fun d => d.ram = k.fs.disk.ram ∧ d.rdSectors = k.fs.disk.rdSectors)
    (fun d lba h => ?_) (fun d lba buf h => ?_) (fun fs h => ?_) (fun d status h => ?_) k r
    (fun _ _ _ _ _ h => ?_) (fun _ _ _ _ _ _ _ _ _ h => ?_) ⟨rfl, rfl⟩
  · exact ⟨(hread d lba 1#32).1.trans h.1, (hread d lba 1#32).2.trans h.2⟩
  · exact ⟨(hwrite d _ _ _ _).1.trans h.1, (hwrite d _ _ _ _).2.trans h.2⟩
  · exact ⟨(hwrite fs.disk _ _ _ _).1.trans h.1, (hwrite fs.disk _ _ _ _).2.trans h.2⟩
  · exact ⟨(hsync d status).1.trans h.1, (hsync d status).2.trans h.2⟩
  · exact Fs.read_disk (P := fun d => d.ram = k.fs.disk.ram ∧ d.rdSectors = k.fs.disk.rdSectors)
      (fun d lba n h => ⟨(hread d lba n).1.trans h.1, (hread d lba n).2.trans h.2⟩) _ _ _ h
  · exact hwrite _ _ _ _ _

/-- A read handle keeps reading its file when the entry and the sectors stay as they are. -/
theorem OpenFile.ReadsFrom.keep {f : OpenFile} {d d' : Disk} (h : f.ReadsFrom d)
    (hd : ∀ q < sectorCount f.size.toNat, ∀ j < 512, d'.sectorByte (f.start + BitVec.ofNat 32 q) j =
      d.sectorByte (f.start + BitVec.ofNat 32 q) j) : f.ReadsFrom d' := by
  refine ⟨h.used, h.mode, h.pos_le, h.clean, fun hv => ?_⟩
  obtain ⟨q, hq, hcur, hbuf⟩ := h.buffer hv
  refine ⟨q, hq, hcur, fun j hj => ?_⟩
  rw [hbuf j hj, hcur, hd q hq j hj]

/-- `SYS_SEEK` on a read handle. -/
theorem Reading.sysSeek {i : Fin openMax} {idx : Nat} {k : Kernel} (h : Reading i idx k) {fd : U32}
    (hi : getOfile k.ofiles fd = some i) (p : U32) :
    k.sysSeek fd p = (k.setIo i { k.ofiles i with pos := (k.ofiles i).seekPos p, sectorValid := false, sectorDirty := false }
      k.fs.disk, (k.ofiles i).seekPos p) := by
  simp [Kernel.sysSeek, hi, h.reads.mode]

/-- Every step that leaves the file as it is keeps the handle reading it. -/
theorem Reading.step {i : Fin openMax} {idx : Nat} (k : Kernel) (r : Request) (h : Reading i idx k) (hu : Undisturbed i idx k r) :
    Reading i idx (k.step r) := by
  obtain ⟨hentry, hsectors, hclose⟩ := hu
  -- the handle itself: moved by a call on it, and otherwise as it was
  suffices hf : ∃ p, (k.ofiles i).MovedTo ((k.step r).ofiles i) p ∧ ((k.step r).ofiles i).ReadsFrom (k.step r).fs.disk by
    obtain ⟨p, hmoved, hreads⟩ := hf
    exact ⟨hreads, by rw [hmoved.start, hentry, h.start], by rw [hmoved.size, hentry, h.size]⟩
  have hkept : ((k.step r).ofiles i = k.ofiles i) → ∃ p, (k.ofiles i).MovedTo ((k.step r).ofiles i) p ∧
      ((k.step r).ofiles i).ReadsFrom (k.step r).fs.disk := by
    intro heq
    rw [heq]
    refine ⟨_, ⟨rfl, rfl, rfl, rfl⟩, h.reads.keep ?_⟩
    rw [h.size, h.start]
    exact hsectors
  by_cases hown : ∃ fd, r.call.fd = some fd ∧ getOfile k.ofiles fd = some i
  · obtain ⟨fd, hfd, hi⟩ := hown
    obtain ⟨um, c⟩ := r
    cases c with
    | fread fd' off len =>
      obtain rfl : fd' = fd := Option.some.inj hfd
      by_cases hr : userRangeOk off len = true
      · obtain ⟨f, d, heq, hreads, hmoved, -⟩ := h.sysFread um hi hr rfl
        simp only [Kernel.step, Kernel.syscall, heq, Kernel.setIo, if_true]
        exact ⟨_, hmoved, hreads⟩
      · refine hkept ?_
        simp [Kernel.step, Kernel.syscall, Kernel.sysFread, hr]
    | fwrite fd' off len =>
      obtain rfl : fd' = fd := Option.some.inj hfd
      refine hkept ?_
      rcases sysFwrite_cases k um fd' off len with heq | ⟨j, hj, hm, -⟩
      · simp only [Kernel.step, Kernel.syscall, heq]
      · obtain rfl : i = j := Option.some.inj (hi.symm.trans hj)
        rw [h.reads.mode] at hm
        cases hm
    | close fd' =>
      obtain rfl : fd' = fd := Option.some.inj hfd
      exact absurd hi (hclose fd' rfl)
    | seek fd' p =>
      obtain rfl : fd' = fd := Option.some.inj hfd
      simp only [Kernel.step, Kernel.syscall, h.sysSeek hi p, Kernel.setIo, if_true]
      refine ⟨_, ⟨rfl, rfl, rfl, rfl⟩, h.reads.used, h.reads.mode, ?_, rfl, fun hv => by cases hv⟩
      dsimp only
      rw [OpenFile.seekPos_toNat]
      exact Nat.min_le_right _ _
    | load => cases hfd
    | save => cases hfd
    | rename => cases hfd
    | delete => cases hfd
    | «open» => cases hfd
    | sync => cases hfd
  · exact hkept (k.step_ofiles r h.reads.used (fun fd hfd hi => hown ⟨fd, hfd, hi⟩))

/-- A file that keeps its entry stays on the disk or off it. -/
theorem holdsWhole_step {i : Fin openMax} {idx : Nat} {k : Kernel} {r : Request} (h : k.fs.disk.HoldsWhole (k.fs.dir.get idx))
    (hu : Undisturbed i idx k r) : (k.step r).fs.disk.HoldsWhole ((k.step r).fs.dir.get idx) := by
  obtain ⟨hram, hrd⟩ := k.step_medium r
  have hlim : (k.step r).fs.disk.limit = k.fs.disk.limit := by simp only [Disk.limit, hram, hrd]
  intro hr h0
  rw [hu.1] at h0 ⊢
  rw [Disk.OnMedium, hlim]
  exact h (hram ▸ hr) h0

/-- Reads through a handle that reads its file are right. -/
theorem Reading.right {i : Fin openMax} {idx : Nat} (k : Kernel) (r : Request) (h : Reading i idx k)
    (hwhole : k.fs.disk.HoldsWhole (k.fs.dir.get idx)) : ReadRight i idx k r := by
  obtain ⟨um, c⟩ := r
  refine ⟨?_, ?_⟩
  · rintro fd off len hc hi hr
    dsimp only at hc
    subst hc
    have hsize := (k.fs.dir.get idx).size.isLt
    obtain ⟨f, d, heq, -, hmoved, -⟩ := h.sysFread um hi hr rfl
    rw [h.size] at heq hmoved
    simp only [Kernel.step, Kernel.syscall, heq, Kernel.setIo, if_true]
    refine ⟨?_, fun j hj => ?_, fun a ha => if_neg ha, hmoved.pos⟩
    · rw [BitVec.toNat_ofNat, Nat.mod_eq_of_lt (by omega)]
    · rw [if_pos (by omega), Nat.add_sub_cancel_left, h.start]
      exact Kernel.loadGives_fileByte hwhole (by omega)
  · rintro fd p hc hi
    dsimp only at hc
    subst hc
    simp only [Kernel.step, Kernel.syscall, h.sysSeek hi p, Kernel.setIo, if_true]
    rw [OpenFile.seekPos_toNat, h.size]

/-- Reads through the handle leave the file as it is. -/
theorem Reading.undisturbed_fread {i : Fin openMax} {idx : Nat} {k : Kernel} (h : Reading i idx k) (um : UserMem) {fd off len : U32}
    (hi : getOfile k.ofiles fd = some i) (hr : userRangeOk off len = true) : Undisturbed i idx k ⟨um, .fread fd off len⟩ := by
  obtain ⟨f, d, heq, -, -, hsame⟩ := h.sysFread um hi hr rfl
  refine ⟨?_, ?_, fun fd' hc => by cases hc⟩
  · simp only [Kernel.step, Kernel.syscall, heq, Kernel.setIo]
  · intro q _ j _
    simp only [Kernel.step, Kernel.syscall, heq, Kernel.setIo, hsame]

/-- A file just opened for reading is read by its handle. -/
theorem reading_sysOpen {k : Kernel} {um : UserMem} {nameOff : U32} {s : List Byte} {i : Fin openMax} {idx : Nat}
    (hname : nameAt um nameOff = some s) (hi : allocFd k.ofiles = some i) (hf : fsFind k.fs.dir (normalizeName s) = some idx) :
    Reading i idx (k.sysOpen um nameOff 0#32).1 ∧ (k.sysOpen um nameOff 0#32).1.fs = k.fs := by
  have hopen : (k.sysOpen um nameOff 0#32).1 = k.setOfile i (readHandle idx (k.fs.dir.get idx)) := by
    simp [Kernel.sysOpen, hname, hi, hf, readHandle]
  rw [hopen]
  simp only [Kernel.setOfile]
  refine ⟨⟨?_, ?_, ?_⟩, trivial⟩
  all_goals simp only [if_true]
  · exact ⟨rfl, rfl, Nat.zero_le _, rfl, fun hv => by cases hv⟩
  · rfl
  · rfl

/-- A file opened for reading whose whole sectors lie all on the disk or all off it: along every run of calls, by any program,
that leaves its entry and its sectors as they are and the handle open, every read through the handle is right. -/
theorem handle_reads_as_loaded_of_holdsWhole (k : Kernel) (um : UserMem) (nameOff : U32) (s : List Byte) (i : Fin openMax) (idx : Nat)
    (hname : nameAt um nameOff = some s) (hi : allocFd k.ofiles = some i) (hf : fsFind k.fs.dir (normalizeName s) = some idx)
    (hwhole : k.fs.disk.HoldsWhole (k.fs.dir.get idx)) (rs : List Request)
    (hrs : Meets Kernel.step (Undisturbed i idx) (k.sysOpen um nameOff 0#32).1 rs) :
    Meets Kernel.step (ReadRight i idx) (k.sysOpen um nameOff 0#32).1 rs := by
  obtain ⟨hreading, hfs⟩ := reading_sysOpen hname hi hf
  refine meets_of_inv (fun k => Reading i idx k ∧ k.fs.disk.HoldsWhole (k.fs.dir.get idx))
    (fun k r h hu => ⟨h.1.step k r hu, holdsWhole_step h.2 hu⟩) (fun k r h _ => h.1.right k r h.2) ⟨hreading, ?_⟩ hrs
  rw [hfs]
  exact hwhole

/-- A disk of 100 sectors with one file `A` of 600 bytes. -/
def oneFileKernel : Kernel :=
  Kernel.fresh (Dir.empty.set 0 { Dirent.zero.setName (asciiBytes "A") openNameLen openNameLen_le with start := 201#32, size := 600#32 })
    (Disk.blank 100#32 hundred_sectors)

/-- The rule at work: two reads of 500 bytes that meet inside the first sector. -/
theorem handle_reads_as_loaded_of_holdsWhole_two_reads :
    Meets Kernel.step (ReadRight ⟨0, by decide⟩ 0) (oneFileKernel.sysOpen (userText "A") 0#32 0#32).1
      [⟨userText "A", .fread 3#32 64#32 500#32⟩, ⟨userText "A", .fread 3#32 64#32 500#32⟩] := by
  have hname : nameAt (userText "A") 0#32 = some (asciiBytes "A") := by decide
  have hi : allocFd oneFileKernel.ofiles = some ⟨0, by decide⟩ := by decide
  have hf : fsFind oneFileKernel.fs.dir (normalizeName (asciiBytes "A")) = some 0 := by decide
  have hwhole : oneFileKernel.fs.disk.HoldsWhole (oneFileKernel.fs.dir.get 0) := fun _ _ => Or.inl ⟨by decide, by decide⟩
  have hreading := (reading_sysOpen hname hi hf).1
  have hund := @Reading.undisturbed_fread _ _ _ hreading (userText "A") _ 64#32 500#32 (getOfile_ofNat hreading.reads.used) (by decide)
  have hnext := hreading.step _ _ hund
  have hund' := @Reading.undisturbed_fread _ _ _ hnext (userText "A") _ 64#32 500#32 (getOfile_ofNat hnext.reads.used) (by decide)
  exact handle_reads_as_loaded_of_holdsWhole oneFileKernel _ _ _ _ _ hname hi hf hwhole _ ⟨hund, hund', trivial⟩

/-- On a disk with 36 data sectors, a file of one sector saved again with 40 sectors: the second save is dropped by the disk and
recorded in the directory. -/
def overgrownKernel : Kernel :=
  runFrom Kernel.step emptyKernel [⟨letterMem "A", .save 0#32 64#32 512#32⟩, ⟨letterMem "A", .save 0#32 64#32 20480#32⟩]

section Differ

variable {k : Kernel} {um : UserMem} {nameOff : U32} {s : List Byte} {i : Fin openMax} {idx : Nat}
  (hname : nameAt um nameOff = some s) (hi : allocFd k.ofiles = some i) (hf : fsFind k.fs.dir (normalizeName s) = some idx)
  {off len max : U32} (hr : userRangeOk off len = true) (hmax : userRangeOk off max = true) (hlen : 0 < len.toNat)
  (hsize : 0 < (k.fs.dir.get idx).size.toNat) (hfit : (k.fs.dir.get idx).size ≤ max)

include hname hi hf hr hmax hlen hsize hfit

/-- Where the first byte read through a fresh handle is not the first byte loaded, the first read is not right. -/
theorem not_readRight_of_ne (hne : ((k.sysOpen um nameOff 0#32).1.sysFread um (BitVec.ofNat 32 (i.val + 3)) off len).2.1 off.toNat ≠
      ((k.sysOpen um nameOff 0#32).1.sysLoad um nameOff off max).2.1 off.toNat) :
    ∃ rs, Meets Kernel.step (Undisturbed i idx) (k.sysOpen um nameOff 0#32).1 rs ∧
      ¬Meets Kernel.step (ReadRight i idx) (k.sysOpen um nameOff 0#32).1 rs := by
  obtain ⟨hreading, hfs⟩ := reading_sysOpen hname hi hf
  have hfd := getOfile_ofNat hreading.reads.used
  refine ⟨[⟨um, .fread (BitVec.ofNat 32 (i.val + 3)) off len⟩], ⟨hreading.undisturbed_fread um hfd hr, trivial⟩, ?_⟩
  rintro ⟨⟨hread, -⟩, -⟩
  obtain ⟨-, hbytes, -⟩ := hread _ off len rfl hfd hr
  have hpos : ((k.sysOpen um nameOff 0#32).1.ofiles i).pos.toNat = 0 := by
    simp [Kernel.sysOpen, hname, hi, hf, Kernel.setOfile, OpenFile.zero]
  rw [hfs, hpos] at hbytes
  have hgives := hbytes 0 (by lia) um nameOff off max s hname (by rw [hfs]; exact hf) (by rw [hfs]; exact hfit)
  exact hne (hgives.2 hmax).symm

end Differ

/-- A file that reaches past the end of the RAM disk loads as zeros and reads, through a handle, as its first sectors. -/
theorem handle_reads_as_loaded_false :
    ¬∀ (k : Kernel) (um : UserMem) (nameOff : U32) (s : List Byte) (i : Fin openMax) (idx : Nat),
      nameAt um nameOff = some s → allocFd k.ofiles = some i → fsFind k.fs.dir (normalizeName s) = some idx →
      ∀ rs : List Request, Meets Kernel.step (Undisturbed i idx) (k.sysOpen um nameOff 0#32).1 rs →
        Meets Kernel.step (ReadRight i idx) (k.sysOpen um nameOff 0#32).1 rs := by
  intro h
  have hname : nameAt (letterMem "A") 0#32 = some (asciiBytes "A") := by decide
  have hi : allocFd overgrownKernel.ofiles = some ⟨0, by decide⟩ := by decide +kernel
  have hf : fsFind overgrownKernel.fs.dir (normalizeName (asciiBytes "A")) = some 0 := by decide +kernel
  have hA : ((overgrownKernel.sysOpen (letterMem "A") 0#32 0#32).1.sysFread (letterMem "A") (BitVec.ofNat 32 (0 + 3)) 64#32 1#32).2.1
      (64#32).toNat = 65#8 := by
    decide +kernel
  have h0 : ((overgrownKernel.sysOpen (letterMem "A") 0#32 0#32).1.sysLoad (letterMem "A") 0#32 64#32 20480#32).2.1
      (64#32).toNat = 0#8 := by
    decide +kernel
  obtain ⟨rs, hund, hnot⟩ := @not_readRight_of_ne _ _ _ _ _ _ hname hi hf 64#32 1#32 20480#32 (by decide) (by decide)
    (by decide) (by decide +kernel) (by decide +kernel) (by rw [hA, h0]; decide)
  exact hnot (h _ _ _ _ _ _ hname hi hf rs hund)

end MiniOs32
