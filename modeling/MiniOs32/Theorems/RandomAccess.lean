import MiniOs32.Theorems.HandleLifetime

/-!
# Writing anywhere in a file

A write handle buffers one sector. `SYS_SEEK` writes the buffer out and drops it, so the next `SYS_FWRITE` has to fetch the sector
it lands in; `ofile_load_sector` decides between the disk and zeros by comparing the sector's number on the disk with the
number of sectors of the file. Bytes of that sector that the write does not cover survive when the sector is still buffered,
when there are none, or when the comparison goes the right way; otherwise they become zeros. Along every sequence of writes and
seeks whose writes each leave no byte behind in that way, the file closed at the end is the byte array the same operations
give.
-/

namespace MiniOs32

/-! ## The byte array -/

/-- A byte array and a position in it. -/
structure ByteFile where
  bytes : List Byte
  pos : Nat

/-- A `SYS_FWRITE` or a `SYS_SEEK` on the handle. -/
inductive HandleOp where
  | write (um : UserMem) (off len : U32)
  | seek (pos : U32)

/-- The request an operation makes on a descriptor. -/
def HandleOp.request (fd : U32) : HandleOp → Request
  | .write um off len => ⟨um, .fwrite fd off len⟩
  | .seek pos => ⟨fun _ => 0#8, .seek fd pos⟩

/-- What an operation does to a byte array: a write overwrites or extends at the position, a seek clamps to the array. A write
from a bad buffer is refused. -/
def ByteFile.apply (a : ByteFile) : HandleOp → ByteFile
  | .write um off len =>
    if userRangeOk off len then
      ⟨putAt a.bytes a.pos ((List.range len.toNat).map fun i => um (off.toNat + i)), a.pos + len.toNat⟩
    else a
  | .seek pos => ⟨a.bytes, min (max pos.toInt 0).toNat a.bytes.length⟩

/-! ## Between two pieces -/

/-- The handle and the disk hold a content of `n` bytes between them: the buffer, when it is valid, is the sector of the position
and waits to be written, and every other byte is on the disk. -/
structure OpenFile.Draft (f : OpenFile) (d : Disk) (c : Nat → Byte) (n : Nat) : Prop where
  writing : f.Writing
  size : f.size.toNat = n
  pos_le : f.pos.toNat ≤ n
  room : 0 < n → d.OnMedium f.start.toNat (sectorCount n)
  buffer : f.sectorValid = true → f.sectorDirty = true ∧ f.curLba = f.posLba ∧ f.pos.toNat % 512 ≠ 0 ∧
    ∀ j < 512, f.pos.toNat / 512 * 512 + j < n → f.sector j = c (f.pos.toNat / 512 * 512 + j)
  stored : ∀ i < n, ¬(f.sectorValid = true ∧ i / 512 = f.pos.toNat / 512) → d.byteAt (f.start.toNat + i / 512) (i % 512) = c i

/-- A write of `len` bytes leaves no byte behind: each sector it touches is still buffered, or holds nothing yet, or is covered as
far as it holds anything, or is one that `ofile_load_sector` reads from the disk. -/
def OpenFile.KeepsRest (f : OpenFile) (len : Nat) : Prop :=
  0 < len → ∀ q, f.pos.toNat / 512 ≤ q → q * 512 < f.pos.toNat + len →
    (f.sectorValid = true ∧ q = f.pos.toNat / 512) ∨ f.size.toNat ≤ q * 512 ∨
    (f.pos.toNat ≤ q * 512 ∧ min f.size.toNat (q * 512 + 512) ≤ f.pos.toNat + len) ∨
    f.start.toNat + q < sectorCount f.size.toNat

/-- A content with bytes laid over it. -/
def contentPut (c : Nat → Byte) (pos len : Nat) (src : Nat → Byte) : Nat → Byte := fun i =>
  if pos ≤ i ∧ i < pos + len then src (i - pos) else c i

/-- The sectors `ofile_load_sector` counts. -/
theorem OpenFile.fileSectors_toNat (f : OpenFile) : f.fileSectors.toNat = sectorCount f.size.toNat := by
  have hlt := f.size.isLt
  have hdiv : (f.size / 512#32).toNat = f.size.toNat / 512 := by simp
  have hmod : (f.size % 512#32).toNat = f.size.toNat % 512 := by simp
  have hrem : f.size % 512#32 ≠ 0#32 ↔ f.size.toNat % 512 ≠ 0 := by
    rw [← hmod, ne_eq, ne_eq, ← BitVec.toNat_inj]
    rfl
  unfold OpenFile.fileSectors
  rw [BitVec.toNat_add, hdiv]
  unfold sectorCount
  by_cases h : f.size.toNat % 512 ≠ 0
  · rw [if_pos (hrem.2 h), show (1#32).toNat = 1 from rfl]
    lia
  · rw [if_neg (fun hc => h (hrem.1 hc)), show (0#32).toNat = 0 from rfl]
    lia

section Step

variable {f : OpenFile} {d : Disk} {c : Nat → Byte} {n left : Nat} (h : f.Draft d c n) (hpos : 0 < left)
  (hm : d.OnMedium f.start.toNat (sectorCount (f.pos.toNat + left))) (hsmall : f.pos.toNat + left < 2 ^ 32)
  (hkeep : f.KeepsRest left)

include hpos hm

/-- The sector of the position is on the medium. -/
theorem posLba_draft : f.posLba.toNat = f.start.toNat + f.pos.toNat / 512 ∧ d.OnMedium f.posLba.toNat 1 := by
  have hlt := hm.lt
  have hsec : f.pos.toNat / 512 < sectorCount (f.pos.toNat + left) := by unfold sectorCount; lia
  have hlba : f.posLba.toNat = f.start.toNat + f.pos.toNat / 512 := f.posLba_toNat (by lia)
  refine ⟨hlba, ?_⟩
  rw [hlba]
  exact ⟨by have := hm.1; lia, by have := hm.2; lia⟩

include h hkeep

/-- Loading the sector of the position: the bytes of it that the piece does not cover are in the buffer. -/
theorem load_draft : ∃ b s,
    ofileLoadSector f d f.posLba = ({ f with curLba := f.posLba, sectorValid := true, sectorDirty := b, sector := s }, d) ∧
    ∀ j < 512, f.pos.toNat / 512 * 512 + j < n → ¬(f.secOff ≤ j ∧ j < f.secOff + f.chunk left) →
      s j = c (f.pos.toNat / 512 * 512 + j) := by
  obtain ⟨hlba, hon⟩ := posLba_draft hpos hm
  have hcase := hkeep hpos (f.pos.toNat / 512) (Nat.le_refl _) (by omega)
  cases hv : f.sectorValid with
  | true =>
    obtain ⟨hd, hcur, -, hbuf⟩ := h.buffer hv
    refine ⟨f.sectorDirty, f.sector, ?_, fun j hj hjn _ => hbuf j hj hjn⟩
    unfold ofileLoadSector
    rw [hv, hcur, Bool.true_and, if_pos (by simp), ← hcur, ← hv]
  | false =>
    have hfl : ofileFlush f d = (f, d) := by simp [ofileFlush, hv]
    have hchunk : f.chunk left = min (512 - f.pos.toNat % 512) left := rfl
    have hoff : f.secOff = f.pos.toNat % 512 := rfl
    unfold ofileLoadSector
    rw [hv, Bool.false_and, if_neg (by decide), hfl]
    dsimp only
    split
    · -- the sector is zeroed: nothing of it is left uncovered
      rename_i hzero
      have hcount := f.fileSectors_toNat
      have hle : sectorCount n ≤ f.start.toNat + f.pos.toNat / 512 := by
        have := BitVec.le_def.1 hzero.2
        rw [hlba] at this
        rw [← h.size, ← hcount]
        exact this
      refine ⟨false, fun _ => 0#8, rfl, fun j hj hjn hout => ?_⟩
      clear hzero
      rw [h.size, hv] at hcase
      rcases hcase with hc | hc | hc | hc
      · exact absurd hc.1 (by decide)
      · omega
      · omega
      · omega
    · obtain ⟨hd, hb⟩ := @Disk.readSectors_byteAt d f.posLba 1#32 hon
      refine ⟨false, (d.readSectors f.posLba 1#32).2, by rw [hd], fun j hj hjn _ => ?_⟩
      rw [hb j (by rw [show (1#32).toNat = 1 from rfl]; omega), hlba, Nat.div_eq_of_lt hj, Nat.mod_eq_of_lt hj, Nat.add_zero]
      have hst := h.stored (f.pos.toNat / 512 * 512 + j) hjn (by rw [hv]; simp)
      have hdiv : (f.pos.toNat / 512 * 512 + j) / 512 = f.pos.toNat / 512 := by omega
      have hmod : (f.pos.toNat / 512 * 512 + j) % 512 = j := by omega
      rwa [hdiv, hmod] at hst

include hsmall

/-- The first half of an iteration lays its piece over the sector. -/
theorem fwriteFill_draft (src : Nat → Byte) : ∃ s size, fwriteFill f d src left = ({ f with
      curLba := f.posLba, sectorValid := true, sectorDirty := true, sector := s
      pos := f.pos + BitVec.ofNat 32 (f.chunk left), size := size }, d) ∧
    size.toNat = max n (f.pos.toNat + f.chunk left) ∧
    ∀ j < 512, f.pos.toNat / 512 * 512 + j < max n (f.pos.toNat + f.chunk left) →
      s j = contentPut c f.pos.toNat (f.chunk left) src (f.pos.toNat / 512 * 512 + j) := by
  obtain ⟨b, s, hload, hs⟩ := load_draft h hpos hm hkeep
  have hn := f.chunk_le left
  have hsec : f.chunk left ≤ 512 - f.pos.toNat % 512 := Nat.min_le_left _ _
  have hadd := f.pos_add_toNat (n := f.chunk left) (by lia)
  have hle := h.pos_le
  refine ⟨fun i => if f.secOff ≤ i ∧ i < f.secOff + f.chunk left then src (i - f.secOff) else s i,
    if f.size < f.pos + BitVec.ofNat 32 (f.chunk left) then f.pos + BitVec.ofNat 32 (f.chunk left) else f.size, ?_, ?_, ?_⟩
  · simp only [fwriteFill, hload]
  · have hsize := h.size
    split
    · rename_i hlt
      rw [BitVec.lt_def, hadd] at hlt
      rw [hadd]
      lia
    · rename_i hlt
      rw [BitVec.lt_def, hadd] at hlt
      lia
  · intro j hj hjn
    have hoff : f.secOff = f.pos.toNat % 512 := rfl
    dsimp only
    by_cases hin : f.secOff ≤ j ∧ j < f.secOff + f.chunk left
    · rw [if_pos hin, contentPut, if_pos (by lia)]
      refine congrArg src ?_
      lia
    · rw [if_neg hin, contentPut, if_neg (by lia)]
      exact hs j hj (by lia) hin

/-- One iteration of `SYS_FWRITE` lays its piece over the content. -/
theorem fwriteStep_draft (src : Nat → Byte) :
    (fwriteStep f d src left).1.Draft (fwriteStep f d src left).2 (contentPut c f.pos.toNat (f.chunk left) src)
      (max n (f.pos.toNat + f.chunk left)) ∧
    (fwriteStep f d src left).1.pos.toNat = f.pos.toNat + f.chunk left ∧
    SameFile f (fwriteStep f d src left).1 ∧ d.SameMedium (fwriteStep f d src left).2 := by
  obtain ⟨hlba, hon⟩ := posLba_draft hpos hm
  obtain ⟨s, size, hfill, hgsize, hs⟩ := fwriteFill_draft h hpos hm hsmall hkeep src
  have hgpos := f.pos_add_toNat (n := f.chunk left) (by have := f.chunk_le left; lia)
  have hn := f.chunk_le left
  have hn0 := f.chunk_pos hpos
  have hoff : f.secOff = f.pos.toNat % 512 := rfl
  have hchunk : f.chunk left = min (512 - f.pos.toNat % 512) left := rfl
  have hroom : d.OnMedium f.start.toNat (sectorCount (max n (f.pos.toNat + f.chunk left))) := by
    rcases Nat.le_total n (f.pos.toNat + f.chunk left) with hle | hle
    · rw [max_eq_right hle]
      have := sectorCount_mono (show f.pos.toNat + f.chunk left ≤ f.pos.toNat + left by lia)
      exact ⟨hm.1, by have := hm.2; lia⟩
    · rw [max_eq_left hle]
      exact h.room (by lia)
  have hle := h.pos_le
  -- every byte outside the sector of the piece is where it was
  have hold : ∀ i < max n (f.pos.toNat + f.chunk left), i / 512 ≠ f.pos.toNat / 512 →
      d.byteAt (f.start.toNat + i / 512) (i % 512) = contentPut c f.pos.toNat (f.chunk left) src i := by
    intro i hi hne
    rw [contentPut, if_neg (by lia)]
    exact h.stored i (by lia) (fun hc => hne hc.2)
  unfold fwriteStep
  rw [hfill]
  dsimp only
  rw [hoff]
  by_cases hend : f.pos.toNat % 512 + f.chunk left = 512
  · -- the sector is full: it goes to the disk and the buffer is dropped
    obtain ⟨hsame, hbytes⟩ := @Disk.writeSectors_byteAt d .handle f.posLba 1#32 s hon
    rw [if_pos hend]
    simp only [ofileFlush, Bool.not_true, Bool.or_self, Bool.false_eq_true, if_false]
    refine ⟨⟨h.writing, hgsize, ?_, fun _ => hsame.onMedium hroom, (fun hv => by cases hv), fun i hi _ => ?_⟩, hgpos, ⟨rfl, rfl⟩,
      hsame⟩
    · rw [hgpos]
      exact Nat.le_max_right _ _
    · have hone : (1#32).toNat = 1 := rfl
      have hsc : i / 512 < sectorCount (max n (f.pos.toNat + f.chunk left)) := by unfold sectorCount; lia
      have hmed : d.OnMedium (f.start.toNat + i / 512) 1 := ⟨by have := hroom.1; lia, by have := hroom.2; lia⟩
      dsimp only
      rw [hbytes _ _ hmed (Nat.mod_lt _ (by decide)), hlba, hone]
      by_cases hlast : i / 512 = f.pos.toNat / 512
      · have hi' : f.pos.toNat / 512 * 512 + i % 512 = i := by lia
        rw [if_pos (by lia), show f.start.toNat + i / 512 - (f.start.toNat + f.pos.toNat / 512) = 0 by lia, Nat.zero_mul,
          Nat.zero_add, hs _ (Nat.mod_lt _ (by decide)) (by lia), hi']
      · rw [if_neg (by lia)]
        exact hold i hi hlast
  · rw [if_neg hend]
    have hdiv : (f.pos + BitVec.ofNat 32 (f.chunk left)).toNat / 512 = f.pos.toNat / 512 := by lia
    refine ⟨⟨h.writing, hgsize, by dsimp only; lia, fun _ => hroom, fun _ => ⟨rfl, ?_, by dsimp only; lia, ?_⟩,
      fun i hi hnot => ?_⟩, hgpos, ⟨rfl, rfl⟩, .refl d⟩
    · rw [f.posLba_eq, OpenFile.posLba_eq]
      dsimp only
      rw [hdiv]
    · intro j hj hjn
      dsimp only at hjn ⊢
      rw [hdiv] at hjn ⊢
      exact hs j hj hjn
    · refine hold i hi (fun hc => hnot ⟨rfl, ?_⟩)
      dsimp only
      rw [hdiv]
      exact hc

end Step

/-- The rest of a write leaves no byte behind either. -/
theorem OpenFile.KeepsRest.next {f g : OpenFile} {left m : Nat} (h : f.KeepsRest left) (hm : m ≤ left)
    (hstart : g.start = f.start) (hpos : g.pos.toNat = f.pos.toNat + m) (hsize : g.size.toNat = max f.size.toNat (f.pos.toNat + m))
    (hend : m < left → f.pos.toNat % 512 + m = 512) : g.KeepsRest (left - m) := by
  intro hleft q hq hlt
  rw [hpos] at hq hlt
  rw [hpos, hsize, hstart]
  have hm' : m < left := by lia
  have hfull := hend hm'
  have hq' : f.pos.toNat + m ≤ q * 512 := by lia
  have hmono : sectorCount f.size.toNat ≤ sectorCount (max f.size.toNat (f.pos.toNat + m)) := sectorCount_mono (Nat.le_max_left _ _)
  rcases h (by lia) q (by lia) (by lia) with hc | hc | hc | hc
  · lia
  · exact Or.inr (Or.inl (by lia))
  · exact Or.inr (Or.inr (Or.inl (by lia)))
  · exact Or.inr (Or.inr (Or.inr (by lia)))

/-- Two writes one behind the other are one. -/
theorem contentPut_contentPut (c : Nat → Byte) (pos a b : Nat) (src : Nat → Byte) :
    contentPut (contentPut c pos a src) (pos + a) b (fun i => src (a + i)) = contentPut c pos (a + b) src := by
  funext i
  unfold contentPut
  by_cases h1 : pos + a ≤ i ∧ i < pos + a + b
  · rw [if_pos h1, if_pos (by lia)]
    refine congrArg src ?_
    lia
  · rw [if_neg h1]
    by_cases h2 : pos ≤ i ∧ i < pos + a
    · rw [if_pos h2, if_pos (by lia)]
    · rw [if_neg h2, if_neg (by lia)]

/-- `SYS_FWRITE` lays its bytes over the content. -/
theorem fwriteLoop_draft (fuel : Nat) : ∀ (f : OpenFile) (d : Disk) (c : Nat → Byte) (n : Nat) (src : Nat → Byte) (left : Nat),
    left ≤ fuel → f.Draft d c n → (0 < left → d.OnMedium f.start.toNat (sectorCount (f.pos.toNat + left))) →
    f.pos.toNat + left < 2 ^ 32 → f.KeepsRest left →
    (fwriteLoop fuel f d src left).1.Draft (fwriteLoop fuel f d src left).2 (contentPut c f.pos.toNat left src)
      (max n (f.pos.toNat + left)) ∧
    (fwriteLoop fuel f d src left).1.pos.toNat = f.pos.toNat + left ∧
    SameFile f (fwriteLoop fuel f d src left).1 ∧ d.SameMedium (fwriteLoop fuel f d src left).2 := by
  -- nothing left to write
  have hdone : ∀ (f : OpenFile) (d : Disk) (c : Nat → Byte) (n : Nat) (src : Nat → Byte), f.Draft d c n →
      f.Draft d (contentPut c f.pos.toNat 0 src) (max n (f.pos.toNat + 0)) ∧ f.pos.toNat = f.pos.toNat + 0 ∧ SameFile f f ∧
        d.SameMedium d := by
    intro f d c n src h
    have hc : contentPut c f.pos.toNat 0 src = c := by
      funext i
      rw [contentPut, if_neg (by lia)]
    rw [hc, Nat.add_zero, max_eq_left h.pos_le]
    exact ⟨h, rfl, ⟨rfl, rfl⟩, .refl d⟩
  induction fuel with
  | zero =>
    intro f d c n src left hfuel h _ _ _
    obtain rfl : left = 0 := by lia
    exact hdone f d c n src h
  | succ fuel ih =>
    intro f d c n src left hfuel h hm hsmall hkeep
    simp only [fwriteLoop]
    split
    · rename_i h0
      subst h0
      exact hdone f d c n src h
    · rename_i hne
      have hpos : 0 < left := Nat.pos_of_ne_zero hne
      have hn := f.chunk_le left
      have hn0 := f.chunk_pos hpos
      have hchunk : f.chunk left = min (512 - f.pos.toNat % 512) left := rfl
      obtain ⟨hstep, hp, hfile, hsame⟩ := fwriteStep_draft h hpos (hm hpos) hsmall hkeep src
      have hrest := hkeep.next hn hfile.1 hp (by rw [hstep.size, h.size]) (by lia)
      have heq : f.pos.toNat + f.chunk left + (left - f.chunk left) = f.pos.toNat + left := by lia
      obtain ⟨h1, h2, h3, h4⟩ := ih (fwriteStep f d src left).1 (fwriteStep f d src left).2 _ _ (fun i => src (f.chunk left + i))
        (left - f.chunk left) (by lia) hstep (fun _ => by rw [hfile.1, hp, heq]; exact hsame.onMedium (hm hpos))
        (by lia) hrest
      rw [hp, contentPut_contentPut, heq, Nat.add_sub_cancel' hn] at h1
      rw [hp, heq] at h2
      have hmax : max (max n (f.pos.toNat + f.chunk left)) (f.pos.toNat + left) = max n (f.pos.toNat + left) := by lia
      rw [hmax] at h1
      exact ⟨h1, h2, ⟨h3.1.trans hfile.1, h3.2.trans hfile.2⟩, hsame.trans h4⟩

/-- Writing the buffer out puts the whole content on the disk. -/
theorem OpenFile.Draft.flush {f : OpenFile} {d : Disk} {c : Nat → Byte} {n : Nat} (h : f.Draft d c n) :
    d.SameMedium (ofileFlush f d).2 ∧ ∀ i < n, (ofileFlush f d).2.byteAt (f.start.toNat + i / 512) (i % 512) = c i := by
  cases hv : f.sectorValid with
  | false =>
    have heq : ofileFlush f d = (f, d) := by simp [ofileFlush, hv]
    rw [heq]
    exact ⟨.refl d, fun i hi => h.stored i hi (by rw [hv]; simp)⟩
  | true =>
    obtain ⟨hd, hcur, hmid, hbuf⟩ := h.buffer hv
    have hle := h.pos_le
    have hon := h.room (by lia)
    have hsec : f.pos.toNat / 512 < sectorCount n := by unfold sectorCount; lia
    have hlba : f.posLba.toNat = f.start.toNat + f.pos.toNat / 512 := f.posLba_toNat (by have := hon.lt; lia)
    have hone : (1#32).toNat = 1 := rfl
    have hon1 : d.OnMedium f.curLba.toNat (1#32).toNat := by
      rw [hcur, hlba, hone]
      exact ⟨by have := hon.1; lia, by have := hon.2; lia⟩
    have heq : (ofileFlush f d).2 = d.writeSectors .handle f.curLba 1#32 f.sector := by simp [ofileFlush, hv, hd]
    obtain ⟨hsame, hbytes⟩ := d.writeSectors_byteAt .handle f.sector hon1
    rw [heq]
    refine ⟨hsame, fun i hi => ?_⟩
    have hsec' : i / 512 < sectorCount n := by unfold sectorCount; lia
    have hmed : d.OnMedium (f.start.toNat + i / 512) 1 := ⟨by have := hon.1; lia, by have := hon.2; lia⟩
    rw [hbytes _ _ hmed (Nat.mod_lt _ (by decide)), hcur, hlba, hone]
    by_cases hlast : i / 512 = f.pos.toNat / 512
    · have hi' : f.pos.toNat / 512 * 512 + i % 512 = i := by lia
      rw [if_pos (by lia), show f.start.toNat + i / 512 - (f.start.toNat + f.pos.toNat / 512) = 0 by lia, Nat.zero_mul,
        Nat.zero_add, hbuf _ (Nat.mod_lt _ (by decide)) (by lia), hi']
    · rw [if_neg (by lia)]
      exact h.stored i hi (fun hc => hlast hc.2)

/-! ## Operations -/

/-- The bytes of an array with bytes put in. -/
theorem putAt_getD {bs new : List Byte} {pos : Nat} (hpos : pos ≤ bs.length) :
    (putAt bs pos new).length = max bs.length (pos + new.length) ∧
    ∀ i, (putAt bs pos new).getD i 0#8 = contentPut (fun j => bs.getD j 0#8) pos new.length (fun j => new.getD j 0#8) i := by
  constructor
  · simp only [putAt, List.length_append, List.length_take, List.length_drop]
    lia
  · intro i
    have htake : (bs.take pos).length = pos := by rw [List.length_take, Nat.min_eq_left hpos]
    have hhead : (bs.take pos ++ new).length = pos + new.length := by rw [List.length_append, htake]
    unfold putAt contentPut
    by_cases h1 : i < pos
    · rw [if_neg (by lia), List.append_assoc, List.getD_append _ _ _ _ (by lia)]
      simp [List.getD_eq_getElem?_getD, h1]
    · by_cases h2 : i < pos + new.length
      · rw [if_pos ⟨by lia, h2⟩, List.getD_append _ _ _ _ (by lia), List.getD_append_right _ _ _ _ (by lia), htake]
      · rw [if_neg (by lia), List.getD_append_right _ _ _ _ (by lia), hhead]
        simp only [List.getD_eq_getElem?_getD, List.getElem?_drop]
        rw [show pos + new.length + (i - (pos + new.length)) = i by lia]

/-- Only the bytes of the content count. -/
theorem OpenFile.Draft.congr {f : OpenFile} {d : Disk} {c c' : Nat → Byte} {n : Nat} (h : f.Draft d c n) (hc : ∀ i < n, c' i = c i) :
    f.Draft d c' n := by
  refine { h with buffer := fun hv => ?_, stored := fun i hi hnot => ?_ }
  · obtain ⟨h1, h2, h3, h4⟩ := h.buffer hv
    refine ⟨h1, h2, h3, fun j hj hjn => ?_⟩
    rw [hc _ hjn]
    exact h4 j hj hjn
  · rw [hc i hi]
    exact h.stored i hi hnot

/-- The kernel has an array in writing through a handle, from where it was opened. -/
structure Drafting (k₀ k : Kernel) (i : Fin openMax) (a : ByteFile) : Prop where
  draft : (k.ofiles i).Draft k.fs.disk (fun j => a.bytes.getD j 0#8) a.bytes.length
  pos : (k.ofiles i).pos.toNat = a.pos
  file : SameFile (k₀.ofiles i) (k.ofiles i)
  medium : k₀.fs.disk.SameMedium k.fs.disk
  dir : k.fs.dir = k₀.fs.dir

/-- A `SYS_FWRITE` fits the disk and leaves no byte behind. -/
def WritesSafely (k : Kernel) (r : Request) : Prop :=
  ∀ fd off len i, r.call = .fwrite fd off len → getOfile k.ofiles fd = some i → userRangeOk off len = true → 0 < len.toNat →
    (k.ofiles i).start.toNat + sectorCount ((k.ofiles i).pos.toNat + len.toNat) ≤ k.fs.disk.limit ∧
    (k.ofiles i).pos.toNat + len.toNat < 2 ^ 32 ∧ (k.ofiles i).KeepsRest len.toNat

/-- A safe `SYS_FWRITE` does to the file what it does to the array. -/
theorem Drafting.write {k₀ k : Kernel} {i : Fin openMax} {a : ByteFile} (h : Drafting k₀ k i a)
    (hdata : fsDataLba ≤ (k₀.ofiles i).start.toNat) (um : UserMem) (off len : U32)
    (hsafe : WritesSafely k ⟨um, .fwrite (BitVec.ofNat 32 (i.val + 3)) off len⟩) :
    Drafting k₀ (k.sysFwrite um (BitVec.ofNat 32 (i.val + 3)) off len).1 i (a.apply (.write um off len)) := by
  have hfd := getOfile_ofNat h.draft.writing.1
  simp only [ByteFile.apply]
  by_cases hr : userRangeOk off len = true
  · rw [if_pos hr]
    set new := (List.range len.toNat).map fun j => um (off.toNat + j) with hnew
    have hlen : new.length = len.toNat := by simp [hnew]
    have hle : a.pos ≤ a.bytes.length := h.pos ▸ h.draft.pos_le
    obtain ⟨hput, hgetD⟩ := @putAt_getD _ new _ hle
    rw [hlen] at hput hgetD
    by_cases h0 : len = 0#32
    · have heq : (k.sysFwrite um (BitVec.ofNat 32 (i.val + 3)) off len).1 = k := by
        have hr' : userRangeOk off 0#32 = true := h0 ▸ hr
        simp [Kernel.sysFwrite, hr', hfd, h.draft.writing.2, h0]
      have hnil : new = [] := by rw [hnew, h0]; rfl
      have hsame : putAt a.bytes a.pos new = a.bytes := by rw [hnil]; simp [putAt]
      rw [heq, hsame, h0]
      exact h
    · have heq : (k.sysFwrite um (BitVec.ofNat 32 (i.val + 3)) off len).1 =
          k.setIo i (fwriteLoop len.toNat (k.ofiles i) k.fs.disk (fun j => um (off.toNat + j)) len.toNat).1
            (fwriteLoop len.toNat (k.ofiles i) k.fs.disk (fun j => um (off.toNat + j)) len.toNat).2 := by
        simp [Kernel.sysFwrite, hr, hfd, h.draft.writing.2, h0]
      have hlen0 : 0 < len.toNat := Nat.pos_of_ne_zero (fun hz => h0 (BitVec.eq_of_toNat_eq hz))
      obtain ⟨hfit, hsmall, hkeep⟩ := hsafe _ off len i rfl hfd hr hlen0
      have hdirdata : fsDirLba ≤ fsDataLba := by decide
      have hstart := h.file.1
      obtain ⟨h1, h2, h3, h4⟩ := fwriteLoop_draft len.toNat (k.ofiles i) k.fs.disk _ _ (fun j => um (off.toNat + j)) len.toNat
        (Nat.le_refl _) h.draft (fun _ => ⟨by rw [hstart]; omega, hfit⟩) hsmall hkeep
      rw [h.pos, ← hput] at h1
      rw [heq]
      refine ⟨?_, ?_, ?_, h.medium.trans h4, h.dir⟩
      · have hcongr := @OpenFile.Draft.congr _ _ _ (fun j => (putAt a.bytes a.pos new).getD j 0#8) _ h1 (fun j _ => by
          rw [hgetD]
          unfold contentPut
          split
          · rename_i hin
            simp [hnew, List.getD_eq_getElem?_getD, show j - a.pos < len.toNat by omega]
          · rfl)
        simpa [Kernel.setIo] using hcongr
      · simpa [Kernel.setIo, ← h.pos] using h2
      · simpa [Kernel.setIo] using ⟨h3.1.trans h.file.1, h3.2.trans h.file.2⟩
  · have heq : (k.sysFwrite um (BitVec.ofNat 32 (i.val + 3)) off len).1 = k := by simp [Kernel.sysFwrite, hr]
    rw [if_neg hr, heq]
    exact h

/-- `SYS_SEEK` does to the file what it does to the array. -/
theorem Drafting.seek {k₀ k : Kernel} {i : Fin openMax} {a : ByteFile} (h : Drafting k₀ k i a) (p : U32) :
    Drafting k₀ (k.sysSeek (BitVec.ofNat 32 (i.val + 3)) p).1 i (a.apply (.seek p)) := by
  have hfd := getOfile_ofNat h.draft.writing.1
  obtain ⟨hsame, hbytes⟩ := h.draft.flush
  have hpos : ((k.ofiles i).seekPos p).toNat = min (max p.toInt 0).toNat a.bytes.length := by
    rw [OpenFile.seekPos_toNat, h.draft.size]
  have heq : (k.sysSeek (BitVec.ofNat 32 (i.val + 3)) p).1 = k.setIo i
      { k.ofiles i with pos := (k.ofiles i).seekPos p, sectorValid := false, sectorDirty := false }
      (ofileFlush (k.ofiles i) k.fs.disk).2 := by
    obtain ⟨b, hb⟩ := ofileFlush_fst (k.ofiles i) k.fs.disk
    simp [Kernel.sysSeek, hfd, h.draft.writing.2, hb, OpenFile.seekPos]
  rw [heq]
  refine ⟨?_, ?_, ?_, h.medium.trans hsame, h.dir⟩
  · simp only [Kernel.setIo, if_true, ByteFile.apply]
    refine ⟨h.draft.writing, h.draft.size, ?_, fun h0 => hsame.onMedium (h.draft.room h0), (fun hv => by cases hv), fun j hj _ => ?_⟩
    · dsimp only
      rw [hpos]
      exact Nat.min_le_right _ _
    · exact hbytes j hj
  · simpa [Kernel.setIo, ByteFile.apply] using hpos
  · simp only [Kernel.setIo, if_true]
    exact h.file

/-- Along every sequence of safe operations the file is the array. -/
theorem Drafting.run {k₀ : Kernel} {i : Fin openMax} (hdata : fsDataLba ≤ (k₀.ofiles i).start.toNat) (ops : List HandleOp) :
    ∀ {k : Kernel} {a : ByteFile}, Drafting k₀ k i a →
      Meets Kernel.step WritesSafely k (ops.map (HandleOp.request (BitVec.ofNat 32 (i.val + 3)))) →
      Drafting k₀ (runFrom Kernel.step k (ops.map (HandleOp.request (BitVec.ofNat 32 (i.val + 3))))) i (ops.foldl ByteFile.apply a) := by
  induction ops with
  | nil => intro k a h _; exact h
  | cons op ops ih =>
    intro k a h hm
    refine ih ?_ hm.2
    cases op with
    | write um off len => exact h.write hdata um off len hm.1
    | seek p => exact h.seek p

/-! ## Open, write anywhere, close -/

/-- The kernel after opening a name for writing, the operations, and closing. -/
def Kernel.writeAnywhere (k : Kernel) (um : UserMem) (nameOff : U32) (ops : List HandleOp) : Kernel :=
  let fd := (k.sysOpen um nameOff 1#32).2
  ((runFrom Kernel.step (k.sysOpen um nameOff 1#32).1 (ops.map (HandleOp.request fd))).sysClose fd).1

/-- The array the operations give, from an empty one. -/
def arrayOf (ops : List HandleOp) : List Byte := (ops.foldl ByteFile.apply ⟨[], 0⟩).bytes

/-- Loading the file written by the operations returns the array they give. -/
def RandomAccess (k : Kernel) (um : UserMem) (nameOff : U32) (s : List Byte) (ops : List HandleOp) : Prop :=
  LoadsBack (k.writeAnywhere um nameOff ops) s (BitVec.ofNat 32 (arrayOf ops).length) (fun j => (arrayOf ops).getD j 0#8)

/-- A handle just opened for writing holds the empty array. -/
theorem drafting_sysOpen {k : Kernel} {i : Fin openMax} {idx : Nat} {start : U32} (h : (k.ofiles i) = writeHandle idx start) :
    Drafting k k i ⟨[], 0⟩ := by
  refine ⟨?_, by rw [h]; rfl, ⟨rfl, rfl⟩, .refl _, rfl⟩
  rw [h]
  refine ⟨⟨rfl, rfl⟩, rfl, Nat.le_refl _, fun h0 => absurd h0 (Nat.lt_irrefl 0), (fun hv => by cases hv), fun j hj _ => ?_⟩
  exact absurd hj (Nat.not_lt_zero j)

/-- A file opened for writing under a name of one to fifteen characters: after every sequence of writes and seeks whose writes
each fit the disk and leave no byte behind, closing it makes the array of these operations what is loaded. -/
theorem random_access_of_writesSafely (k : Kernel) (hwild : k.fs.disk.wild = false) (s : List Byte) (hs : IsName s) (hne : s ≠ [])
    (hl : s.length ≤ openNameLen) (um : UserMem) (nameOff : U32) (hname : nameAt um nameOff = some s)
    (hopen : (k.sysOpen um nameOff 1#32).2 ≠ fail) (ops : List HandleOp)
    (hm : Meets Kernel.step WritesSafely (k.sysOpen um nameOff 1#32).1
      (ops.map (HandleOp.request (k.sysOpen um nameOff 1#32).2))) :
    RandomAccess k um nameOff s ops := by
  rcases sysOpen_cases k um nameOff 1#32 with heq | ⟨s', i, hs', hi, hcase⟩
  · rw [heq] at hopen
    exact absurd rfl hopen
  obtain rfl : s = s' := Option.some.inj (hname.symm.trans hs')
  rcases hcase with heq | ⟨idx, h0, -⟩ | ⟨idx, start, -, hp, heq⟩
  · rw [heq] at hopen
    exact absurd rfl hopen
  · exact absurd h0 (by decide)
  · unfold RandomAccess Kernel.writeAnywhere
    rw [heq] at hm ⊢
    dsimp only at hm ⊢
    set dir := k.fs.dir.set idx (openEntry (k.fs.dir.get idx) (normalizeName s) start) with hdir
    set k1 : Kernel := Kernel.setOfile ⟨Fs.syncDir ⟨dir, k.fs.disk⟩, k.ofiles⟩ i (writeHandle idx start) with hk1
    obtain ⟨hidx, hdata, -⟩ := openPlace_some hp
    obtain ⟨hsame1, -⟩ := Fs.syncDir_byteAt ⟨dir, k.fs.disk⟩
    have hf1 : k1.ofiles i = writeHandle idx start := by simp [hk1, Kernel.setOfile]
    have hdata1 : fsDataLba ≤ (k1.ofiles i).start.toNat := by rw [hf1]; exact hdata
    have h2 := (drafting_sysOpen hf1).run hdata1 ops hm
    set a := ops.foldl ByteFile.apply ⟨[], 0⟩ with ha
    set k2 := runFrom Kernel.step k1 (ops.map (HandleOp.request (BitVec.ofNat 32 (i.val + 3)))) with hk2
    have hstart : (k2.ofiles i).start = start := by rw [h2.file.1, hf1]; rfl
    have hindex : (k2.ofiles i).dirIndex = idx := by rw [h2.file.2, hf1]; rfl
    have hn : (BitVec.ofNat 32 a.bytes.length).toNat = a.bytes.length := by
      rw [BitVec.toNat_ofNat, ← h2.draft.size, Nat.mod_eq_of_lt (k2.ofiles i).size.isLt]
    have hsize : (k2.ofiles i).size = BitVec.ofNat 32 a.bytes.length := by
      refine BitVec.eq_of_toNat_eq ?_
      rw [hn, h2.draft.size]
    obtain ⟨hdir', hsame', hbytes'⟩ := close_spec h2.draft.writing (by rw [hstart]; exact hdata) h2.draft.room h2.draft.flush
    have hsame : k.fs.disk.SameMedium (k2.sysClose (BitVec.ofNat 32 (i.val + 3))).1.fs.disk :=
      (hsame1.trans h2.medium).trans hsame'
    have hentry : (k2.sysClose (BitVec.ofNat 32 (i.val + 3))).1.fs.dir =
        k.fs.dir.set idx (handleEntry k s idx start (BitVec.ofNat 32 a.bytes.length)) := by
      have hdir2 : k2.fs.dir = dir := h2.dir
      rw [hdir', hindex, hdir2, hdir, Dir.get_set_self _ hidx, Dir.set_set]
      simp only [closeEntry, hstart, hsize, handleEntry, openEntry]
    refine loadsBack_handleEntry hs hne hl hp hentry hsame hwild (fun h0 => ?_) (fun j hj => ?_)
    · rw [hn] at h0 ⊢
      have hroom := (h2.draft.room h0).2
      rw [hstart, (hsame1.trans h2.medium).limit] at hroom
      exact hroom
    · rw [hn] at hj
      rw [← hstart]
      exact hbytes' j hj

/-- A write that fits and covers all there is leaves nothing behind. -/
theorem Drafting.writesSafely {k₀ k : Kernel} {i : Fin openMax} {a : ByteFile} (h : Drafting k₀ k i a) (um : UserMem) {off len : U32}
    (hfit : (k₀.ofiles i).start.toNat + sectorCount (a.pos + len.toNat) ≤ k₀.fs.disk.limit) (hsmall : a.pos + len.toNat < 2 ^ 32)
    (hcover : a.pos = 0 ∧ a.bytes.length ≤ len.toNat) : WritesSafely k ⟨um, .fwrite (BitVec.ofNat 32 (i.val + 3)) off len⟩ := by
  intro fd off' len' j hcall hj _ _
  simp only [Call.fwrite.injEq] at hcall
  obtain ⟨rfl, rfl, rfl⟩ := hcall
  obtain rfl : i = j := Option.some.inj ((getOfile_ofNat h.draft.writing.1).symm.trans hj)
  rw [h.pos, h.file.1, h.medium.limit]
  refine ⟨hfit, hsmall, fun _ q _ _ => Or.inr ?_⟩
  rw [h.draft.size, h.pos]
  omega

/-- The rule at work: three bytes written, and written again from the start. -/
theorem random_access_of_writesSafely_twice :
    RandomAccess emptyKernel (letterMem "A") 0#32 (asciiBytes "A")
      [.write (letterMem "A") 64#32 3#32, .seek 0#32, .write (letterMem "A") 64#32 3#32] := by
  have hopen : emptyKernel.sysOpen (letterMem "A") 0#32 1#32 = (Kernel.setOfile ⟨Fs.syncDir ⟨emptyKernel.fs.dir.set 0
      (openEntry (emptyKernel.fs.dir.get 0) (normalizeName (asciiBytes "A")) 201#32), emptyKernel.fs.disk⟩, emptyKernel.ofiles⟩
      ⟨0, by decide⟩ (writeHandle 0 201#32), 3#32) := by
    have hname : nameAt (letterMem "A") 0#32 = some (asciiBytes "A") := by decide
    have hi : allocFd emptyKernel.ofiles = some ⟨0, by decide⟩ := by decide
    have hp : openPlace emptyKernel.fs.dir (normalizeName (asciiBytes "A")) = some (0, 201#32) := by decide +kernel
    simp [Kernel.sysOpen, hname, hi, hp, writeHandle]
  refine random_access_of_writesSafely emptyKernel rfl (asciiBytes "A") (by unfold IsName; decide) (by decide) (by decide) _ _
    (by decide) (by rw [hopen]; decide) _ ?_
  rw [hopen]
  dsimp only
  generalize hk1 : Kernel.setOfile ⟨Fs.syncDir ⟨emptyKernel.fs.dir.set 0 (openEntry (emptyKernel.fs.dir.get 0)
    (normalizeName (asciiBytes "A")) 201#32), emptyKernel.fs.disk⟩, emptyKernel.ofiles⟩ ⟨0, by decide⟩ (writeHandle 0 201#32) = k1
  have hf1 : k1.ofiles ⟨0, by decide⟩ = writeHandle 0 201#32 := by rw [← hk1]; rfl
  have hlimit : k1.fs.disk.limit = 237 := by
    rw [← hk1]
    exact (Fs.syncDir_byteAt _).1.limit
  have hdata : fsDataLba ≤ (k1.ofiles ⟨0, by decide⟩).start.toNat := by rw [hf1]; decide
  have hfit : (k1.ofiles ⟨0, by decide⟩).start.toNat + sectorCount (0 + (3#32).toNat) ≤ k1.fs.disk.limit := by
    rw [hf1, hlimit]
    decide
  have h1 := drafting_sysOpen hf1
  have hw1 := @Drafting.writesSafely _ _ _ _ h1 (letterMem "A") 64#32 3#32 hfit (by decide) ⟨rfl, by decide⟩
  have h2 := (h1.write hdata _ _ _ hw1).seek 0#32
  have hw3 := @Drafting.writesSafely _ _ _ _ h2 (letterMem "A") 64#32 3#32 hfit (by decide) ⟨rfl, by decide⟩
  refine ⟨hw1, ?_, hw3, trivial⟩
  intro fd off len j hcall
  cases hcall

/-- One byte written, a seek to behind it, and one more byte written: the first byte is lost. -/
theorem random_access_false :
    ¬∀ (k : Kernel), k.fs.disk.wild = false → ∀ (s : List Byte), IsName s → s.length ≤ openNameLen → ∀ (um : UserMem) (nameOff : U32),
      nameAt um nameOff = some s → (k.sysOpen um nameOff 1#32).2 ≠ fail → ∀ ops : List HandleOp, RandomAccess k um nameOff s ops := by
  intro h
  have hra := h emptyKernel rfl (asciiBytes "A") (by unfold IsName; decide) (by decide) (letterMem "A") 0#32 (by decide)
    (by decide +kernel) [.write (letterMem "A") 64#32 1#32, .seek 1#32, .write (letterMem "A") 64#32 1#32]
    (letterMem "A") 0#32 128#32 2#32 (by decide) (by decide) (by decide)
  have hbyte := hra.2.1 0 (by decide)
  have hload : ((emptyKernel.writeAnywhere (letterMem "A") 0#32
      [.write (letterMem "A") 64#32 1#32, .seek 1#32, .write (letterMem "A") 64#32 1#32]).sysLoad (letterMem "A") 0#32 128#32 2#32).2.1
      ((128#32).toNat + 0) = 0#8 := by decide +kernel
  rw [hload] at hbyte
  exact absurd hbyte (by decide)

end MiniOs32
