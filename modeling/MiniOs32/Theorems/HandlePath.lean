import MiniOs32.Theorems.SaveLoad

/-!
# Writing through a handle

A file written piece by piece through a handle ends up, once the handle is closed, as one whole-file save would leave it.
What carries the proof is the state between two pieces: the whole sectors written so far are on the disk, and the last,
unfinished one is in the handle's buffer. `SYS_OPEN` records 15 characters of the name where `SYS_SAVE` records 47, so the
two paths agree for names of one to fifteen characters and for no others.
-/

namespace MiniOs32

/-! ## Between two pieces -/

/-- The first `p` bytes of a content have been written through the handle, one after the other. -/
structure Holds (f : OpenFile) (d : Disk) (c : Nat → Byte) (p : Nat) : Prop where
  writing : f.used = true ∧ f.mode = .write
  pos : f.pos.toNat = p
  size : f.size.toNat = p
  whole : ∀ i, i / 512 < p / 512 → d.byteAt (f.start.toNat + i / 512) (i % 512) = c i
  clean : p % 512 = 0 → f.sectorValid = false
  buffer : p % 512 ≠ 0 → f.sectorValid = true ∧ f.sectorDirty = true ∧ f.curLba = f.posLba ∧
    ∀ j < p % 512, f.sector j = c (p / 512 * 512 + j)

/-- Two handles on the same run of the same entry. -/
def SameFile (f g : OpenFile) : Prop := g.start = f.start ∧ g.dirIndex = f.dirIndex

/-- The handle after the sector of its position has been loaded: the buffer is on that sector, what was in it is still there,
and the disk is as it was. -/
theorem load_holds {f : OpenFile} {d : Disk} {c : Nat → Byte} {p : Nat} (h : Holds f d c p)
    (hm : d.OnMedium f.posLba.toNat 1) :
    ∃ b s, ofileLoadSector f d f.posLba = ({ f with curLba := f.posLba, sectorValid := true, sectorDirty := b, sector := s }, d) ∧
      ∀ j < p % 512, s j = c (p / 512 * 512 + j) := by
  by_cases hp : p % 512 = 0
  · have hv := h.clean hp
    have hfl : ofileFlush f d = (f, d) := by simp [ofileFlush, hv]
    unfold ofileLoadSector
    rw [hv, Bool.false_and, if_neg (by decide), hfl]
    dsimp only
    split
    · exact ⟨_, _, rfl, fun j hj => by omega⟩
    · have hon : d.OnMedium f.posLba.toNat (1#32).toNat := hm
      obtain ⟨hd, -⟩ := d.readSectors_byteAt hon
      refine ⟨false, (d.readSectors f.posLba 1#32).2, ?_, fun j hj => by omega⟩
      rw [hd]
  · obtain ⟨hv, hd, hcur, hbuf⟩ := h.buffer hp
    refine ⟨f.sectorDirty, f.sector, ?_, hbuf⟩
    unfold ofileLoadSector
    rw [hv, hcur, Bool.true_and, if_pos (by simp), ← hcur, ← hv]

section Step

variable {f : OpenFile} {d : Disk} {c : Nat → Byte} {p left : Nat} (h : Holds f d c p) (hpos : 0 < left)
  (hm : d.OnMedium f.start.toNat (sectorCount (p + left))) {src : Nat → Byte} (hsrc : ∀ i < left, src i = c (p + i))
  (hsmall : p + left < 2 ^ 32)

include h hpos hm

/-- The sector of the position is on the medium. -/
theorem posLba_holds : f.posLba.toNat = f.start.toNat + p / 512 ∧ d.OnMedium f.posLba.toNat 1 := by
  have hlt := hm.lt
  have hsec : p / 512 < sectorCount (p + left) := by unfold sectorCount; lia
  have hlba : f.posLba.toNat = f.start.toNat + p / 512 := by
    rw [f.posLba_toNat (by rw [h.pos]; lia), h.pos]
  refine ⟨hlba, ?_⟩
  rw [hlba]
  exact ⟨by have := hm.1; lia, by have := hm.2; lia⟩

include hsrc hsmall

/-- The first half of an iteration adds its piece to the buffer. -/
theorem fwriteFill_holds : ∃ s, fwriteFill f d src left = ({ f with
      curLba := f.posLba, sectorValid := true, sectorDirty := true, sector := s
      pos := BitVec.ofNat 32 (p + f.chunk left), size := BitVec.ofNat 32 (p + f.chunk left) }, d) ∧
    (∀ j < p % 512 + f.chunk left, s j = c (p / 512 * 512 + j)) := by
  obtain ⟨hlba, hon⟩ := posLba_holds h hpos hm
  obtain ⟨b, s, hload, hs⟩ := load_holds h hon
  have hn := f.chunk_le left
  have hn0 := f.chunk_pos hpos
  have hoff : f.secOff = p % 512 := by rw [OpenFile.secOff, h.pos]
  have hadd : f.pos + BitVec.ofNat 32 (f.chunk left) = BitVec.ofNat 32 (p + f.chunk left) := by
    refine BitVec.eq_of_toNat_eq ?_
    rw [f.pos_add_toNat (by rw [h.pos]; omega), h.pos, BitVec.toNat_ofNat, Nat.mod_eq_of_lt (by omega)]
  have hgrow : f.size < BitVec.ofNat 32 (p + f.chunk left) := by
    rw [BitVec.lt_def, h.size, BitVec.toNat_ofNat, Nat.mod_eq_of_lt (by omega)]
    omega
  refine ⟨fun i => if f.secOff ≤ i ∧ i < f.secOff + f.chunk left then src (i - f.secOff) else s i, ?_, fun j hj => ?_⟩
  · simp only [fwriteFill, hload, hadd, if_pos hgrow]
  · dsimp only
    rw [hoff]
    split
    · rw [hsrc _ (by omega)]
      refine congrArg c ?_
      omega
    · exact hs j (by omega)

/-- One iteration of `SYS_FWRITE` writes its piece behind what is there. -/
theorem fwriteStep_holds : Holds (fwriteStep f d src left).1 (fwriteStep f d src left).2 c (p + f.chunk left) ∧
    SameFile f (fwriteStep f d src left).1 ∧ d.SameMedium (fwriteStep f d src left).2 := by
  obtain ⟨hlba, hon⟩ := posLba_holds h hpos hm
  obtain ⟨s, hfill, hs⟩ := fwriteFill_holds h hpos hm hsrc hsmall
  have hn := f.chunk_le left
  have hn0 := f.chunk_pos hpos
  have hoff : f.secOff = p % 512 := by rw [OpenFile.secOff, h.pos]
  have hchunk : f.chunk left = min (512 - p % 512) left := by rw [OpenFile.chunk, hoff]
  have hword : (BitVec.ofNat 32 (p + f.chunk left)).toNat = p + f.chunk left := by
    rw [BitVec.toNat_ofNat, Nat.mod_eq_of_lt (by lia)]
  unfold fwriteStep
  rw [hfill, hoff]
  dsimp only
  by_cases hend : p % 512 + f.chunk left = 512
  · -- the sector is full: it goes to the disk and the buffer is dropped
    rw [if_pos hend]
    simp only [ofileFlush, Bool.not_true, Bool.or_self, Bool.false_eq_true, if_false]
    have hon' : d.OnMedium f.posLba.toNat (1#32).toNat := hon
    obtain ⟨hsame, hbytes⟩ := d.writeSectors_byteAt .handle s hon'
    refine ⟨⟨h.writing, hword, hword, fun i hi => ?_, fun _ => rfl, fun hne => by lia⟩, ⟨rfl, rfl⟩, hsame⟩
    have hone : (1#32).toNat = 1 := rfl
    have hi' : i / 512 ≤ p / 512 := by lia
    have hmed : d.OnMedium (f.start.toNat + i / 512) 1 := by
      have h1 := hm.1
      have h2 := hon.2
      exact ⟨by lia, by lia⟩
    dsimp only
    rw [hbytes _ _ hmed (Nat.mod_lt _ (by decide)), hlba, hone]
    by_cases hlast : i / 512 = p / 512
    · rw [if_pos (by lia), show f.start.toNat + i / 512 - (f.start.toNat + p / 512) = 0 by lia, Nat.zero_mul, Nat.zero_add,
        hs _ (by have := Nat.mod_lt i (show 0 < 512 by decide); lia)]
      refine congrArg c ?_
      lia
    · rw [if_neg (by lia)]
      exact h.whole i (by lia)
  · rw [if_neg hend]
    have hdiv : (p + f.chunk left) / 512 = p / 512 := by lia
    have hmod : (p + f.chunk left) % 512 = p % 512 + f.chunk left := by lia
    refine ⟨⟨h.writing, hword, hword, fun i hi => h.whole i (by lia), fun h0 => by lia, fun _ => ⟨rfl, rfl, ?_, ?_⟩⟩,
      ⟨rfl, rfl⟩, .refl d⟩
    · change f.posLba = f.start + BitVec.ofNat 32 (p + f.chunk left) / 512#32
      refine BitVec.eq_of_toNat_eq ?_
      rw [hlba, BitVec.toNat_add, BitVec.toNat_udiv, hword, show (512#32).toNat = 512 from rfl, hdiv]
      exact (Nat.mod_eq_of_lt (by have := hon.lt; lia)).symm
    · intro j hj
      rw [hdiv]
      exact hs j (by lia)

end Step

/-- `SYS_FWRITE` writes its bytes behind what is there. -/
theorem fwriteLoop_holds {c : Nat → Byte} (fuel : Nat) : ∀ (f : OpenFile) (d : Disk) (src : Nat → Byte) (p left : Nat),
    left ≤ fuel → Holds f d c p → (0 < left → d.OnMedium f.start.toNat (sectorCount (p + left))) →
    (∀ i < left, src i = c (p + i)) → p + left < 2 ^ 32 →
    Holds (fwriteLoop fuel f d src left).1 (fwriteLoop fuel f d src left).2 c (p + left) ∧
    SameFile f (fwriteLoop fuel f d src left).1 ∧ d.SameMedium (fwriteLoop fuel f d src left).2 := by
  induction fuel with
  | zero =>
    intro f d src p left hfuel h _ _ _
    obtain rfl : left = 0 := by lia
    exact ⟨h, ⟨rfl, rfl⟩, .refl d⟩
  | succ fuel ih =>
    intro f d src p left hfuel h hm hsrc hsmall
    simp only [fwriteLoop]
    split
    · rename_i h0
      subst h0
      exact ⟨h, ⟨rfl, rfl⟩, .refl d⟩
    · rename_i hne
      have hpos : 0 < left := Nat.pos_of_ne_zero hne
      have hn := f.chunk_le left
      have hn0 := f.chunk_pos hpos
      obtain ⟨hstep, hfile, hsame⟩ := fwriteStep_holds h hpos (hm hpos) hsrc hsmall
      have heq : p + f.chunk left + (left - f.chunk left) = p + left := by lia
      obtain ⟨h1, h2, h3⟩ := ih (fwriteStep f d src left).1 (fwriteStep f d src left).2 (fun i => src (f.chunk left + i))
        (p + f.chunk left) (left - f.chunk left) (by lia) hstep
        (fun _ => by rw [hfile.1, heq]; exact hsame.onMedium (hm hpos))
        (fun i hi => by rw [hsrc _ (by lia), Nat.add_assoc]) (by lia)
      rw [heq] at h1
      exact ⟨h1, ⟨h2.1.trans hfile.1, h2.2.trans hfile.2⟩, hsame.trans h3⟩

/-! ## Pieces -/

/-- One `SYS_FWRITE`: the memory of the program at the call, and a range it accepts. -/
structure Piece where
  um : UserMem
  off : U32
  len : U32
  ok : userRangeOk off len = true

/-- The bytes of a piece. -/
def Piece.bytes (c : Piece) : List Byte := (List.range c.len.toNat).map (fun i => c.um (c.off.toNat + i))

@[simp] theorem Piece.bytes_length (c : Piece) : c.bytes.length = c.len.toNat := by simp [Piece.bytes]

theorem Piece.bytes_getD (c : Piece) {i : Nat} (h : i < c.len.toNat) : c.bytes.getD i 0#8 = c.um (c.off.toNat + i) := by
  simp [Piece.bytes, List.getD_eq_getElem?_getD, h]

/-- The bytes of the pieces, one after the other. -/
def content (cs : List Piece) : List Byte := cs.flatMap Piece.bytes

/-- One `SYS_FWRITE` per piece, in order. -/
def Kernel.writePieces (k : Kernel) (fd : U32) (cs : List Piece) : Kernel :=
  cs.foldl (fun k c => (k.sysFwrite c.um fd c.off c.len).1) k

/-- The descriptor of a handle in use names it. -/
theorem getOfile_ofNat {fs : OpenFiles} {i : Fin openMax} (h : (fs i).used = true) :
    getOfile fs (BitVec.ofNat 32 (i.val + 3)) = some i := by
  have hint : ∀ i : Fin openMax, (BitVec.ofNat 32 (i.val + 3) - 3#32).toInt = (i.val : Int) := by decide
  have hlt : (i.val : Int) < openMax := by exact_mod_cast i.isLt
  unfold getOfile
  simp only [hint i]
  rw [dif_pos ⟨by omega, hlt⟩]
  simp [h]

/-- A kernel that has written the first `p` bytes of a content through a handle. -/
structure Written (k k' : Kernel) (i : Fin openMax) (c : Nat → Byte) (p : Nat) : Prop where
  holds : Holds (k'.ofiles i) k'.fs.disk c p
  file : SameFile (k.ofiles i) (k'.ofiles i)
  medium : k.fs.disk.SameMedium k'.fs.disk
  dir : k'.fs.dir = k.fs.dir

/-- One piece more. -/
theorem Written.piece {k k' : Kernel} {i : Fin openMax} {c : Nat → Byte} {p : Nat} (h : Written k k' i c p) (q : Piece)
    (hm : 0 < q.len.toNat → k.fs.disk.OnMedium (k.ofiles i).start.toNat (sectorCount (p + q.len.toNat)))
    (hq : ∀ j < q.len.toNat, q.um (q.off.toNat + j) = c (p + j)) (hsmall : p + q.len.toNat < 2 ^ 32) :
    Written k (k'.sysFwrite q.um (BitVec.ofNat 32 (i.val + 3)) q.off q.len).1 i c (p + q.len.toNat) := by
  have hfd := getOfile_ofNat h.holds.writing.1
  by_cases h0 : q.len = 0#32
  · have hok : userRangeOk q.off 0#32 = true := h0 ▸ q.ok
    have heq : (k'.sysFwrite q.um (BitVec.ofNat 32 (i.val + 3)) q.off q.len).1 = k' := by
      simp [Kernel.sysFwrite, hok, hfd, h.holds.writing.2, h0]
    rw [heq, h0]
    exact h
  · have heq : (k'.sysFwrite q.um (BitVec.ofNat 32 (i.val + 3)) q.off q.len).1 =
        k'.setIo i (fwriteLoop q.len.toNat (k'.ofiles i) k'.fs.disk (fun j => q.um (q.off.toNat + j)) q.len.toNat).1
          (fwriteLoop q.len.toNat (k'.ofiles i) k'.fs.disk (fun j => q.um (q.off.toNat + j)) q.len.toNat).2 := by
      simp [Kernel.sysFwrite, q.ok, hfd, h.holds.writing.2, h0]
    obtain ⟨h1, h2, h3⟩ := fwriteLoop_holds q.len.toNat (k'.ofiles i) k'.fs.disk (fun j => q.um (q.off.toNat + j)) p q.len.toNat
      (Nat.le_refl _) h.holds (fun hpos => by rw [h.file.1]; exact h.medium.onMedium (hm hpos)) hq hsmall
    rw [heq]
    refine ⟨?_, ?_, h.medium.trans h3, h.dir⟩
    · simpa [Kernel.setIo] using h1
    · simpa [Kernel.setIo] using ⟨h2.1.trans h.file.1, h2.2.trans h.file.2⟩

/-- All the pieces, one after the other. -/
theorem Written.pieces {k : Kernel} {i : Fin openMax} {c : Nat → Byte} (cs : List Piece) : ∀ {k' : Kernel} {p : Nat},
    Written k k' i c p →
    (0 < (content cs).length → k.fs.disk.OnMedium (k.ofiles i).start.toNat (sectorCount (p + (content cs).length))) →
    (∀ j < (content cs).length, (content cs).getD j 0#8 = c (p + j)) → p + (content cs).length < 2 ^ 32 →
    Written k (k'.writePieces (BitVec.ofNat 32 (i.val + 3)) cs) i c (p + (content cs).length) := by
  induction cs with
  | nil => intro k' p h _ _ _; exact h
  | cons q cs ih =>
    intro k' p h hm hc hsmall
    have hlen : (content (q :: cs)).length = q.len.toNat + (content cs).length := by simp [content]
    have hget : ∀ j, (content (q :: cs)).getD j 0#8 = if j < q.len.toNat then q.um (q.off.toNat + j) else
        (content cs).getD (j - q.len.toNat) 0#8 := by
      intro j
      change (q.bytes ++ content cs).getD j 0#8 = _
      split
      · rename_i hj
        rw [List.getD_append _ _ _ _ (by rw [q.bytes_length]; exact hj), q.bytes_getD hj]
      · rename_i hj
        rw [List.getD_append_right _ _ _ _ (by rw [q.bytes_length]; lia), q.bytes_length]
    rw [hlen] at hm hc hsmall ⊢
    have h1 : Written k (k'.sysFwrite q.um (BitVec.ofNat 32 (i.val + 3)) q.off q.len).1 i c (p + q.len.toNat) := by
      refine h.piece q (fun hpos => ?_) (fun j hj => ?_) (by lia)
      · have := hm (by lia)
        exact ⟨this.1, le_trans (Nat.add_le_add_left (sectorCount_mono (by lia)) _) this.2⟩
      · have := hc j (by lia)
        rwa [hget, if_pos hj] at this
    have h2 := ih h1 (fun hpos => by rw [Nat.add_assoc]; exact hm (by lia)) (fun j hj => by
      have := hc (q.len.toNat + j) (by lia)
      rwa [hget, if_neg (by lia), Nat.add_sub_cancel_left, ← Nat.add_assoc] at this) (by lia)
    rw [Nat.add_assoc] at h2
    exact h2

/-! ## Closing -/

/-- Once the buffer has been written out, the whole content is on the disk. -/
theorem Holds.flush {f : OpenFile} {d : Disk} {c : Nat → Byte} {p : Nat} (h : Holds f d c p)
    (hm : 0 < p → d.OnMedium f.start.toNat (sectorCount p)) :
    d.SameMedium (ofileFlush f d).2 ∧ ∀ i < p, (ofileFlush f d).2.byteAt (f.start.toNat + i / 512) (i % 512) = c i := by
  by_cases hp : p % 512 = 0
  · have heq : ofileFlush f d = (f, d) := by simp [ofileFlush, h.clean hp]
    rw [heq]
    exact ⟨.refl d, fun i hi => h.whole i (by lia)⟩
  · obtain ⟨hv, hd, hcur, hbuf⟩ := h.buffer hp
    have hpos : 0 < p := by lia
    have hon := hm hpos
    have hsec : sectorCount p = p / 512 + 1 := by unfold sectorCount; lia
    have hlba : f.posLba.toNat = f.start.toNat + p / 512 := by
      rw [f.posLba_toNat (by rw [h.pos]; have := hon.lt; lia), h.pos]
    have hone : (1#32).toNat = 1 := rfl
    have hon1 : d.OnMedium f.curLba.toNat (1#32).toNat := by
      rw [hcur, hlba, hone]
      exact ⟨by have := hon.1; lia, by have := hon.2; lia⟩
    have heq : (ofileFlush f d).2 = d.writeSectors .handle f.curLba 1#32 f.sector := by simp [ofileFlush, hv, hd]
    obtain ⟨hsame, hbytes⟩ := d.writeSectors_byteAt .handle f.sector hon1
    rw [heq]
    refine ⟨hsame, fun i hi => ?_⟩
    have hmed : d.OnMedium (f.start.toNat + i / 512) 1 := ⟨by have := hon.1; lia, by have := hon.2; lia⟩
    rw [hbytes _ _ hmed (Nat.mod_lt _ (by decide)), hcur, hlba, hone]
    by_cases hlast : i / 512 = p / 512
    · rw [if_pos (by lia), show f.start.toNat + i / 512 - (f.start.toNat + p / 512) = 0 by lia, Nat.zero_mul, Nat.zero_add,
        hbuf _ (by lia)]
      refine congrArg c ?_
      lia
    · rw [if_neg (by lia)]
      exact h.whole i (by lia)

theorem Dir.set_set (d : Dir) (i : Nat) (e e' : Dirent) : (d.set i e).set i e' = d.set i e' := by
  simp [Dir.set]

/-- `SYS_OPEN` and `SYS_SAVE` choose the same entry. -/
theorem openPlace_fsPlace {d : Dir} {name : List Byte} {i : Nat} {start : U32} (h : openPlace d name = some (i, start)) (n : U32) :
    (fsFind d name = some i ∨ fsFind d name = none) ∧ ∃ start', fsPlace d name n = some (i, start') := by
  unfold openPlace at h
  unfold fsPlace
  cases hf : fsFind d name with
  | some j =>
    simp only [hf, Option.some.injEq, Prod.mk.injEq] at h
    obtain ⟨rfl, -⟩ := h
    refine ⟨Or.inl rfl, ?_⟩
    dsimp only
    split <;> exact ⟨_, rfl⟩
  | none =>
    simp only [hf] at h
    obtain ⟨j, hj, hij⟩ := Option.map_eq_some_iff.1 h
    simp only [Prod.mk.injEq] at hij
    obtain ⟨rfl, -⟩ := hij
    exact ⟨Or.inr rfl, fsNextFree d, by simp [hj]⟩

/-- Closing a write handle records its run and its size; a content that writing the buffer out completes stays on the disk. -/
theorem close_spec {k : Kernel} {i : Fin openMax} (hw : (k.ofiles i).used = true ∧ (k.ofiles i).mode = .write) {c : Nat → Byte} {n : Nat}
    (hdata : fsDataLba ≤ (k.ofiles i).start.toNat) (hon : 0 < n → k.fs.disk.OnMedium (k.ofiles i).start.toNat (sectorCount n))
    (hflush : k.fs.disk.SameMedium (ofileFlush (k.ofiles i) k.fs.disk).2 ∧ ∀ j < n,
      (ofileFlush (k.ofiles i) k.fs.disk).2.byteAt ((k.ofiles i).start.toNat + j / 512) (j % 512) = c j) :
    (k.sysClose (BitVec.ofNat 32 (i.val + 3))).1.fs.dir =
      k.fs.dir.set (k.ofiles i).dirIndex (closeEntry (k.fs.dir.get (k.ofiles i).dirIndex) (k.ofiles i)) ∧
    k.fs.disk.SameMedium (k.sysClose (BitVec.ofNat 32 (i.val + 3))).1.fs.disk ∧
    ∀ j < n, (k.sysClose (BitVec.ofNat 32 (i.val + 3))).1.fs.disk.byteAt ((k.ofiles i).start.toNat + j / 512) (j % 512) = c j := by
  have hdirdata : fsDirLba ≤ fsDataLba := by decide
  have hfd := getOfile_ofNat hw.1
  obtain ⟨hsame, hbytes⟩ := hflush
  have hclose : (k.sysClose (BitVec.ofNat 32 (i.val + 3))).1 = Kernel.setOfile ⟨Fs.syncDir ⟨k.fs.dir.set (k.ofiles i).dirIndex
      (closeEntry (k.fs.dir.get (k.ofiles i).dirIndex) (k.ofiles i)), (ofileFlush (k.ofiles i) k.fs.disk).2⟩, k.ofiles⟩
        i OpenFile.zero := by
    rcases sysClose_cases k (BitVec.ofNat 32 (i.val + 3)) with heq | ⟨j, hj, hcase⟩
    · have : (k.sysClose (BitVec.ofNat 32 (i.val + 3))).2 = 0#32 := by simp [Kernel.sysClose, hfd, hw.2]
      rw [heq] at this
      exact absurd (show fail = 0#32 from this) (by decide)
    · obtain rfl : i = j := Option.some.inj (hfd.symm.trans hj)
      rcases hcase with ⟨hm, -⟩ | ⟨-, heq⟩
      · rw [hw.2] at hm
        cases hm
      · rw [heq]
  obtain ⟨hsame', hsync⟩ := Fs.syncDir_byteAt ⟨k.fs.dir.set (k.ofiles i).dirIndex
    (closeEntry (k.fs.dir.get (k.ofiles i).dirIndex) (k.ofiles i)), (ofileFlush (k.ofiles i) k.fs.disk).2⟩
  rw [hclose]
  refine ⟨rfl, hsame.trans hsame', fun j hj => ?_⟩
  have hsec : j / 512 < sectorCount n := by unfold sectorCount; lia
  have hm := hon (by lia)
  have hmed : k.fs.disk.OnMedium ((k.ofiles i).start.toNat + j / 512) 1 := ⟨by lia, by have := hm.2; lia⟩
  refine (hsync _ _ (hsame.onMedium hmed) (Nat.mod_lt _ (by decide))).trans ?_
  rw [if_neg (by lia)]
  exact hbytes j hj

/-! ## The two paths -/

/-- Room for writing `n` bytes through a new handle: a free handle, an entry, sectors, and a size a whole-file call can
take. -/
def HandleRoom (k : Kernel) (s : List Byte) (n : Nat) : Prop :=
  n ≤ userFbOffset ∧ (allocFd k.ofiles).isSome = true ∧
    ∃ idx start, openPlace k.fs.dir (normalizeName s) = some (idx, start) ∧
      (0 < n → start.toNat + sectorCount n ≤ k.fs.disk.limit)

/-- The kernel after opening a name for writing, writing the pieces and closing. -/
def Kernel.writeThroughHandle (k : Kernel) (um : UserMem) (nameOff : U32) (cs : List Piece) : Kernel :=
  let fd := (k.sysOpen um nameOff 1#32).2
  (((k.sysOpen um nameOff 1#32).1.writePieces fd cs).sysClose fd).1

/-- Writing the pieces of a content through a handle leaves the entry a save of the content would leave, name and size, and the
content is loaded back. -/
def HandleAgrees (k : Kernel) (um : UserMem) (nameOff : U32) (s : List Byte) (cs : List Piece) : Prop :=
  let n := BitVec.ofNat 32 (content cs).length
  let k' := k.writeThroughHandle um nameOff cs
  (∀ um' nameOff' bufOff, nameAt um' nameOff' = some s → userRangeOk bufOff n = true →
    (∀ i < (content cs).length, um' (bufOff.toNat + i) = (content cs).getD i 0#8) →
    ∃ idx, fsFind (k.sysSave um' nameOff' bufOff n).1.fs.dir (normalizeName s) = some idx ∧
      (k'.fs.dir.get idx).name = ((k.sysSave um' nameOff' bufOff n).1.fs.dir.get idx).name ∧
      (k'.fs.dir.get idx).size = ((k.sysSave um' nameOff' bufOff n).1.fs.dir.get idx).size) ∧
  LoadsBack k' s n (fun i => (content cs).getD i 0#8)

section Paths

variable {k : Kernel} {s : List Byte} (hs : IsName s) {um : UserMem} {nameOff : U32} (hname : nameAt um nameOff = some s)
  {cs : List Piece} (hlen : (content cs).length ≤ userFbOffset) {i : Fin openMax} (hi : allocFd k.ofiles = some i)
  {idx : Nat} {start : U32} (hp : openPlace k.fs.dir (normalizeName s) = some (idx, start))
  (hroom : 0 < (content cs).length → start.toNat + sectorCount (content cs).length ≤ k.fs.disk.limit)

/-- The entry a file written through a handle has in the end. -/
def handleEntry (k : Kernel) (s : List Byte) (idx : Nat) (start n : U32) : Dirent :=
  { (openEntry (k.fs.dir.get idx) (normalizeName s) start) with size := n }

include hname hlen hi hp hroom

/-- The kernel after opening, writing and closing: one entry has changed and the content is on the disk. -/
theorem writeThroughHandle_spec :
    (k.writeThroughHandle um nameOff cs).fs.dir =
      k.fs.dir.set idx (handleEntry k s idx start (BitVec.ofNat 32 (content cs).length)) ∧
    k.fs.disk.SameMedium (k.writeThroughHandle um nameOff cs).fs.disk ∧
    ∀ j < (content cs).length, (k.writeThroughHandle um nameOff cs).fs.disk.byteAt (start.toNat + j / 512) (j % 512) =
      (content cs).getD j 0#8 := by
  have hfb : userFbOffset = 25165824 := rfl
  have hdirdata : fsDirLba ≤ fsDataLba := by decide
  obtain ⟨hidx, hdata, -⟩ := openPlace_some hp
  set dir := k.fs.dir.set idx (openEntry (k.fs.dir.get idx) (normalizeName s) start) with hdir
  set k1 : Kernel := Kernel.setOfile ⟨Fs.syncDir ⟨dir, k.fs.disk⟩, k.ofiles⟩ i (writeHandle idx start) with hk1
  have hopen : k.sysOpen um nameOff 1#32 = (k1, BitVec.ofNat 32 (i.val + 3)) := by
    simp [Kernel.sysOpen, hname, hi, hp, hk1, hdir, writeHandle]
  obtain ⟨hsame1, -⟩ := Fs.syncDir_byteAt ⟨dir, k.fs.disk⟩
  have hf1 : k1.ofiles i = writeHandle idx start := by simp [hk1, Kernel.setOfile]
  have hon : 0 < (content cs).length → k.fs.disk.OnMedium start.toNat (sectorCount (content cs).length) :=
    fun h0 => ⟨by lia, hroom h0⟩
  have h0 : Written k1 k1 i (fun j => (content cs).getD j 0#8) 0 := by
    refine ⟨?_, ⟨rfl, rfl⟩, .refl _, rfl⟩
    rw [hf1]
    exact ⟨⟨rfl, rfl⟩, rfl, rfl, fun j hj => by lia, fun _ => rfl, fun hne => absurd rfl hne⟩
  have h1 := h0.pieces cs
    (fun hpos => by rw [hf1, Nat.zero_add]; exact hsame1.onMedium (hon hpos)) (fun j _ => by rw [Nat.zero_add]) (by lia)
  rw [Nat.zero_add] at h1
  set k2 := k1.writePieces (BitVec.ofNat 32 (i.val + 3)) cs with hk2
  have hstart : (k2.ofiles i).start = start := by rw [h1.file.1, hf1]; rfl
  have hindex : (k2.ofiles i).dirIndex = idx := by rw [h1.file.2, hf1]; rfl
  have hsize : (k2.ofiles i).size = BitVec.ofNat 32 (content cs).length := by
    refine BitVec.eq_of_toNat_eq ?_
    rw [h1.holds.size, BitVec.toNat_ofNat, Nat.mod_eq_of_lt (by lia)]
  have hdir2 : k2.fs.dir = dir := h1.dir
  have hclose : k.writeThroughHandle um nameOff cs = (k2.sysClose (BitVec.ofNat 32 (i.val + 3))).1 := by
    unfold Kernel.writeThroughHandle
    rw [hopen]
  have hon2 : 0 < (content cs).length → k2.fs.disk.OnMedium (k2.ofiles i).start.toNat (sectorCount (content cs).length) :=
    fun hpos => by rw [hstart]; exact h1.medium.onMedium (hsame1.onMedium (hon hpos))
  obtain ⟨hdir', hsame', hbytes'⟩ := close_spec h1.holds.writing (by rw [hstart]; exact hdata) hon2 (h1.holds.flush hon2)
  rw [hclose]
  refine ⟨?_, (hsame1.trans h1.medium).trans hsame', fun j hj => ?_⟩
  · rw [hdir', hindex, hdir2, hdir, Dir.get_set_self _ hidx, Dir.set_set]
    simp only [closeEntry, hstart, hsize, handleEntry, openEntry]
  · rw [← hstart]
    exact hbytes' j hj

end Paths

/-- The entry a save leaves, and that it is what a look-up then finds. -/
theorem sysSave_entry {k : Kernel} {s : List Byte} (hs : IsName s) (hne : s ≠ []) {um : UserMem} {nameOff bufOff n : U32}
    (hname : nameAt um nameOff = some s) (hr : userRangeOk bufOff n = true) {idx : Nat} {start : U32}
    (hp : fsPlace k.fs.dir (normalizeName s) n = some (idx, start)) :
    fsFind (k.sysSave um nameOff bufOff n).1.fs.dir (normalizeName s) = some idx ∧
    (k.sysSave um nameOff bufOff n).1.fs.dir.get idx = saveEntry (k.fs.dir.get idx) (normalizeName s) start n := by
  have heq : (k.sysSave um nameOff bufOff n).1.fs.dir =
      k.fs.dir.set idx (saveEntry (k.fs.dir.get idx) (normalizeName s) start n) := by
    simp [Kernel.sysSave, hr, hname, Fs.write, hp, Fs.syncDir]
  rw [heq]
  exact ⟨fsFind_saveEntry hs hne hp, Dir.get_set_self _ (fsPlace_some hp).1 _⟩

/-- The name field depends on the characters kept only. -/
theorem setName_name_eq (e e' : Dirent) {name : List Byte} {a b : Nat} (ha : a ≤ fsNameLen) (hb : b ≤ fsNameLen)
    (h : name.take a = name.take b) : (e.setName name a ha).name = (e'.setName name b hb).name := by
  simp only [Dirent.setName, h]

/-- A file written through a handle under a name of one to fifteen characters is loaded back. -/
theorem loadsBack_handleEntry {k k' : Kernel} {s : List Byte} (hs : IsName s) (hne : s ≠ []) (hshort : s.length ≤ openNameLen)
    {idx : Nat} {start n : U32} (hp : openPlace k.fs.dir (normalizeName s) = some (idx, start))
    (hdir : k'.fs.dir = k.fs.dir.set idx (handleEntry k s idx start n)) (hsame : k.fs.disk.SameMedium k'.fs.disk)
    (hwild : k.fs.disk.wild = false) (hfit : 0 < n.toNat → start.toNat + sectorCount n.toNat ≤ k.fs.disk.limit) {c : Nat → Byte}
    (hbytes : ∀ j < n.toNat, k'.fs.disk.byteAt (start.toNat + j / 512) (j % 512) = c j) : LoadsBack k' s n c := by
  have hopen : openNameLen = 15 := rfl
  have hlen : fsNameLen = 47 := rfl
  obtain ⟨hidx, hdata, -⟩ := openPlace_some hp
  obtain ⟨hfind, -⟩ := openPlace_fsPlace hp n
  have hget : k'.fs.dir.get idx = handleEntry k s idx start n := by rw [hdir, Dir.get_set_self _ hidx]
  have hstr : (handleEntry k s idx start n).str = (normalizeName s).take openNameLen :=
    openEntry_str (k.fs.dir.get idx) (normalizeName_isName hs) start
  have htake : (normalizeName s).take openNameLen = normalizeName s :=
    List.take_of_length_le (by rw [normalizeName_of_length_le (by lia), List.length_map]; exact hshort)
  have hlive : (handleEntry k s idx start n).live = true := by
    rw [Dirent.live_iff, hstr, htake]
    exact fun h => hne (normalizeName_eq_nil.1 h)
  have heq : nameEqCi (handleEntry k s idx start n).name (normalizeName s) = true := by
    rw [nameEqCi_iff _ (normalizeName_isName hs), hstr, htake]
    rfl
  have hdirdata : fsDirLba ≤ fsDataLba := by decide
  refine loadsBack_of_entry (by rw [hdir]; exact fsFind_set hidx hfind hlive heq) (by rw [hget]; rfl) (fun h0 => ?_)
    (fun j hj => ?_) (hsame.wild.trans hwild)
  · rw [hget]
    exact hsame.onMedium ⟨show fsDirLba ≤ start.toNat by lia, hfit h0⟩
  · rw [hget]
    exact hbytes j hj

section Agreement

variable {k : Kernel} {s : List Byte} (hs : IsName s) (hl : s.length ≤ fsNameLen) {um : UserMem} {nameOff : U32}
  (hname : nameAt um nameOff = some s) {cs : List Piece} (hroom : HandleRoom k s (content cs).length)

include hs hl hname hroom

/-- Where the two paths agree, the name has between one and fifteen characters. -/
theorem HandleAgrees.short_name (h : HandleAgrees k um nameOff s cs) : s ≠ [] ∧ s.length ≤ openNameLen := by
  obtain ⟨hlen, halloc, idx, start, hp, hfit⟩ := hroom
  obtain ⟨i, hi⟩ := Option.isSome_iff_exists.1 halloc
  obtain ⟨hdir, -, -⟩ := writeThroughHandle_spec hname hlen hi hp hfit
  have hfb : userFbOffset = 25165824 := rfl
  have hn : (BitVec.ofNat 32 (content cs).length).toNat = (content cs).length := by
    rw [BitVec.toNat_ofNat, Nat.mod_eq_of_lt (by lia)]
  obtain ⟨start', hplace⟩ := (openPlace_fsPlace hp (BitVec.ofNat 32 (content cs).length)).2
  -- a save of the same content, to compare with
  have hmem := nameAt_nameMem hs hl (fun j => (content cs).getD j 0#8)
  have hrange : userRangeOk 0#32 (BitVec.ofNat 32 (content cs).length) = true := userRangeOk_arena (by rw [hn]; exact hlen)
  obtain ⟨j, hj, hjname, -⟩ := h.1 _ _ 0#32 hmem hrange (fun j hj => by
    simp only [BitVec.toNat_ofNat, nameMem]
    rw [if_neg (by lia)]
    simp)
  have hne : s ≠ [] := by
    rintro rfl
    have hlive := fsFind_live hj
    have heq := ((fsFind_eq_some_iff _ _ _).1 hj).1.2
    rw [nameEqCi_iff _ (normalizeName_isName hs)] at heq
    rw [Dirent.live_iff] at hlive
    have := congrArg List.length heq
    simp only [normalizeName, List.take_nil, List.map_nil, List.length_nil, List.length_map, List.length_take] at this
    have := List.length_pos_of_ne_nil hlive
    lia
  refine ⟨hne, ?_⟩
  obtain ⟨hfound, hentry⟩ := sysSave_entry (k := k) hs hne hmem hrange hplace
  obtain rfl : idx = j := Option.some.inj (hfound.symm.trans hj)
  rw [hentry, hdir, Dir.get_set_self _ (openPlace_some hp).1] at hjname
  have hstr : (handleEntry k s idx start (BitVec.ofNat 32 (content cs).length)).str = (normalizeName s).take openNameLen :=
    openEntry_str (k.fs.dir.get idx) (normalizeName_isName hs) start
  have hstr' : (saveEntry (k.fs.dir.get idx) (normalizeName s) start' (BitVec.ofNat 32 (content cs).length)).str =
      normalizeName s := saveEntry_str _ (normalizeName_isName hs) (normalizeName_length_le s) _ _
  have hsame' : (normalizeName s).take openNameLen = normalizeName s := by
    rw [← hstr, ← hstr', Dirent.str, Dirent.str, hjname]
  have := congrArg List.length hsame'
  rw [List.length_take, normalizeName_of_length_le hl, List.length_map] at this
  lia

/-- For a name of one to fifteen characters the two paths agree. -/
theorem HandleAgrees.of_short_name (hwild : k.fs.disk.wild = false) (hne : s ≠ []) (hshort : s.length ≤ openNameLen) :
    HandleAgrees k um nameOff s cs := by
  obtain ⟨hlen, halloc, idx, start, hp, hfit⟩ := hroom
  obtain ⟨i, hi⟩ := Option.isSome_iff_exists.1 halloc
  obtain ⟨hdir, hsame, hbytes⟩ := writeThroughHandle_spec hname hlen hi hp hfit
  have hfb : userFbOffset = 25165824 := rfl
  have hn : (BitVec.ofNat 32 (content cs).length).toNat = (content cs).length := by
    rw [BitVec.toNat_ofNat, Nat.mod_eq_of_lt (by omega)]
  obtain ⟨hidx, hdata, -⟩ := openPlace_some hp
  obtain ⟨hfind, start', hplace⟩ := openPlace_fsPlace hp (BitVec.ofNat 32 (content cs).length)
  have hget : (k.writeThroughHandle um nameOff cs).fs.dir.get idx =
      handleEntry k s idx start (BitVec.ofNat 32 (content cs).length) := by rw [hdir, Dir.get_set_self _ hidx]
  have hstr : (handleEntry k s idx start (BitVec.ofNat 32 (content cs).length)).str = (normalizeName s).take openNameLen :=
    openEntry_str (k.fs.dir.get idx) (normalizeName_isName hs) start
  have htake : (normalizeName s).take openNameLen = normalizeName s :=
    List.take_of_length_le (by rw [normalizeName_of_length_le hl, List.length_map]; exact hshort)
  refine ⟨fun um' nameOff' bufOff hname' hr _ => ?_, ?_⟩
  · obtain ⟨hfound, hentry⟩ := sysSave_entry (k := k) hs hne hname' hr hplace
    refine ⟨idx, hfound, ?_, ?_⟩
    · rw [hentry, hget]
      exact setName_name_eq (k.fs.dir.get idx) (k.fs.dir.get idx) (by decide) (Nat.le_refl _)
        (by rw [htake, List.take_of_length_le (normalizeName_length_le s)])
    · rw [hentry, hget]
      rfl
  · exact loadsBack_handleEntry hs hne hshort hp hdir hsame hwild (by rw [hn]; exact hfit) (by rw [hn]; exact hbytes)

end Agreement

/-- With room for the content, writing it through a handle agrees with saving it exactly when the name has between one and
fifteen characters. -/
theorem handle_path_agrees_iff_short_name (k : Kernel) (hwild : k.fs.disk.wild = false) (s : List Byte) (hs : IsName s)
    (hl : s.length ≤ fsNameLen) (um : UserMem) (nameOff : U32) (hname : nameAt um nameOff = some s) (cs : List Piece)
    (hroom : HandleRoom k s (content cs).length) :
    HandleAgrees k um nameOff s cs ↔ s ≠ [] ∧ s.length ≤ openNameLen :=
  ⟨HandleAgrees.short_name hs hl hname hroom, fun h => HandleAgrees.of_short_name hs hl hname hroom hwild h.1 h.2⟩

/-- A program's memory with a name at offset 0 that holds the letter `A` from offset 64 on. -/
def letterMem (name : String) : UserMem := fun i => if i < 64 then (asciiBytes name).getD i 0#8 else 65#8

/-- An empty disk of 100 sectors. -/
def emptyKernel : Kernel := Kernel.fresh Dir.empty (Disk.blank 100#32 hundred_sectors)

/-- Two pieces of 300 bytes. -/
def twoPieces (name : String) : List Piece :=
  [⟨letterMem name, 64#32, 300#32, by decide⟩, ⟨letterMem name, 64#32, 300#32, by decide⟩]

theorem twoPieces_length (name : String) : (content (twoPieces name)).length = 600 := by
  simp [content, twoPieces]

theorem emptyKernel_room (name : String) (s : List Byte) (h : openPlace emptyKernel.fs.dir (normalizeName s) = some (0, 201#32)) :
    HandleRoom emptyKernel s (content (twoPieces name)).length := by
  rw [twoPieces_length]
  exact ⟨by decide, by decide, 0, 201#32, h, fun _ => by decide⟩

/-- The rule at work: 600 bytes written to `A.TXT` in two pieces that meet inside a sector. -/
theorem handle_path_agrees_iff_short_name_two_pieces :
    HandleAgrees emptyKernel (letterMem "A.TXT") 0#32 (asciiBytes "A.TXT") (twoPieces "A.TXT") :=
  (handle_path_agrees_iff_short_name emptyKernel rfl (asciiBytes "A.TXT") (by unfold IsName; decide) (by decide) _ _ (by decide)
    (twoPieces "A.TXT") (emptyKernel_room _ _ (by decide +kernel))).2 ⟨by decide, by decide⟩

/-- A name of sixteen characters loses its last one when it is opened for writing. -/
theorem handle_path_agrees_false :
    ¬∀ (k : Kernel), k.fs.disk.wild = false → ∀ (s : List Byte), IsName s → s.length ≤ fsNameLen → ∀ (um : UserMem) (nameOff : U32),
      nameAt um nameOff = some s → ∀ cs : List Piece, HandleRoom k s (content cs).length → HandleAgrees k um nameOff s cs := by
  intro h
  have hname : IsName (asciiBytes "ABCDEFGHIJKLMNOP") := by unfold IsName; decide +kernel
  have hmem : nameAt (letterMem "ABCDEFGHIJKLMNOP") 0#32 = some (asciiBytes "ABCDEFGHIJKLMNOP") := by decide
  have hroom := emptyKernel_room "ABCDEFGHIJKLMNOP" (asciiBytes "ABCDEFGHIJKLMNOP") (by decide +kernel)
  have hagree := h emptyKernel rfl (asciiBytes "ABCDEFGHIJKLMNOP") hname (by decide) _ _ hmem _ hroom
  exact absurd (HandleAgrees.short_name hname (by decide) hmem hroom hagree).2 (by decide)

end MiniOs32
