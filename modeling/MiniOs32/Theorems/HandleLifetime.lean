import MiniOs32.Kernel.Programs
import MiniOs32.Theorems.HandleContents

/-!
# Handles and the end of a program

Nothing closes the handles of a program that ends, so the next program starts with them in use and with whatever they had
buffered still unwritten. A program that closes its handles itself leaves nothing behind, and what it passed to `SYS_FWRITE`
can be loaded, as long as the handle path does what it should: short names, bytes appended, one writer at a time, and room on
the disk.

A ghost state records what has been passed to each handle, and for each slot the content its file was closed with.
-/

namespace MiniOs32

/-! ## What was written -/

/-- The slot whose file a call replaces or removes. -/
def Kernel.drops (k : Kernel) (r : Request) : Option Nat :=
  match r.call with
  | .save nameOff bufOff size =>
    if userRangeOk bufOff size then
      (nameAt r.um nameOff).bind fun uname => (fsPlace k.fs.dir (normalizeName uname) size).map Prod.fst
    else none
  | .delete nameOff => (nameAt r.um nameOff).bind fun uname => fsFind k.fs.dir (normalizeName uname)
  | .open _ _ => (k.openedForWriting r).map Prod.snd
  | _ => none

/-- The write handle a call closes. -/
def Kernel.closes (k : Kernel) (r : Request) : Option (Fin openMax) :=
  match r.call with
  | .close fd => (getOfile k.ofiles fd).filter fun i => (k.ofiles i).mode = .write
  | _ => none

/-- The write handle a call passes bytes to, and the bytes. -/
def Kernel.passes (k : Kernel) (r : Request) : Option (Fin openMax × List Byte) :=
  match r.call with
  | .fwrite fd off len =>
    if userRangeOk off len then
      ((getOfile k.ofiles fd).filter fun i => (k.ofiles i).mode = .write).map fun i =>
        (i, (List.range len.toNat).map fun j => r.um (off.toNat + j))
    else none
  | _ => none

/-- A content with bytes put in at a position. -/
def putAt (bs : List Byte) (pos : Nat) (new : List Byte) : List Byte := bs.take pos ++ new ++ bs.drop (pos + new.length)

theorem putAt_length (bs new : List Byte) : putAt bs bs.length new = bs ++ new := by
  simp [putAt]

/-- The machine, the content each slot's file was closed with, and what has been passed to each write handle. -/
structure Session where
  m : Kmain
  written : Nat → Option (List Byte)
  passed : Fin openMax → List Byte

/-- The machine after boot, the shell running. -/
def Session.boot (dir : Dir) (disk : Disk) : Session :=
  ⟨⟨Kernel.fresh dir disk, true, none⟩, fun _ => none, fun _ => []⟩

/-- The content slot `j` should hold after a call. -/
def Session.writtenAfter (s : Session) (r : Request) (j : Nat) : Option (List Byte) :=
  if s.m.k.drops r = some j then none
  else match s.m.k.closes r with
    | some i =>
      if (s.m.k.ofiles i).dirIndex = j then if (s.m.k.fs.dir.get j).live then some (s.passed i) else none else s.written j
    | none => s.written j

/-- What has been passed to handle `i` after a call. -/
def Session.passedAfter (s : Session) (r : Request) (i : Fin openMax) : List Byte :=
  match s.m.k.openedForWriting r with
  | some p => if p.1 = i then [] else s.passed i
  | none =>
    match s.m.k.passes r with
    | some p => if p.1 = i then putAt (s.passed i) (s.m.k.ofiles i).pos.toNat p.2 else s.passed i
    | none => s.passed i

/-- One event. -/
def Session.step (s : Session) (ev : Event) : Session where
  m := s.m.step ev
  written := match ev with
    | .call r => s.writtenAfter r
    | .ends _ _ => s.written
  passed := match ev with
    | .call r => s.passedAfter r
    | .ends _ _ => s.passed

/-- No handle is in use, and every file closed with a content is found by its name and loads that content. -/
def Kernel.AllReturned (k : Kernel) (written : Nat → Option (List Byte)) : Prop :=
  (∀ i, (k.ofiles i).used = false) ∧ ∀ j bs, written j = some bs →
    fsFind k.fs.dir (k.fs.dir.get j).str = some j ∧
    ∀ um nameOff bufOff max uname, nameAt um nameOff = some uname → fsFind k.fs.dir (normalizeName uname) = some j →
      userRangeOk bufOff max = true → bs.length ≤ max.toNat →
      (k.sysLoad um nameOff bufOff max).2.2.toNat = bs.length ∧
      ∀ q < bs.length, (k.sysLoad um nameOff bufOff max).2.1 (bufOff.toNat + q) = bs.getD q 0#8

/-- When a program has ended and the next one starts, everything is closed and can be loaded. -/
def LeavesNothing (s : Session) (ev : Event) : Prop :=
  match ev with
  | .ends _ _ => (s.step ev).m.k.AllReturned (s.step ev).written
  | .call _ => True

/-- A call the handle path serves without loss: it is within capacity, takes sectors only while no handle is open for writing,
opens for writing under a name of one to fifteen characters, renames to a name, and appends when it writes. -/
structure CarefulCall (k : Kernel) (r : Request) : Prop where
  capacity : WithinCapacity k r
  alone : AllocatesAlone k r
  openName : ∀ nameOff uname, r.call = .open nameOff 1#32 → nameAt r.um nameOff = some uname →
    uname ≠ [] ∧ uname.length ≤ openNameLen
  newName : ∀ oldOff newOff uname, r.call = .rename oldOff newOff → nameAt r.um newOff = some uname → uname ≠ []
  appends : ∀ fd off len i, r.call = .fwrite fd off len → getOfile k.ofiles fd = some i → (k.ofiles i).mode = .write →
    (k.ofiles i).pos = (k.ofiles i).size ∧ ((k.ofiles i).pos.toNat % 512 ≠ 0 → (k.ofiles i).sectorValid = true)

/-- A program makes careful calls and closes every handle before it ends. -/
def Careful (s : Session) : Event → Prop
  | .call r => CarefulCall s.m.k r
  | .ends _ _ => ∀ i, (s.m.k.ofiles i).used = false

/-! ## One call -/

/-- What holds between events: the extents are in order, names lead to their entries, and files and handles hold their
contents. -/
structure Session.Inv (s : Session) : Prop where
  extents : ExtentsInv s.m.k
  names : NamesApart s.m.k.fs.dir
  slots : ∀ j bs, s.written j = some bs → s.m.k.SlotHolds j bs
  handles : ∀ i, (s.m.k.ofiles i).Writing → (s.m.k.ofiles i).HandleHolds s.m.k.fs.disk (s.passed i)

/-- A content a slot still has after a call that closes nothing was there before, and the call did not drop it. -/
theorem Session.written_of_after {s : Session} {r : Request} (hc : s.m.k.closes r = none) {j : Nat} {bs : List Byte}
    (h : s.writtenAfter r j = some bs) : s.written j = some bs ∧ s.m.k.drops r ≠ some j := by
  unfold Session.writtenAfter at h
  rw [hc] at h
  split at h
  · cases h
  · rename_i hd
    exact ⟨h, hd⟩

/-- A call that opens nothing and passes nothing leaves what was passed. -/
theorem Session.passedAfter_eq {s : Session} {r : Request} (ho : s.m.k.openedForWriting r = none) (hp : s.m.k.passes r = none)
    (i : Fin openMax) : s.passedAfter r i = s.passed i := by
  unfold Session.passedAfter
  rw [ho, hp]

/-- The handle a call opens for writing was free. -/
theorem openedForWriting_free {k : Kernel} {r : Request} {p : Fin openMax × Nat} (h : k.openedForWriting r = some p) :
    (k.ofiles p.1).used = false := by
  obtain ⟨um, c⟩ := r
  cases c with
  | «open» nameOff mode =>
    simp only [Kernel.openedForWriting, Option.bind_eq_bind, Option.bind_eq_some_iff] at h
    obtain ⟨s, -, i, ha, q, -, hq⟩ := h
    split at hq
    · rw [← Option.some.inj hq]
      simpa using List.find?_some ha
    · cases hq
  | _ => cases h

/-- What was passed to a handle already open for writing is not changed by opening another. -/
theorem Session.passedAfter_open {s : Session} {um : UserMem} {nameOff mode : U32} {i : Fin openMax}
    (hw : (s.m.k.ofiles i).Writing) : s.passedAfter ⟨um, .open nameOff mode⟩ i = s.passed i := by
  unfold Session.passedAfter
  cases ho : s.m.k.openedForWriting ⟨um, .open nameOff mode⟩ with
  | none => rfl
  | some p =>
    dsimp only
    refine if_neg ?_
    intro hp
    have := openedForWriting_free ho
    rw [hp, hw.1] at this
    cases this

section Calls

variable {s : Session} (h : s.Inv)

include h

/-- A call that leaves the directory and the handles alone and reaches no data sector. -/
theorem Session.Inv.quiet {r : Request} (hext : ExtentsInv (s.m.k.step r)) (hc : s.m.k.closes r = none)
    (ho : s.m.k.openedForWriting r = none) (hp : s.m.k.passes r = none) (hdir : (s.m.k.step r).fs.dir = s.m.k.fs.dir)
    (hof : ∀ i, ((s.m.k.step r).ofiles i).Writing → (s.m.k.step r).ofiles i = s.m.k.ofiles i)
    (hdisk : s.m.k.fs.disk.KeepsData (s.m.k.step r).fs.disk ∅) : (s.step (.call r)).Inv := by
  refine ⟨hext, hdir ▸ h.names, ?_, ?_⟩
  · intro j bs hj
    obtain ⟨hold, -⟩ := Session.written_of_after hc hj
    have hslot := h.slots j bs hold
    have hget : (s.m.k.step r).fs.dir.get j = s.m.k.fs.dir.get j := by rw [hdir]
    change (s.m.k.step r).SlotHolds j bs
    exact hslot.keep h.extents.dir hdisk (hget ▸ hslot.live) (by rw [hget]) (by rw [hget]) (Set.empty_disjoint _)
  · intro i hw
    replace hw : ((s.m.k.step r).ofiles i).Writing := hw
    change ((s.m.k.step r).ofiles i).HandleHolds (s.m.k.step r).fs.disk (s.passedAfter r i)
    rw [Session.passedAfter_eq ho hp]
    have hsame := hof i hw
    rw [hsame] at hw ⊢
    exact (h.handles i hw).keep (h.extents.writer i hw).1 hdisk (Set.empty_disjoint _)

/-- A call that only changes one entry of the directory, of another slot or without moving the file. -/
theorem Session.Inv.entry {r : Request} (dir : Dir) (hext : ExtentsInv (s.m.k.step r)) (hc : s.m.k.closes r = none)
    (heq : (s.m.k.step r).fs = Fs.syncDir ⟨dir, s.m.k.fs.disk⟩) (hnames : NamesApart dir)
    (hslot : ∀ j, s.m.k.drops r ≠ some j → (s.m.k.fs.dir.get j).live = true →
      (dir.get j).live = true ∧ (dir.get j).start = (s.m.k.fs.dir.get j).start ∧ (dir.get j).size = (s.m.k.fs.dir.get j).size)
    (hhandle : ∀ i, ((s.m.k.step r).ofiles i).Writing →
      ((s.m.k.step r).ofiles i = s.m.k.ofiles i ∧ s.passedAfter r i = s.passed i) ∨
      ((s.m.k.step r).ofiles i).HandleHolds (s.m.k.step r).fs.disk (s.passedAfter r i)) : (s.step (.call r)).Inv := by
  have hdisk : s.m.k.fs.disk.KeepsData (s.m.k.step r).fs.disk ∅ := by
    rw [heq]
    exact Disk.KeepsData.syncDir ⟨dir, s.m.k.fs.disk⟩ ∅
  have hdir : (s.m.k.step r).fs.dir = dir := by
    rw [heq]
    rfl
  refine ⟨hext, hdir ▸ hnames, ?_, ?_⟩
  · intro j bs hj
    obtain ⟨hold, hdrop⟩ := Session.written_of_after hc hj
    have hs := h.slots j bs hold
    obtain ⟨h1, h2, h3⟩ := hslot j hdrop hs.live
    have hget : (s.m.k.step r).fs.dir.get j = dir.get j := by rw [hdir]
    change (s.m.k.step r).SlotHolds j bs
    exact hs.keep h.extents.dir hdisk (hget ▸ h1) (by rw [hget, h2]) (by rw [hget, h3]) (Set.empty_disjoint _)
  · intro i hw
    replace hw : ((s.m.k.step r).ofiles i).Writing := hw
    change ((s.m.k.step r).ofiles i).HandleHolds (s.m.k.step r).fs.disk (s.passedAfter r i)
    rcases hhandle i hw with ⟨hsame, hpass⟩ | hnew
    · rw [hsame] at hw ⊢
      rw [hpass]
      exact (h.handles i hw).keep (h.extents.writer i hw).1 hdisk (Set.empty_disjoint _)
    · exact hnew

/-- `SYS_LOAD`. -/
theorem Session.Inv.load {um : UserMem} {nameOff bufOff max : U32} (hext : ExtentsInv (s.m.k.step ⟨um, .load nameOff bufOff max⟩)) :
    (s.step (.call ⟨um, .load nameOff bufOff max⟩)).Inv := by
  have hstep : ∀ fs, (s.m.k.sysLoad um nameOff bufOff max).1 = ⟨fs, s.m.k.ofiles⟩ → fs.dir = s.m.k.fs.dir →
      s.m.k.fs.disk.KeepsData fs.disk ∅ → (s.step (.call ⟨um, .load nameOff bufOff max⟩)).Inv := by
    intro fs heq hdir hdisk
    refine h.quiet hext rfl rfl rfl ?_ ?_ ?_ <;> simp only [Kernel.step, Kernel.syscall, heq]
    · exact hdir
    · exact fun _ _ => trivial
    · exact hdisk
  rcases sysLoad_fst s.m.k um nameOff bufOff max with heq | ⟨u, -, heq⟩
  · exact hstep s.m.k.fs heq rfl (.refl _ _)
  · refine hstep _ heq (Fs.read_dir _ _ _) ?_
    exact Fs.read_disk (P := fun d => s.m.k.fs.disk.KeepsData d ∅) (fun d lba n hd => hd.trans (.readSectors d lba n ∅)) _ _ _ (.refl _ _)

/-- `SYS_SYNC`. -/
theorem Session.Inv.sync {um : UserMem} {status : U32} (hext : ExtentsInv (s.m.k.step ⟨um, .sync status⟩)) :
    (s.step (.call ⟨um, .sync status⟩)).Inv :=
  h.quiet hext rfl rfl rfl rfl (fun _ _ => rfl) (.sync _ status ∅)

/-- `SYS_FREAD`: a read handle has nothing to write out. -/
theorem Session.Inv.fread {um : UserMem} {fd off len : U32} (hext : ExtentsInv (s.m.k.step ⟨um, .fread fd off len⟩)) :
    (s.step (.call ⟨um, .fread fd off len⟩)).Inv := by
  rcases sysFread_fst s.m.k um fd off len with heq | ⟨i, n, hi, hm, heq⟩
  · refine h.quiet hext rfl rfl rfl ?_ ?_ ?_ <;> simp only [Kernel.step, Kernel.syscall, heq]
    · exact fun _ _ => trivial
    · exact .refl _ _
  · obtain ⟨-, hg, hadds⟩ := freadLoop_ok n (s.m.k.ofiles i) s.m.k.fs.disk um off.toNat n
      (h.extents.reader i (getOfile_used hi) hm)
    have htr : s.m.k.fs.disk.Traced (freadLoop n (s.m.k.ofiles i) s.m.k.fs.disk um off.toNat n).2.1 :=
      freadLoop_disk (P := fun e => s.m.k.fs.disk.Traced e) (fun e lba buf he => he.writeSectors .handle lba 1#32 buf)
        (fun e lba he => he.readSectors lba 1#32) n _ um off.toNat n (.refl _)
    refine h.quiet hext rfl rfl rfl ?_ ?_ ?_ <;> simp only [Kernel.step, Kernel.syscall, heq]
    · rfl
    · intro j hw
      by_cases hj : j = i
      · subst hj
        have hf : (s.m.k.setIo j (freadLoop n (s.m.k.ofiles j) s.m.k.fs.disk um off.toNat n).1
            (freadLoop n (s.m.k.ofiles j) s.m.k.fs.disk um off.toNat n).2.1).ofiles j =
            (freadLoop n (s.m.k.ofiles j) s.m.k.fs.disk um off.toNat n).1 := if_pos rfl
        rw [hf] at hw
        have := hw.2
        rw [hg.mode, hm] at this
        cases this
      · exact if_neg hj
    · exact htr.keepsData hadds (fun w hw => hw.elim)

/-- `SYS_DELETE`. -/
theorem Session.Inv.delete {um : UserMem} {nameOff : U32} (hext : ExtentsInv (s.m.k.step ⟨um, .delete nameOff⟩)) :
    (s.step (.call ⟨um, .delete nameOff⟩)).Inv := by
  rcases sysDelete_cases s.m.k um nameOff with heq | ⟨u, idx, hu, hf, heq⟩
  · refine h.quiet hext rfl rfl rfl ?_ ?_ ?_ <;> simp only [Kernel.step, Kernel.syscall, heq]
    · exact fun _ _ => trivial
    · exact .refl _ _
  · have hidx := fsFind_lt hf
    refine h.entry (s.m.k.fs.dir.set idx Dirent.zero) hext rfl (by simp only [Kernel.step, Kernel.syscall, heq]) ?_ ?_ ?_
    · exact h.names.set hidx (fun hl => by simp at hl)
    · intro j hdrop hl
      have hj : j ≠ idx := by
        intro hj
        refine hdrop ?_
        simp [Kernel.drops, hu, hf, hj]
      rw [Dir.get_set_ne _ hj]
      exact ⟨hl, rfl, rfl⟩
    · intro i hw
      exact Or.inl ⟨by simp only [Kernel.step, Kernel.syscall, heq], Session.passedAfter_eq rfl rfl i⟩

/-- `SYS_RENAME`. -/
theorem Session.Inv.rename {um : UserMem} {oldOff newOff : U32} (hext : ExtentsInv (s.m.k.step ⟨um, .rename oldOff newOff⟩))
    (hcare : CarefulCall s.m.k ⟨um, .rename oldOff newOff⟩) : (s.step (.call ⟨um, .rename oldOff newOff⟩)).Inv := by
  rcases sysRename_cases s.m.k um oldOff newOff with heq | ⟨u, v, idx, -, hv, hf, hnone, heq⟩
  · refine h.quiet hext rfl rfl rfl ?_ ?_ ?_ <;> simp only [Kernel.step, Kernel.syscall, heq]
    · exact fun _ _ => trivial
    · exact .refl _ _
  · have hidx := fsFind_lt hf
    have hvn : IsName (normalizeName v) := normalizeName_isName (nameAt_isName hv)
    have hne := hcare.newName oldOff newOff v rfl hv
    set e := (s.m.k.fs.dir.get idx).setName (normalizeName v) fsNameLen (Nat.le_refl _) with he
    have hstr : e.str = normalizeName v := by
      rw [he, Dirent.setName_str _ hvn, List.take_of_length_le (normalizeName_length_le v)]
    have helive : e.live = true := by
      rw [Dirent.live_iff, hstr]
      exact fun h0 => hne (normalizeName_eq_nil.1 h0)
    refine h.entry (s.m.k.fs.dir.set idx e) hext rfl (by simp only [Kernel.step, Kernel.syscall, heq]) ?_ ?_ ?_
    · refine h.names.set hidx (fun _ => ?_)
      rw [hstr]
      exact h.names.place (i := idx) hvn (Or.inr hnone)
    · intro j _ hl
      rw [Dir.get_set _ hidx]
      split
      · rename_i hj
        rw [hj]
        exact ⟨helive, rfl, rfl⟩
      · exact ⟨hl, rfl, rfl⟩
    · intro i hw
      exact Or.inl ⟨by simp only [Kernel.step, Kernel.syscall, heq], Session.passedAfter_eq rfl rfl i⟩

/-- `SYS_OPEN`. -/
theorem Session.Inv.open {um : UserMem} {nameOff mode : U32} (hext : ExtentsInv (s.m.k.step ⟨um, .open nameOff mode⟩))
    (hcare : CarefulCall s.m.k ⟨um, .open nameOff mode⟩) : (s.step (.call ⟨um, .open nameOff mode⟩)).Inv := by
  -- without a write handle opened, the files and the handles open for writing are as they were
  have hsame : ∀ k', (s.m.k.sysOpen um nameOff mode).1 = k' → k'.fs = s.m.k.fs →
      (∀ i, (k'.ofiles i).Writing → k'.ofiles i = s.m.k.ofiles i) → (s.step (.call ⟨um, .open nameOff mode⟩)).Inv := by
    intro k' heq hfs hof
    have hstep : s.m.k.step ⟨um, .open nameOff mode⟩ = k' := heq
    have hslot : ∀ j, ((s.m.k.step ⟨um, .open nameOff mode⟩).fs.dir.get j) = s.m.k.fs.dir.get j := by
      intro j
      rw [hstep, hfs]
    have hdisk : s.m.k.fs.disk.KeepsData (s.m.k.step ⟨um, .open nameOff mode⟩).fs.disk ∅ := by
      rw [hstep, hfs]
      exact .refl _ _
    refine ⟨hext, ?_, ?_, ?_⟩
    · change NamesApart (s.m.k.step ⟨um, .open nameOff mode⟩).fs.dir
      rw [hstep, hfs]
      exact h.names
    · intro j bs hj
      have hs := h.slots j bs (Session.written_of_after rfl hj).1
      change (s.m.k.step ⟨um, .open nameOff mode⟩).SlotHolds j bs
      exact hs.keep h.extents.dir hdisk (hslot j ▸ hs.live) (by rw [hslot]) (by rw [hslot]) (Set.empty_disjoint _)
    · intro i hw
      replace hw : (k'.ofiles i).Writing := hstep ▸ hw
      have hi := hof i hw
      rw [hi] at hw
      change ((s.m.k.step ⟨um, .open nameOff mode⟩).ofiles i).HandleHolds _ (s.passedAfter ⟨um, .open nameOff mode⟩ i)
      rw [Session.passedAfter_open hw, hstep, hi]
      exact (h.handles i hw).keep (h.extents.writer i hw).1 hdisk (Set.empty_disjoint _)
  rcases sysOpen_cases s.m.k um nameOff mode with
    heq | ⟨u, i, hu, ha, heq | ⟨idx, -, -, heq⟩ | ⟨idx, start, hmode, hp, heq⟩⟩
  · exact hsame s.m.k (by rw [heq]) rfl (fun _ _ => rfl)
  · exact hsame (s.m.k.setOfile i OpenFile.zero) (by rw [heq]) rfl (fun j hw => (setOfile_writing zero_not_writing hw).2)
  · exact hsame (s.m.k.setOfile i (readHandle idx (s.m.k.fs.dir.get idx))) (by rw [heq]) rfl
      (fun j hw => (setOfile_writing (readHandle_not_writing _ _) hw).2)
  · subst hmode
    obtain ⟨hne, hlen⟩ := hcare.openName nameOff u rfl hu
    have hidx := (openPlace_some hp).1
    have hun : IsName (normalizeName u) := normalizeName_isName (nameAt_isName hu)
    have hopened : s.m.k.openedForWriting ⟨um, .open nameOff 1#32⟩ = some (i, idx) := by
      simp [Kernel.openedForWriting, hu, ha, hp]
    have hstr : (openEntry (s.m.k.fs.dir.get idx) (normalizeName u) start).str = normalizeName u := by
      rw [openEntry_str _ hun, List.take_of_length_le]
      simp only [normalizeName, List.length_map, List.length_take]
      omega
    have hno : NoWriter s.m.k := hcare.alone rfl
    refine h.entry (s.m.k.fs.dir.set idx (openEntry (s.m.k.fs.dir.get idx) (normalizeName u) start)) hext rfl
      (by simp only [Kernel.step, Kernel.syscall, heq]; rfl) ?_ ?_ ?_
    · refine h.names.set hidx (fun _ => ?_)
      rw [hstr]
      exact h.names.place hun ((openPlace_fsPlace hp 0#32).1)
    · intro j hdrop hl
      have hj : j ≠ idx := by
        intro hj
        refine hdrop ?_
        simp [Kernel.drops, hopened, hj]
      rw [Dir.get_set_ne _ hj]
      exact ⟨hl, rfl, rfl⟩
    · intro j hw
      right
      have hji : j = i := by
        by_contra hji
        have hsame : (s.m.k.step ⟨um, .open nameOff 1#32⟩).ofiles j = s.m.k.ofiles j := by
          simp only [Kernel.step, Kernel.syscall, heq]
          exact if_neg hji
        rw [hsame] at hw
        exact hno j hw
      have hnew : (s.m.k.step ⟨um, .open nameOff 1#32⟩).ofiles j = writeHandle idx start := by
        simp only [Kernel.step, Kernel.syscall, heq]
        exact if_pos hji
      have hpass : s.passedAfter ⟨um, .open nameOff 1#32⟩ j = [] := by
        unfold Session.passedAfter
        rw [hopened, hji]
        exact if_pos rfl
      rw [hnew, hpass]
      exact writeHandle_holds idx start _

/-- The run of sectors a save writes: on the medium, apart from every other file and from every write handle. -/
theorem Session.Inv.save_run {um : UserMem} {nameOff bufOff size : U32} (hcare : CarefulCall s.m.k ⟨um, .save nameOff bufOff size⟩)
    {u : List Byte} {idx : Nat} {start : U32} (hr : userRangeOk bufOff size = true) (hu : nameAt um nameOff = some u)
    (hp : fsPlace s.m.k.fs.dir (normalizeName u) size = some (idx, start)) (h0 : 0 < size.toNat) :
    s.m.k.fs.disk.OnMedium start.toNat (sectorsOf size).toNat ∧
    (∀ j ≠ idx, (s.m.k.fs.dir.get j).live = true →
      Disjoint (Set.Ico start.toNat (start.toNat + (sectorsOf size).toNat)) (s.m.k.fs.dir.get j).extent) ∧
    ∀ i, (s.m.k.ofiles i).Writing →
      Disjoint (Set.Ico start.toNat (start.toNat + (sectorsOf size).toNat)) (s.m.k.ofiles i).region := by
  have hlen := userRangeOk_len hr
  have hfb : userFbOffset = 25165824 := rfl
  have hdir : fsDirLba ≤ fsDataLba := by decide
  have hcount := sectorsOf_toNat (show size.toNat + 511 < 2 ^ 32 by lia)
  have hpos : 0 < sectorCount size.toNat := by unfold sectorCount; lia
  have hd := h.extents.dir
  rw [hcount]
  rcases fsPlace_start hp with ⟨hf, hle, hstart⟩ | ⟨hgrow, hplace⟩
  · have hlive := fsFind_live hf
    rw [BitVec.le_def, hcount, sectorsOf_toNat (hd.small idx hlive)] at hle
    have hold : 0 < (s.m.k.fs.dir.get idx).size.toNat := by
      by_contra hz
      rw [sectorCount_eq_zero.2 (show (s.m.k.fs.dir.get idx).size.toNat = 0 by lia)] at hle
      lia
    obtain ⟨hdata, hroom⟩ := hd.data idx hlive hold
    have hsub : Set.Ico start.toNat (start.toNat + sectorCount size.toNat) ⊆ (s.m.k.fs.dir.get idx).extent := by
      intro l hl
      rw [Set.mem_Ico, hstart] at hl
      rw [Dirent.extent, Set.mem_Ico]
      lia
    refine ⟨⟨by rw [hstart]; lia, by rw [hstart]; lia⟩, ?_, ?_⟩
    · intro j hj hjl
      exact Set.disjoint_of_subset_left hsub (hd.disjoint idx j (Ne.symm hj) hlive hjl)
    · intro i hi
      have hpast := h.extents.past i hi idx hlive hold
      refine Set.disjoint_of_subset_left hsub ?_
      exact (disjoint_of_past hpast).symm
  · have halloc : Allocates s.m.k.fs.dir (normalizeName u) size := ⟨h0, fun i hi => (hgrow i hi).1 ▸ (hgrow i hi).2⟩
    obtain ⟨hidx, hdata, -⟩ := openPlace_some hplace
    have hroom := hcare.capacity u idx start hu hp halloc
    refine ⟨⟨by lia, hroom⟩, ?_, ?_⟩
    · intro j hj hjl
      exact disjoint_of_past (hd.openPlace_past s.m.k.fs.disk.limit_le hplace j hj hjl)
    · intro i hi
      exact absurd hi (hcare.alone u hu halloc i)

omit h in
/-- An empty run writes nothing. -/
theorem Disk.KeepsData.writeNone (d : Disk) (who : Writer) (lba : U32) (buf : Nat → Byte) (touched : Set Nat) :
    d.KeepsData (d.writeSectors who lba 0#32 buf) touched := by
  have hsame : (d.writeSectors who lba 0#32 buf).ram = d.ram ∧ (d.writeSectors who lba 0#32 buf).rdSectors = d.rdSectors := by
    unfold Disk.writeSectors
    split
    · split <;> exact ⟨rfl, rfl⟩
    · exact ⟨rfl, rfl⟩
  refine ⟨hsame.1, hsame.2, ?_⟩
  intro l _ _ hm i hi
  have hdir : d.ram = true → fsDirLba ≤ l := fun _ => hm.1
  have := d.writeSectors_elsewhere who lba 0#32 buf hi hdir (fun t ht => absurd ht (Nat.not_lt_zero t))
  simpa only [Disk.byteAt, Disk.addr, hsame.1] using this

/-- `SYS_SAVE`. -/
theorem Session.Inv.save {um : UserMem} {nameOff bufOff size : U32} (hext : ExtentsInv (s.m.k.step ⟨um, .save nameOff bufOff size⟩))
    (hcare : CarefulCall s.m.k ⟨um, .save nameOff bufOff size⟩) : (s.step (.call ⟨um, .save nameOff bufOff size⟩)).Inv := by
  rcases sysSave_cases s.m.k um nameOff bufOff size with heq | ⟨u, idx, start, hr, hu, hp, heq⟩
  · refine h.quiet hext rfl rfl rfl ?_ ?_ ?_ <;> simp only [Kernel.step, Kernel.syscall, heq]
    · exact fun _ _ => trivial
    · exact .refl _ _
  have hun : IsName (normalizeName u) := normalizeName_isName (nameAt_isName hu)
  obtain ⟨hidx, hplace⟩ := fsPlace_some hp
  set e := saveEntry (s.m.k.fs.dir.get idx) (normalizeName u) start size with he
  set disk := s.m.k.fs.disk.writeSectors .save start (sectorsOf size) (fun i => um (bufOff.toNat + i)) with hdisk
  have hstep : s.m.k.step ⟨um, .save nameOff bufOff size⟩ =
      ⟨Fs.syncDir ⟨s.m.k.fs.dir.set idx e, disk⟩, s.m.k.ofiles⟩ := by
    simp only [Kernel.step, Kernel.syscall, heq]
  have hstr : e.str = normalizeName u := saveEntry_str _ hun (normalizeName_length_le u) start size
  have hdrops : s.m.k.drops ⟨um, .save nameOff bufOff size⟩ = some idx := by
    simp [Kernel.drops, hr, hu, hp]
  -- the run written, empty when there is nothing to save
  obtain ⟨touched, hk, hfiles, hwriters⟩ : ∃ touched, s.m.k.fs.disk.KeepsData disk touched ∧
      (∀ j ≠ idx, (s.m.k.fs.dir.get j).live = true → Disjoint touched (s.m.k.fs.dir.get j).extent) ∧
      ∀ i, (s.m.k.ofiles i).Writing → Disjoint touched (s.m.k.ofiles i).region := by
    rcases Nat.eq_zero_or_pos size.toNat with h0 | h0
    · have hzero : sectorsOf size = 0#32 := by
        rw [BitVec.eq_of_toNat_eq (show size.toNat = (0#32).toNat from h0)]
        rfl
      refine ⟨∅, ?_, fun _ _ _ => Set.empty_disjoint _, fun _ _ => Set.empty_disjoint _⟩
      rw [hdisk, hzero]
      exact .writeNone _ _ _ _ _
    · obtain ⟨hon, h1, h2⟩ := h.save_run hcare hr hu hp h0
      exact ⟨_, .writeSectors _ _ _ hon, h1, h2⟩
  have hkeep : s.m.k.fs.disk.KeepsData (s.m.k.step ⟨um, .save nameOff bufOff size⟩).fs.disk touched := by
    rw [hstep]
    exact hk.trans (.syncDir ⟨s.m.k.fs.dir.set idx e, disk⟩ touched)
  refine ⟨hext, ?_, ?_, ?_⟩
  · change NamesApart (s.m.k.step ⟨um, .save nameOff bufOff size⟩).fs.dir
    rw [hstep]
    refine NamesApart.set h.names hidx (fun _ => ?_)
    rw [hstr]
    exact h.names.place hun (hplace.imp id And.left)
  · intro j bs hj
    obtain ⟨hold, hdrop⟩ := Session.written_of_after rfl hj
    have hne : j ≠ idx := by
      intro hji
      exact hdrop (by rw [hdrops, hji])
    have hs := h.slots j bs hold
    have hget : (s.m.k.step ⟨um, .save nameOff bufOff size⟩).fs.dir.get j = s.m.k.fs.dir.get j := by
      rw [hstep]
      exact Dir.get_set_ne _ hne e
    change (s.m.k.step ⟨um, .save nameOff bufOff size⟩).SlotHolds j bs
    exact hs.keep h.extents.dir hkeep (hget ▸ hs.live) (by rw [hget]) (by rw [hget]) (hfiles j hne hs.live)
  · intro i hw
    have hof : (s.m.k.step ⟨um, .save nameOff bufOff size⟩).ofiles i = s.m.k.ofiles i := by rw [hstep]
    replace hw : ((s.m.k.step ⟨um, .save nameOff bufOff size⟩).ofiles i).Writing := hw
    change ((s.m.k.step ⟨um, .save nameOff bufOff size⟩).ofiles i).HandleHolds
      (s.m.k.step ⟨um, .save nameOff bufOff size⟩).fs.disk (s.passedAfter ⟨um, .save nameOff bufOff size⟩ i)
    rw [hof] at hw ⊢
    rw [Session.passedAfter_eq rfl rfl]
    exact (h.handles i hw).keep (h.extents.writer i hw).1 hkeep (hwriters i hw)

/-- The region of a write handle meets no live file. -/
theorem Session.Inv.region_disjoint {i : Fin openMax} (hw : (s.m.k.ofiles i).Writing) {f : OpenFile}
    (hf : f.start = (s.m.k.ofiles i).start) {j : Nat} (hl : (s.m.k.fs.dir.get j).live = true) :
    Disjoint f.region (s.m.k.fs.dir.get j).extent := by
  rcases Nat.eq_zero_or_pos (s.m.k.fs.dir.get j).size.toNat with h0 | h0
  · have hempty : (s.m.k.fs.dir.get j).extent = ∅ := by simp [Dirent.extent, h0, sectorCount_eq_zero.2 rfl]
    rw [hempty]
    exact Set.disjoint_empty _
  · have hpast := h.extents.past i hw j hl h0
    rw [← hf] at hpast
    exact disjoint_of_past hpast

/-- A call that moves one write handle on within its region. -/
theorem Session.Inv.moved {r : Request} {i : Fin openMax} {f : OpenFile} {d : Disk} (hext : ExtentsInv (s.m.k.step r))
    (hc : s.m.k.closes r = none) (heq : s.m.k.step r = s.m.k.setIo i f d) (hw : (s.m.k.ofiles i).Writing) {g : OpenFile}
    (hg : g.start = (s.m.k.ofiles i).start) (hk : s.m.k.fs.disk.KeepsData d g.region)
    (hf : f.HandleHolds d (s.passedAfter r i)) : (s.step (.call r)).Inv := by
  have hkeep : s.m.k.fs.disk.KeepsData (s.m.k.step r).fs.disk g.region := by
    rw [heq]
    exact hk
  refine ⟨hext, ?_, ?_, ?_⟩
  · change NamesApart (s.m.k.step r).fs.dir
    rw [heq]
    exact h.names
  · intro j bs hj
    have hs := h.slots j bs (Session.written_of_after hc hj).1
    have hget : (s.m.k.step r).fs.dir.get j = s.m.k.fs.dir.get j := by
      rw [heq]
      rfl
    change (s.m.k.step r).SlotHolds j bs
    exact hs.keep h.extents.dir hkeep (hget ▸ hs.live) (by rw [hget]) (by rw [hget]) (h.region_disjoint hw hg hs.live)
  · intro j hwj
    replace hwj : ((s.m.k.step r).ofiles j).Writing := hwj
    change ((s.m.k.step r).ofiles j).HandleHolds (s.m.k.step r).fs.disk (s.passedAfter r j)
    rw [heq] at hwj ⊢
    by_cases hji : j = i
    · have hof : (s.m.k.setIo i f d).ofiles j = f := if_pos hji
      rw [hof, hji]
      exact hf
    · have hof : (s.m.k.setIo i f d).ofiles j = s.m.k.ofiles j := if_neg hji
      rw [hof] at hwj
      exact absurd hwj (h.extents.others hw j hji)

/-- `SYS_FWRITE`. -/
theorem Session.Inv.fwrite {um : UserMem} {fd off len : U32} (hext : ExtentsInv (s.m.k.step ⟨um, .fwrite fd off len⟩))
    (hcare : CarefulCall s.m.k ⟨um, .fwrite fd off len⟩) : (s.step (.call ⟨um, .fwrite fd off len⟩)).Inv := by
  by_cases hserved : userRangeOk off len = true ∧ ∃ i, getOfile s.m.k.ofiles fd = some i ∧ (s.m.k.ofiles i).mode = .write
  swap
  · -- refused: nothing changes and nothing was passed
    have hpass : s.m.k.passes ⟨um, .fwrite fd off len⟩ = none := by
      simp only [Kernel.passes]
      split
      · rename_i hr
        cases hg : getOfile s.m.k.ofiles fd with
        | none => rfl
        | some i =>
          have hm : (s.m.k.ofiles i).mode ≠ .write := fun hm => hserved ⟨hr, i, hg, hm⟩
          simp [Option.filter, hm]
      · rfl
    have heq : s.m.k.step ⟨um, .fwrite fd off len⟩ = s.m.k := by
      rcases sysFwrite_cases s.m.k um fd off len with heq | ⟨i, hi, hm, hr, -, -⟩
      · exact heq
      · exact absurd ⟨hr, i, hi, hm⟩ hserved
    exact h.quiet hext rfl rfl hpass (by rw [heq]) (fun _ _ => by rw [heq]) (by rw [heq]; exact .refl _ _)
  obtain ⟨hr, i, hi, hm⟩ := hserved
  have hw : (s.m.k.ofiles i).Writing := ⟨getOfile_used hi, hm⟩
  obtain ⟨hposeq, hbuf⟩ := hcare.appends fd off len i rfl hi hm
  obtain ⟨hroom, hsmall⟩ := hcare.capacity i hi hm
  have hhold := h.handles i hw
  have hpass : s.passedAfter ⟨um, .fwrite fd off len⟩ i =
      s.passed i ++ (List.range len.toNat).map (fun j => um (off.toNat + j)) := by
    have hp : s.m.k.passes ⟨um, .fwrite fd off len⟩ = some (i, (List.range len.toNat).map fun j => um (off.toNat + j)) := by
      simp [Kernel.passes, hr, hi, Option.filter, hm]
    unfold Session.passedAfter
    rw [hp]
    dsimp only [Kernel.openedForWriting]
    rw [if_pos rfl, hposeq, hhold.size, putAt_length]
  have hloop := hhold.fwrite hw (h.extents.writer i hw).1 hposeq hbuf (fun j => um (off.toNat + j)) hroom hsmall
  have heq : s.m.k.step ⟨um, .fwrite fd off len⟩ = s.m.k.setIo i
      (fwriteLoop len.toNat (s.m.k.ofiles i) s.m.k.fs.disk (fun j => um (off.toNat + j)) len.toNat).1
      (fwriteLoop len.toNat (s.m.k.ofiles i) s.m.k.fs.disk (fun j => um (off.toNat + j)) len.toNat).2 := by
    by_cases hl : len = 0#32
    · have hself : s.m.k.setIo i (s.m.k.ofiles i) s.m.k.fs.disk = s.m.k := by
        have hof : (fun j => if j = i then s.m.k.ofiles i else s.m.k.ofiles j) = s.m.k.ofiles := by
          funext j
          split
          · rename_i hji
            rw [hji]
          · rfl
        simp only [Kernel.setIo, hof]
      subst hl
      simp only [Kernel.step, Kernel.syscall, Kernel.sysFwrite, hr, hi, hm]
      exact hself.symm
    · simp [Kernel.step, Kernel.syscall, Kernel.sysFwrite, hr, hi, hm, hl]
  have hgrown := (fwriteLoop_ok s.m.k.fs.disk.limit_le len.toNat (s.m.k.ofiles i) s.m.k.fs.disk (fun j => um (off.toNat + j))
    len.toNat (h.extents.writer i hw).1 (fun _ => hroom) hsmall).2.1
  exact h.moved hext rfl heq hw hgrown.start hloop.2 (hpass ▸ hloop.1)

/-- `SYS_SEEK`. -/
theorem Session.Inv.seek {um : UserMem} {fd pos : U32} (hext : ExtentsInv (s.m.k.step ⟨um, .seek fd pos⟩)) :
    (s.step (.call ⟨um, .seek fd pos⟩)).Inv := by
  rcases sysSeek_cases s.m.k fd pos with heq | ⟨i, p, hi, -, ⟨hm, heq⟩ | ⟨hm, heq⟩⟩
  · refine h.quiet hext rfl rfl rfl ?_ ?_ ?_ <;> simp only [Kernel.step, Kernel.syscall, heq]
    · exact fun _ _ => trivial
    · exact .refl _ _
  · refine h.quiet hext rfl rfl rfl ?_ ?_ ?_ <;> simp only [Kernel.step, Kernel.syscall, heq]
    · rfl
    · intro j hw
      by_cases hji : j = i
      · have hof : (s.m.k.setIo i { s.m.k.ofiles i with pos := p, sectorValid := false, sectorDirty := false } s.m.k.fs.disk).ofiles j =
            { s.m.k.ofiles i with pos := p, sectorValid := false, sectorDirty := false } := if_pos hji
        rw [hof] at hw
        have hmode : (s.m.k.ofiles i).mode = .write := hw.2
        rw [hm] at hmode
        cases hmode
      · exact if_neg hji
    · exact .refl _ _
  · have hw : (s.m.k.ofiles i).Writing := ⟨getOfile_used hi, hm⟩
    obtain ⟨hk, hb⟩ := (h.handles i hw).flush (h.extents.writer i hw).1
    refine h.moved (f := { s.m.k.ofiles i with pos := p, sectorValid := false, sectorDirty := false }) hext rfl
      (by simp only [Kernel.step, Kernel.syscall, heq]) hw rfl hk ?_
    rw [Session.passedAfter_eq rfl rfl]
    exact ⟨(h.handles i hw).size, Or.inr ⟨rfl, hb⟩⟩

/-- `SYS_CLOSE` of a write handle: the file in its slot holds what was passed to the handle. -/
theorem Session.Inv.closeWriter {r : Request} {i : Fin openMax} (hext : ExtentsInv (s.m.k.step r)) (hw : (s.m.k.ofiles i).Writing)
    (hd : s.m.k.drops r = none) (hc : s.m.k.closes r = some i)
    (heq : s.m.k.step r = Kernel.setOfile ⟨Fs.syncDir ⟨s.m.k.fs.dir.set (s.m.k.ofiles i).dirIndex
      (closeEntry (s.m.k.fs.dir.get (s.m.k.ofiles i).dirIndex) (s.m.k.ofiles i)),
        (ofileFlush (s.m.k.ofiles i) s.m.k.fs.disk).2⟩, s.m.k.ofiles⟩ i OpenFile.zero) : (s.step (.call r)).Inv := by
  set f := s.m.k.ofiles i with hf
  set e := closeEntry (s.m.k.fs.dir.get f.dirIndex) f with he
  obtain ⟨hok, hidx⟩ := h.extents.writer i hw
  have hhold := h.handles i hw
  obtain ⟨hk, hb⟩ := hhold.flush hok
  have hlive : e.live = (s.m.k.fs.dir.get f.dirIndex).live := rfl
  have hstr : e.str = (s.m.k.fs.dir.get f.dirIndex).str := rfl
  have hsync := Disk.KeepsData.syncDir ⟨s.m.k.fs.dir.set f.dirIndex e, (ofileFlush f s.m.k.fs.disk).2⟩
  have hdisk : (s.m.k.step r).fs.disk = (Fs.syncDir ⟨s.m.k.fs.dir.set f.dirIndex e, (ofileFlush f s.m.k.fs.disk).2⟩).disk := by
    rw [heq]
    rfl
  have hkeep : s.m.k.fs.disk.KeepsData (s.m.k.step r).fs.disk f.region := by
    rw [hdisk]
    exact hk.trans (hsync f.region)
  have hdir : (s.m.k.step r).fs.dir = s.m.k.fs.dir.set f.dirIndex e := by
    rw [heq]
    rfl
  refine ⟨hext, ?_, ?_, ?_⟩
  · change NamesApart (s.m.k.step r).fs.dir
    rw [hdir]
    refine h.names.set hidx (fun hl j hj hjl hsame => ?_)
    rw [hstr] at hsame
    exact hj (h.names j _ hjl (hlive ▸ hl) hsame)
  · intro j bs hj
    replace hj : s.writtenAfter r j = some bs := hj
    unfold Session.writtenAfter at hj
    rw [hd, if_neg (by simp), hc] at hj
    dsimp only at hj
    change (s.m.k.step r).SlotHolds j bs
    by_cases hji : f.dirIndex = j
    · rw [if_pos hji] at hj
      split at hj
      · rename_i hl
        obtain rfl : s.passed i = bs := Option.some.inj hj
        have hget : (s.m.k.step r).fs.dir.get j = e := by
          rw [hdir, ← hji]
          exact Dir.get_set_self _ hidx e
        refine ⟨by rw [hget, hlive, hji]; exact hl, by rw [hget]; exact hhold.size, ?_⟩
        intro q hq
        have hpos : 0 < f.size.toNat := by rw [hhold.size]; omega
        obtain ⟨-, h2, h3⟩ := sector_of_byte (q := q) (by rw [hhold.size]; exact hq) hok.data (hok.room hpos)
        rw [hget, hdisk, ← hb q hq]
        exact (hsync ∅).bytes _ (fun hmem => hmem.elim) h2 (hk.onMedium h3) _ (Nat.mod_lt _ (by decide))
      · cases hj
    · rw [if_neg hji] at hj
      have hs := h.slots j bs hj
      have hget : (s.m.k.step r).fs.dir.get j = s.m.k.fs.dir.get j := by
        rw [hdir]
        exact Dir.get_set_ne _ (Ne.symm hji) e
      exact hs.keep h.extents.dir hkeep (hget ▸ hs.live) (by rw [hget]) (by rw [hget]) (h.region_disjoint hw rfl hs.live)
  · intro j hwj
    replace hwj : ((s.m.k.step r).ofiles j).Writing := hwj
    rw [heq] at hwj
    obtain ⟨hji, hsame⟩ := setOfile_writing zero_not_writing hwj
    rw [hsame] at hwj
    exact absurd hwj (h.extents.others hw j hji)

/-- `SYS_CLOSE`. -/
theorem Session.Inv.close {um : UserMem} {fd : U32} (hext : ExtentsInv (s.m.k.step ⟨um, .close fd⟩)) :
    (s.step (.call ⟨um, .close fd⟩)).Inv := by
  cases hi : getOfile s.m.k.ofiles fd with
  | none =>
    have hc : s.m.k.closes ⟨um, .close fd⟩ = none := by simp [Kernel.closes, hi]
    have heq : s.m.k.step ⟨um, .close fd⟩ = s.m.k := by simp [Kernel.step, Kernel.syscall, Kernel.sysClose, hi]
    exact h.quiet hext hc rfl rfl (by rw [heq]) (fun _ _ => by rw [heq]) (by rw [heq]; exact .refl _ _)
  | some i =>
    cases hm : (s.m.k.ofiles i).mode with
    | read =>
      have hc : s.m.k.closes ⟨um, .close fd⟩ = none := by simp [Kernel.closes, hi, Option.filter, hm]
      have heq : s.m.k.step ⟨um, .close fd⟩ = s.m.k.setOfile i OpenFile.zero := by
        simp [Kernel.step, Kernel.syscall, Kernel.sysClose, hi, hm]
      refine h.quiet hext hc rfl rfl (by rw [heq]; rfl) ?_ (by rw [heq]; exact .refl _ _)
      intro j hw
      rw [heq] at hw ⊢
      exact (setOfile_writing zero_not_writing hw).2
    | write =>
      have hc : s.m.k.closes ⟨um, .close fd⟩ = some i := by simp [Kernel.closes, hi, Option.filter, hm]
      refine h.closeWriter hext ⟨getOfile_used hi, hm⟩ rfl hc ?_
      rcases sysClose_cases s.m.k fd with heq | ⟨i', hi', ⟨hm', -⟩ | ⟨-, heq⟩⟩
      · have hzero : (s.m.k.sysClose fd).2 = 0#32 := by simp [Kernel.sysClose, hi, hm]
        rw [heq] at hzero
        exact absurd (show fail = 0#32 from hzero) (by decide)
      · obtain rfl : i = i' := Option.some.inj (hi.symm.trans hi')
        rw [hm] at hm'
        cases hm'
      · obtain rfl : i = i' := Option.some.inj (hi.symm.trans hi')
        simp only [Kernel.step, Kernel.syscall, heq]

/-- Every careful call keeps the contents. -/
theorem Session.Inv.call (r : Request) (hcare : CarefulCall s.m.k r) : (s.step (.call r)).Inv := by
  have hext := (extentsInv_step s.m.k r h.extents ⟨hcare.capacity, hcare.alone⟩).1
  obtain ⟨um, c⟩ := r
  cases c with
  | load nameOff bufOff max => exact h.load hext
  | save nameOff bufOff size => exact h.save hext hcare
  | rename oldOff newOff => exact h.rename hext hcare
  | delete nameOff => exact h.delete hext
  | «open» nameOff mode => exact h.open hext hcare
  | fread fd off len => exact h.fread hext
  | fwrite fd off len => exact h.fwrite hext hcare
  | close fd => exact h.close hext
  | seek fd pos => exact h.seek hext
  | sync status => exact h.sync hext

end Calls

/-! ## The end of a program -/

/-- The kernel after `exec_user`. -/
theorem exec_keeps (k : Kernel) (name : List Byte) (mem : Nat → Byte) :
    (k.exec name mem).1.ofiles = k.ofiles ∧ (k.exec name mem).1.fs.dir = k.fs.dir ∧
    k.fs.disk.KeepsData (k.exec name mem).1.fs.disk ∅ := by
  have hfst : (execUser k.fs name mem).1 = (k.fs.read name (BitVec.ofNat 32 fileBufMax)).1 := by
    unfold execUser
    rcases k.fs.read name (BitVec.ofNat 32 fileBufMax) with ⟨fs, _ | ⟨size, data⟩⟩ <;> rfl
  refine ⟨rfl, ?_, ?_⟩
  · change (execUser k.fs name mem).1.dir = k.fs.dir
    rw [hfst]
    exact Fs.read_dir _ _ _
  · change k.fs.disk.KeepsData (execUser k.fs name mem).1.disk ∅
    rw [hfst]
    exact Fs.read_disk (P := fun d => k.fs.disk.KeepsData d ∅) (fun d lba n hd => hd.trans (.readSectors d lba n ∅)) _ _ _ (.refl _ _)

/-- From the end of a program to the start of the next, files and handles are only read. -/
theorem endProgram_keeps (m : Kmain) (e : Ending) (mem : Nat → Byte) :
    (m.endProgram e mem).k.ofiles = m.k.ofiles ∧ (m.endProgram e mem).k.fs.dir = m.k.fs.dir ∧
    m.k.fs.disk.KeepsData (m.endProgram e mem).k.fs.disk ∅ := by
  unfold Kmain.endProgram
  split
  · rename_i name _ _
    dsimp only
    split
    · exact exec_keeps m.k _ mem
    · obtain ⟨h1, h2, h3⟩ := exec_keeps m.k name mem
      obtain ⟨g1, g2, g3⟩ := exec_keeps (m.k.exec name mem).1 shellName mem
      exact ⟨g1.trans h1, g2.trans h2, h3.trans g3⟩
  · exact exec_keeps m.k shellName mem
  · exact exec_keeps m.k shellName mem

/-- The end of a program keeps the invariant when no handle is in use. -/
theorem Session.Inv.ends {s : Session} (h : s.Inv) (e : Ending) (mem : Nat → Byte) (hun : ∀ i, (s.m.k.ofiles i).used = false) :
    (s.step (.ends e mem)).Inv ∧ ∀ i, ((s.step (.ends e mem)).m.k.ofiles i).used = false := by
  obtain ⟨hof, hdir, hk⟩ := endProgram_keeps s.m e mem
  have hun' : ∀ i, ((s.m.endProgram e mem).k.ofiles i).used = false := by
    intro i
    rw [hof]
    exact hun i
  have hno : ∀ i, ¬((s.m.endProgram e mem).k.ofiles i).Writing := by
    intro i hw
    rw [OpenFile.Writing, hun' i] at hw
    cases hw.1
  have hlim : (s.m.endProgram e mem).k.fs.disk.limit = s.m.k.fs.disk.limit := hk.limit
  refine ⟨⟨⟨?_, fun i _ hi => absurd hi (hno i), fun i hi => absurd hi (hno i), fun i hi => absurd hi (hno i),
    fun i hi => absurd hi (by rw [show ((s.step (.ends e mem)).m.k.ofiles i).used = false from hun' i]; decide)⟩, ?_, ?_,
    fun i hi => absurd hi (hno i)⟩, hun'⟩
  · change DirOk (s.m.endProgram e mem).k.fs.dir (s.m.endProgram e mem).k.fs.disk.limit
    rw [hdir, hlim]
    exact h.extents.dir
  · change NamesApart (s.m.endProgram e mem).k.fs.dir
    rw [hdir]
    exact h.names
  · intro j bs hj
    have hs := h.slots j bs hj
    have hget : (s.m.endProgram e mem).k.fs.dir.get j = s.m.k.fs.dir.get j := by rw [hdir]
    change (s.m.endProgram e mem).k.SlotHolds j bs
    exact hs.keep h.extents.dir hk (hget ▸ hs.live) (by rw [hget]) (by rw [hget]) (Set.empty_disjoint _)

/-- A file that holds a content loads it. -/
theorem Kernel.SlotHolds.loads {k : Kernel} (hd : DirOk k.fs.dir k.fs.disk.limit) {j : Nat} {bs : List Byte} (h : k.SlotHolds j bs)
    {um : UserMem} {nameOff bufOff max : U32} {uname : List Byte} (hn : nameAt um nameOff = some uname)
    (hf : fsFind k.fs.dir (normalizeName uname) = some j) (hr : userRangeOk bufOff max = true) (hmax : bs.length ≤ max.toNat) :
    (k.sysLoad um nameOff bufOff max).2.2.toNat = bs.length ∧
    ∀ q < bs.length, (k.sysLoad um nameOff bufOff max).2.1 (bufOff.toNat + q) = bs.getD q 0#8 := by
  have hdir : fsDirLba ≤ fsDataLba := by decide
  have hle : ¬max < (k.fs.dir.get j).size := by
    rw [BitVec.not_lt, BitVec.le_def, h.size]
    exact hmax
  obtain ⟨data, hread, hdata⟩ := k.fs.read_spec hf hle (fun h0 => by
    obtain ⟨h1, h2⟩ := hd.data j h.live h0
    exact ⟨by lia, h2⟩)
  have hload : k.sysLoad um nameOff bufOff max = (k, (fun i => if bufOff.toNat ≤ i ∧
      i < bufOff.toNat + (k.fs.dir.get j).size.toNat then data (i - bufOff.toNat) else um i), (k.fs.dir.get j).size) := by
    simp [Kernel.sysLoad, hr, hn, hread]
  rw [hload]
  refine ⟨h.size, ?_⟩
  intro q hq
  dsimp only
  rw [h.size, if_pos (by lia), Nat.add_sub_cancel_left, hdata q (by rw [h.size]; exact hq)]
  exact h.bytes q hq

/-- With every handle closed, everything written can be loaded. -/
theorem Session.Inv.allReturned {s : Session} (h : s.Inv) (hun : ∀ i, (s.m.k.ofiles i).used = false) :
    s.m.k.AllReturned s.written := by
  refine ⟨hun, ?_⟩
  intro j bs hj
  have hs := h.slots j bs hj
  refine ⟨h.names.find hs.live, ?_⟩
  intro um nameOff bufOff max uname hn hf hr hmax
  exact hs.loads h.extents.dir hn hf hr hmax

/-- A careful event keeps the invariant. -/
theorem Session.Inv.step (s : Session) (ev : Event) (h : s.Inv) (hc : Careful s ev) : (s.step ev).Inv := by
  cases ev with
  | call r => exact h.call r hc
  | ends e mem => exact (h.ends e mem hc).1

/-- A program that ends carefully leaves nothing behind. -/
theorem leavesNothing_of_careful (s : Session) (ev : Event) (h : s.Inv) (hc : Careful s ev) : LeavesNothing s ev := by
  cases ev with
  | call r => trivial
  | ends e mem =>
    obtain ⟨hinv, hun⟩ := h.ends e mem hc
    exact hinv.allReturned hun

/-! ## Whole sessions -/

/-- From a disk in order, over every sequence of programs that make careful calls and close their handles before they end, in
whatever way: when the next program starts, no handle is in use and every byte passed to a handle is loaded back. -/
theorem programs_leave_nothing_of_careful (dir : Dir) (disk : Disk) (evs : List Event) (hd : DirOk dir disk.limit)
    (hn : NamesApart dir) (hm : Meets Session.step Careful (Session.boot dir disk) evs) :
    Meets Session.step LeavesNothing (Session.boot dir disk) evs := by
  have hun : ∀ i, ¬((Session.boot dir disk).m.k.ofiles i).Writing := fun i hw => zero_not_writing hw
  have hinv : (Session.boot dir disk).Inv :=
    ⟨⟨hd, fun i _ hi => absurd hi (hun i), fun i hi => absurd hi (hun i), fun i hi => absurd hi (hun i),
      fun i hi => absurd hi Bool.false_ne_true⟩, hn, (fun _ _ hj => nomatch hj), fun i hi => absurd hi (hun i)⟩
  exact meets_of_inv Session.Inv Session.Inv.step leavesNothing_of_careful hinv hm

/-- A program that opens a file, writes one byte, closes it and exits. -/
def tidyProgram : List Event :=
  [.call ⟨userText "A", .open 0#32 1#32⟩, .call ⟨userText "A", .fwrite 3#32 0#32 1#32⟩, .call ⟨userText "", .close 3#32⟩,
    .ends .exit fun _ => 0#8]

/-- The session rule at work. -/
theorem programs_leave_nothing_of_careful_tidy :
    Meets Session.step Careful (Session.boot Dir.empty (Disk.blank 100#32 (by decide))) tidyProgram ∧
    Meets Session.step LeavesNothing (Session.boot Dir.empty (Disk.blank 100#32 (by decide))) tidyProgram := by
  have hm : Meets Session.step Careful (Session.boot Dir.empty (Disk.blank 100#32 (by decide))) tidyProgram := by
    refine ⟨⟨trivial, fun _ i hw => zero_not_writing hw, ?_, ?_, ?_⟩, ⟨?_, trivial, ?_, ?_, ?_⟩, ⟨trivial, trivial, ?_, ?_, ?_⟩,
      ?_, trivial⟩
    · intro nameOff uname h hn
      cases h
      have hname : nameAt (userText "A") 0#32 = some (asciiBytes "A") := by decide
      obtain rfl : asciiBytes "A" = uname := Option.some.inj (hname.symm.trans hn)
      decide
    · exact fun _ _ _ h => Call.noConfusion h
    · exact fun _ _ _ _ h => Call.noConfusion h
    · intro i hi _
      obtain rfl : (⟨0, by decide⟩ : Fin openMax) = i := Option.some.inj (Eq.trans (by decide +kernel) hi)
      decide +kernel
    · exact fun _ _ h => Call.noConfusion h
    · exact fun _ _ _ h => Call.noConfusion h
    · intro fd off len i h hi _
      cases h
      obtain rfl : (⟨0, by decide⟩ : Fin openMax) = i := Option.some.inj (Eq.trans (by decide +kernel) hi)
      decide +kernel
    · exact fun _ _ h => Call.noConfusion h
    · exact fun _ _ _ h => Call.noConfusion h
    · exact fun _ _ _ _ h => Call.noConfusion h
    · intro i
      revert i
      decide +kernel
  exact ⟨hm, programs_leave_nothing_of_careful _ _ _ blankKernel_dirOk (fun i j hi => by simp at hi) hm⟩

/-- A program that opens a file and exits. -/
def untidyProgram : List Event := [.call ⟨userText "A", .open 0#32 1#32⟩, .ends .exit fun _ => 0#8]

/-- Its handle is still in use when the shell starts again. -/
theorem programs_leave_nothing_false :
    ¬∀ (dir : Dir) (disk : Disk) (evs : List Event), DirOk dir disk.limit → NamesApart dir →
      Meets Session.step LeavesNothing (Session.boot dir disk) evs := by
  intro h
  have hm := h Dir.empty (Disk.blank 100#32 (by decide)) untidyProgram blankKernel_dirOk (fun i j hi => by simp at hi)
  have hused := hm.2.1.1 ⟨0, by decide⟩
  revert hused
  decide +kernel

end MiniOs32
