import MiniOs32.Lemmas.Sectors
import MiniOs32.Theorems.ExtentsDisjoint

/-!
# A handle and the file it was opened on

A write handle remembers a directory index, and `SYS_CLOSE` stores its start and size in whatever entry is there. Between the
open and the close the file can be deleted and its slot given to a new one. To say which file a handle was opened on, a ghost
state numbers the files: an entry made for a new name gets a new number, every other change of an entry keeps it.
-/

namespace MiniOs32

/-! ## Which file is where -/

/-- The free slot in which a call creates an entry for a new name. -/
def Kernel.created (k : Kernel) (r : Request) : Option Nat :=
  match r.call with
  | .save nameOff bufOff size => do
    let uname ← nameAt r.um nameOff
    if userRangeOk bufOff size ∧ fsFind k.fs.dir (normalizeName uname) = none then firstFree k.fs.dir else none
  | .open nameOff mode => do
    let uname ← nameAt r.um nameOff
    let _ ← allocFd k.ofiles
    if mode = 1#32 ∧ fsFind k.fs.dir (normalizeName uname) = none then firstFree k.fs.dir else none
  | _ => none

/-- The handle a call opens for writing, and the slot of its file. -/
def Kernel.openedForWriting (k : Kernel) (r : Request) : Option (Fin openMax × Nat) :=
  match r.call with
  | .open nameOff mode => do
    let uname ← nameAt r.um nameOff
    let i ← allocFd k.ofiles
    let p ← openPlace k.fs.dir (normalizeName uname)
    if mode = 1#32 then some (i, p.1) else none
  | _ => none

/-- The kernel with a number for the file in every slot, the file every write handle was opened on, and whether a new file has
been created in the slot of a handle since it was opened. -/
structure Tracked where
  k : Kernel
  file : Nat → Nat
  next : Nat
  opened : Fin openMax → Nat
  recycled : Fin openMax → Bool

/-- The kernel after boot: the files are numbered by slot. -/
def Tracked.boot (dir : Dir) (disk : Disk) : Tracked :=
  ⟨Kernel.fresh dir disk, id, dirEntries, fun _ => 0, fun _ => false⟩

/-- The number of the file in a slot after a call. -/
def Tracked.fileAfter (t : Tracked) (r : Request) (j : Nat) : Nat := if t.k.created r = some j then t.next else t.file j

/-- One call. -/
def Tracked.step (t : Tracked) (r : Request) : Tracked where
  k := t.k.step r
  file := t.fileAfter r
  next := t.next + 1
  opened i := match t.k.openedForWriting r with
    | some p => if p.1 = i then t.fileAfter r p.2 else t.opened i
    | none => t.opened i
  recycled i := match t.k.openedForWriting r with
    | some p => if p.1 = i then false else t.recycled i || t.k.created r == some (t.k.ofiles i).dirIndex
    | none => t.recycled i || t.k.created r == some (t.k.ofiles i).dirIndex

/-- The file numbers name files: no two slots have the same. -/
structure Tracked.Numbered (t : Tracked) : Prop where
  lt_next : ∀ j < dirEntries, t.file j < t.next
  inj : ∀ j < dirEntries, ∀ l < dirEntries, t.file j = t.file l → j = l

theorem Tracked.Numbered.boot (dir : Dir) (disk : Disk) : (Tracked.boot dir disk).Numbered :=
  ⟨fun _ hj => hj, fun _ _ _ _ h => h⟩

/-- Every call keeps the numbers apart. -/
theorem Tracked.Numbered.step (t : Tracked) (r : Request) (h : t.Numbered) : (t.step r).Numbered := by
  constructor
  · intro j hj
    have := h.lt_next j hj
    change t.fileAfter r j < t.next + 1
    unfold Tracked.fileAfter
    split <;> omega
  · intro j hj l hl heq
    replace heq : t.fileAfter r j = t.fileAfter r l := heq
    have h1 := h.lt_next j hj
    have h2 := h.lt_next l hl
    unfold Tracked.fileAfter at heq
    split at heq
    · rename_i hcj
      split at heq
      · rename_i hcl
        exact Option.some.inj (hcj.symm.trans hcl)
      · omega
    · split at heq
      · omega
      · exact h.inj j hj l hl heq

/-! ## Handles keep their slot -/

/-- Reading through a handle keeps its slot and its mode. -/
theorem freadLoop_handle (fuel : Nat) : ∀ (f : OpenFile) (d : Disk) (um : UserMem) (dst left : Nat),
    (freadLoop fuel f d um dst left).1.dirIndex = f.dirIndex ∧ (freadLoop fuel f d um dst left).1.mode = f.mode := by
  induction fuel with
  | zero => intros; exact ⟨rfl, rfl⟩
  | succ fuel ih =>
    intro f d um dst left
    simp only [freadLoop]
    split
    · exact ⟨rfl, rfl⟩
    · obtain ⟨b, s, hs⟩ := ofileLoadSector_fst f d f.posLba
      have hstep : (freadStep f d left).1.dirIndex = f.dirIndex ∧ (freadStep f d left).1.mode = f.mode := by
        simp [freadStep, hs]
      obtain ⟨h1, h2⟩ := ih (freadStep f d left).1 (freadStep f d left).2.1
        (fun i => if dst ≤ i ∧ i < dst + f.chunk left then (freadStep f d left).2.2 (i - dst) else um i)
        (dst + f.chunk left) (left - f.chunk left)
      exact ⟨h1.trans hstep.1, h2.trans hstep.2⟩

/-- Writing a piece through a handle keeps its slot. -/
theorem fwriteStep_handle (f : OpenFile) (d : Disk) (src : Nat → Byte) (left : Nat) :
    (fwriteStep f d src left).1.dirIndex = f.dirIndex := by
  obtain ⟨s, hs⟩ := fwriteFill_fst f d src left
  unfold fwriteStep
  dsimp only
  split
  · obtain ⟨b, hb⟩ := ofileFlush_fst (fwriteFill f d src left).1 (fwriteFill f d src left).2
    rw [hb, hs]
  · rw [hs]

/-- Writing through a handle keeps its slot. -/
theorem fwriteLoop_handle (fuel : Nat) : ∀ (f : OpenFile) (d : Disk) (src : Nat → Byte) (left : Nat),
    (fwriteLoop fuel f d src left).1.dirIndex = f.dirIndex := by
  induction fuel with
  | zero => intros; rfl
  | succ fuel ih =>
    intro f d src left
    simp only [fwriteLoop]
    split
    · rfl
    · exact (ih _ _ _ _).trans (fwriteStep_handle f d src left)

/-- A call's effect on the write handles, seen from the state after it: a handle that is open for writing has just been opened on
its slot, or was open on it before. -/
def KeepsHandles (k : Kernel) (r : Request) : Prop :=
  ∀ i, ((k.step r).ofiles i).Writing →
    k.openedForWriting r = some (i, ((k.step r).ofiles i).dirIndex) ∨
    ((k.ofiles i).Writing ∧ ((k.step r).ofiles i).dirIndex = (k.ofiles i).dirIndex ∧
      ∀ p, k.openedForWriting r = some p → p.1 ≠ i)

/-- Replacing a handle by one that is not open for writing. -/
theorem setOfile_writing {k : Kernel} {i j : Fin openMax} {f : OpenFile} (hf : ¬f.Writing)
    (h : ((k.setOfile i f).ofiles j).Writing) : j ≠ i ∧ (k.setOfile i f).ofiles j = k.ofiles j := by
  by_cases hij : j = i
  · rw [hij, Kernel.setOfile] at h
    simp only [if_true] at h
    exact absurd h hf
  · exact ⟨hij, if_neg hij⟩

theorem zero_not_writing : ¬OpenFile.zero.Writing := by
  intro h
  cases h.1

theorem readHandle_not_writing (idx : Nat) (e : Dirent) : ¬(readHandle idx e).Writing := by
  intro h
  cases h.2

/-- `SYS_OPEN` opens the handle it found free, and no other. -/
theorem open_keepsHandles (k : Kernel) (um : UserMem) (nameOff mode : U32) : KeepsHandles k ⟨um, .open nameOff mode⟩ := by
  intro j hw
  simp only [Kernel.step, Kernel.syscall] at hw ⊢
  rcases sysOpen_cases k um nameOff mode with heq | ⟨s, i, hs, ha, hcases⟩
  · rw [heq] at hw ⊢
    refine Or.inr ⟨hw, rfl, ?_⟩
    intro p hp hpj
    -- a call that changes nothing opens nothing: the handle would not have been free
    simp only [Kernel.openedForWriting] at hp
    cases hn : nameAt um nameOff with
    | none => simp [hn] at hp
    | some s =>
      cases ha : allocFd k.ofiles with
      | none => simp [hn, ha] at hp
      | some i =>
        have hfree : (k.ofiles i).used = false := by simpa using List.find?_some ha
        cases hpl : openPlace k.fs.dir (normalizeName s) with
        | none => simp [hn, ha, hpl] at hp
        | some q =>
          simp only [hn, ha, hpl, Option.bind_eq_bind, Option.bind_some] at hp
          split at hp
          · simp only [Option.some.injEq] at hp
            rw [← hp] at hpj
            rw [← hpj] at hw
            exact absurd (hw.1.symm.trans hfree) (by decide)
          · cases hp
  · have hfree : (k.ofiles i).used = false := by simpa using List.find?_some ha
    have hopen : ∀ p, k.openedForWriting ⟨um, .open nameOff mode⟩ = some p → p.1 = i := by
      intro p hp
      simp only [Kernel.openedForWriting, hs, ha, Option.bind_eq_bind, Option.bind_some] at hp
      cases hpl : openPlace k.fs.dir (normalizeName s) with
      | none => simp [hpl] at hp
      | some q =>
        simp only [hpl, Option.bind_some] at hp
        split at hp
        · simp only [Option.some.injEq] at hp
          rw [← hp]
        · cases hp
    rcases hcases with heq | ⟨idx, -, -, heq⟩ | ⟨idx, start, hmode, hp, heq⟩
    · rw [heq] at hw ⊢
      obtain ⟨hne, hsame⟩ := setOfile_writing zero_not_writing hw
      dsimp only at hw ⊢
      rw [hsame] at hw ⊢
      exact Or.inr ⟨hw, rfl, fun p hp hpj => hne (hpj.symm.trans (hopen p hp))⟩
    · rw [heq] at hw ⊢
      obtain ⟨hne, hsame⟩ := setOfile_writing (readHandle_not_writing _ _) hw
      dsimp only at hw ⊢
      rw [hsame] at hw ⊢
      exact Or.inr ⟨hw, rfl, fun p hp hpj => hne (hpj.symm.trans (hopen p hp))⟩
    · rw [heq] at hw ⊢
      by_cases hji : j = i
      · left
        subst hji
        simp [Kernel.openedForWriting, hs, ha, hp, hmode, Kernel.setOfile, writeHandle]
      · right
        have hsame : (Kernel.setOfile ⟨Fs.syncDir ⟨k.fs.dir.set idx (openEntry (k.fs.dir.get idx) (normalizeName s) start),
            k.fs.disk⟩, k.ofiles⟩ i (writeHandle idx start)).ofiles j = k.ofiles j := if_neg hji
        dsimp only at hw ⊢
        rw [hsame] at hw ⊢
        exact ⟨hw, rfl, fun p hp hpj => hji (hpj.symm.trans (hopen p hp))⟩

/-- A handle moved on: the others are as they were, and it keeps its slot and, if it is a read handle, its mode. -/
theorem setIo_keeps {k : Kernel} {i j : Fin openMax} {f : OpenFile} {d : Disk} (h : ((k.setIo i f d).ofiles j).Writing)
    (hwr : f.Writing → (k.ofiles i).Writing) (hidx : f.dirIndex = (k.ofiles i).dirIndex) :
    (k.ofiles j).Writing ∧ ((k.setIo i f d).ofiles j).dirIndex = (k.ofiles j).dirIndex := by
  by_cases hij : j = i
  · subst hij
    have heq : (k.setIo j f d).ofiles j = f := if_pos rfl
    rw [heq] at h ⊢
    exact ⟨hwr h, hidx⟩
  · have heq : (k.setIo i f d).ofiles j = k.ofiles j := if_neg hij
    rw [heq] at h ⊢
    exact ⟨h, rfl⟩

/-- Every call keeps the slots of the write handles. -/
theorem keepsHandles (k : Kernel) (r : Request) : KeepsHandles k r := by
  obtain ⟨um, c⟩ := r
  cases c with
  | «open» nameOff mode => exact open_keepsHandles k um nameOff mode
  | load nameOff bufOff max =>
    intro j hw
    simp only [Kernel.step, Kernel.syscall] at hw ⊢
    rcases sysLoad_fst k um nameOff bufOff max with heq | ⟨s, -, heq⟩ <;> rw [heq] at hw ⊢ <;>
      exact Or.inr ⟨hw, rfl, fun p hp => by cases hp⟩
  | save nameOff bufOff size =>
    intro j hw
    simp only [Kernel.step, Kernel.syscall] at hw ⊢
    rcases sysSave_cases k um nameOff bufOff size with heq | ⟨s, idx, start, -, -, -, heq⟩ <;> rw [heq] at hw ⊢ <;>
      exact Or.inr ⟨hw, rfl, fun p hp => by cases hp⟩
  | rename oldOff newOff =>
    intro j hw
    simp only [Kernel.step, Kernel.syscall] at hw ⊢
    rcases sysRename_cases k um oldOff newOff with heq | ⟨s, u, idx, -, -, -, -, heq⟩ <;> rw [heq] at hw ⊢ <;>
      exact Or.inr ⟨hw, rfl, fun p hp => by cases hp⟩
  | delete nameOff =>
    intro j hw
    simp only [Kernel.step, Kernel.syscall] at hw ⊢
    rcases sysDelete_cases k um nameOff with heq | ⟨s, idx, -, -, heq⟩ <;> rw [heq] at hw ⊢ <;>
      exact Or.inr ⟨hw, rfl, fun p hp => by cases hp⟩
  | fread fd off len =>
    intro j hw
    simp only [Kernel.step, Kernel.syscall] at hw ⊢
    rcases sysFread_fst k um fd off len with heq | ⟨i, n, hi, hm, heq⟩ <;> rw [heq] at hw ⊢
    · exact Or.inr ⟨hw, rfl, fun p hp => by cases hp⟩
    · obtain ⟨hidx, hmode⟩ := freadLoop_handle n (k.ofiles i) k.fs.disk um off.toNat n
      obtain ⟨h1, h2⟩ := setIo_keeps hw (fun h => absurd (hm.symm.trans (hmode.symm.trans h.2)) (by decide)) hidx
      exact Or.inr ⟨h1, h2, fun p hp => by cases hp⟩
  | fwrite fd off len =>
    intro j hw
    simp only [Kernel.step, Kernel.syscall] at hw ⊢
    rcases sysFwrite_cases k um fd off len with heq | ⟨i, hi, hm, -, -, heq⟩ <;> rw [heq] at hw ⊢
    · exact Or.inr ⟨hw, rfl, fun p hp => by cases hp⟩
    · obtain ⟨h1, h2⟩ := setIo_keeps hw (fun _ => ⟨getOfile_used hi, hm⟩) (fwriteLoop_handle _ _ _ _ _)
      exact Or.inr ⟨h1, h2, fun p hp => by cases hp⟩
  | close fd =>
    intro j hw
    simp only [Kernel.step, Kernel.syscall] at hw ⊢
    rcases sysClose_cases k fd with heq | ⟨i, -, ⟨-, heq⟩ | ⟨-, heq⟩⟩ <;> rw [heq] at hw ⊢
    · exact Or.inr ⟨hw, rfl, fun p hp => by cases hp⟩
    all_goals
      obtain ⟨-, hsame⟩ := setOfile_writing zero_not_writing hw
      dsimp only at hw ⊢
      rw [hsame] at hw ⊢
      exact Or.inr ⟨hw, rfl, fun p hp => by cases hp⟩
  | seek fd pos =>
    intro j hw
    simp only [Kernel.step, Kernel.syscall] at hw ⊢
    rcases sysSeek_cases k fd pos with heq | ⟨i, p, -, -, ⟨-, heq⟩ | ⟨-, heq⟩⟩ <;> rw [heq] at hw ⊢
    · exact Or.inr ⟨hw, rfl, fun p hp => by cases hp⟩
    all_goals
      obtain ⟨h1, h2⟩ := setIo_keeps hw id rfl
      exact Or.inr ⟨h1, h2, fun p hp => by cases hp⟩
  | sync status =>
    intro j hw
    exact Or.inr ⟨hw, rfl, fun p hp => by cases hp⟩

/-! ## The slot of a handle -/

/-- As long as no new file has been created in its slot, a write handle's slot holds the file it was opened on (or nothing). -/
def Tracked.Owns (t : Tracked) : Prop :=
  ∀ i, (t.k.ofiles i).Writing → t.recycled i = false → t.file (t.k.ofiles i).dirIndex = t.opened i

/-- Every call keeps it so. -/
theorem Tracked.Owns.step (t : Tracked) (r : Request) (h : t.Owns) : (t.step r).Owns := by
  intro i hw hrec
  replace hw : ((t.k.step r).ofiles i).Writing := hw
  change t.fileAfter r ((t.k.step r).ofiles i).dirIndex = (t.step r).opened i
  rcases keepsHandles t.k r i hw with hopen | ⟨hold, hidx, hother⟩
  · simp only [Tracked.step, hopen, if_true]
  · have hkeep : t.recycled i = false ∧ t.k.created r ≠ some (t.k.ofiles i).dirIndex ∧ (t.step r).opened i = t.opened i := by
      cases hop : t.k.openedForWriting r with
      | none =>
        simp only [Tracked.step, hop, Bool.or_eq_false_iff, beq_eq_false_iff_ne] at hrec ⊢
        exact ⟨hrec.1, hrec.2, trivial⟩
      | some p =>
        have hne := hother p hop
        simp only [Tracked.step, hop, if_neg hne, Bool.or_eq_false_iff, beq_eq_false_iff_ne] at hrec ⊢
        exact ⟨hrec.1, hrec.2, trivial⟩
    rw [hidx, hkeep.2.2, ← h i hold hkeep.1]
    exact if_neg hkeep.2.1

/-! ## Reading elsewhere -/

/-- Two sector numbers name the same sector of the medium. -/
def Disk.SameSector (d : Disk) (a b : Nat) : Prop := if d.ram then a = b else a % ataSectors = b % ataSectors

/-- The sectors `fs_read` reads for an entry. -/
def Dirent.Loads (e : Dirent) (s : Nat) : Prop :=
  (∃ t < e.size.toNat / 512, s = e.start.toNat + t) ∨ (0 < e.size.toNat % 512 ∧ s = (e.start + e.size / 512#32).toNat)

/-- The bytes after a write. -/
theorem Disk.writeSectors_bytes (d : Disk) (who : Writer) (lba count : U32) (buf : Nat → Byte) :
    (d.writeSectors who lba count buf).bytes =
      if d.ram then if d.rdRangeOk lba count && d.rdInside lba count then d.ramCopyIn lba count buf else d.bytes
      else d.ataCopyIn lba count buf := by
  unfold Disk.writeSectors
  split
  · cases hok : d.rdRangeOk lba count <;> rfl
  · rfl

/-- The bytes read. -/
theorem Disk.readSectors_snd (d : Disk) (lba count : U32) :
    (d.readSectors lba count).2 =
      if d.ram then
        if d.rdRangeOk lba count then
          if d.rdInside lba count then fun i => d.bytes (d.addr lba.toNat + i) else d.outside
        else fun _ => 0#8
      else fun i => d.bytes (d.addr (lba.toNat + i / 512) + i % 512) := by
  unfold Disk.readSectors
  split
  · split
    · split <;> rfl
    · rfl
  · rfl

/-- A write leaves the sectors it does not name alone. -/
theorem Disk.writeSectors_elsewhere (d : Disk) (who : Writer) (lba count : U32) (buf : Nat → Byte) {s i : Nat} (hi : i < 512)
    (hs : d.ram = true → fsDirLba ≤ s) (h : ∀ t < count.toNat, ¬d.SameSector s (lba.toNat + t)) :
    (d.writeSectors who lba count buf).bytes (d.addr s + i) = d.bytes (d.addr s + i) := by
  have hata : ataSectors = 268435456 := rfl
  rw [Disk.writeSectors_bytes]
  cases hram : d.ram with
  | true =>
    have hs := hs hram
    rw [if_pos rfl]
    split
    · rename_i hin
      simp only [Disk.rdInside, Bool.and_eq_true, decide_eq_true_eq] at hin
      simp only [Disk.ramCopyIn, Disk.addr, hram, if_true]
      refine if_neg ?_
      intro hc
      refine h (s - lba.toNat) (by lia) ?_
      rw [Disk.SameSector, hram, if_pos rfl]
      lia
    · rfl
  | false =>
    rw [if_neg Bool.false_ne_true]
    simp only [Disk.ataCopyIn, Disk.addr, hram, Bool.false_eq_true, if_false]
    refine if_neg ?_
    rw [hata]
    rintro ⟨-, hc⟩
    refine h _ hc ?_
    rw [Disk.SameSector, hram, if_neg Bool.false_ne_true, hata]
    lia

/-- Two disks with the same medium, seen by a reader of the sectors in a set. -/
structure Disk.AgreesOn (d d' : Disk) (sectors : Nat → Prop) : Prop where
  ram : d'.ram = d.ram
  rdSectors : d'.rdSectors = d.rdSectors
  outside : d'.outside = d.outside
  bytes : ∀ s, sectors s → (d.ram = true → fsDirLba ≤ s) → ∀ i < 512, d'.bytes (d.addr s + i) = d.bytes (d.addr s + i)

/-- A write keeps what a reader of other sectors sees. -/
theorem Disk.AgreesOn.writeSectors {d d' : Disk} {sectors : Nat → Prop} (h : d.AgreesOn d' sectors) (who : Writer)
    (lba count : U32) (buf : Nat → Byte) (hs : ∀ s, sectors s → ∀ t < count.toNat, ¬d.SameSector s (lba.toNat + t)) :
    d.AgreesOn (d'.writeSectors who lba count buf) sectors := by
  have hkeep : (d'.writeSectors who lba count buf).ram = d'.ram ∧ (d'.writeSectors who lba count buf).rdSectors = d'.rdSectors ∧
      (d'.writeSectors who lba count buf).outside = d'.outside := by
    unfold Disk.writeSectors
    split
    · split <;> exact ⟨rfl, rfl, rfl⟩
    · exact ⟨rfl, rfl, rfl⟩
  refine ⟨hkeep.1.trans h.ram, hkeep.2.1.trans h.rdSectors, hkeep.2.2.trans h.outside, ?_⟩
  intro s hmem hdir i hi
  have haddr : d.addr s = d'.addr s := by simp only [Disk.addr, h.ram]
  have hsame : ∀ t < count.toNat, ¬d'.SameSector s (lba.toNat + t) := by
    intro t ht
    simp only [Disk.SameSector, h.ram]
    exact hs s hmem t ht
  rw [← h.bytes s hmem hdir i hi, haddr]
  exact d'.writeSectors_elsewhere who lba count buf hi (fun hr => hdir (h.ram ▸ hr)) hsame

/-- Reading a run depends on the bytes of its sectors only. -/
theorem Disk.AgreesOn.readSectors {d d' : Disk} {sectors : Nat → Prop} (h : d.AgreesOn d' sectors) {lba count : U32}
    (hs : ∀ t < count.toNat, sectors (lba.toNat + t)) :
    ∀ i < count.toNat * 512, (d'.readSectors lba count).2 i = (d.readSectors lba count).2 i := by
  intro i hi
  have hin : d'.rdInside lba count = d.rdInside lba count := by simp only [Disk.rdInside, h.rdSectors]
  have hok : d'.rdRangeOk lba count = d.rdRangeOk lba count := by simp only [Disk.rdRangeOk, h.rdSectors, h.ram]
  have haddr : ∀ l, d'.addr l = d.addr l := by intro l; simp only [Disk.addr, h.ram]
  have hsec := h.bytes (lba.toNat + i / 512) (hs (i / 512) (by lia))
  rw [Disk.readSectors_snd, Disk.readSectors_snd, h.ram, hok, hin, h.outside]
  cases hr : d.ram with
  | true =>
    simp only [if_true]
    split
    · split
      · rename_i hi'
        simp only [Disk.rdInside, decide_eq_true_eq] at hi'
        have heq : d.addr lba.toNat + i = d.addr (lba.toNat + i / 512) + i % 512 := by
          simp only [Disk.addr, hr, if_true]
          lia
        dsimp only
        rw [haddr, heq]
        exact hsec (fun _ => by lia) (i % 512) (Nat.mod_lt _ (by decide))
      · rfl
    · rfl
  | false =>
    simp only [Bool.false_eq_true, if_false]
    rw [haddr]
    exact hsec (fun hc => by rw [hr] at hc; cases hc) (i % 512) (Nat.mod_lt _ (by decide))

/-- Reading changes nothing another read sees. -/
theorem Disk.readSectors_readSectors (d : Disk) (lba n lba' n' : U32) :
    ((d.readSectors lba n).1.readSectors lba' n').2 = (d.readSectors lba' n').2 := by
  have hfst : (d.readSectors lba n).1 = d ∨ (d.readSectors lba n).1 = { d with wild := true } := by
    unfold Disk.readSectors
    split
    · split
      · split
        · exact Or.inl rfl
        · exact Or.inr rfl
      · exact Or.inl rfl
    · exact Or.inl rfl
  rcases hfst with h | h <;> rw [h]
  rw [Disk.readSectors_snd, Disk.readSectors_snd]
  rfl

/-- What `fs_read` returns. -/
theorem Fs.read_snd (k : Fs) (name : List Byte) (max : U32) {j : Nat} (hf : fsFind k.dir name = some j) :
    (k.read name max).2 =
      let e := k.dir.get j
      if max < e.size then none
      else some (e.size, fun i =>
        if i < (e.size / 512#32).toNat * 512 then
          (if 0#32 < e.size / 512#32 then (k.disk.readSectors e.start (e.size / 512#32)).2 else fun _ => 0#8) i
        else (if 0#32 < e.size % 512#32 then (k.disk.readSectors (e.start + e.size / 512#32) 1#32).2 else fun _ => 0#8)
          (i - (e.size / 512#32).toNat * 512)) := by
  simp only [Fs.read, hf]
  split
  · rfl
  · dsimp only
    by_cases h1 : 0#32 < (k.dir.get j).size / 512#32
    · by_cases h2 : 0#32 < (k.dir.get j).size % 512#32
      · simp only [if_pos h1, if_pos h2, Disk.readSectors_readSectors]
      · simp only [if_pos h1, if_neg h2]
    · by_cases h2 : 0#32 < (k.dir.get j).size % 512#32
      · simp only [if_neg h1, if_pos h2]
      · simp only [if_neg h1, if_neg h2]

/-- `SYS_LOAD` of a file gives the same on two filesystems that find the same entry and agree on its sectors. -/
theorem sysLoad_congr {k k' : Kernel} {um : UserMem} {nameOff bufOff max : U32} {uname : List Byte} {j : Nat}
    (hn : nameAt um nameOff = some uname) (hf : fsFind k.fs.dir (normalizeName uname) = some j)
    (hf' : fsFind k'.fs.dir (normalizeName uname) = some j) (he : k'.fs.dir.get j = k.fs.dir.get j)
    (hd : k.fs.disk.AgreesOn k'.fs.disk (k.fs.dir.get j).Loads) :
    (k'.sysLoad um nameOff bufOff max).2 = (k.sysLoad um nameOff bufOff max).2 := by
  have hread : ∀ k'' : Kernel, (k''.sysLoad um nameOff bufOff max).2 =
      if !userRangeOk bufOff max then (um, fail)
      else (k''.fs.read (normalizeName uname) max).2.elim (um, fail) fun r =>
        ((fun i => if bufOff.toNat ≤ i ∧ i < bufOff.toNat + r.1.toNat then r.2 (i - bufOff.toNat) else um i), r.1) := by
    intro k''
    simp only [Kernel.sysLoad, hn]
    split
    · rfl
    · rcases k''.fs.read (normalizeName uname) max with ⟨fs, _ | ⟨size, data⟩⟩ <;> rfl
  rw [hread k', hread k, Fs.read_snd _ _ _ hf, Fs.read_snd _ _ _ hf', he]
  split
  · rfl
  · dsimp only
    by_cases hmax : max < (k.fs.dir.get j).size
    · rw [if_pos hmax, if_pos hmax]
    · rw [if_neg hmax, if_neg hmax, Option.elim_some, Option.elim_some]
      dsimp only
      refine congrArg (fun f => (f, (k.fs.dir.get j).size)) (funext fun i => ?_)
      split
      · rename_i hi
        set e := k.fs.dir.get j
        have hfull : (e.size / 512#32).toNat = e.size.toNat / 512 := by simp
        have hrem : (e.size % 512#32).toNat = e.size.toNat % 512 := by simp
        by_cases hlt : i - bufOff.toNat < (e.size / 512#32).toNat * 512
        · rw [if_pos hlt, if_pos hlt]
          split
          · refine hd.readSectors ?_ _ hlt
            intro t ht
            rw [hfull] at ht
            exact Or.inl ⟨t, ht, rfl⟩
          · rfl
        · rw [if_neg hlt, if_neg hlt]
          have hone : (1#32).toNat = 1 := rfl
          split
          · rename_i hpos
            rw [BitVec.lt_def, hrem] at hpos
            refine hd.readSectors ?_ _ ?_
            · intro t ht
              obtain rfl : t = 0 := by omega
              exact Or.inr ⟨hpos, rfl⟩
            · have := Nat.mod_lt e.size.toNat (show 0 < 512 by decide)
              omega
          · rfl
      · rfl

/-! ## Closing a handle -/

/-- `SYS_CLOSE` leaves every name where it is. -/
theorem fsFind_closeEntry (d : Dir) (i : Nat) (f : OpenFile) (name : List Byte) :
    fsFind (d.set i (closeEntry (d.get i) f)) name = fsFind d name := by
  have hget : ∀ j, ((d.set i (closeEntry (d.get i) f)).get j).name = (d.get j).name := by
    intro j
    by_cases hi : i < dirEntries
    · rw [Dir.get_set _ hi]
      split
      · rename_i hj
        rw [hj]
        rfl
      · rfl
    · have hset : (d.set i (closeEntry (d.get i) f)) = d := by
        cases d with
        | mk slots len => simp only [Dir.set, List.set_eq_of_length_le (show slots.length ≤ i by omega)]
      rw [hset]
  have hlive : ∀ j, ((d.set i (closeEntry (d.get i) f)).get j).live = (d.get j).live := by
    intro j
    simp only [Dirent.live, hget]
  cases hf : fsFind d name with
  | none =>
    rw [fsFind_eq_none_iff] at hf ⊢
    intro j
    rw [hlive, hget]
    exact hf j
  | some l =>
    rw [fsFind_eq_some_iff] at hf ⊢
    simp only [hlive, hget]
    exact hf

/-- No other file has a sector that the close of a handle writes: a directory sector, or the sector the handle holds unwritten. -/
def Kernel.ClosesApart (k : Kernel) (i : Fin openMax) : Prop :=
  ∀ j, (k.fs.dir.get j).live = true → j ≠ (k.ofiles i).dirIndex → ∀ s, (k.fs.dir.get j).Loads s →
    (∀ t < dirSectors, ¬k.fs.disk.SameSector s (fsDirLba + t)) ∧
    ((k.ofiles i).sectorValid = true → (k.ofiles i).sectorDirty = true → ¬k.fs.disk.SameSector s (k.ofiles i).curLba.toNat)

/-- Closing a handle apart leaves what a reader of another file sees. -/
theorem Kernel.ClosesApart.agreesOn {k : Kernel} {i : Fin openMax} (h : k.ClosesApart i) {j : Nat}
    (hl : (k.fs.dir.get j).live = true) (hj : j ≠ (k.ofiles i).dirIndex) (dir : Dir) :
    k.fs.disk.AgreesOn (Fs.syncDir ⟨dir, (ofileFlush (k.ofiles i) k.fs.disk).2⟩).disk (k.fs.dir.get j).Loads := by
  have hself : k.fs.disk.AgreesOn k.fs.disk (k.fs.dir.get j).Loads := ⟨rfl, rfl, rfl, fun _ _ _ _ _ => rfl⟩
  have hflush : k.fs.disk.AgreesOn (ofileFlush (k.ofiles i) k.fs.disk).2 (k.fs.dir.get j).Loads := by
    unfold ofileFlush
    split
    · exact hself
    · rename_i hd
      simp only [Bool.or_eq_true, Bool.not_eq_true', not_or, Bool.not_eq_false] at hd
      refine hself.writeSectors .handle _ _ _ ?_
      intro s hs t ht
      have hone : (1#32).toNat = 1 := rfl
      obtain rfl : t = 0 := by omega
      exact (h j hl hj s hs).2 hd.1 hd.2
  refine hflush.writeSectors .dir _ _ _ ?_
  intro s hs t ht
  exact (h j hl hj s hs).1 t ht

/-- What `SYS_CLOSE` may do to the files: every file but the one the handle was opened on keeps its entry and what `SYS_LOAD`
returns for it. -/
def Isolated (t : Tracked) (r : Request) : Prop :=
  ∀ fd, r.call = .close fd → ∀ i, getOfile t.k.ofiles fd = some i → (t.k.ofiles i).mode = .write →
    ∀ j, (t.k.fs.dir.get j).live = true → t.file j ≠ t.opened i →
      (t.k.step r).fs.dir.get j = t.k.fs.dir.get j ∧
      ∀ um nameOff bufOff max uname, nameAt um nameOff = some uname → fsFind t.k.fs.dir (normalizeName uname) = some j →
        ((t.k.step r).sysLoad um nameOff bufOff max).2 = (t.k.sysLoad um nameOff bufOff max).2

/-- A write handle is closed only while no new file has been created in its slot, and apart from the other files. -/
def ClosesOwn (t : Tracked) (r : Request) : Prop :=
  ∀ fd, r.call = .close fd → ∀ i, getOfile t.k.ofiles fd = some i → (t.k.ofiles i).mode = .write →
    t.recycled i = false ∧ t.k.ClosesApart i

/-- Such a close touches the handle's own file only. -/
theorem isolated_of_closesOwn (t : Tracked) (r : Request) (h : t.Owns) (hc : ClosesOwn t r) : Isolated t r := by
  intro fd hr i hi hm j hl hfile
  obtain ⟨hrec, hapart⟩ := hc fd hr i hi hm
  have hown := h i ⟨getOfile_used hi, hm⟩ hrec
  have hj : j ≠ (t.k.ofiles i).dirIndex := by
    intro hj
    rw [hj] at hfile
    exact hfile hown
  obtain ⟨um, c⟩ := r
  subst hr
  simp only [Kernel.step, Kernel.syscall]
  rcases sysClose_cases t.k fd with heq | ⟨i', hi', ⟨hm', -⟩ | ⟨-, heq⟩⟩
  · rw [heq]
    exact ⟨rfl, fun _ _ _ _ _ _ _ => rfl⟩
  · obtain rfl : i = i' := Option.some.inj (hi.symm.trans hi')
    rw [hm'] at hm
    cases hm
  · obtain rfl : i = i' := Option.some.inj (hi.symm.trans hi')
    rw [heq]
    have hget : (t.k.fs.dir.set (t.k.ofiles i).dirIndex
        (closeEntry (t.k.fs.dir.get (t.k.ofiles i).dirIndex) (t.k.ofiles i))).get j = t.k.fs.dir.get j :=
      Dir.get_set_ne _ hj _
    refine ⟨hget, ?_⟩
    intro um' nameOff bufOff max uname hn hf
    exact sysLoad_congr hn hf ((fsFind_closeEntry _ _ _ _).trans hf) hget (hapart.agreesOn hl hj _)

/-! ## Whole runs -/

/-- Along every run of filesystem calls in which write handles are closed only while no new file has been created in their slot,
and apart from the other files, every close changes its own file only; the numbers tell the files apart throughout. -/
theorem handles_isolated_of_closesOwn (dir : Dir) (disk : Disk) (rs : List Request)
    (hm : Meets Tracked.step ClosesOwn (Tracked.boot dir disk) rs) :
    Meets Tracked.step (fun t r => t.Numbered ∧ Isolated t r) (Tracked.boot dir disk) rs := by
  refine meets_of_inv (fun t => t.Numbered ∧ t.Owns) (fun t r h _ => ⟨h.1.step t r, h.2.step t r⟩)
    (fun t r h hc => ⟨h.1, isolated_of_closesOwn t r h.2 hc⟩) ⟨.boot dir disk, ?_⟩ hm
  intro i hw
  exact absurd hw zero_not_writing

/-- A directory in which only the first slot may be in use. -/
theorem live_zero {d : Dir} (h : (d.slots.drop 1).all (fun e => !e.live) = true) {j : Nat} (hl : (d.get j).live = true) : j = 0 := by
  cases j with
  | zero => rfl
  | succ j =>
    have hlt : j + 1 < d.slots.length := by rw [d.len]; exact d.lt_of_live hl
    rw [d.get_eq hlt] at hl
    have hmem : d.slots[j + 1] ∈ d.slots.drop 1 := by
      have hd : j < (d.slots.drop 1).length := by rw [List.length_drop]; omega
      have heq : (d.slots.drop 1)[j] = d.slots[j + 1] := by rw [List.getElem_drop]; congr 1; omega
      rw [← heq]
      exact List.getElem_mem hd
    have := List.all_eq_true.1 h _ hmem
    simp [hl] at this

/-- Two calls on an empty disk: a file is opened for writing and closed. -/
def openClose : List Request := [⟨userText "A", .open 0#32 1#32⟩, ⟨userText "A", .close 3#32⟩]

/-- The run rule at work. -/
theorem handles_isolated_of_closesOwn_openClose :
    Meets Tracked.step ClosesOwn (Tracked.boot Dir.empty (Disk.blank 100#32 (by decide))) openClose ∧
    Meets Tracked.step (fun t r => t.Numbered ∧ Isolated t r) (Tracked.boot Dir.empty (Disk.blank 100#32 (by decide))) openClose := by
  have hm : Meets Tracked.step ClosesOwn (Tracked.boot Dir.empty (Disk.blank 100#32 (by decide))) openClose := by
    refine ⟨fun fd h => Call.noConfusion h, ?_, trivial⟩
    intro fd h i hi hmode
    cases h
    have hget : getOfile ((Tracked.boot Dir.empty (Disk.blank 100#32 (by decide))).step
        ⟨userText "A", .open 0#32 1#32⟩).k.ofiles 3#32 = some ⟨0, by decide⟩ := by decide +kernel
    obtain rfl : i = ⟨0, by decide⟩ := Option.some.inj (hi.symm.trans hget)
    refine ⟨by decide +kernel, ?_⟩
    intro j hl hj
    refine absurd ?_ hj
    have h0 : (((Tracked.boot Dir.empty (Disk.blank 100#32 (by decide))).step
        ⟨userText "A", .open 0#32 1#32⟩).k.ofiles ⟨0, by decide⟩).dirIndex = 0 := by decide +kernel
    rw [h0]
    exact live_zero (by decide +kernel) hl
  exact ⟨hm, handles_isolated_of_closesOwn _ _ _ hm⟩

/-- A file is opened for writing and deleted, another one is saved into its slot, and the handle is closed. -/
def reusedSlot : List Request :=
  [⟨userText "A", .open 0#32 1#32⟩, ⟨userText "A", .delete 0#32⟩, ⟨userText "B", .save 0#32 100#32 3#32⟩]

/-- The close then sets the size of the other file to 0. -/
theorem handles_isolated_false :
    ¬∀ (dir : Dir) (disk : Disk) (rs : List Request), Meets Tracked.step Isolated (Tracked.boot dir disk) rs := by
  intro h
  have hm := h Dir.empty (Disk.blank 100#32 (by decide)) (reusedSlot ++ [⟨userText "A", .close 3#32⟩])
  obtain ⟨-, -, -, hiso, -⟩ := hm
  have hsize := congrArg Dirent.size (hiso 3#32 rfl ⟨0, by decide⟩ (by decide +kernel) (by decide +kernel) 0
    (by decide +kernel) (by decide +kernel)).1
  revert hsize
  decide +kernel

end MiniOs32
