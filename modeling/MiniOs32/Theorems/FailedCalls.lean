import MiniOs32.Lemmas.Steps
import MiniOs32.Lib.Run

/-!
# Failed calls change nothing

A filesystem call that returns -1 leaves the directory, the disk, the open handles and the memory of the caller as they were
(`failed_call_changes_nothing`). `SYS_OPEN` clears the free handle it has found before it looks for the file; no handle that is not in
use ever holds anything else.
-/

namespace MiniOs32

/-- The handle behind an index of the table, if it is open. -/
def Kernel.openHandle (k : Kernel) (i : Fin openMax) : Option OpenFile := if (k.ofiles i).used then some (k.ofiles i) else none

/-- No difference is left by a call: in the directory and on the disk, in the memory of the caller, in the open handles. -/
structure Unchanged (k k' : Kernel) (um um' : UserMem) : Prop where
  dir : k'.fs.dir = k.fs.dir
  disk : k'.fs.disk = k.fs.disk
  mem : um' = um
  handles : k'.openHandle = k.openHandle

/-- The handles that are not in use are clear. -/
def Kernel.IdleClear (k : Kernel) : Prop := ∀ i, (k.ofiles i).used = false → k.ofiles i = OpenFile.zero

section Handles

variable {k : Kernel} {i : Fin openMax} {um : UserMem}

theorem Unchanged.refl (k : Kernel) (um : UserMem) : Unchanged k k um um := ⟨rfl, rfl, rfl, rfl⟩

/-- Clearing a free handle changes no open one. -/
theorem unchanged_clear (h : (k.ofiles i).used = false) : Unchanged k (k.setOfile i OpenFile.zero) um um := by
  refine ⟨rfl, rfl, rfl, funext fun j => ?_⟩
  unfold Kernel.openHandle Kernel.setOfile
  by_cases hj : j = i
  · subst hj
    simp [h, OpenFile.zero]
  · simp [hj]

/-- Clearing a handle that is clear does nothing. -/
theorem setOfile_clear (hidle : k.IdleClear) (h : (k.ofiles i).used = false) : k.setOfile i OpenFile.zero = k := by
  have hfun : (fun j => if j = i then OpenFile.zero else k.ofiles j) = k.ofiles := by
    funext j
    by_cases hj : j = i
    · rw [if_pos hj, hj, hidle i h]
    · rw [if_neg hj]
  unfold Kernel.setOfile
  rw [hfun]

/-- A handle replaced by one that is open or clear. -/
theorem idleClear_set {ofiles : OpenFiles} {f : OpenFile} (h : ∀ i, (ofiles i).used = false → ofiles i = OpenFile.zero)
    (hf : f.used = false → f = OpenFile.zero) (i j : Fin openMax) :
    (if j = i then f else ofiles j).used = false → (if j = i then f else ofiles j) = OpenFile.zero := by
  by_cases hj : j = i
  · rw [if_pos hj]
    exact hf
  · rw [if_neg hj]
    exact h j

end Handles

/-! ## The handles in use stay in use -/

theorem ofileFlush_used (f : OpenFile) (d : Disk) : (ofileFlush f d).1.used = f.used := by
  unfold ofileFlush
  split <;> rfl

theorem ofileLoadSector_used (f : OpenFile) (d : Disk) (lba : U32) : (ofileLoadSector f d lba).1.used = f.used := by
  unfold ofileLoadSector
  split
  · rfl
  · dsimp only
    split
    · exact ofileFlush_used f d
    · exact ofileFlush_used f d

theorem freadLoop_used (fuel : Nat) (f : OpenFile) (d : Disk) (um : UserMem) (dst left : Nat) :
    (freadLoop fuel f d um dst left).1.used = f.used := by
  induction fuel generalizing f d um dst left with
  | zero => rfl
  | succ fuel ih =>
    simp only [freadLoop]
    split
    · rfl
    · exact (ih _ _ _ _ _).trans (ofileLoadSector_used f d f.posLba)

theorem fwriteStep_used (f : OpenFile) (d : Disk) (src : Nat → Byte) (left : Nat) : (fwriteStep f d src left).1.used = f.used := by
  have hload := ofileLoadSector_used f d f.posLba
  unfold fwriteStep fwriteFill
  dsimp only
  split
  · exact (ofileFlush_used _ _).trans hload
  · exact hload

theorem fwriteLoop_used (fuel : Nat) (f : OpenFile) (d : Disk) (src : Nat → Byte) (left : Nat) :
    (fwriteLoop fuel f d src left).1.used = f.used := by
  induction fuel generalizing f d src left with
  | zero => rfl
  | succ fuel ih =>
    simp only [fwriteLoop]
    split
    · rfl
    · exact (ih _ _ _ _).trans (fwriteStep_used f d src left)

/-- No call leaves anything in a handle it does not leave open. -/
theorem idleClear_step (k : Kernel) (r : Request) (h : k.IdleClear) : (k.step r).IdleClear := by
  have hopen : ∀ f : OpenFile, f.used = true → f.used = false → f = OpenFile.zero := by
    intro f hu hf
    rw [hu] at hf
    exact absurd hf.symm Bool.false_ne_true
  obtain ⟨um, c⟩ := r
  cases c with
  | load nameOff bufOff max =>
    rcases sysLoad_fst k um nameOff bufOff max with heq | ⟨s, -, heq⟩ <;> simp only [Kernel.step, Kernel.syscall, heq]
    · exact h
    · exact h
  | save nameOff bufOff size =>
    rcases sysSave_cases k um nameOff bufOff size with heq | ⟨s, idx, start, -, -, -, heq⟩ <;>
      simp only [Kernel.step, Kernel.syscall, heq]
    · exact h
    · exact h
  | rename oldOff newOff =>
    rcases sysRename_cases k um oldOff newOff with heq | ⟨s, t, idx, -, -, -, -, heq⟩ <;>
      simp only [Kernel.step, Kernel.syscall, heq]
    · exact h
    · exact h
  | delete nameOff =>
    rcases sysDelete_cases k um nameOff with heq | ⟨s, idx, -, -, heq⟩ <;> simp only [Kernel.step, Kernel.syscall, heq]
    · exact h
    · exact h
  | «open» nameOff mode =>
    rcases sysOpen_cases k um nameOff mode with heq | ⟨s, i, -, -, heq | ⟨idx, -, -, heq⟩ | ⟨idx, start, -, -, heq⟩⟩ <;>
      simp only [Kernel.step, Kernel.syscall, heq]
    · exact h
    · exact fun j => idleClear_set h (fun _ => rfl) i j
    · exact fun j => idleClear_set h (hopen _ rfl) i j
    · exact fun j => idleClear_set h (hopen _ rfl) i j
  | fread fd off len =>
    rcases sysFread_fst k um fd off len with heq | ⟨i, n, hi, -, heq⟩ <;> simp only [Kernel.step, Kernel.syscall, heq]
    · exact h
    · exact fun j => idleClear_set h (hopen _ ((freadLoop_used _ _ _ _ _ _).trans (getOfile_used hi))) i j
  | fwrite fd off len =>
    rcases sysFwrite_cases k um fd off len with heq | ⟨i, hi, -, -, -, heq⟩ <;> simp only [Kernel.step, Kernel.syscall, heq]
    · exact h
    · exact fun j => idleClear_set h (hopen _ ((fwriteLoop_used _ _ _ _ _).trans (getOfile_used hi))) i j
  | close fd =>
    rcases sysClose_cases k fd with heq | ⟨i, -, ⟨-, heq⟩ | ⟨-, heq⟩⟩ <;> simp only [Kernel.step, Kernel.syscall, heq]
    · exact h
    · exact fun j => idleClear_set h (fun _ => rfl) i j
    · exact fun j => idleClear_set h (fun _ => rfl) i j
  | seek fd pos =>
    rcases sysSeek_cases k fd pos with heq | ⟨i, p, hi, -, ⟨-, heq⟩ | ⟨-, heq⟩⟩ <;> simp only [Kernel.step, Kernel.syscall, heq]
    · exact h
    · refine fun j => idleClear_set h (hopen _ ?_) i j
      exact getOfile_used hi
    · refine fun j => idleClear_set h (hopen _ ?_) i j
      exact getOfile_used hi
  | sync status => exact h

/-! ## Failures -/

/-- A length that fits behind an offset is not -1. -/
theorem ne_fail_of_userRangeOk {off len n : U32} (h : userRangeOk off len = true) (hn : n.toNat ≤ len.toNat) : n ≠ fail := by
  have hlen : len.toNat ≤ userFbOffset := by
    unfold userRangeOk at h
    split at h
    · exact (of_decide_eq_true h).trans (Nat.sub_le _ _)
    · split at h
      · exact absurd h Bool.false_ne_true
      · have hle : len.toNat ≤ userFbSize := (of_decide_eq_true h).trans (Nat.sub_le _ _)
        exact hle.trans (by decide)
  have hbig : userFbOffset < fail.toNat := by decide
  intro heq
  rw [heq] at hn
  omega

/-- `SYS_LOAD` that returns -1 has read nothing. -/
theorem sysLoad_failed {k : Kernel} {um : UserMem} {nameOff bufOff max : U32} (h : (k.sysLoad um nameOff bufOff max).2.2 = fail) :
    k.sysLoad um nameOff bufOff max = (k, um, fail) := by
  unfold Kernel.sysLoad at h ⊢
  by_cases hok : userRangeOk bufOff max = true
  · rw [if_neg (by simp [hok])] at h ⊢
    cases hname : nameAt um nameOff with
    | none => rfl
    | some uname =>
      rw [hname] at h
      dsimp only at h ⊢
      unfold Fs.read at h ⊢
      cases hfind : fsFind k.fs.dir (normalizeName uname) with
      | none => rfl
      | some idx =>
        rw [hfind] at h
        dsimp only at h ⊢
        by_cases hmax : max < (k.fs.dir.get idx).size
        · rw [if_pos hmax]
        · rw [if_neg hmax] at h
          exact absurd h (ne_fail_of_userRangeOk hok (not_lt.mp hmax))
  · rw [if_pos (by simp [hok])]

/-- `SYS_FREAD` that returns -1 has read nothing. -/
theorem sysFread_failed {k : Kernel} {um : UserMem} {fd off len : U32} (h : (k.sysFread um fd off len).2.2 = fail) :
    k.sysFread um fd off len = (k, um, fail) := by
  have hzero : (0#32 : U32) ≠ fail := by decide
  unfold Kernel.sysFread at h ⊢
  by_cases hok : userRangeOk off len = true
  · rw [if_neg (by simp [hok])] at h ⊢
    cases hfd : getOfile k.ofiles fd with
    | none => rfl
    | some i =>
      rw [hfd] at h
      dsimp only at h ⊢
      split at h
      · rename_i hmode
        rw [if_pos hmode]
      · split at h
        · exact absurd h hzero
        · split at h
          · exact absurd h hzero
          · refine absurd h (ne_fail_of_userRangeOk hok ?_)
            split
            · rename_i hlt
              exact (show _ < len.toNat from hlt).le
            · exact le_rfl
  · rw [if_pos (by simp [hok])]

/-- `SYS_FWRITE` that returns -1 has written nothing. -/
theorem sysFwrite_failed {k : Kernel} {um : UserMem} {fd off len : U32} (h : (k.sysFwrite um fd off len).2 = fail) :
    (k.sysFwrite um fd off len).1 = k := by
  rcases sysFwrite_cases k um fd off len with heq | ⟨i, hi, hm, hok, hlen, heq⟩
  · exact heq
  · unfold Kernel.sysFwrite at h
    rw [if_neg (by simp [hok]), hi] at h
    dsimp only at h
    rw [if_neg (by simp [hm]), if_neg hlen] at h
    exact absurd h (ne_fail_of_userRangeOk hok le_rfl)

/-- A position `SYS_SEEK` moves to is not -1. -/
theorem seekPos_ne_fail (f : OpenFile) (pos : U32) : f.seekPos pos ≠ fail := by
  have hpos : ∀ p : U32, ¬p.toInt < 0 → p.toNat < 2 ^ 31 := by
    intro p hp
    rw [BitVec.toInt_eq_toNat_cond] at hp
    split at hp <;> omega
  have hclamp : (if pos.toInt < 0 then 0#32 else pos).toNat < 2 ^ 31 := by
    split
    · decide
    · rename_i h
      exact hpos pos h
  have hbig : 2 ^ 31 < fail.toNat := by decide
  unfold OpenFile.seekPos
  dsimp only
  generalize (if pos.toInt < 0 then 0#32 else pos) = p at hclamp
  intro heq
  by_cases hlt : f.size < p
  · have hlt' : f.size.toNat < p.toNat := hlt
    rw [if_pos hlt] at heq
    rw [heq] at hlt'
    omega
  · rw [if_neg hlt] at heq
    rw [heq] at hclamp
    omega

/-- A call of the filesystem that returns -1 changes nothing; and where the handles not in use are clear, as they are in every run from
boot, not even the table itself. -/
theorem failed_call_changes_nothing (k : Kernel) (um : UserMem) (c : Call) (hc : ∀ status, c ≠ .sync status)
    (h : (k.syscall um c).2.2 = fail) : Unchanged k (k.syscall um c).1 um (k.syscall um c).2.1 ∧
      ∀ dir d rs, k = runFrom Kernel.step (Kernel.fresh dir d) rs → (k.syscall um c).1 = k := by
  have hsame : (k.syscall um c).1 = k → (k.syscall um c).2.1 = um → Unchanged k (k.syscall um c).1 um (k.syscall um c).2.1 ∧
      ∀ dir d rs, k = runFrom Kernel.step (Kernel.fresh dir d) rs → (k.syscall um c).1 = k := by
    intro hk hum
    rw [hk, hum]
    exact ⟨.refl k um, fun _ _ _ _ => rfl⟩
  have hzero : (0#32 : U32) ≠ fail := by decide
  cases c with
  | load nameOff bufOff max =>
    have heq := sysLoad_failed h
    exact hsame (congrArg Prod.fst heq) (congrArg (fun t => t.2.1) heq)
  | save nameOff bufOff size =>
    rcases sysSave_cases k um nameOff bufOff size with heq | ⟨s, idx, start, -, -, -, heq⟩
    · exact hsame (congrArg Prod.fst heq) rfl
    · exact absurd ((congrArg Prod.snd heq).symm.trans h) hzero
  | rename oldOff newOff =>
    rcases sysRename_cases k um oldOff newOff with heq | ⟨s, t, idx, -, -, -, -, heq⟩
    · exact hsame (congrArg Prod.fst heq) rfl
    · exact absurd ((congrArg Prod.snd heq).symm.trans h) hzero
  | delete nameOff =>
    rcases sysDelete_cases k um nameOff with heq | ⟨s, idx, -, -, heq⟩
    · exact hsame (congrArg Prod.fst heq) rfl
    · exact absurd ((congrArg Prod.snd heq).symm.trans h) hzero
  | «open» nameOff mode =>
    have hfd : ∀ i : Fin openMax, BitVec.ofNat 32 (i.val + 3) ≠ fail := by decide
    rcases sysOpen_cases k um nameOff mode with heq | ⟨s, i, -, hi, heq | ⟨idx, -, -, heq⟩ | ⟨idx, start, -, -, heq⟩⟩
    · exact hsame (congrArg Prod.fst heq) rfl
    · -- the free handle has been cleared before the name was looked up
      have hk : (k.syscall um (.open nameOff mode)).1 = k.setOfile i OpenFile.zero := congrArg Prod.fst heq
      have hum : (k.syscall um (.open nameOff mode)).2.1 = um := rfl
      rw [hk, hum]
      refine ⟨unchanged_clear (allocFd_free hi), fun dir d rs hrun => setOfile_clear ?_ (allocFd_free hi)⟩
      rw [hrun]
      exact inv_runFrom_all Kernel.IdleClear idleClear_step (fun _ _ => rfl) rs
    · exact absurd ((congrArg Prod.snd heq).symm.trans h) (hfd i)
    · exact absurd ((congrArg Prod.snd heq).symm.trans h) (hfd i)
  | fread fd off len =>
    have heq := sysFread_failed h
    exact hsame (congrArg Prod.fst heq) (congrArg (fun t => t.2.1) heq)
  | fwrite fd off len => exact hsame (sysFwrite_failed h) rfl
  | close fd =>
    rcases sysClose_cases k fd with heq | ⟨i, -, ⟨-, heq⟩ | ⟨-, heq⟩⟩
    · exact hsame (congrArg Prod.fst heq) rfl
    · exact absurd ((congrArg Prod.snd heq).symm.trans h) hzero
    · exact absurd ((congrArg Prod.snd heq).symm.trans h) hzero
  | seek fd pos =>
    rcases sysSeek_cases k fd pos with heq | ⟨i, p, -, hp, ⟨-, heq⟩ | ⟨-, heq⟩⟩
    · exact hsame (congrArg Prod.fst heq) rfl
    · exact absurd ((congrArg Prod.snd heq).symm.trans h) (hp ▸ seekPos_ne_fail _ pos)
    · exact absurd ((congrArg Prod.snd heq).symm.trans h) (hp ▸ seekPos_ne_fail _ pos)
  | sync status => exact absurd rfl (hc status)

/-- Closing a descriptor that is not open. -/
theorem failed_call_changes_nothing_close :
    Unchanged (Kernel.fresh Dir.empty (Disk.blank 100#32 (by decide)))
      ((Kernel.fresh Dir.empty (Disk.blank 100#32 (by decide))).syscall (userText "A") (.close 3#32)).1 (userText "A") (userText "A") :=
  (failed_call_changes_nothing (Kernel.fresh Dir.empty (Disk.blank 100#32 (by decide))) (userText "A") (.close 3#32)
    (fun _ h => nomatch h) (by decide)).1

end MiniOs32
