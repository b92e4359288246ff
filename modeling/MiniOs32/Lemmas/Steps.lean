import MiniOs32.Lemmas.Calls
import MiniOs32.Lemmas.Io

/-!
# What every filesystem call keeps

Two frame rules over all calls at once: a property of the disk that each way of reaching the disk keeps is kept by every call,
and a handle in use is changed only by a call on its own descriptor.
-/

namespace MiniOs32

/-- The descriptor a call works on. -/
def Call.fd : Call → Option U32
  | .fread fd _ _ => some fd
  | .fwrite fd _ _ => some fd
  | .close fd => some fd
  | .seek fd _ => some fd
  | _ => none

/-- `alloc_fd` returns a handle that is not in use. -/
theorem allocFd_free {fs : OpenFiles} {i : Fin openMax} (h : allocFd fs = some i) : (fs i).used = false := by
  have := List.find?_some h
  simpa using this

/-- A property of the disk kept by single-sector reads and writes of a handle, by directory writes, by `SYS_SYNC`, by the reads of a
load and by the data write of a save is kept by every call. -/
theorem Kernel.step_disk {P : Disk → Prop} (hread : ∀ d lba, P d → P (d.readSectors lba 1#32).1)
    (hhandle : ∀ d lba buf, P d → P (d.writeSectors .handle lba 1#32 buf)) (hdir : ∀ k : Fs, P k.disk → P k.syncDir.disk)
    (hsync : ∀ d status, P d → P (d.sync status).1) (k : Kernel) (r : Request)
    (hload : ∀ nameOff bufOff max s, r.call = .load nameOff bufOff max → P k.fs.disk → P (k.fs.read s max).1.disk)
    (hsave : ∀ nameOff bufOff size s idx start, r.call = .save nameOff bufOff size → nameAt r.um nameOff = some s →
      fsPlace k.fs.dir (normalizeName s) size = some (idx, start) → P k.fs.disk →
      P (k.fs.disk.writeSectors .save start (sectorsOf size) (fun i => r.um (bufOff.toNat + i))))
    (h : P k.fs.disk) : P (k.step r).fs.disk := by
  obtain ⟨um, c⟩ := r
  cases c with
  | load nameOff bufOff max =>
    rcases sysLoad_fst k um nameOff bufOff max with heq | ⟨s, -, heq⟩ <;> simp only [Kernel.step, Kernel.syscall, heq]
    · exact h
    · exact hload nameOff bufOff max _ rfl h
  | save nameOff bufOff size =>
    rcases sysSave_cases k um nameOff bufOff size with heq | ⟨s, idx, start, -, hs, hp, heq⟩ <;>
      simp only [Kernel.step, Kernel.syscall, heq]
    · exact h
    · exact hdir _ (hsave nameOff bufOff size s idx start rfl hs hp h)
  | rename oldOff newOff =>
    rcases sysRename_cases k um oldOff newOff with heq | ⟨s, t, idx, -, -, -, -, heq⟩ <;>
      simp only [Kernel.step, Kernel.syscall, heq]
    · exact h
    · exact hdir _ h
  | delete nameOff =>
    rcases sysDelete_cases k um nameOff with heq | ⟨s, idx, -, -, heq⟩ <;> simp only [Kernel.step, Kernel.syscall, heq]
    · exact h
    · exact hdir _ h
  | «open» nameOff mode =>
    rcases sysOpen_cases k um nameOff mode with heq | ⟨s, i, -, -, heq | ⟨idx, -, -, heq⟩ | ⟨idx, start, -, -, heq⟩⟩ <;>
      simp only [Kernel.step, Kernel.syscall, heq, Kernel.setOfile]
    · exact h
    · exact h
    · exact h
    · exact hdir _ h
  | fread fd off len =>
    rcases sysFread_fst k um fd off len with heq | ⟨i, n, -, -, heq⟩ <;>
      simp only [Kernel.step, Kernel.syscall, heq, Kernel.setIo]
    · exact h
    · exact freadLoop_disk hhandle hread n _ _ _ _ h
  | fwrite fd off len =>
    rcases sysFwrite_cases k um fd off len with heq | ⟨i, -, -, -, -, heq⟩ <;>
      simp only [Kernel.step, Kernel.syscall, heq, Kernel.setIo]
    · exact h
    · exact fwriteLoop_disk hhandle hread _ _ _ _ h
  | close fd =>
    rcases sysClose_cases k fd with heq | ⟨i, -, ⟨-, heq⟩ | ⟨-, heq⟩⟩ <;>
      simp only [Kernel.step, Kernel.syscall, heq, Kernel.setOfile]
    · exact h
    · exact h
    · exact hdir _ (ofileFlush_disk hhandle _ h)
  | seek fd pos =>
    rcases sysSeek_cases k fd pos with heq | ⟨i, p, -, -, ⟨-, heq⟩ | ⟨-, heq⟩⟩ <;>
      simp only [Kernel.step, Kernel.syscall, heq, Kernel.setIo]
    · exact h
    · exact h
    · exact ofileFlush_disk hhandle _ h
  | sync status => exact hsync _ status h

/-- A handle in use is changed only by a call on its own descriptor. -/
theorem Kernel.step_ofiles (k : Kernel) (r : Request) {i : Fin openMax} (hu : (k.ofiles i).used = true)
    (h : ∀ fd, r.call.fd = some fd → getOfile k.ofiles fd ≠ some i) : (k.step r).ofiles i = k.ofiles i := by
  obtain ⟨um, c⟩ := r
  have hother : ∀ fd j, c.fd = some fd → getOfile k.ofiles fd = some j → i ≠ j := by
    rintro fd j hfd hj rfl
    exact h fd hfd hj
  cases c with
  | load nameOff bufOff max =>
    rcases sysLoad_fst k um nameOff bufOff max with heq | ⟨s, -, heq⟩ <;> simp only [Kernel.step, Kernel.syscall, heq]
  | save nameOff bufOff size =>
    rcases sysSave_cases k um nameOff bufOff size with heq | ⟨s, idx, start, -, -, -, heq⟩ <;>
      simp only [Kernel.step, Kernel.syscall, heq]
  | rename oldOff newOff =>
    rcases sysRename_cases k um oldOff newOff with heq | ⟨s, t, idx, -, -, -, -, heq⟩ <;>
      simp only [Kernel.step, Kernel.syscall, heq]
  | delete nameOff =>
    rcases sysDelete_cases k um nameOff with heq | ⟨s, idx, -, -, heq⟩ <;> simp only [Kernel.step, Kernel.syscall, heq]
  | «open» nameOff mode =>
    rcases sysOpen_cases k um nameOff mode with heq | ⟨s, j, -, hj, hcase⟩
    · simp only [Kernel.step, Kernel.syscall, heq]
    · have hne : i ≠ j := by
        rintro rfl
        rw [allocFd_free hj] at hu
        cases hu
      rcases hcase with heq | ⟨idx, -, -, heq⟩ | ⟨idx, start, -, -, heq⟩ <;>
        simp only [Kernel.step, Kernel.syscall, heq, Kernel.setOfile, if_neg hne]
  | fread fd off len =>
    rcases sysFread_fst k um fd off len with heq | ⟨j, n, hj, -, heq⟩ <;> simp only [Kernel.step, Kernel.syscall, heq, Kernel.setIo]
    rw [if_neg (hother fd j rfl hj)]
  | fwrite fd off len =>
    rcases sysFwrite_cases k um fd off len with heq | ⟨j, hj, -, -, -, heq⟩ <;>
      simp only [Kernel.step, Kernel.syscall, heq, Kernel.setIo]
    rw [if_neg (hother fd j rfl hj)]
  | close fd =>
    rcases sysClose_cases k fd with heq | ⟨j, hj, ⟨-, heq⟩ | ⟨-, heq⟩⟩ <;>
      simp only [Kernel.step, Kernel.syscall, heq, Kernel.setOfile]
    all_goals rw [if_neg (hother fd j rfl hj)]
  | seek fd pos =>
    rcases sysSeek_cases k fd pos with heq | ⟨j, p, hj, -, ⟨-, heq⟩ | ⟨-, heq⟩⟩ <;>
      simp only [Kernel.step, Kernel.syscall, heq, Kernel.setIo]
    all_goals rw [if_neg (hother fd j rfl hj)]
  | sync status => rfl

end MiniOs32
