import MiniOs32.Kernel.Fs

/-!
# Open files

Eight handles, each with one buffered sector. A write handle takes its run of sectors when it is opened and records the size
in the directory only when it is closed. The loops of `SYS_FREAD` and `SYS_FWRITE` move one piece of a sector at a time.
-/

namespace MiniOs32

/-- `OPEN_MAX`. -/
def openMax : Nat := 8

/-- The mode a handle is open in. -/
inductive Mode where
  | read | write
  deriving DecidableEq

/-- `open_file_t`. -/
structure OpenFile where
  used : Bool
  mode : Mode
  dirIndex : Nat
  start : U32
  size : U32
  pos : U32
  sectorValid : Bool
  sectorDirty : Bool
  curLba : U32
  sector : Nat → Byte

/-- A handle after `memset`. -/
def OpenFile.zero : OpenFile := ⟨false, .read, 0, 0#32, 0#32, 0#32, false, false, 0#32, fun _ => 0#8⟩

/-- `ofiles`. -/
abbrev OpenFiles : Type := Fin openMax → OpenFile

/-- `alloc_fd`. -/
def allocFd (fs : OpenFiles) : Option (Fin openMax) := (List.finRange openMax).find? (fun i => !(fs i).used)

/-- `get_ofile`: the index of the handle of a descriptor. -/
def getOfile (fs : OpenFiles) (fd : U32) : Option (Fin openMax) :=
  let idx := (fd - 3#32).toInt
  if h : 0 ≤ idx ∧ idx < openMax then
    let i : Fin openMax := ⟨idx.toNat, by omega⟩
    if (fs i).used then some i else none
  else none

/-- `ofile_flush`. -/
def ofileFlush (f : OpenFile) (d : Disk) : OpenFile × Disk :=
  if !f.sectorValid || !f.sectorDirty then (f, d)
  else ({ f with sectorDirty := false }, d.writeSectors .handle f.curLba 1#32 f.sector)

/-- The sectors a write handle compares an LBA with before it reads one. -/
def OpenFile.fileSectors (f : OpenFile) : U32 := f.size / 512#32 + (if f.size % 512#32 ≠ 0#32 then 1#32 else 0#32)

/-- `ofile_load_sector`. -/
def ofileLoadSector (f : OpenFile) (d : Disk) (lba : U32) : OpenFile × Disk :=
  if f.sectorValid && f.curLba == lba then (f, d)
  else
    let (f, d) := ofileFlush f d
    let f := { f with curLba := lba, sectorValid := true, sectorDirty := false }
    if f.mode = .write ∧ f.fileSectors ≤ lba then ({ f with sector := fun _ => 0#8 }, d)
    else
      let (d, b) := d.readSectors lba 1#32
      ({ f with sector := b }, d)

/-- The sector the position is in. -/
def OpenFile.posLba (f : OpenFile) : U32 := f.start + f.pos / 512#32

/-- The offset of the position in its sector. -/
def OpenFile.secOff (f : OpenFile) : Nat := f.pos.toNat % 512

/-- The bytes one iteration moves when `left` are wanted. -/
def OpenFile.chunk (f : OpenFile) (left : Nat) : Nat := min (512 - f.secOff) left

/-! ## Reading -/

/-- One iteration of the loop of `SYS_FREAD`: the handle, the disk and the bytes of this piece. -/
def freadStep (f : OpenFile) (d : Disk) (left : Nat) : OpenFile × Disk × (Nat → Byte) :=
  let (g, d) := ofileLoadSector f d f.posLba
  ({ g with pos := f.pos + BitVec.ofNat 32 (f.chunk left) }, d, fun i => g.sector (f.secOff + i))

/-- The loop of `SYS_FREAD`, `dst` being where the next byte goes. Every iteration moves at least one byte, so `left` of them
are enough. -/
def freadLoop : Nat → OpenFile → Disk → UserMem → Nat → Nat → OpenFile × Disk × UserMem
  | 0, f, d, um, _, _ => (f, d, um)
  | fuel + 1, f, d, um, dst, left =>
    if left = 0 then (f, d, um)
    else
      let n := f.chunk left
      let (g, d, b) := freadStep f d left
      freadLoop fuel g d (fun i => if dst ≤ i ∧ i < dst + n then b (i - dst) else um i) (dst + n) (left - n)

/-! ## Writing -/

/-- The first half of an iteration of the loop of `SYS_FWRITE`: the sector is loaded, the piece copied into it, and the
position and the size move on. -/
def fwriteFill (f : OpenFile) (d : Disk) (src : Nat → Byte) (left : Nat) : OpenFile × Disk :=
  let (g, d) := ofileLoadSector f d f.posLba
  let n := f.chunk left
  let pos := f.pos + BitVec.ofNat 32 n
  ({ g with
      sector := fun i => if f.secOff ≤ i ∧ i < f.secOff + n then src (i - f.secOff) else g.sector i
      sectorDirty := true
      pos := pos
      size := if g.size < pos then pos else g.size }, d)

/-- One iteration of the loop of `SYS_FWRITE`: a sector filled to its end is written out and dropped. -/
def fwriteStep (f : OpenFile) (d : Disk) (src : Nat → Byte) (left : Nat) : OpenFile × Disk :=
  let (g, d) := fwriteFill f d src left
  if f.secOff + f.chunk left = 512 then
    let (g, d) := ofileFlush g d
    ({ g with sectorValid := false }, d)
  else (g, d)

/-- The loop of `SYS_FWRITE`, `src` holding the bytes still to write. Every iteration moves at least one byte, so `left` of
them are enough. -/
def fwriteLoop : Nat → OpenFile → Disk → (Nat → Byte) → Nat → OpenFile × Disk
  | 0, f, d, _, _ => (f, d)
  | fuel + 1, f, d, src, left =>
    if left = 0 then (f, d)
    else
      let n := f.chunk left
      let (g, d) := fwriteStep f d src left
      fwriteLoop fuel g d (fun i => src (n + i)) (left - n)

end MiniOs32
