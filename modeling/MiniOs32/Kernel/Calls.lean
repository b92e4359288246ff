import MiniOs32.Kernel.Handles

/-!
# The filesystem system calls

Each call takes its arguments from registers and its names and buffers from the memory of the calling program, changes the
directory, the handles and the disk, and returns a word in `eax` (`-1` for failure). `Kernel.step` is the part of
`syscall_handler` that serves them.
-/

namespace MiniOs32

/-- The kernel state the filesystem calls work on. -/
structure Kernel where
  fs : Fs
  ofiles : OpenFiles

/-- The kernel after boot: no file is open. -/
def Kernel.fresh (dir : Dir) (disk : Disk) : Kernel := ⟨⟨dir, disk⟩, fun _ => OpenFile.zero⟩

/-- `(u32)-1`. -/
def fail : U32 := -1#32

/-- A handle replaced. -/
def Kernel.setOfile (k : Kernel) (i : Fin openMax) (f : OpenFile) : Kernel :=
  { k with ofiles := fun j => if j = i then f else k.ofiles j }

/-- A handle and the disk replaced. -/
def Kernel.setIo (k : Kernel) (i : Fin openMax) (f : OpenFile) (d : Disk) : Kernel :=
  { fs := ⟨k.fs.dir, d⟩, ofiles := fun j => if j = i then f else k.ofiles j }

/-- `SYS_LOAD`. -/
def Kernel.sysLoad (k : Kernel) (um : UserMem) (nameOff bufOff max : U32) : Kernel × UserMem × U32 :=
  if !userRangeOk bufOff max then (k, um, fail)
  else match nameAt um nameOff with
  | none => (k, um, fail)
  | some uname =>
    match k.fs.read (normalizeName uname) max with
    | (fs, none) => ({ k with fs := fs }, um, fail)
    | (fs, some (size, data)) =>
      ({ k with fs := fs },
        fun i => if bufOff.toNat ≤ i ∧ i < bufOff.toNat + size.toNat then data (i - bufOff.toNat) else um i, size)

/-- `SYS_SAVE`. -/
def Kernel.sysSave (k : Kernel) (um : UserMem) (nameOff bufOff size : U32) : Kernel × U32 :=
  if !userRangeOk bufOff size then (k, fail)
  else match nameAt um nameOff with
  | none => (k, fail)
  | some uname =>
    let (fs, r) := k.fs.write (normalizeName uname) (fun i => um (bufOff.toNat + i)) size
    ({ k with fs := fs }, r)

/-- `SYS_RENAME`. -/
def Kernel.sysRename (k : Kernel) (um : UserMem) (oldOff newOff : U32) : Kernel × U32 :=
  match nameAt um oldOff, nameAt um newOff with
  | some oldu, some newu =>
    match fsFind k.fs.dir (normalizeName oldu) with
    | none => (k, fail)
    | some idx =>
      if (fsFind k.fs.dir (normalizeName newu)).isSome then (k, fail)
      else
        let e := (k.fs.dir.get idx).setName (normalizeName newu) fsNameLen (Nat.le_refl _)
        ({ k with fs := Fs.syncDir ⟨k.fs.dir.set idx e, k.fs.disk⟩ }, 0#32)
  | _, _ => (k, fail)

/-- `SYS_DELETE`. -/
def Kernel.sysDelete (k : Kernel) (um : UserMem) (nameOff : U32) : Kernel × U32 :=
  match nameAt um nameOff with
  | none => (k, fail)
  | some uname =>
    match fsFind k.fs.dir (normalizeName uname) with
    | none => (k, fail)
    | some idx => ({ k with fs := Fs.syncDir ⟨k.fs.dir.set idx Dirent.zero, k.fs.disk⟩ }, 0#32)

/-- The characters of a name `SYS_OPEN` records for a file it creates. -/
def openNameLen : Nat := 15

theorem openNameLen_le : openNameLen ≤ fsNameLen := by decide

/-- The entry and the first sector `SYS_OPEN` chooses for writing: the entry found, past every other file, or the first free
slot, past every file. -/
def openPlace (d : Dir) (name : List Byte) : Option (Nat × U32) :=
  match fsFind d name with
  | some idx => some (idx, fsNextFreeExcl d idx)
  | none => (firstFree d).map (fun idx => (idx, fsNextFree d))

/-- The entry `SYS_OPEN` records for a file opened for writing. -/
def openEntry (e : Dirent) (name : List Byte) (start : U32) : Dirent :=
  { e.setName name openNameLen (by decide) with start := start, size := 0#32, flags := 0#32 }

/-- `SYS_OPEN`. The handle is cleared before the name is looked up. -/
def Kernel.sysOpen (k : Kernel) (um : UserMem) (nameOff mode : U32) : Kernel × U32 :=
  match nameAt um nameOff with
  | none => (k, fail)
  | some uname =>
    let kname := normalizeName uname
    match allocFd k.ofiles with
    | none => (k, fail)
    | some i =>
      if mode = 0#32 then
        match fsFind k.fs.dir kname with
        | none => (k.setOfile i OpenFile.zero, fail)
        | some idx =>
          let e := k.fs.dir.get idx
          (k.setOfile i { OpenFile.zero with used := true, mode := .read, dirIndex := idx, start := e.start, size := e.size },
            BitVec.ofNat 32 (i.val + 3))
      else if mode = 1#32 then
        match openPlace k.fs.dir kname with
        | none => (k.setOfile i OpenFile.zero, fail)
        | some (idx, start) =>
          let dir := k.fs.dir.set idx (openEntry (k.fs.dir.get idx) kname start)
          let k := { k with fs := Fs.syncDir ⟨dir, k.fs.disk⟩ }
          (k.setOfile i { OpenFile.zero with used := true, mode := .write, dirIndex := idx, start := start },
            BitVec.ofNat 32 (i.val + 3))
      else (k.setOfile i OpenFile.zero, fail)

/-- `SYS_FREAD`. -/
def Kernel.sysFread (k : Kernel) (um : UserMem) (fd off len : U32) : Kernel × UserMem × U32 :=
  if !userRangeOk off len then (k, um, fail)
  else match getOfile k.ofiles fd with
  | none => (k, um, fail)
  | some i =>
    let f := k.ofiles i
    if f.mode ≠ .read then (k, um, fail)
    else if len = 0#32 then (k, um, 0#32)
    else if f.size ≤ f.pos then (k, um, 0#32)
    else
      let len := if f.size - f.pos < len then f.size - f.pos else len
      let (f, d, um) := freadLoop len.toNat f k.fs.disk um off.toNat len.toNat
      (k.setIo i f d, um, len)

/-- `SYS_FWRITE`. -/
def Kernel.sysFwrite (k : Kernel) (um : UserMem) (fd off len : U32) : Kernel × U32 :=
  if !userRangeOk off len then (k, fail)
  else match getOfile k.ofiles fd with
  | none => (k, fail)
  | some i =>
    if (k.ofiles i).mode ≠ .write then (k, fail)
    else if len = 0#32 then (k, 0#32)
    else
      let (f, d) := fwriteLoop len.toNat (k.ofiles i) k.fs.disk (fun j => um (off.toNat + j)) len.toNat
      (k.setIo i f d, len)

/-- The entry of a write handle after `SYS_CLOSE`. -/
def closeEntry (e : Dirent) (f : OpenFile) : Dirent := { e with start := f.start, size := f.size, flags := 0#32 }

/-- `SYS_CLOSE`. -/
def Kernel.sysClose (k : Kernel) (fd : U32) : Kernel × U32 :=
  match getOfile k.ofiles fd with
  | none => (k, fail)
  | some i =>
    if (k.ofiles i).mode = .write then
      let (f, d) := ofileFlush (k.ofiles i) k.fs.disk
      let dir := k.fs.dir.set f.dirIndex (closeEntry (k.fs.dir.get f.dirIndex) f)
      (Kernel.setOfile { k with fs := Fs.syncDir ⟨dir, d⟩ } i OpenFile.zero, 0#32)
    else (k.setOfile i OpenFile.zero, 0#32)

/-- The position `SYS_SEEK` moves to: a negative one becomes 0, one past the size becomes the size. -/
def OpenFile.seekPos (f : OpenFile) (pos : U32) : U32 :=
  let pos := if pos.toInt < 0 then 0#32 else pos
  if f.size < pos then f.size else pos

/-- `SYS_SEEK`. -/
def Kernel.sysSeek (k : Kernel) (fd pos : U32) : Kernel × U32 :=
  match getOfile k.ofiles fd with
  | none => (k, fail)
  | some i =>
    let (f, d) := if (k.ofiles i).mode = .write then ofileFlush (k.ofiles i) k.fs.disk else (k.ofiles i, k.fs.disk)
    let p := f.seekPos pos
    (k.setIo i { f with pos := p, sectorValid := false, sectorDirty := false } d, p)

/-- `SYS_SYNC`; `status` is what `nvme_write` returns. -/
def Kernel.sysSync (k : Kernel) (status : U32) : Kernel × U32 :=
  let (d, r) := k.fs.disk.sync status
  ({ k with fs := ⟨k.fs.dir, d⟩ }, r)

/-- A filesystem call with its register arguments. -/
inductive Call where
  | load (nameOff bufOff max : U32)
  | save (nameOff bufOff size : U32)
  | rename (oldOff newOff : U32)
  | delete (nameOff : U32)
  | open (nameOff mode : U32)
  | fread (fd off len : U32)
  | fwrite (fd off len : U32)
  | close (fd : U32)
  | seek (fd pos : U32)
  | sync (status : U32)

/-- The filesystem cases of `syscall_handler`: the new state, the program's memory and `eax`. -/
def Kernel.syscall (k : Kernel) (um : UserMem) : Call → Kernel × UserMem × U32
  | .load nameOff bufOff max => k.sysLoad um nameOff bufOff max
  | .save nameOff bufOff size => let (k, r) := k.sysSave um nameOff bufOff size; (k, um, r)
  | .rename oldOff newOff => let (k, r) := k.sysRename um oldOff newOff; (k, um, r)
  | .delete nameOff => let (k, r) := k.sysDelete um nameOff; (k, um, r)
  | .open nameOff mode => let (k, r) := k.sysOpen um nameOff mode; (k, um, r)
  | .fread fd off len => k.sysFread um fd off len
  | .fwrite fd off len => let (k, r) := k.sysFwrite um fd off len; (k, um, r)
  | .close fd => let (k, r) := k.sysClose fd; (k, um, r)
  | .seek fd pos => let (k, r) := k.sysSeek fd pos; (k, um, r)
  | .sync status => let (k, r) := k.sysSync status; (k, um, r)

/-- One call made by some program: the program's memory is arbitrary at every call. -/
structure Request where
  um : UserMem
  call : Call

/-- The kernel state after a request. -/
def Kernel.step (k : Kernel) (r : Request) : Kernel := (k.syscall r.um r.call).1

end MiniOs32
