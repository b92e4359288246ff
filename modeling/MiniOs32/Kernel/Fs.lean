import MiniOs32.Kernel.Disk

/-!
# The directory and whole-file access

The directory is an array of 512 entries held in memory (`dir`) and written back as a whole by `fs_sync_dir`. An entry whose
name starts with NUL is free. A file is one run of sectors; a new run is placed one past the highest end of all files.
-/

namespace MiniOs32

/-- `sizeof(dirent_t)`. -/
def direntSize : Nat := 64
/-- The entries the directory sectors hold. -/
def dirEntries : Nat := dirSectors * 512 / direntSize

/-- `dirent_t`: a 48-byte name field and four words. -/
structure Dirent where
  name : List Byte
  start : U32
  size : U32
  flags : U32
  reserved : U32
  nameLen : name.length = fsNameLen + 1
  deriving DecidableEq

/-- The all-zero entry that `memset` leaves. -/
def Dirent.zero : Dirent := ⟨List.replicate (fsNameLen + 1) 0#8, 0#32, 0#32, 0#32, 0#32, by simp⟩

/-- The 64 bytes of an entry. -/
def Dirent.bytes (e : Dirent) : List Byte := e.name ++ le32 e.start ++ le32 e.size ++ le32 e.flags ++ le32 e.reserved

/-- An entry is in use when its name does not start with NUL. -/
def Dirent.live (e : Dirent) : Bool := e.name.getD 0 0#8 != 0#8

/-- The stored name as a C string: the bytes before the first NUL. -/
def Dirent.str (e : Dirent) : List Byte := e.name.takeWhile (· != 0#8)

/-- `memset` of the name field and `memcpy` of at most `limit` characters of a name into it. -/
def Dirent.setName (e : Dirent) (kname : List Byte) (limit : Nat) (h : limit ≤ fsNameLen) : Dirent :=
  { e with
    name := kname.take limit ++ List.replicate (fsNameLen + 1 - (kname.take limit).length) 0#8
    nameLen := by simp only [List.length_append, List.length_take, List.length_replicate]; omega }

/-- The directory. -/
structure Dir where
  slots : List Dirent
  len : slots.length = dirEntries

/-- The entry at an index. -/
def Dir.get (d : Dir) (i : Nat) : Dirent := d.slots.getD i Dirent.zero

/-- A directory with one entry replaced. -/
def Dir.set (d : Dir) (i : Nat) (e : Dirent) : Dir := ⟨d.slots.set i e, by simp [d.len]⟩

/-- The directory of an empty disk. -/
def Dir.empty : Dir := ⟨List.replicate dirEntries Dirent.zero, by simp⟩

/-- The bytes of the directory sectors. -/
def Dir.bytes (d : Dir) : List Byte := d.slots.flatMap Dirent.bytes

/-- `name_eq_ci`, from character `i` on with `n` characters left to compare. -/
def nameEqCiLoop (a b : List Byte) (i : Nat) : Nat → Bool
  | 0 => true
  | n + 1 =>
    let ca := a.getD i 0#8
    let cb := b.getD i 0#8
    if ca = 0#8 ∧ cb = 0#8 then true
    else if ca = 0#8 ∨ cb = 0#8 then false
    else if upper ca ≠ upper cb then false
    else nameEqCiLoop a b (i + 1) n

/-- `name_eq_ci`. -/
def nameEqCi (a b : List Byte) : Bool := nameEqCiLoop a b 0 16

/-- `fs_find`: the first live entry whose name compares equal. -/
def fsFind (d : Dir) (name : List Byte) : Option Nat :=
  d.slots.findIdx? (fun e => e.live && nameEqCi e.name name)

/-- The first free slot, as the loops of `fs_write` and `SYS_OPEN` look for it. -/
def firstFree (d : Dir) : Option Nat := d.slots.findIdx? (fun e => !e.live)

/-- `(size + 511) / 512`, in 32 bits. -/
def sectorsOf (size : U32) : U32 := (size + 511#32) / 512#32

/-- One past the last sector of an entry, in 32 bits. -/
def Dirent.endLba (e : Dirent) : U32 := e.start + sectorsOf e.size

/-- `if (end > max) max = end`. -/
def maxLba (m e : U32) : U32 := if m < e then e else m

/-- `fs_next_free`. -/
def fsNextFree (d : Dir) : U32 :=
  d.slots.foldl (fun m e => if e.live then maxLba m e.endLba else m) (BitVec.ofNat 32 fsDataLba)

/-- `fs_next_free_excl`. -/
def fsNextFreeExcl (d : Dir) (excl : Nat) : U32 :=
  d.slots.zipIdx.foldl (fun m p => if p.1.live && p.2 != excl then maxLba m p.1.endLba else m) (BitVec.ofNat 32 fsDataLba)

/-- The filesystem part of the kernel. -/
structure Fs where
  dir : Dir
  disk : Disk

/-- `fs_sync_dir`. -/
def Fs.syncDir (k : Fs) : Fs :=
  ⟨k.dir, k.disk.writeSectors .dir (BitVec.ofNat 32 fsDirLba) (BitVec.ofNat 32 dirSectors) (fun i => k.dir.bytes.getD i 0#8)⟩

/-- The `dirent_t` at an offset of a buffer. -/
def direntAt (buf : Nat → Byte) (off : Nat) : Dirent :=
  let field (i : Nat) : U32 := word32 (buf (off + i)) (buf (off + i + 1)) (buf (off + i + 2)) (buf (off + i + 3))
  ⟨(List.range (fsNameLen + 1)).map fun i => buf (off + i), field 48, field 52, field 56, field 60, by simp⟩

/-- A buffer read as the `dir` array. -/
def Dir.ofBytes (buf : Nat → Byte) : Dir := ⟨(List.range dirEntries).map fun i => direntAt buf (i * direntSize), by simp⟩

/-- `fs_load_dir`. -/
def Disk.loadDir (d : Disk) : Fs :=
  let (d, buf) := d.readSectors (BitVec.ofNat 32 fsDirLba) (BitVec.ofNat 32 dirSectors)
  ⟨Dir.ofBytes buf, d⟩

/-- `fs_read`: `none` for -1, otherwise the size and the bytes copied to the caller's buffer. -/
def Fs.read (k : Fs) (name : List Byte) (max : U32) : Fs × Option (U32 × (Nat → Byte)) :=
  match fsFind k.dir name with
  | none => (k, none)
  | some idx =>
    let e := k.dir.get idx
    if max < e.size then (k, none)
    else
      let full := e.size / 512#32
      let rem := e.size % 512#32
      let (d1, b1) := if 0#32 < full then k.disk.readSectors e.start full else (k.disk, fun _ => 0#8)
      let (d2, b2) := if 0#32 < rem then d1.readSectors (e.start + full) 1#32 else (d1, fun _ => 0#8)
      ({ k with disk := d2 },
        some (e.size, fun i => if i < full.toNat * 512 then b1 i else b2 (i - full.toNat * 512)))

/-- The entry and the first sector `fs_write` chooses: the entry found, in place when the new size needs no more sectors and
otherwise past every other file; or the first free slot, past every file. -/
def fsPlace (d : Dir) (name : List Byte) (size : U32) : Option (Nat × U32) :=
  match fsFind d name with
  | some idx =>
    if sectorsOf size ≤ sectorsOf (d.get idx).size then some (idx, (d.get idx).start)
    else some (idx, fsNextFreeExcl d idx)
  | none => (firstFree d).map (fun idx => (idx, fsNextFree d))

/-- The entry `fs_write` records. -/
def saveEntry (e : Dirent) (name : List Byte) (start size : U32) : Dirent :=
  { e.setName name fsNameLen (Nat.le_refl _) with start := start, size := size, flags := 0#32 }

/-- `fs_write`. -/
def Fs.write (k : Fs) (name : List Byte) (buf : Nat → Byte) (size : U32) : Fs × U32 :=
  match fsPlace k.dir name size with
  | none => (k, -1#32)
  | some (idx, start) =>
    let disk := k.disk.writeSectors .save start (sectorsOf size) buf
    (Fs.syncDir ⟨k.dir.set idx (saveEntry (k.dir.get idx) name start size), disk⟩, 0#32)

end MiniOs32
