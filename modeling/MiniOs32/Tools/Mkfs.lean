import MiniOs32.Kernel.Fs

/-!
# The image builder

`mkfs.py` packs a host directory tree into a filesystem image: the directory sectors, then the files in the order of their keys,
each padded to whole sectors. A file's key is its path below the root; every subdirectory gets an entry of its own, with a `'/'`
behind its path and no data.
-/

namespace MiniOs32

/-- A name the host allows: not empty, without `'/'` and NUL. -/
def HostName : Type := { s : List Char // s ≠ [] ∧ '/' ∉ s ∧ Char.ofNat 0 ∉ s }

/-- What a host directory holds: files and subdirectories, in the order the host lists them. -/
inductive HostTree where
  | nil
  | file (name : HostName) (data : List Byte) (rest : HostTree)
  | dir (name : HostName) (sub : HostTree) (rest : HostTree)

/-- `ENTRY_SIZE`. -/
def entrySize : Nat := 64
/-- `NAME_MAX` of `mkfs.py`. -/
def keyMax : Nat := 47

/-- A key and the file's bytes; `none` marks a directory entry. -/
abbrev PackItem : Type := List Char × Option (List Byte)

/-- Python's `sorted` by a string: by code points, stable. -/
def sortByKey {α : Type} (key : α → List Char) (l : List α) : List α := l.mergeSort fun a b => decide (key a ≤ key b)

/-- The `files` of a directory. -/
def HostTree.files : HostTree → List (HostName × List Byte)
  | .nil => []
  | .file name data rest => (name, data) :: rest.files
  | .dir _ _ rest => rest.files

/-- One turn of the loop over `os.walk` for the directory of a given prefix, and then the turns for its subdirectories, in the
order `dirs.sort()` puts them in. -/
def visitDir (pre : List Char) (files : List (HostName × List Byte)) (subs : List (HostName × List PackItem)) : List PackItem :=
  (if pre = [] then [] else [(pre, none)]) ++
    (sortByKey (fun f => f.1.val) files).map (fun f => (pre ++ f.1.val, some f.2)) ++
    (sortByKey (fun s => s.1.val) subs).flatMap (fun s => s.2)

/-- What the loop collects below each subdirectory. -/
def HostTree.subWalks (pre : List Char) : HostTree → List (HostName × List PackItem)
  | .nil => []
  | .file _ _ rest => rest.subWalks pre
  | .dir name sub rest =>
    let pre' := pre ++ name.val ++ ['/']
    (name, visitDir pre' sub.files (sub.subWalks pre')) :: rest.subWalks pre

/-- The ways `mkfs.py` stops: a key too long, more items than entries, a number that `struct.pack` does not fit in 32 bits. -/
inductive MkfsError where
  /-- `mkfs: name too long for the 15-char FS limit: %r` -/
  | nameTooLong (key : List Char)
  /-- `mkfs: %d entries but the directory holds %d` -/
  | tooManyEntries (items entries : Nat)
  | structError

/-- `collect`. -/
def collect (t : HostTree) : Except MkfsError (List PackItem) :=
  let items := visitDir [] t.files (t.subWalks [])
  match items.find? (fun it => decide (keyMax < it.1.length)) with
  | some it => .error (.nameTooLong it.1)
  | none => .ok (sortByKey (fun it => it.1) items)

/-- Python's slice assignment `l[a:b] = new`. -/
def setSlice (l : List Byte) (a b : Nat) (new : List Byte) : List Byte := l.take a ++ new ++ l.drop b

/-- `struct.pack_into('<I', l, off, v)`. -/
def packInto (l : List Byte) (off v : Nat) : Except MkfsError (List Byte) :=
  if v < 2 ^ 32 then .ok (setSlice l off (off + 4) (le32 (BitVec.ofNat 32 v))) else .error .structError

/-- `key.encode('ascii', 'ignore')[:NAME_MAX]`. -/
def encodeKey (key : List Char) : List Byte := ((key.filter fun c => decide (c.toNat < 128)).map Char.byte).take keyMax

/-- The 64 bytes of an entry. -/
def packEntry (key : List Char) (lba size : Nat) : Except MkfsError (List Byte) := do
  let enc := encodeKey key
  let entry := setSlice (List.replicate entrySize 0#8) 0 enc.length enc
  let entry ← packInto entry 48 lba
  let entry ← packInto entry 52 size
  packInto entry 56 0

/-- `directory`, `data` and `cur_lba`. -/
structure Packed where
  directory : List Byte
  data : List Byte
  curLba : Nat

/-- One turn of the loop over the items. -/
def packItem (p : Packed) (i : Nat) (it : PackItem) : Except MkfsError Packed := do
  let blob := it.2.getD []
  let size := blob.length
  let sectors := (size + 511) / 512
  let entry ← packEntry it.1 p.curLba size
  let data := p.data ++ blob
  let pad := (-(data.length : Int) % 512).toNat
  return ⟨setSlice p.directory (i * entrySize) ((i + 1) * entrySize) entry, data ++ List.replicate pad 0#8, p.curLba + sectors⟩

/-- The loop over the items from number `i` on. -/
def packItems (i : Nat) (p : Packed) : List PackItem → Except MkfsError Packed
  | [] => .ok p
  | it :: its => do packItems (i + 1) (← packItem p i it) its

/-- `main`: the bytes of the image. -/
def mkfs (t : HostTree) (dirSectors dataLba : Nat) : Except MkfsError (List Byte) := do
  let dirSize := dirSectors * 512
  let entries := dirSize / entrySize
  let items ← collect t
  if entries < items.length then throw (.tooManyEntries items.length entries)
  let p ← packItems 0 ⟨List.replicate dirSize 0#8, [], dataLba⟩ items
  return p.directory ++ p.data

end MiniOs32
