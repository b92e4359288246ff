import MiniOs32.Lib.FatVolume
import MiniOs32.Kernel.User

/-!
# The EFI system partition

`mkesp.py` packs a directory tree into a FAT32 partition: `Fat32`, `build_dir` and the assembly of the partition in `main`. `SECTOR` is 512,
`RESERVED` 32, `NUM_FATS` 2 and `SEC_PER_CLUS` 1, so that a cluster is a sector. The tree is what `os.listdir` gives, each directory in
the order of `sorted`; its names are ASCII. A step that ends the script gives nothing.
-/

namespace MiniOs32

/-- A `Fat32`. -/
structure Fat32 where
  fatSectors : Nat
  clusters : Nat
  fat : Nat → Nat
  data : Image
  nextFree : Nat

namespace Fat32

/-- A turn of the loop in `__init__`: `fat_sectors` and `clusters`, of which the second goes into the next turn. -/
def sizeTurn (total : Int) (r : Int × Int) : Int × Int :=
  let fatSectors := ((r.2 + 2) * 4 + 512 - 1) / 512
  (fatSectors, total - 32 - 2 * fatSectors)

/-- The turns of the loop. -/
def sizeTurns (total : Int) : Nat → Int × Int
  | 0 => (0, total - 32)
  | n + 1 => sizeTurn total (sizeTurns total n)

/-- `__init__`. -/
def init (total : Nat) : Option Fat32 :=
  let r := sizeTurns total 8
  if r.2 < 65525 then none
  else some
    { fatSectors := r.1.toNat
      clusters := r.2.toNat
      fat := fun c => if c = 0 then 0x0FFFFFF8 else if c = 1 then 0x0FFFFFFF else 0
      data := Image.zeros
      nextFree := 2 }

/-- `data_start`. -/
def dataStart (s : Fat32) : Nat := 32 + 2 * s.fatSectors

/-- The loop of `alloc_chain`. -/
def linkChain (fat : Nat → Nat) (first n : Nat) : Nat → Nat :=
  (List.range n).foldl (fun fat i => Function.update fat (first + i) (if i = n - 1 then 0x0FFFFFFF else first + i + 1)) fat

/-- The clusters for so many bytes. -/
def clustersFor (nbytes : Nat) : Nat := max 1 ((nbytes + 512 - 1) / 512)

/-- `alloc_chain`: past the last cluster there is no entry in `fat`. -/
def allocChain (s : Fat32) (nbytes : Nat) : Option (Nat × Fat32) :=
  let n := clustersFor nbytes
  if s.clusters + 2 < s.nextFree + n then none
  else some (s.nextFree, { s with fat := linkChain s.fat s.nextFree n, nextFree := s.nextFree + n })

/-- `write_cluster_data`. -/
def writeClusterData (s : Fat32) (first : Nat) (blob : List Byte) : Fat32 := { s with data := s.data.place (512 * (first - 2)) blob }

end Fat32

/-- `s.upper().ljust(n)[:n]`. -/
def paddedName (n : Nat) (s : List Byte) : List Byte := (s.map upper ++ List.replicate (n - s.length) 0x20#8).take n

/-- `dirent`; `struct.pack_into` takes no size from 4GB on. -/
def espDirent (name ext : List Byte) (attr : Byte) (cluster size : Nat) : Option (List Byte) :=
  if 2 ^ 32 ≤ size then none
  else some (paddedName 8 name ++ paddedName 3 ext ++ [attr] ++ List.replicate 8 0#8 ++ bytesLE 2 (cluster / 2 ^ 16 % 2 ^ 16) ++ bytesLE 2 0 ++
    bytesLE 2 0x5821 ++ bytesLE 2 (cluster % 2 ^ 16) ++ bytesLE 4 size)

/-- `split83`: the last dot parts a name. -/
def split83 (name : List Byte) : Option (List Byte × List Byte) :=
  let r :=
    if 0x2E#8 ∈ name then
      ((name.reverse.dropWhile fun c => decide (c ≠ 0x2E#8)).drop 1 |>.reverse, (name.reverse.takeWhile fun c => decide (c ≠ 0x2E#8)).reverse)
    else (name, [])
  if 8 < r.1.length ∨ 3 < r.2.length then none else some r

namespace Fat32

/-- The entry for a name in a directory. -/
def entryFor (name : List Byte) (attr : Byte) (cluster size : Nat) : Option (List Byte) :=
  (split83 name).bind fun r => espDirent r.1 r.2 attr cluster size

/-- A file in `build_dir`: an empty one gets no cluster. -/
def storeFile (s : Fat32) (blob : List Byte) : Option (Nat × Fat32) :=
  if blob = [] then some (0, s) else (s.allocChain blob.length).map fun r => (r.1, r.2.writeClusterData r.1 blob)

/-- The loop over `children` in `build_dir`: `entries`, and the clusters of `subdirs`. -/
def enterChildren (s : Fat32) : FileTree → Option (List (List Byte) × List Nat × Fat32)
  | .nil => some ([], [], s)
  | .file x blob rest => do
    let (clus, s) ← s.storeFile blob
    let e ← entryFor x 0x20#8 clus blob.length
    let (es, cs, s) ← s.enterChildren rest
    return (e :: es, cs, s)
  | .dir x _ rest => do
    let (clus, s) ← s.allocChain 512
    let e ← entryFor x 0x10#8 clus 0
    let (es, cs, s) ← s.enterChildren rest
    return (e :: es, clus :: cs, s)

/-- `build_dir` before its last loop: `entries` is written to the cluster of the directory. -/
def writeDir (s : Fat32) (dots : List (List Byte)) (self : Nat) (children : FileTree) : Option (List Nat × Fat32) := do
  let (es, cs, s) ← s.enterChildren children
  if 512 < (dots ++ es).flatten.length then none
  return (cs, s.writeClusterData self (dots ++ es).flatten)

/-- The entries `.` and `..`; the root is known as cluster 0 there. -/
def dotEntries (self parent : Nat) : Option (List (List Byte)) := do
  let one ← espDirent [0x2E#8] [] 0x10#8 self 0
  let two ← espDirent [0x2E#8, 0x2E#8] [] 0x10#8 (if parent ≠ 2 then parent else 0) 0
  return [one, two]

/-- The loop over `subdirs`: each is built with `build_dir`. -/
def buildSubs (s : Fat32) (self : Nat) : FileTree → List Nat → Option Fat32
  | .file _ _ rest, cs => s.buildSubs self rest cs
  | .dir _ sub rest, c :: cs => do
    let dots ← dotEntries c self
    let (cs', s) ← s.writeDir dots c sub
    let s ← s.buildSubs c sub cs'
    s.buildSubs self rest cs
  | .nil, _ | .dir _ _ _, [] => some s

/-- `build_dir` for the root. -/
def buildRoot (s : Fat32) (root : Nat) (tree : FileTree) : Option Fat32 := do
  let (cs, s) ← s.writeDir [] root tree
  s.buildSubs root tree cs

end Fat32

/-- `bs`. -/
def espBootSector (partSectors fatSectors : Nat) : Image :=
  ([(0, [0xEB#8, 0x58#8, 0x90#8]), (3, asciiBytes "MSWIN4.1"), (11, bytesLE 2 512), (13, [1#8]), (14, bytesLE 2 32), (16, [2#8]), (17, bytesLE 2 0),
      (19, bytesLE 2 0), (21, [0xF8#8]), (22, bytesLE 2 0), (24, bytesLE 2 32), (26, bytesLE 2 8), (28, bytesLE 4 2048),
      (32, bytesLE 4 partSectors), (36, bytesLE 4 fatSectors), (40, bytesLE 2 0), (42, bytesLE 2 0), (44, bytesLE 4 2), (48, bytesLE 2 1),
      (50, bytesLE 2 6), (64, [0x80#8]), (66, [0x29#8]), (67, bytesLE 4 0x4D494E49), (71, asciiBytes "MINIOS     "), (82, asciiBytes "FAT32   "),
      (510, bytesLE 2 0xAA55)] : List (Nat × List Byte)).foldl (fun m f => m.place f.1 f.2) Image.zeros

/-- `fsi`. -/
def espFsInfo (nextFree : Nat) : Image :=
  ([(0, bytesLE 4 0x41615252), (484, bytesLE 4 0x61417272), (488, bytesLE 4 0xFFFFFFFF), (492, bytesLE 4 nextFree),
      (510, bytesLE 2 0xAA55)] : List (Nat × List Byte)).foldl (fun m f => m.place f.1 f.2) Image.zeros

namespace Fat32

/-- `fat_blob` without the zeros behind it. -/
def fatBlob (s : Fat32) : Image := fun p => if p < 4 * (s.clusters + 2) then (bytesLE 4 (s.fat (p / 4))).getD (p % 4) 0#8 else 0#8

/-- The bytes of `fat_blob`, zeros included: where the entries are more than fit, they are all there. -/
def fatBlobLen (s : Fat32) : Nat := max (4 * (s.clusters + 2)) (512 * s.fatSectors)

/-- `part`. -/
def partition (s : Fat32) (partSectors : Nat) : Image :=
  let bs := espBootSector partSectors s.fatSectors
  let part := ((Image.zeros.overlay 0 512 bs).overlay 512 512 (espFsInfo s.nextFree)).overlay (512 * 6) 512 bs
  let part := (List.range 2).foldl (fun part i => part.overlay (512 * (32 + i * s.fatSectors)) s.fatBlobLen s.fatBlob) part
  part.overlay (512 * s.dataStart) (512 * s.clusters) s.data

end Fat32

/-- `main`, from `Fat32` to `part`; `struct.pack_into` takes no size from 2^32 sectors on. -/
def mkesp (partSectors : Nat) (tree : FileTree) : Option Image := do
  let s ← Fat32.init partSectors
  let (root, s) ← s.allocChain 512
  if root ≠ 2 then none
  let s ← s.buildRoot root tree
  if 2 ^ 32 ≤ partSectors then none
  return s.partition partSectors

/-! ## Names and trees -/

/-- A character of a short name. -/
def isShortChar (c : Byte) : Bool :=
  decide (0x21#8 ≤ c ∧ c ≤ 0x7E#8) && !(asciiBytes "\"*+,./:;<=>?[\\]|").contains c

/-- An 8.3 name: up to eight characters, and up to three behind a dot. -/
def IsShortName (x : List Byte) : Prop :=
  ∃ base ext : List Byte, base ≠ [] ∧ base.length ≤ 8 ∧ ext.length ≤ 3 ∧ (∀ c ∈ base ++ ext, isShortChar c = true) ∧
    x = if ext = [] then base else base ++ 0x2E#8 :: ext

/-- All names are 8.3 names. -/
def FileTree.ShortNames : FileTree → Prop
  | .nil => True
  | .file x _ rest => IsShortName x ∧ rest.ShortNames
  | .dir x sub rest => IsShortName x ∧ sub.ShortNames ∧ rest.ShortNames

end MiniOs32
