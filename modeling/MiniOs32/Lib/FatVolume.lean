import MiniOs32.Lib.Image

/-!
# FAT32 volumes

A reader of the format, from the fields of the boot sector on: chains of clusters in a copy of the FAT, the entries of a directory, and the
tree of directories and files with their bytes. Short names only; deleted entries, labels and parts of long names are passed over.
-/

namespace MiniOs32

/-- Directories and files. -/
inductive FileTree where
  | nil
  | file (name : List Byte) (data : List Byte) (rest : FileTree)
  | dir (name : List Byte) (sub : FileTree) (rest : FileTree)
  deriving DecidableEq

/-- Other names in the same tree. -/
def FileTree.rename (f : List Byte → List Byte) : FileTree → FileTree
  | nil => nil
  | file x bs rest => file (f x) bs (rest.rename f)
  | dir x sub rest => dir (f x) (sub.rename f) (rest.rename f)

/-- What the boot sector says of a volume. -/
structure FatVolume where
  sectorBytes : Nat
  clusterSectors : Nat
  reserved : Nat
  fats : Nat
  fatSectors : Nat
  total : Nat
  root : Nat
  deriving DecidableEq

/-- An entry of a directory. -/
structure FatEntry where
  name : List Byte
  isDir : Bool
  cluster : Nat
  size : Nat
  deriving DecidableEq

namespace FatVolume

/-- The first sector of the clusters. -/
def dataStart (v : FatVolume) : Nat := v.reserved + v.fats * v.fatSectors

/-- How many clusters there are. -/
def count (v : FatVolume) : Nat := (v.total - v.dataStart) / v.clusterSectors

/-- The bytes of a cluster. -/
def clusterBytes (v : FatVolume) : Nat := v.clusterSectors * v.sectorBytes

/-- How many entries a FAT has room for. -/
def fatEntries (v : FatVolume) : Nat := v.sectorBytes * v.fatSectors / 4

/-- The boot sector. A FAT32 volume has from 65525 to 0x0FFFFFF5 clusters. -/
def ofBoot (m : Image) : Option FatVolume :=
  let v : FatVolume :=
    { sectorBytes := m.number 11 2
      clusterSectors := m.number 13 1
      reserved := m.number 14 2
      fats := m.number 16 1
      fatSectors := if m.number 22 2 = 0 then m.number 36 4 else m.number 22 2
      total := if m.number 19 2 = 0 then m.number 32 4 else m.number 19 2
      root := m.number 44 4 }
  if m.number 510 2 = 0xAA55 ∧ v.sectorBytes ∈ [512, 1024, 2048, 4096] ∧ 0 < v.clusterSectors ∧ 0 < v.fats ∧ v.dataStart ≤ v.total ∧
      65525 ≤ v.count ∧ v.count ≤ 0x0FFFFFF5 then some v else none

/-- The regions of a volume: the reserved sectors, each FAT, and the clusters, as first sector and number of sectors. -/
def regions (v : FatVolume) : List (Nat × Nat) :=
  (0, v.reserved) :: (List.range v.fats).map (fun k => (v.reserved + k * v.fatSectors, v.fatSectors)) ++
    [(v.dataStart, v.count * v.clusterSectors)]

/-- An entry of a copy of the FAT, 28 bits of it. -/
def next (v : FatVolume) (m : Image) (copy c : Nat) : Nat :=
  m.number (v.sectorBytes * (v.reserved + copy * v.fatSectors) + 4 * c) 4 % 2 ^ 28

/-- The clusters of a chain. -/
def chain (v : FatVolume) (m : Image) (copy : Nat) : Nat → Nat → Option (List Nat)
  | 0, _ => none
  | fuel + 1, c =>
    if c < 2 ∨ v.count + 2 ≤ c then none
    else if 0x0FFFFFF8 ≤ v.next m copy c then some [c]
    else (v.chain m copy fuel (v.next m copy c)).map (c :: ·)

/-- The bytes of a cluster. -/
def cluster (v : FatVolume) (m : Image) (c : Nat) : List Byte :=
  m.slice (v.sectorBytes * v.dataStart + v.clusterBytes * (c - 2)) v.clusterBytes

/-- The bytes of a chain. A chain is no longer than the volume. -/
def chainBytes (v : FatVolume) (m : Image) (copy c : Nat) : Option (List Byte) :=
  (v.chain m copy v.count c).map fun cs => cs.flatMap (v.cluster m)

/-- The spaces behind a name dropped. -/
def trimmed (bs : List Byte) : List Byte := (bs.reverse.dropWhile fun c => decide (c = 0x20#8)).reverse

/-- A name of eight and three characters. -/
def shortName (bs : List Byte) : List Byte :=
  let ext := trimmed ((bs.drop 8).take 3)
  if ext = [] then trimmed (bs.take 8) else trimmed (bs.take 8) ++ 0x2E#8 :: ext

/-- The 32 bytes of an entry; nothing for one that is passed over: deleted, `.` or `..`, a label or a part of a long name. -/
def entryOf (bs : List Byte) : Option FatEntry :=
  let m := Image.ofList bs
  let attr := m 11
  if m 0 = 0xE5#8 ∨ m 0 = 0x2E#8 ∨ attr &&& 0x08#8 ≠ 0#8 then none
  else some ⟨shortName bs, decide (attr &&& 0x10#8 ≠ 0#8), m.number 26 2 + 2 ^ 16 * m.number 20 2, m.number 28 4⟩

/-- The entries of a directory, up to the first that was never used. -/
def entriesOf (bs : List Byte) : List FatEntry :=
  (((List.range (bs.length / 32)).map fun i => (bs.drop (32 * i)).take 32).takeWhile fun e => decide (e.head? ≠ some 0#8)).filterMap entryOf

/-- The bytes of a file: as many of its chain as it has. -/
def fileBytes (v : FatVolume) (m : Image) (copy : Nat) (e : FatEntry) : Option (List Byte) :=
  if e.size = 0 then some [] else (v.chainBytes m copy e.cluster).bind fun bs => if e.size ≤ bs.length then some (bs.take e.size) else none

/-- The tree below entries, given the trees below the clusters of directories. -/
def entriesTree (v : FatVolume) (m : Image) (copy : Nat) (sub : Nat → Option FileTree) : List FatEntry → Option FileTree
  | [] => some .nil
  | e :: es =>
    if e.isDir then (sub e.cluster).bind fun t => (entriesTree v m copy sub es).map (FileTree.dir e.name t)
    else (v.fileBytes m copy e).bind fun bs => (entriesTree v m copy sub es).map (FileTree.file e.name bs)

/-- The tree below a directory. -/
def dirTree (v : FatVolume) (m : Image) (copy : Nat) : Nat → Nat → Option FileTree
  | 0, _ => none
  | fuel + 1, c => (v.chainBytes m copy c).bind fun bs => v.entriesTree m copy (v.dirTree m copy fuel) (entriesOf bs)

end FatVolume

end MiniOs32
