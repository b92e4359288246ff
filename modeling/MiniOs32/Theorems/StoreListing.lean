import MiniOs32.Theorems.ImageAgrees
import MiniOs32.Tools.Lsstore

/-!
# The host reads the store as the kernel does

`lsstore.py` looks at every slot of the directory: a hole does not end the loop. What ends it is a hole from the last slot on, so a
used last slot takes it into the data, up to the first 64 bytes that start with a NUL. A directory listed is a name with a `'/'`
behind it, whatever its entry says of a size, and a byte that is not ASCII is listed as U+FFFD.
-/

namespace MiniOs32

/-- A file with a store in it: no header in the sectors before, the header, and the image it declares, which starts with the
directory. -/
structure StoreImage where
  before : List Byte
  sectors : Nat
  aligned : before.length = sectors * 512
  noHeader : ∀ s < sectors, hasMagic before (s * 512) = false
  header : List Byte
  headerLen : header.length = 512
  magic : isStoreHdr (fun i => header.getD i 0#8) = true
  dir : Dir
  files : List Byte
  fsSectors : dir.bytes.length + files.length = (unpackFrom header 12).toNat * 512
  behind : List Byte

/-- The image of the filesystem. -/
def StoreImage.blob (im : StoreImage) : List Byte := im.dir.bytes ++ im.files

/-- The bytes of the file. -/
def StoreImage.data (im : StoreImage) : List Byte := im.before ++ (im.header ++ (im.blob ++ im.behind))

/-- The run of an entry lies inside the image. -/
def StoreImage.Inside (im : StoreImage) (e : Dirent) : Prop :=
  0 < e.size.toNat → fsDirLba ≤ e.start.toNat ∧ (e.start.toNat - fsDirLba + sectorCount e.size.toNat) * 512 ≤ im.blob.length

/-- A name as it is listed. -/
def NamedAs (name : List Char) (e : Dirent) : Prop := name.map Char.toNat = e.str.map BitVec.toNat

/-- A line is right for a slot: it has the name and the size of the entry, and what is extracted is what `SYS_LOAD` returns under
every name that finds the entry. A directory has no bytes. -/
def Listed.Right (k : Kernel) (i : Nat) : Listed → Prop
  | .dir name => NamedAs name (k.fs.dir.get i) ∧ (k.fs.dir.get i).size = 0#32
  | .file name size body => NamedAs name (k.fs.dir.get i) ∧ size = (k.fs.dir.get i).size ∧ body.length = size.toNat ∧
    ∀ s, IsName s → fsFind k.fs.dir (normalizeName s) = some i → LoadsBack k s size fun j => body.getD j 0#8

/-- What `lsstore.py` takes for granted: no data behind a used last slot, unless it starts with a NUL, names in ASCII, and no data in
a directory. -/
structure StoreImage.Plain (im : StoreImage) : Prop where
  lastSlot : (im.dir.get (dirEntries - 1)).live = true → im.files.getD 0 0#8 = 0#8
  ascii : ∀ i, (im.dir.get i).live = true → ∀ c ∈ (im.dir.get i).str, c.toNat < 128
  dirs : ∀ i, (im.dir.get i).live = true → (im.dir.get i).str.getLast? = some (Char.byte '/') → (im.dir.get i).size = 0#32

/-! ## Bytes and characters -/

section Image

variable (im : StoreImage)

/-- The length of the directory sectors. -/
theorem Dir.bytes_length (d : Dir) : d.bytes.length = dirEntries * entrySize := by
  rw [Dir.bytes, List.length_flatMap, List.map_congr_left fun e _ => e.bytes_length, List.map_const', List.sum_replicate, d.len]
  rfl

variable {im} {d : Disk} (hd : d.HoldsImage im.blob)
include hd

section Listing

variable (hw : d.wild = false) {k : Kernel} (hk : k.fs = d.loadDir)
  (hin : ∀ i, (im.dir.get i).live = true → im.Inside (im.dir.get i))
include hw hk hin

end Listing

end Image

/-- The header that `mkstore.py` writes. -/
def formatHeader (fsSectors : U32) : List Byte :=
  le32 storeMagic0 ++ (le32 storeMagic1 ++ (le32 storeVersion ++ (le32 fsSectors ++ (List.replicate 48 0#8 ++
    ((asciiBytes "mini-os32 persistent store\n" ++ List.replicate 6 0#8).take 32 ++ List.replicate 416 0#8)))))

theorem buildHeader_eq {n : Nat} (h : n < 2 ^ 32) : buildHeader n = .ok (formatHeader (BitVec.ofNat 32 n)) := by
  have h0 : List.replicate 512 0#8 = List.replicate 4 0#8 ++ (List.replicate 4 0#8 ++ (List.replicate 4 0#8 ++ (List.replicate 4 0#8 ++
    (List.replicate 48 0#8 ++ (List.replicate 32 0#8 ++ List.replicate 416 0#8))))) := by
    simp only [List.replicate_append_replicate]
  have hw : ∀ w : U32, w.toNat < 2 ^ 32 := fun w => w.isLt
  rw [buildHeader, h0]
  simp only [packInto, h, hw, if_true, bind, Except.bind, show 1 < 2 ^ 32 by omega]
  rfl

end MiniOs32
