import MiniOs32.Kernel.Disk

/-!
# The store on the NVMe drive

`store_scan` walks the GPT of the drive for a partition whose first sector is a store header; `store_init` loads the RAM disk
from the image behind that header and arms the write-through. The drive is a function from logical blocks to their bytes. Its
reads and writes are taken to succeed; `nvme_read` refuses an empty run, and that refusal is modelled.

A table entry of fewer than 48 bytes can lie across the end of the 512-byte table buffer; the bytes `store_scan` then reads
behind the buffer are an argument.
-/

namespace MiniOs32

/-- The bytes of the drive, by logical block and offset. -/
abbrev Medium : Type := Nat → Nat → Byte

/-- What one successful `nvme_write` does to the drive. -/
def NvmeWrite.apply (w : NvmeWrite) (med : Medium) : Medium := fun s j =>
  if w.lba.toNat ≤ s ∧ s < w.lba.toNat + w.count.toNat then w.data ((s - w.lba.toNat) * 512 + j) else med s j

/-- The drive after a list of writes. -/
def Medium.after (med : Medium) (ws : List NvmeWrite) : Medium := ws.foldl (fun m w => w.apply m) med

/-- The 32-bit word at an offset. -/
def u32At (f : Nat → Byte) (a : Nat) : U32 := word32 (f a) (f (a + 1)) (f (a + 2)) (f (a + 3))

/-- The 64-bit word at an offset. -/
def u64At (f : Nat → Byte) (a : Nat) : U64 := u32At f (a + 4) ++ u32At f a

/-- `STORE_MAGIC0`. -/
def storeMagic0 : U32 := 0x494E494D#32
/-- `STORE_MAGIC1`. -/
def storeMagic1 : U32 := 0x3233534F#32
/-- `STORE_VERSION`. -/
def storeVersion : U32 := 1#32

/-- `store_status`. -/
inductive StoreStatus where
  | none | noGpt | noPart | badBlock | tooSmall | ok
  deriving DecidableEq

/-- What `nvme_init` and `nvme_get_info` report. -/
structure NvmeInfo where
  initOk : Bool
  present : Bool
  blockSize : U32

/-- The store `store_scan` found. -/
structure StoreFound where
  firstLba : U64
  lastLba : U64
  fsSectors : U32
  accepted : storeEntryOk firstLba lastLba fsSectors = true

/-- The GPT header fields `store_scan` reads. -/
structure Gpt where
  entryLba : U64
  entries : U32
  entrySz : U32

/-- The header check of `store_scan`: the signature and the bounds on the entry table. -/
def readGpt (sector : Nat → Byte) : Option Gpt :=
  if (List.range 8).all (fun i => sector i == (asciiBytes "EFI PART").getD i 0#8) then
    let g : Gpt := ⟨u64At sector 72, u32At sector 80, u32At sector 84⟩
    if g.entrySz = 0#32 ∨ 512 < g.entrySz.toNat ∨ 512 < g.entries.toNat then none else some g
  else none

/-- `per_sector`. -/
def Gpt.perSector (g : Gpt) : Nat := 512 / g.entrySz.toNat

/-- The block of the table that holds an entry. -/
def Gpt.block (g : Gpt) (i : Nat) : Nat := (g.entryLba + BitVec.ofNat 64 (i / g.perSector)).toNat

/-- The table buffer after a read: the sector, and what lies behind the buffer. -/
def tableBuf (stack sector : Nat → Byte) : Nat → Byte := fun j => if j < 512 then sector j else stack j

/-- The bytes of entry `i`, when the table buffer is `tbl`. -/
def Gpt.entry (g : Gpt) (tbl : Nat → Byte) (i : Nat) : Nat → Byte := fun j => tbl (i % g.perSector * g.entrySz.toNat + j)

/-- An all-zero type GUID marks an unused slot. -/
def entryUsed (e : Nat → Byte) : Bool := (List.range 16).any fun b => e b != 0#8

/-- A store header of this version. -/
def isStoreHdr (sector : Nat → Byte) : Bool :=
  u32At sector 0 == storeMagic0 && u32At sector 4 == storeMagic1 && u32At sector 8 == storeVersion

/-- The loop of `store_scan` from entry `i` on, with `n` entries left and the table buffer `tbl`. -/
def scanEntries (stack : Nat → Byte) (med : Medium) (g : Gpt) : (n i : Nat) → (tbl : Nat → Byte) → StoreStatus ⊕ StoreFound
  | 0, _, _ => .inl .noPart
  | n + 1, i, tbl =>
    let tbl := if i % g.perSector = 0 then tableBuf stack (med (g.block i)) else tbl
    let e := g.entry tbl i
    let first := u64At e 32
    let last := u64At e 40
    if !entryUsed e then scanEntries stack med g n (i + 1) tbl
    else if last ≤ first then scanEntries stack med g n (i + 1) tbl
    else if !isStoreHdr (med first.toNat) then scanEntries stack med g n (i + 1) tbl
    else
      -- `last <= first` is already excluded, so what is left of the check is the room for header and image
      if h : storeEntryOk first last (u32At (med first.toNat) 12) then .inr ⟨first, last, u32At (med first.toNat) 12, h⟩
      else .inl .tooSmall

theorem scanEntries_step (stack : Nat → Byte) (med : Medium) (g : Gpt) (n i : Nat) (tbl : Nat → Byte) :
    scanEntries stack med g (n + 1) i tbl =
      let tbl := if i % g.perSector = 0 then tableBuf stack (med (g.block i)) else tbl
      let e := g.entry tbl i
      let first := u64At e 32
      let last := u64At e 40
      if !entryUsed e then scanEntries stack med g n (i + 1) tbl
      else if last ≤ first then scanEntries stack med g n (i + 1) tbl
      else if !isStoreHdr (med first.toNat) then scanEntries stack med g n (i + 1) tbl
      else if h : storeEntryOk first last (u32At (med first.toNat) 12) then
        .inr ⟨first, last, u32At (med first.toNat) 12, h⟩
      else .inl .tooSmall := rfl

/-- `store_scan`. -/
def storeScan (ni : NvmeInfo) (stack : Nat → Byte) (med : Medium) : StoreStatus ⊕ StoreFound :=
  if !ni.present then .inl .none
  else if ni.blockSize ≠ 512#32 then .inl .badBlock
  else
    match readGpt (med 1) with
    | none => .inl .noGpt
    | some g => scanEntries stack med g g.entries.toNat 0 (tableBuf stack stack)

/-- The store `store_init` arms. -/
def StoreFound.arm (f : StoreFound) : Store := ⟨true, f.firstLba, f.lastLba, f.fsSectors, fun _ => f.accepted⟩

/-- The sectors `store_init` loads. -/
def StoreFound.loadSectors (f : StoreFound) (rdSectors : U32) : U32 := if rdSectors < f.fsSectors then rdSectors else f.fsSectors

/-- The RAM disk after `nvme_read(store_first_lba + 1, n, rd_base)`. -/
def loadImageSectors (med : Medium) (first : U64) (n : U32) (bytes : Nat → Byte) : Nat → Byte := fun i =>
  if i < n.toNat * 512 then med ((first + 1#64).toNat + i / 512) (i % 512) else bytes i

/-- The disk once the image is loaded and writes are armed. -/
def Disk.bringUp (d : Disk) (med : Medium) (f : StoreFound) : Disk :=
  { d with bytes := loadImageSectors med f.firstLba (f.loadSectors d.rdSectors) d.bytes, store := f.arm }

/-- `store_init`. -/
def storeInit (ni : NvmeInfo) (stack : Nat → Byte) (med : Medium) (d : Disk) : StoreStatus × Disk :=
  if !d.ram then (.none, d)
  else if !ni.initOk then (.none, d)
  else
    match storeScan ni stack med with
    | .inl st => (st, d)
    | .inr f =>
      -- `nvme_read` refuses an empty run
      if f.loadSectors d.rdSectors = 0#32 then (.noPart, d) else (.ok, d.bringUp med f)

end MiniOs32
