import MiniOs32.Kernel.User

/-!
# The disk under the filesystem

Two backends serve sectors. Booted from UEFI the filesystem is a RAM disk whose first sector is `FS_DIR_LBA`, mirrored to a
partition of the NVMe drive (the store) once one has been found; booted from BIOS it is the ATA disk. Every access of the
filesystem goes through `disk_read_sectors` and `disk_write_sectors`.

The range check of the RAM disk adds in 32 bits. A sector run for which that sum wraps passes the check and is copied to
kernel memory outside the RAM disk; what it overwrites there is not described, and `Disk.wild` records that it happened.
`Disk.writes` and `Disk.nvmeWrites` record the writes issued, in order.
-/

namespace MiniOs32

/-- `STAGE2_SECTORS`, as `build.sh` passes it. -/
def stage2Sectors : Nat := 8
/-- `KERNEL_SECTORS`, as `build.sh` passes it. -/
def kernelSectors : Nat := 128
/-- `DIR_SECTORS`, as `build.sh` passes it: 512 entries of 64 bytes. -/
def dirSectors : Nat := 64
/-- `KERNEL_LBA`. -/
def kernelLba : Nat := 1 + stage2Sectors
/-- `FS_DIR_LBA`: the first directory sector, and the origin of the RAM disk. -/
def fsDirLba : Nat := kernelLba + kernelSectors
/-- `FS_DATA_LBA`: the first data sector. -/
def fsDataLba : Nat := fsDirLba + dirSectors

/-! ## The store -/

/-- What `store_scan` asks of a used GPT entry that carries a store header: more than one sector, and room for the header
sector and the image the header declares. -/
def storeEntryOk (first last : U64) (fsSectors : U32) : Bool :=
  !decide (last ≤ first) && !decide (last - first + 1#64 < 1#64 + fsSectors.setWidth 64)

/-- The persistent store: `store_ready`, `store_first_lba`, `store_last_lba` and `store_fs_sectors`. Writes are armed only for
an entry `store_scan` accepted. -/
structure Store where
  ready : Bool
  firstLba : U64
  lastLba : U64
  fsSectors : U32
  accepted : ready = true → storeEntryOk firstLba lastLba fsSectors = true

/-- One `nvme_write` call. -/
structure NvmeWrite where
  lba : U64
  count : U32
  data : Nat → Byte

/-- `store_lba_ok`. -/
def Store.lbaOk (st : Store) (lba : U64) (count : U32) : Bool :=
  st.ready && count != 0#32 && !decide (lba ≤ st.firstLba) && !decide (st.lastLba < lba + count.setWidth 64 - 1#64)

/-- `store_write_through`: the NVMe write a RAM disk write is mirrored by, if any. -/
def Store.writeThrough (st : Store) (lba count : U32) (buf : Nat → Byte) : Option NvmeWrite :=
  if !st.ready || decide (lba < BitVec.ofNat 32 fsDirLba) then none
  else
    let off := lba - BitVec.ofNat 32 fsDirLba
    if st.fsSectors < off + count then none
    else
      let target := st.firstLba + 1#64 + off.setWidth 64
      if st.lbaOk target count then some ⟨target, count, buf⟩ else none

/-! ## Sectors -/

/-- Who issues a disk write: the directory (`fs_sync_dir`), a whole-file save, or a write handle. -/
inductive Writer where
  | dir | save | handle
  deriving DecidableEq

/-- One `disk_write_sectors` call that copied its sectors. -/
structure DiskWrite where
  who : Writer
  lba : U32
  count : U32
  deriving DecidableEq

/-- The disk: the backend, its bytes, and what has been issued to it. `bytes` is the RAM disk from `FS_DIR_LBA` on, or the ATA
disk from LBA 0 on; `outside` is the kernel memory a wild read would return. `bootinfo_init` adopts a RAM disk only when it
holds the directory, and takes its size in bytes from a 32-bit field. -/
structure Disk where
  ram : Bool
  rdSectors : U32
  bytes : Nat → Byte
  outside : Nat → Byte
  store : Store
  wild : Bool
  writes : List DiskWrite
  nvmeWrites : List NvmeWrite
  rdBound : ram = true → dirSectors ≤ rdSectors.toNat ∧ rdSectors.toNat < 2 ^ 23

/-- A RAM disk of zeros without a store. -/
def Disk.blank (rdSectors : U32) (h : dirSectors ≤ rdSectors.toNat ∧ rdSectors.toNat < 2 ^ 23) : Disk :=
  ⟨true, rdSectors, fun _ => 0#8, fun _ => 0#8, ⟨false, 0#64, 0#64, 0#32, by simp⟩, false, [], [], fun _ => h⟩

/-- The sectors of a small RAM disk. -/
theorem hundred_sectors : dirSectors ≤ (100#32 : U32).toNat ∧ (100#32 : U32).toNat < 2 ^ 23 := by decide

/-- `rd_range_ok`. -/
def Disk.rdRangeOk (d : Disk) (lba count : U32) : Bool :=
  d.ram && !decide (lba < BitVec.ofNat 32 fsDirLba) &&
    decide (lba - BitVec.ofNat 32 fsDirLba + count ≤ d.rdSectors)

/-- The sectors lie inside the RAM disk, in exact arithmetic. -/
def Disk.rdInside (d : Disk) (lba count : U32) : Bool :=
  decide (fsDirLba ≤ lba.toNat ∧ lba.toNat - fsDirLba + count.toNat ≤ d.rdSectors.toNat)

/-- The number of sectors a 28-bit ATA address names. -/
def ataSectors : Nat := 2 ^ 28

/-- Where a sector's bytes start on the medium. An ATA address keeps the low 28 bits. -/
def Disk.addr (d : Disk) (lba : Nat) : Nat :=
  if d.ram then (lba - fsDirLba) * 512 else (lba % ataSectors) * 512

/-- `memcpy` of `count` sectors into the RAM disk. -/
def Disk.ramCopyIn (d : Disk) (lba count : U32) (buf : Nat → Byte) : Nat → Byte := fun i =>
  if d.addr lba.toNat ≤ i ∧ i < d.addr lba.toNat + count.toNat * 512 then buf (i - d.addr lba.toNat) else d.bytes i

/-- `ata_write_sectors`: sector `s` of the run goes to address `lba + s`. -/
def Disk.ataCopyIn (d : Disk) (lba count : U32) (buf : Nat → Byte) : Nat → Byte := fun i =>
  let s := (i / 512 + ataSectors - lba.toNat % ataSectors) % ataSectors
  if i / 512 < ataSectors ∧ s < count.toNat then buf (s * 512 + i % 512) else d.bytes i

/-- `disk_write_sectors`. -/
def Disk.writeSectors (d : Disk) (who : Writer) (lba count : U32) (buf : Nat → Byte) : Disk :=
  if d.ram then
    if d.rdRangeOk lba count then
      { d with
        bytes := if d.rdInside lba count then d.ramCopyIn lba count buf else d.bytes
        wild := d.wild || !d.rdInside lba count
        writes := d.writes ++ [⟨who, lba, count⟩]
        nvmeWrites := d.nvmeWrites ++ (d.store.writeThrough lba count buf).toList }
    else d
  else
    { d with
      bytes := d.ataCopyIn lba count buf
      writes := d.writes ++ [⟨who, lba, count⟩] }

/-- `disk_read_sectors`: the bytes read, by offset. A run the range check refuses reads as zeros; a run that only passes it
because the sum wrapped reads kernel memory. -/
def Disk.readSectors (d : Disk) (lba count : U32) : Disk × (Nat → Byte) :=
  if d.ram then
    if d.rdRangeOk lba count then
      if d.rdInside lba count then (d, fun i => d.bytes (d.addr lba.toNat + i))
      else ({ d with wild := true }, d.outside)
    else (d, fun _ => 0#8)
  else (d, fun i => d.bytes (d.addr (lba.toNat + i / 512) + i % 512))

/-- The sectors `SYS_SYNC` writes: the image the header declares, or the RAM disk when that is smaller. -/
def Disk.syncSectors (d : Disk) : U32 := if d.store.fsSectors < d.rdSectors then d.store.fsSectors else d.rdSectors

/-- `SYS_SYNC`; `status` is what `nvme_write` returns. -/
def Disk.sync (d : Disk) (status : U32) : Disk × U32 :=
  if !d.store.ready then (d, -1#32)
  else if !d.store.lbaOk (d.store.firstLba + 1#64) d.syncSectors then (d, -1#32)
  else ({ d with nvmeWrites := d.nvmeWrites ++ [⟨d.store.firstLba + 1#64, d.syncSectors, d.bytes⟩] },
    if status = 0#32 then 0#32 else -1#32)

end MiniOs32
