import MiniOs32.Kernel.Nvme

/-!
# Transfers

`rw` once more, from the call to the return, with the queues left out: a command that succeeds has the controller copy its blocks to or
from the pages its PRP entries describe, and one that fails may leave anything in the bounce buffer and on the medium. Whether a command
succeeds is up to the controller, which has seen all commands so far.
-/

namespace MiniOs32

/-- A command of `rw`, with the PRP list in memory when it is issued. -/
structure IssuedCmd where
  sqe : Sqe
  list : Nat → U64

/-- The drive, the buffers of the driver, the medium byte by byte, and the commands issued so far. -/
structure NvmeIo where
  info : NvmeDrive
  bounce : Nat → Byte
  prpList : Nat → U64
  disk : Nat → Byte
  issued : List IssuedCmd

/-- What the controller makes of the last command issued: success, or a failure and what it leaves in the bounce buffer and on the
medium. -/
abbrev NvmeReply : Type := List IssuedCmd → Option ((Nat → Byte) × (Nat → Byte))

/-! ## The controller -/

/-- The number of blocks of a command, and its first block. -/
def Sqe.blockCount (c : Sqe) : Nat := (c.cdw12 &&& 0xFFFF#32).toNat + 1
def Sqe.firstBlock (c : Sqe) : Nat := c.cdw11.toNat * 2 ^ 32 + c.cdw10.toNat

/-- The number of pages for a number of bytes. -/
def prpPageCount (bytes : Nat) : Nat := (bytes + 4095) / 4096

/-- The addresses in the PRP entries of a command for a number of bytes: one, two, or one and a list. None where a pointer is not at the
start of a page, or the list is not that of the driver. -/
def prpPages (info : NvmeDrive) (c : IssuedCmd) (bytes : Nat) : Option (List U64) :=
  let pages :=
    if prpPageCount bytes ≤ 1 then some [c.sqe.prp1]
    else if prpPageCount bytes = 2 then some [c.sqe.prp1, c.sqe.prp2]
    else if c.sqe.prp2 = info.prpList.setWidth 64 ∧ c.sqe.prp2.toNat % 4096 = 0 then
      some (c.sqe.prp1 :: (List.range (prpPageCount bytes - 1)).map c.list)
    else none
  pages.filter fun as => as.all fun a => a.toNat % 4096 = 0

/-- The address of a page of the bounce buffer. -/
def bounceAddr (info : NvmeDrive) (i : Nat) : U64 := (info.bounce + BitVec.ofNat 32 (i * 4096)).setWidth 64

/-- The number of pages of the bounce buffer. -/
def bouncePages : Nat := 32

/-- The page of the bounce buffer at an address. -/
def bouncePage (info : NvmeDrive) (a : U64) : Option Nat := (List.range bouncePages).find? fun i => bounceAddr info i = a

namespace NvmeIo

/-- The byte of the bounce buffer that is the given byte of a transfer over some of its pages. -/
def bounceByte (pages : List Nat) (k : Nat) : Nat := pages.getD (k / 4096) 0 * 4096 + k % 4096

/-- The controller carries out a command; none where an entry describes a page that is not the driver's. -/
def execute (d : NvmeIo) (c : IssuedCmd) : Option NvmeIo :=
  let bytes := c.sqe.blockCount * d.info.blockSize.toNat
  let first := c.sqe.firstBlock * d.info.blockSize.toNat
  match (prpPages d.info c bytes).bind fun as => as.mapM (bouncePage d.info) with
  | none => none
  | some pages =>
    if c.sqe.cdw0 &&& 0xFF#32 = 1#32 then
      some { d with disk := fun i => if first ≤ i ∧ i < first + bytes then d.bounce (bounceByte pages (i - first)) else d.disk i }
    else
      some { d with
        bounce := fun j =>
          match (List.range bytes).find? fun k => bounceByte pages k = j with
          | some k => d.disk (first + k)
          | none => d.bounce j }

/-! ## The driver -/

/-- `io_cmd`: a command is issued, and the controller carries it out or fails. -/
def ioCmd (reply : NvmeReply) (d : NvmeIo) (sqe : Sqe) : Option (Bool × NvmeIo) :=
  let c : IssuedCmd := ⟨sqe, d.prpList⟩
  let d := { d with issued := d.issued ++ [c] }
  match reply d.issued with
  | none => (d.execute c).map fun d => (true, d)
  | some left => some (false, { d with bounce := left.1, disk := left.2 })

/-- The bounce buffer and the PRP list as `rw` and `rw_chunk` fill them for the next chunk. -/
def prepare (d : NvmeIo) (rw : Rw) : NvmeIo :=
  let pages := (rw.bytes d.info + 4095#32) / 4096#32
  { d with
    bounce := if rw.write then overlay d.bounce rw.data (rw.bytes d.info).toNat else d.bounce
    prpList :=
      if 2#32 < pages then
        fun i => if i + 1 < pages.toNat then (d.info.bounce + BitVec.ofNat 32 ((i + 1) * 4096)).setWidth 64 else d.prpList i
      else d.prpList }

/-- The loop of `rw`, with its return value and what it has copied to the caller; none if it does not end in the given number of turns,
or where the controller leaves the buffers. -/
def rwLoop (reply : NvmeReply) : Nat → NvmeIo → Rw → Option (Int × NvmeIo × List Byte)
  | 0, d, rw => if rw.count = 0#32 then some (0, d, rw.got) else none
  | fuel + 1, d, rw =>
    if rw.count = 0#32 then some (0, d, rw.got)
    else
      match (d.prepare rw).ioCmd reply (rw.cmd d.info) with
      | none => none
      | some (false, d) => some (-1, d, rw.got)
      | some (true, d) =>
        rwLoop reply fuel d
          (rw.advance d.info (if rw.write then [] else (List.range (rw.bytes d.info).toNat).map d.bounce))

/-- `rw`, that is `nvme_read` and `nvme_write`. -/
def rw (reply : NvmeReply) (d : NvmeIo) (write : Bool) (lba : U64) (count : U32) (data : Nat → Byte) :
    Option (Int × NvmeIo × List Byte) :=
  if !d.info.present ∨ count = 0#32 then some (-1, d, [])
  else if d.info.blocks < lba + count.setWidth 64 then some (-1, d, [])
  else rwLoop reply count.toNat d ⟨write, lba, count, data, []⟩

end NvmeIo

/-- The PRP list of both models of the driver. -/
theorem prepare_eq_fillPrpList (d : Nvme) (rw : Rw) (disk : Nat → Byte) (issued : List IssuedCmd) :
    (NvmeIo.prepare ⟨d.info, d.bounce, d.prpList, disk, issued⟩ rw).prpList =
      d.fillPrpList ((rw.bytes d.info + 4095#32) / 4096#32) := rfl

end MiniOs32
