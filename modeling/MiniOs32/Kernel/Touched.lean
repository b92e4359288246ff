import MiniOs32.Kernel.Calls
import MiniOs32.Kernel.Paging

/-!
# The user bytes a system call touches

For every call that takes a user pointer: the ranges of user offsets the kernel goes on to read or write once its checks have
passed, as `syscall_dispatch` does. Strings are read up to their NUL, results are written as long as they are, and a save
reads whole sectors from its buffer.
-/

namespace MiniOs32

/-- A range of user offsets: where it starts and how many bytes, modulo 2^32. -/
structure UserRange where
  off : U32
  len : Nat

/-- How many bytes the loop of `user_copy_str` reads. -/
def userCopyStrRead (um : UserMem) : Nat → Nat → Nat
  | _, 0 => 0
  | a, n + 1 => if um a = 0#8 then 1 else 1 + userCopyStrRead um (a + 1) n

/-- What `user_copy_str` reads. -/
def strRange (um : UserMem) (off : U32) (max : Nat) : List UserRange :=
  if max = 0 ∨ userSpaceSize ≤ off.toNat then []
  else [⟨off, userCopyStrRead um off.toNat (userCopyStrLimit off max)⟩]

/-- What reading a file name touches. -/
def nameRange (um : UserMem) (off : U32) : List UserRange := strRange um off 64

/-- A range touched only when its check passes. -/
def checkedRange (ok : Bool) (off : U32) (len : Nat) : List UserRange := if ok then [⟨off, len⟩] else []

/-- `readline`: the indices of the buffer it writes, with `n` characters held and these keys still to come. -/
def readline (max : Nat) : List Byte → Nat → List Nat
  | [], n => if n + 1 < max then [] else [n]
  | c :: keys, n =>
    if n + 1 < max then
      if c = 0#8 then readline max keys n
      else if c = 10#8 then [n]
      else if c = 8#8 then readline max keys (n - 1)
      else n :: readline max keys (n + 1)
    else [n]

/-- The machine as far as user pointers go: the filesystem, the mode, the working directory, the mode list the boot loader
left, and the memory map. -/
structure Machine where
  kernel : Kernel
  mode : FbMode
  cwd : List Byte
  vbeCount : Nat
  paging : Paging

/-- The calls that take a user pointer, with their register arguments. `keys` are the keys typed while `SYS_READ` waits. -/
inductive UserCall where
  | write (fd off len : U32)
  | read (fd off len : U32) (keys : List Byte)
  | meminfo (off max : U32)
  | storage (off max : U32)
  | dmaAlloc (ebx out : U32)
  | setcwd (off : U32)
  | getcwd (off max : U32)
  | list (off max : U32)
  | load (nameOff bufOff max : U32)
  | save (nameOff bufOff size : U32)
  | exec (nameOff : U32)
  | rename (oldOff newOff : U32)
  | delete (nameOff : U32)
  | blit (off : U32)
  | gfxinfo (off max : U32)
  | vbemodes (off max : U32)
  | gfxFbinfo (off max : U32)
  | open (nameOff mode : U32)
  | fread (fd off len : U32)
  | fwrite (fd off len : U32)

/-- `sizeof(meminfo_t)`. -/
def meminfoSize : Nat := 24
/-- `sizeof(storageinfo_t)`. -/
def storageinfoSize : Nat := 136
/-- `sizeof(gfxinfo_t)`. -/
def gfxinfoSize : Nat := 16
/-- `sizeof(gfxfbinfo_t)`. -/
def gfxfbinfoSize : Nat := 24
/-- `sizeof(vbe_mode_t)`. -/
def vbeModeSize : Nat := 20

/-- The memory map a call accesses user memory under: `SYS_GFX_FBINFO` and `SYS_DMA_ALLOC` map pages first. -/
def Machine.pagingAt (m : Machine) : UserCall → Paging
  | .dmaAlloc ebx out => m.paging.sysDmaAlloc ebx out
  | .gfxFbinfo _ max => if max.toNat < gfxfbinfoSize then m.paging else m.paging.mapUserFramebuffer m.mode
  | _ => m.paging

/-- The record-reporting calls: the buffer must hold the record, and the record is written. -/
def infoRange (off max : U32) (size : Nat) : List UserRange :=
  checkedRange (decide (size ≤ max.toNat) && userRangeOk off (BitVec.ofNat 32 size)) off size

/-- The entries `SYS_LIST` reports. -/
def listCount (d : Dir) (max : U32) : Nat := min (d.slots.countP Dirent.live) (max.toNat / 52)

/-- The modes `SYS_VBEMODES` reports. -/
def vbeReported (vbeCount : Nat) (max : U32) : Nat :=
  if max.toInt < vbeModeSize then 0 else min vbeCount (min (max.toNat / vbeModeSize) 128)

/-- The rows `SYS_BLIT` copies. -/
def blitRows (m : FbMode) (off : U32) : List UserRange :=
  let rowBytes := m.w * (if m.bpp = 32#32 then 4#32 else 1#32)
  (List.range m.h.toNat).map (fun y => ⟨off + BitVec.ofNat 32 y * rowBytes, rowBytes.toNat⟩)

/-- The user bytes a call touches. -/
def Machine.touched (m : Machine) (um : UserMem) : UserCall → List UserRange
  | .write fd off len => checkedRange (userRangeOk off len && (fd == 1#32 || fd == 2#32)) off len.toNat
  | .read fd off len keys =>
    if userRangeOk off len && len != 0#32 && fd == 0#32 then
      (readline len.toNat keys 0).map (fun n => ⟨off + BitVec.ofNat 32 n, 1⟩)
    else []
  | .meminfo off max => infoRange off max meminfoSize
  | .storage off max => infoRange off max storageinfoSize
  | .dmaAlloc ebx out => checkedRange (m.paging.dmaGranted ebx out) out 8
  | .setcwd off => strRange um off 64
  | .getcwd off max => checkedRange (max != 0#32 && userRangeOk off max) off (min m.cwd.length (max.toNat - 1) + 1)
  | .list off max => checkedRange (userRangeOk off max) off (listCount m.kernel.fs.dir max * 52)
  | .load nameOff bufOff max =>
    if userRangeOk bufOff max then
      nameRange um nameOff ++
        (match nameAt um nameOff with
        | none => []
        | some uname =>
          match (m.kernel.fs.read (normalizeName uname) max).2 with
          | none => []
          | some (size, _) => [⟨bufOff, size.toNat⟩])
    else []
  | .save nameOff bufOff size =>
    if userRangeOk bufOff size then
      nameRange um nameOff ++
        (match nameAt um nameOff with
        | none => []
        | some uname =>
          match fsPlace m.kernel.fs.dir (normalizeName uname) size with
          | none => []
          | some (_, start) =>
            checkedRange (!m.kernel.fs.disk.ram || m.kernel.fs.disk.rdRangeOk start (sectorsOf size)) bufOff
              ((sectorsOf size).toNat * 512))
    else []
  | .exec nameOff => nameRange um nameOff
  | .rename oldOff newOff =>
    nameRange um oldOff ++ (if (nameAt um oldOff).isSome then nameRange um newOff else [])
  | .delete nameOff => nameRange um nameOff
  | .blit off =>
    let rowBytes := m.mode.w * (if m.mode.bpp = 32#32 then 4#32 else 1#32)
    if (m.mode.bpp == 8#32 || m.mode.bpp == 32#32) && userRangeOk off (m.mode.h * rowBytes) then blitRows m.mode off else []
  | .gfxinfo off max => infoRange off max gfxinfoSize
  | .vbemodes off max =>
    let n := vbeReported m.vbeCount max
    checkedRange (decide (0 < n) && userRangeOk off (BitVec.ofNat 32 (n * vbeModeSize))) off (n * vbeModeSize)
  | .gfxFbinfo off max => if m.mode.mappable then infoRange off max gfxfbinfoSize else []
  | .open nameOff _ => nameRange um nameOff
  | .fread fd off len =>
    if userRangeOk off len then
      match getOfile m.kernel.ofiles fd with
      | none => []
      | some i =>
        let f := m.kernel.ofiles i
        if f.mode = .read ∧ f.pos < f.size then [⟨off, min len.toNat (f.size - f.pos).toNat⟩] else []
    else []
  | .fwrite fd off len =>
    if userRangeOk off len then
      match getOfile m.kernel.ofiles fd with
      | none => []
      | some i => checkedRange (decide ((m.kernel.ofiles i).mode = .write)) off len.toNat
    else []

end MiniOs32
