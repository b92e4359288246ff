import MiniOs32.Kernel.Fs

/-!
# The program loader

`exec_user` reads a file into `file_buf`, checks its size and its magic, and copies the loadable segments its program headers
name into the user address space. Header fields are taken as they come. Every access the loop makes is recorded as a range:
reads by offset from `file_buf`, writes by user offset, both modulo 2^32 as the pointer arithmetic is.
-/

namespace MiniOs32

/-- `FILE_BUF_MAX`. -/
def fileBufMax : Nat := 1024 * 1024
/-- `USER_STACK_SIZE`. -/
def userStackSize : Nat := 1024 * 1024
/-- The user offset of `USER_STACK_BOTTOM`: the stack region runs from here to the framebuffer window. -/
def userStackBottomOff : Nat := userFbOffset - userStackSize
/-- `USER_STACK_GUARD_OFF`. -/
def userStackGuardOff : Nat := userStackBottomOff - pageSize
/-- `USER_TRAMP_OFF`. -/
def userTrampOff : Nat := userStackGuardOff - pageSize

/-- A range the loader reads (offsets from `file_buf`) or writes (user offsets). -/
inductive Access where
  | read (off len : U32)
  | write (off len : U32)
  deriving DecidableEq

/-- What a call of `exec_user` comes to before the program is entered: the accesses of the segment loop in order,
`user_brk_off` and the entry point. -/
structure Loaded where
  accesses : List Access
  brk : U32
  entry : U32
  deriving DecidableEq

/-- A 32-bit field of the file buffer. -/
def fieldU32 (mem : Nat → Byte) (off : U32) : U32 :=
  word32 (mem off.toNat) (mem (off + 1#32).toNat) (mem (off + 2#32).toNat) (mem (off + 3#32).toNat)

/-- A 16-bit field of the file buffer. -/
def fieldU16 (mem : Nat → Byte) (off : U32) : BitVec 16 := mem (off + 1#32).toNat ++ mem off.toNat

/-- One iteration of the loop over the program headers: the header at `ph`, the break so far. -/
def loadSegment (mem : Nat → Byte) (ph brk : U32) : List Access × U32 :=
  if fieldU32 mem ph ≠ 1#32 then ([.read ph 4#32], brk)
  else
    let offset := fieldU32 mem (ph + 4#32)
    let vaddr := fieldU32 mem (ph + 8#32)
    let filesz := fieldU32 mem (ph + 16#32)
    let memsz := fieldU32 mem (ph + 20#32)
    ([Access.read ph 4#32, .read (ph + 4#32) 4#32, .read (ph + 8#32) 4#32, .read (ph + 16#32) 4#32, .read (ph + 20#32) 4#32,
      .read offset filesz, .write vaddr filesz] ++
        (if filesz < memsz then [Access.write (vaddr + filesz) (memsz - filesz)] else []),
      if brk < vaddr + memsz then vaddr + memsz else brk)

/-- Where program header `i` is. -/
def phdrOff (phoff : U32) (phentsize : BitVec 16) (i : Nat) : U32 := phoff + BitVec.ofNat 32 i * phentsize.setWidth 32

/-- The loop over the program headers, `n` of them from number `i` on. -/
def loadSegments (mem : Nat → Byte) (phoff : U32) (phentsize : BitVec 16) : Nat → Nat → U32 → List Access × U32
  | 0, _, brk => ([], brk)
  | n + 1, i, brk =>
    let (as, brk) := loadSegment mem (phdrOff phoff phentsize i) brk
    let (bs, brk) := loadSegments mem phoff phentsize n (i + 1) brk
    (as ++ bs, brk)

/-- `exec_user` once the file is in `file_buf`: `none` when it is rejected with -1. -/
def loadImage (size : Nat) (mem : Nat → Byte) : Option Loaded :=
  if size < 52 then none
  else if mem 0 ≠ 0x7F#8 ∨ mem 1 ≠ Char.byte 'E' ∨ mem 2 ≠ Char.byte 'L' ∨ mem 3 ≠ Char.byte 'F' then none
  else
    let phoff := fieldU32 mem 28#32
    let phentsize := fieldU16 mem 42#32
    let phnum := fieldU16 mem 44#32
    let (as, brk) := loadSegments mem phoff phentsize phnum.toNat 0 0#32
    some ⟨as, brk, fieldU32 mem 24#32⟩

/-- `exec_user` up to the entry of the program. `mem` is the memory from `file_buf` on: what an earlier file left in the
buffer, and the kernel behind it. -/
def execUser (fs : Fs) (name : List Byte) (mem : Nat → Byte) : Fs × Option Loaded :=
  match fs.read name (BitVec.ofNat 32 fileBufMax) with
  | (fs, none) => (fs, none)
  | (fs, some (size, data)) => (fs, loadImage size.toNat (fun i => if i < size.toNat then data i else mem i))

end MiniOs32
