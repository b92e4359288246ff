import MiniOs32.Kernel.Exec

/-!
# The user memory a program starts with

`exec_user` clears the user address space, copies the segments of the file into it, zeroes what a segment has in memory beyond its
file part, and writes the exit trampoline. User memory is a function of the offset from `USER_BASE`; offsets wrap as the
pointer arithmetic does. The file buffer lies outside it.
-/

namespace MiniOs32

/-- The two `memset`s that clear the user address space. They leave out the guard page and the framebuffer window. -/
def resetUser (m : U32 → Byte) : U32 → Byte := fun a =>
  if a.toNat < userStackGuardOff then 0#8
  else if userStackGuardOff + pageSize ≤ a.toNat ∧ a.toNat < userFbOffset then 0#8
  else m a

/-- One iteration of the loop over the program headers, on the memory: the header at `ph`. -/
def copySegment (file : Nat → Byte) (ph : U32) (m : U32 → Byte) : U32 → Byte :=
  if fieldU32 file ph ≠ 1#32 then m
  else
    let offset := fieldU32 file (ph + 4#32)
    let vaddr := fieldU32 file (ph + 8#32)
    let filesz := fieldU32 file (ph + 16#32)
    let memsz := fieldU32 file (ph + 20#32)
    fun a =>
      if filesz < memsz ∧ a - (vaddr + filesz) < memsz - filesz then 0#8
      else if a - vaddr < filesz then file (offset + (a - vaddr)).toNat
      else m a

/-- The loop over the program headers, `n` of them from number `i` on. -/
def copySegments (file : Nat → Byte) (phoff : U32) (phentsize : BitVec 16) : Nat → Nat → (U32 → Byte) → U32 → Byte
  | 0, _, m => m
  | n + 1, i, m => copySegments file phoff phentsize n (i + 1) (copySegment file (phdrOff phoff phentsize i) m)

/-- The code `write_user_trampoline` stores: `mov eax, SYS_EXIT; xor ebx, ebx; int 0x80; hlt`. -/
def trampoline : List Byte := [0xB8#8, 6#8, 0#8, 0#8, 0#8, 0x31#8, 0xDB#8, 0xCD#8, 0x80#8, 0xF4#8]

/-- `write_user_trampoline`. -/
def writeUserTrampoline (m : U32 → Byte) : U32 → Byte := fun a =>
  (trampoline[(a - BitVec.ofNat 32 userTrampOff).toNat]?).getD (m a)

/-- What a program starts with: the user memory, `user_brk_off` and the entry point. -/
structure Started where
  mem : U32 → Byte
  brk : U32
  entry : U32

/-- `exec_user` once the file is in `file_buf`, up to `enter_user`; `m` is the user memory before. -/
def startImage (size : Nat) (file : Nat → Byte) (m : U32 → Byte) : Option Started :=
  (loadImage size file).map fun l =>
    ⟨writeUserTrampoline (copySegments file (fieldU32 file 28#32) (fieldU16 file 42#32) (fieldU16 file 44#32).toNat 0 (resetUser m)),
      l.brk, l.entry⟩

/-- A file in `file_buf`, with what lies behind it. -/
def fileBuf (file : List Byte) (behind : Nat → Byte) : Nat → Byte := fun i => (file[i]?).getD (behind i)

end MiniOs32
