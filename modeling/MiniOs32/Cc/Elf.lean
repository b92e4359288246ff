import MiniOs32.Cc.Link

/-!
# The ELF writers

The C compiler and the assembler write the same kind of file: one ELF header, one program header that maps the whole file at
address 0, and the sections one after the other. What lies in bss is only a difference between the two sizes of the segment.
-/

namespace MiniOs32

/-- The two bytes of a half word, least significant first. -/
def le16 (w : BitVec 16) : List Byte := [w.extractLsb' 0 8, w.extractLsb' 8 8]

/-- The 84 bytes in front of the sections, field by field, as both `build_elf`s store them. -/
def elfHeaders (entry fileSz memSz : U32) : List Byte :=
  List.flatten [
    [0x7F#8, Char.byte 'E', Char.byte 'L', Char.byte 'F', 1#8, 1#8, 1#8, 0#8], [0#8, 0#8, 0#8, 0#8, 0#8, 0#8, 0#8, 0#8],
    -- type, machine, version, entry, phoff, shoff, flags
    le16 2#16, le16 3#16, le32 1#32, le32 entry, le32 52#32, le32 0#32, le32 0#32,
    -- ehsize, phentsize, phnum, shentsize, shnum, shstrndx
    le16 52#16, le16 32#16, le16 1#16, le16 0#16, le16 0#16, le16 0#16,
    -- type, offset, vaddr, paddr, filesz, memsz, flags, align
    le32 1#32, le32 0#32, le32 0#32, le32 0#32, le32 fileSz, le32 memSz, le32 7#32, le32 0x1000#32]

/-- A file with these headers over the bytes of its sections. -/
def elfFile (entry fileSz memSz : U32) (body : List Byte) : List Byte := elfHeaders entry fileSz memSz ++ body

/-- The size of `outbuf`. -/
def outbufSize : Nat := 1024 * 1024

/-- `build_elf` of the compiler: `none` where it returns -1. The entry is the first byte of text. -/
def buildElf (out : LinkOut) : Option (List Byte) :=
  let body := out.bytes .text ++ out.bytes .rodata ++ out.bytes .data
  let fileSz := elfHeader + body.length
  if outbufSize < fileSz then none
  else some (elfFile (BitVec.ofNat 32 elfHeader) (BitVec.ofNat 32 fileSz) (BitVec.ofNat 32 (fileSz + out.bss)) body)

end MiniOs32
