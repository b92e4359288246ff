import MiniOs32.Cc.Elf
import MiniOs32.As.Pass

/-!
# The assembler: the output file

`build_elf` runs on what the last emit pass has left. The text it writes is as long as that pass made it, while the addresses of
data and bss were computed from the lengths of the first pass.
-/

namespace MiniOs32

/-- A defined symbol. -/
def Asm.findDefined (s : Asm) (name : String) : Option Sym := (symFind s.syms (asciiBytes name)).filter Sym.defined

/-- The entry point: `_start`, else `main`, else the first byte of text. -/
def Asm.entry (s : Asm) : U32 :=
  match (s.findDefined "_start").or (s.findDefined "main") with
  | some y => y.addr
  | none => BitVec.ofInt 32 s.baseText

/-- `file_sz`. -/
def Asm.fileSz (s : Asm) : Int := elfHdrSize + s.textLen + s.dataLen

/-- `build_elf` of the assembler into `image`: `none` where it returns -1. -/
def Asm.buildElf (s : Asm) : Option (List Byte) :=
  if maxText + maxData + elfHdrSize < s.fileSz then none
  else some (elfFile s.entry (BitVec.ofInt 32 s.fileSz) (BitVec.ofInt 32 (s.fileSz + s.bssLen)) (s.textBuf ++ s.dataBuf))

end MiniOs32
