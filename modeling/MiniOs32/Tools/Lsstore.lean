import MiniOs32.Kernel.Store
import MiniOs32.Tools.Mkfs

/-!
# Reading a store on the host

`lsstore.py` looks for the header of a store in a file, walks the directory behind it, lists what it finds and, with `--extract`,
writes the bytes of every file out. `mkstore.py` writes the header. What the host does with the paths it is given is not described:
the result is the list of lines, each with the bytes written for it.
-/

namespace MiniOs32

/-- `struct.unpack_from('<I', data, off)`. -/
def unpackFrom (data : List Byte) (off : Nat) : U32 := u32At (fun i => data.getD i 0#8) off

/-- A header as `find_store` knows it: the magic, whatever the version. -/
def hasMagic (data : List Byte) (off : Nat) : Bool :=
  unpackFrom data off == storeMagic0 && unpackFrom data (off + 4) == storeMagic1

/-- A line of the listing, with the bytes that `--extract` writes for a file. -/
inductive Listed where
  | dir (name : List Char)
  | file (name : List Char) (size : U32) (body : List Byte)

/-- `build_header` of `mkstore.py`. -/
def buildHeader (fsSectors : Nat) : Except MkfsError (List Byte) := do
  let h := List.replicate 512 0#8
  let h ← packInto h 0 storeMagic0.toNat
  let h ← packInto h 4 storeMagic1.toNat
  let h ← packInto h 8 1
  let h ← packInto h 12 fsSectors
  return setSlice h 64 96 ((asciiBytes "mini-os32 persistent store\n" ++ List.replicate 6 0#8).take 32)

end MiniOs32
