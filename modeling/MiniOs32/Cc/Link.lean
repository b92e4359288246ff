import MiniOs32.Lib.Patches

/-!
# The linker of the C compiler

`link_objects` concatenates the sections of the objects, collects their symbols in a table, and patches the relocations. The
table is an array on the stack that nothing clears: `strncpy` writes the first 31 bytes of a name and the last one keeps what
was there, which is an argument here. A relocation names one of the three sections with bytes.
-/

namespace MiniOs32

/-- `SEC_TEXT`, `SEC_RODATA`, `SEC_DATA` and `SEC_BSS`. -/
inductive Section where
  | text
  | rodata
  | data
  | bss
  deriving DecidableEq

/-- `RELOC_ABS32` and `RELOC_REL32`. -/
inductive RelocType where
  | abs32
  | rel32
  deriving DecidableEq

/-- A name as the compiler stores it: at most 31 characters in a field of 32, none of them NUL. -/
structure SymName where
  text : List Byte
  short : text.length ≤ 31
  noNul : 0#8 ∉ text
  deriving DecidableEq

/-- `ObjSym`; an undefined symbol has no section. -/
structure ObjSym where
  name : SymName
  sec : Option Section
  value : U32
  defined : Bool
  deriving DecidableEq

/-- `ObjRelocLoc`. -/
structure ObjRelocLoc where
  sec : Section
  offset : Nat
  type : RelocType
  targetSec : Section
  addend : U32
  deriving DecidableEq

/-- `ObjRelocSym`. -/
structure ObjRelocSym where
  sec : Section
  offset : Nat
  type : RelocType
  addend : U32
  name : SymName
  deriving DecidableEq

/-- `Obj`. -/
structure Obj where
  text : List Byte
  rodata : List Byte
  data : List Byte
  bssLen : Nat
  syms : List ObjSym
  lreloc : List ObjRelocLoc
  sreloc : List ObjRelocSym
  deriving DecidableEq

/-- The bytes of a section. -/
def Obj.bytes (o : Obj) : Section → List Byte
  | .text => o.text
  | .rodata => o.rodata
  | .data => o.data
  | .bss => []

/-- The length of a section. -/
def Obj.len (o : Obj) : Section → Nat
  | .bss => o.bssLen
  | s => (o.bytes s).length

/-- `MAX_OUT_TEXT`, `MAX_OUT_RODATA` and `MAX_OUT_DATA`. -/
def maxOut : Section → Option Nat
  | .text => some (393216 * 6)
  | .rodata => some (98304 * 6)
  | .data => some (32768 * 6)
  | .bss => none

/-! ## Layout -/

/-- An object and where each of its sections starts in the output: `text_off[i]` and so on. -/
structure Placed where
  obj : Obj
  off : Section → Nat

/-- The objects placed one after the other. -/
def place : (Section → Nat) → List Obj → List Placed
  | _, [] => []
  | off, o :: os => ⟨o, off⟩ :: place (fun s => off s + o.len s) os

/-- `text_total` and so on. -/
def secTotal (objs : List Obj) (s : Section) : Nat := (objs.map fun o => o.len s).sum

/-- The ELF header and the program header. -/
def elfHeader : Nat := 52 + 32

/-- `text_base` and so on; `LINK_BASE` is 0. -/
def secBase (objs : List Obj) : Section → Nat
  | .text => elfHeader
  | .rodata => elfHeader + secTotal objs .text
  | .data => elfHeader + secTotal objs .text + secTotal objs .rodata
  | .bss => elfHeader + secTotal objs .text + secTotal objs .rodata + secTotal objs .data

/-- The address of the start of an object's section. -/
def Placed.addr (p : Placed) (base : Section → Nat) (s : Section) : U32 := BitVec.ofNat 32 (base s + p.off s)

/-- The address of a symbol the object defines. -/
def Placed.symAddr (p : Placed) (base : Section → Nat) (s : ObjSym) : U32 :=
  match s.sec with
  | some sec => p.addr base sec + s.value
  | none => 0#32

/-! ## The symbol table -/

/-- What `link_objects` says when it fails. -/
inductive LinkError where
  | ovf
  | dupSym (name : List Byte)
  | undef (name : List Byte)
  deriving DecidableEq

/-- `LinkSym`; the name is an array of 32 bytes. -/
structure LinkSym where
  name : List Byte
  addr : U32
  defined : Bool
  deriving DecidableEq

/-- The 32 bytes of a name after `strncpy(.., 31)` over a field whose last byte is `stale`. -/
def copyName (name : SymName) (stale : Byte) : List Byte :=
  name.text ++ (List.replicate (31 - name.text.length) 0#8 ++ [stale])

/-- The text of a `char` array: everything before the first NUL. -/
def cText (bytes : List Byte) : List Byte := bytes.takeWhile (· != 0#8)

/-- `link_find`. -/
def linkFind (syms : List LinkSym) (name : SymName) : Option Nat := syms.findIdx? fun s => cText s.name == name.text

/-- One symbol of an object, with its address if it is defined there. -/
def addSym (stack : Nat → Byte) (syms : List LinkSym) (name : SymName) (addr : Option U32) : Except LinkError (List LinkSym) :=
  match addr, linkFind syms name with
  | some a, some i =>
    if (syms[i]?.any fun s => s.defined) then .error (.dupSym name.text)
    else .ok (syms.modify i fun s => { s with defined := true, addr := a })
  | some a, none => .ok (syms ++ [⟨copyName name (stack syms.length), a, true⟩])
  | none, some _ => .ok syms
  | none, none => .ok (syms ++ [⟨copyName name (stack syms.length), 0#32, false⟩])

/-- The symbols of all objects in order. -/
def symEntries (base : Section → Nat) (ps : List Placed) : List (SymName × Option U32) :=
  ps.flatMap fun p => p.obj.syms.map fun s => (s.name, if s.defined then some (p.symAddr base s) else none)

/-- The loop over the symbols. -/
def addSyms (stack : Nat → Byte) : List LinkSym → List (SymName × Option U32) → Except LinkError (List LinkSym)
  | syms, [] => .ok syms
  | syms, e :: es => match addSym stack syms e.1 e.2 with
    | .error err => .error err
    | .ok syms => addSyms stack syms es

/-- `is_builtin_sym`. -/
def isBuiltinSym (name : List Byte) : Bool :=
  cText name == asciiBytes "syscall" || cText name == asciiBytes "va_start" || cText name == asciiBytes "va_end" ||
    name.take 4 == asciiBytes "sys_"

/-- The symbol is undefined and a relocation needs it. -/
def LinkSym.missing (objs : List Obj) (s : LinkSym) : Bool :=
  !s.defined && !isBuiltinSym s.name && objs.any fun o => o.sreloc.any fun r => r.name.text == cText s.name

/-! ## Relocations -/

/-- The word a relocation stores. -/
def RelocType.value (t : RelocType) (target patchAddr : U32) : U32 :=
  match t with
  | .abs32 => target
  | .rel32 => target - (patchAddr + 4#32)

/-- A relocation against a section of its own object. -/
def ObjRelocLoc.patch (r : ObjRelocLoc) (base : Section → Nat) (p : Placed) : Patch Section :=
  ⟨r.sec, p.off r.sec + r.offset,
    r.type.value (p.addr base r.targetSec + r.addend) (p.addr base r.sec + BitVec.ofNat 32 r.offset)⟩

/-- A relocation against the symbol at `addr`. -/
def ObjRelocSym.patch (r : ObjRelocSym) (base : Section → Nat) (p : Placed) (addr : U32) : Patch Section :=
  ⟨r.sec, p.off r.sec + r.offset, r.type.value (addr + r.addend) (p.addr base r.sec + BitVec.ofNat 32 r.offset)⟩

/-- The address of the symbol a relocation names. -/
def findDefined (syms : List LinkSym) (name : SymName) : Option U32 :=
  match linkFind syms name with
  | none => none
  | some i => match syms[i]? with
    | none => none
    | some s => if s.defined then some s.addr else none

/-- The symbol relocations of an object. -/
def symPatches (syms : List LinkSym) (base : Section → Nat) (p : Placed) : List ObjRelocSym → Except LinkError (List (Patch Section))
  | [] => .ok []
  | r :: rs => match findDefined syms r.name with
    | none => .error (.undef r.name.text)
    | some addr => match symPatches syms base p rs with
      | .error err => .error err
      | .ok ps => .ok (r.patch base p addr :: ps)

/-- The relocations of all objects, in the order they are written. -/
def allPatches (syms : List LinkSym) (base : Section → Nat) : List Placed → Except LinkError (List (Patch Section))
  | [] => .ok []
  | p :: ps => match symPatches syms base p p.obj.sreloc with
    | .error err => .error err
    | .ok sym => match allPatches syms base ps with
      | .error err => .error err
      | .ok rest => .ok (p.obj.lreloc.map (fun r => r.patch base p) ++ sym ++ rest)

/-- What `link_objects` puts out. -/
structure LinkOut where
  bytes : Section → List Byte
  bss : Nat

/-- The sections of the objects one after the other. -/
def concatSec (objs : List Obj) (s : Section) : List Byte := objs.flatMap fun o => o.bytes s

/-- `link_objects`. -/
def linkObjects (stack : Nat → Byte) (objs : List Obj) : Except LinkError LinkOut :=
  if ([Section.text, .rodata, .data].any fun s => (maxOut s).any fun m => decide (m < secTotal objs s)) then .error .ovf
  else
    let base := secBase objs
    let placed := place (fun _ => 0) objs
    match addSyms stack [] (symEntries base placed) with
    | .error err => .error err
    | .ok syms => match syms.find? (LinkSym.missing objs) with
      | some s => .error (.undef (cText s.name))
      | none => match allPatches syms base placed with
        | .error err => .error err
        | .ok patches => .ok ⟨applyPatches patches (concatSec objs), secTotal objs .bss⟩

end MiniOs32
