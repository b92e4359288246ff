import MiniOs32.Lib.Run
import MiniOs32.Lib.Layout

/-!
# The compiler: the table of types

`new_type`, `add_struct`, `struct_layout` and what `parse_struct_spec` does to the tables with them. A type is known by its place in
`type_pool`, and its size and alignment are those it was given when it was made; only the layout of a record changes those of the
record's type. Bodies may stand in one another, so what the parser does is a list of operations. Sizes are `int`s that wrap.
-/

namespace MiniOs32

/-- The types that are not in `type_pool`: `init_types`. The signs make no difference to a size. -/
inductive BaseType where
  | int | short | float | char | bool | void
  deriving DecidableEq

/-- A pointer to a `Type`. -/
inductive TypeRef where
  | base (t : BaseType)
  | pool (index : Nat)
  deriving DecidableEq

/-- The kinds of `type_pool`, with `base`, `array_len` and `sdef`. -/
inductive TypeKind where
  | ptr (base : TypeRef)
  | array (base : TypeRef) (len : U32)
  | record (sdef : Nat)
  deriving DecidableEq

/-- `Type`. -/
structure PoolType where
  kind : TypeKind
  size : U32
  align : U32
  deriving DecidableEq

/-- `Field`. -/
structure FieldEntry where
  name : List Byte
  type : TypeRef
  offset : U32
  deriving DecidableEq

/-- `StructDef`. Of its bodies, `laid` says that one has been laid out and `bodies` how many are being read. -/
structure StructEntry where
  name : List Byte
  isUnion : Bool
  fields : List FieldEntry
  size : U32
  align : U32
  type : Option Nat
  laid : Bool
  bodies : Nat
  deriving DecidableEq

/-- `type_pool` and `structs`. -/
structure TypeTable where
  types : List PoolType
  structs : List StructEntry
  deriving DecidableEq

/-- `MAX_TYPE`. -/
def maxType : Nat := 4096

/-- `MAX_STRUCT`. -/
def maxStruct : Nat := 128

/-- `MAX_FIELD`. -/
def maxField : Nat := 64

/-- The size of a type of `init_types`, which is its alignment but for `void`. -/
def BaseType.size : BaseType → U32
  | .int | .float => 4#32
  | .short => 2#32
  | .char | .bool => 1#32
  | .void => 0#32

/-- The alignment of a type of `init_types`. -/
def BaseType.align : BaseType → U32
  | .void => 1#32
  | t => t.size

/-- `align_to`. -/
def alignTo (n a : U32) : U32 := (n + a - 1#32) &&& ~~~(a - 1#32)

namespace TypeTable

/-- `type_size`. -/
def size (T : TypeTable) : TypeRef → U32
  | .base t => t.size
  | .pool i => ((T.types[i]?).map (·.size)).getD 0#32

/-- `type_align`. -/
def align (T : TypeTable) : TypeRef → U32
  | .base t => t.align
  | .pool i => ((T.types[i]?).map (·.align)).getD 1#32

/-- The type is there. -/
def Has (T : TypeTable) : TypeRef → Prop
  | .base _ => True
  | .pool i => i < T.types.length

instance (T : TypeTable) (t : TypeRef) : Decidable (T.Has t) :=
  match t with
  | .base _ => inferInstanceAs (Decidable True)
  | .pool i => inferInstanceAs (Decidable (i < T.types.length))

/-- `new_type`. -/
def newType (T : TypeTable) (kind : TypeKind) (size align : U32) : Option TypeTable :=
  if maxType ≤ T.types.length then none else some { T with types := T.types ++ [⟨kind, size, align⟩] }

/-- `find_struct`. -/
def findStruct (T : TypeTable) (x : List Byte) : Option Nat := T.structs.findIdx? fun s => decide (s.name = x)

/-- `add_struct`: the struct of a tag, or a new one for a new tag and for none. -/
def addStruct (T : TypeTable) (x : List Byte) (isUnion : Bool) : Option (Nat × TypeTable) :=
  match if x = [] then none else T.findStruct x with
  | some i => if (T.structs[i]?).any (·.isUnion == isUnion) then some (i, T) else none
  | none =>
    if maxStruct ≤ T.structs.length then none
    else some (T.structs.length, { T with structs := T.structs ++ [⟨x, isUnion, [], 0#32, 1#32, none, false, 0⟩] })

/-- `type_struct` and `type_union`. -/
def structType (T : TypeTable) (i : Nat) : Option TypeTable := do
  let s ← T.structs[i]?
  match s.type with
  | some _ => some T
  | none =>
    let T' ← T.newType (.record i) s.size s.align
    return { T' with structs := T'.structs.set i { s with type := some T.types.length } }

/-- The alignment a field is laid out with. -/
def fieldAlign (T : TypeTable) (f : FieldEntry) : U32 := if (T.align f.type).slt 1#32 then 1#32 else T.align f.type

/-- The loop of `struct_layout` for a struct: the fields, `off` and `maxa`. -/
def layStruct (T : TypeTable) : List FieldEntry → U32 → U32 → List FieldEntry × U32 × U32
  | [], off, maxa => ([], off, maxa)
  | f :: fs, off, maxa =>
    let off := alignTo off (T.fieldAlign f)
    let r := T.layStruct fs (off + T.size f.type) (if maxa.slt (T.fieldAlign f) then T.fieldAlign f else maxa)
    ({ f with offset := off } :: r.1, r.2)

/-- The loop of `struct_layout` for a union: the fields, `maxsz` and `maxa`. -/
def layUnion (T : TypeTable) : List FieldEntry → U32 → U32 → List FieldEntry × U32 × U32
  | [], maxsz, maxa => ([], maxsz, maxa)
  | f :: fs, maxsz, maxa =>
    let r := T.layUnion fs (if maxsz.slt (T.size f.type) then T.size f.type else maxsz)
      (if maxa.slt (T.fieldAlign f) then T.fieldAlign f else maxa)
    ({ f with offset := 0#32 } :: r.1, r.2)

/-- `struct_layout`, on the struct. -/
def laidOut (T : TypeTable) (s : StructEntry) : StructEntry :=
  let r := if s.isUnion then T.layUnion s.fields 0#32 1#32 else T.layStruct s.fields 0#32 1#32
  { s with fields := r.1, size := alignTo r.2.1 r.2.2, align := r.2.2 }

/-- `struct_layout`, on the struct's type. -/
def retype (T : TypeTable) (s : StructEntry) : TypeTable :=
  match s.type with
  | some t => { T with types := T.types.modify t fun ty => { ty with size := s.size, align := s.align } }
  | none => T

end TypeTable

/-- What the parser does to the tables: a `*` in a declarator, an array suffix, a tag without a body, the brace that opens a body, a
field, and the brace that closes a body. -/
inductive TypeOp where
  | ptr (base : TypeRef)
  | array (base : TypeRef) (len : U32)
  | tag (name : List Byte) (isUnion : Bool)
  | enter (name : List Byte) (isUnion : Bool)
  | field (sdef : Nat) (name : List Byte) (type : TypeRef)
  | close (sdef : Nat)
  deriving DecidableEq

/-- One operation; `none` where the compilation ends. A field is added to, and the brace closes, a body that is being read. -/
def TypeTable.apply (T : TypeTable) (op : TypeOp) : Option TypeTable :=
  match op with
  | .ptr b => if T.Has b then T.newType (.ptr b) 4#32 4#32 else none
  | .array b n => if T.Has b then T.newType (.array b n) (T.size b * n) (T.align b) else none
  | .tag x u => (T.addStruct x u).bind fun r => r.2.structType r.1
  | .enter x u => (T.addStruct x u).map fun r =>
      { r.2 with structs := r.2.structs.modify r.1 fun s => { s with fields := [], bodies := s.bodies + 1 } }
  | .field i x t => do
    let s ← T.structs[i]?
    if T.Has t ∧ 0 < s.bodies ∧ s.fields.length < maxField then
      return { T with structs := T.structs.set i { s with fields := s.fields ++ [⟨x, t, 0#32⟩] } }
    else none
  | .close i => do
    let s ← T.structs[i]?
    if 0 < s.bodies then
      let s := { T.laidOut s with laid := true, bodies := s.bodies - 1 }
      (({ T with structs := T.structs.set i s } : TypeTable).retype s).structType i
    else none

/-- A step of the compilation. -/
def typeStep (T : Option TypeTable) (op : TypeOp) : Option TypeTable := T.bind fun T => T.apply op

/-- The tables before anything is compiled: `va_list` is a pointer to `char`. -/
def TypeTable.initial : TypeTable := ⟨[⟨.ptr (.base .char), 4#32, 4#32⟩], []⟩

end MiniOs32
