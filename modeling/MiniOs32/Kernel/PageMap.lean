import MiniOs32.Kernel.Exec

/-!
# Page tables in memory

`alloc_page_phys`, `pdpt_init`, `map_page`, `map_identity` and `map_phys_at` over the 64-bit entries in physical memory, and the walk with
which an IA-32 processor in PAE mode reads them. A frame is known by its physical address. Of a table the 512 entries are kept.
-/

namespace MiniOs32

/-- `PTE_P`. -/
def pteP : U32 := 0x001#32
/-- `PTE_W`. -/
def pteW : U32 := 0x002#32
/-- `PTE_U`. -/
def pteU : U32 := 0x004#32

/-- A page-directory-pointer table, the frames in memory with their entries, and `phys_free`. -/
structure Pae where
  pdpt : Nat → U64
  frames : Nat → Nat → U64
  physFree : U32

/-- `e & ~0xFFF`, as a pointer. -/
def entryPointer (e : U64) : Nat := ((e &&& ~~~0xFFF#64).setWidth 32).toNat

/-- `(virt >> 21) & 0x1FF`. -/
def pdIdx (virt : U32) : Nat := (virt >>> 21 &&& 0x1FF#32).toNat

/-- `(virt >> 12) & 0x1FF`. -/
def ptIdx (virt : U32) : Nat := (virt >>> 12 &&& 0x1FF#32).toNat

/-- `(phys & ~0xFFF) | (flags | PTE_P)`. -/
def pteOf (phys : U64) (flags : U32) : U64 := phys &&& ~~~0xFFF#64 ||| (flags ||| pteP).setWidth 64

/-- The entry for a table: `PTE_P | PTE_W`, with `PTE_U` where the flags have it. -/
def pdeOf (pt flags : U32) : U64 := pt.setWidth 64 ||| (pteP ||| pteW ||| flags &&& pteU).setWidth 64

namespace Pae

/-- A store to an entry. -/
def setEntry (s : Pae) (frame i : Nat) (e : U64) : Pae :=
  { s with frames := fun a j => if a = frame ∧ j = i then e else s.frames a j }

/-- `alloc_page_phys`. -/
def allocPagePhys (s : Pae) : U32 × Pae :=
  (s.physFree, { s with
    physFree := s.physFree + 0x1000#32
    frames := fun a j => if a = s.physFree.toNat then 0#64 else s.frames a j })

/-- A turn of the loop in `pdpt_init`. -/
def initEntry (s : Pae) (i : Nat) : Pae :=
  let r := s.allocPagePhys
  { r.2 with pdpt := fun j => if j = i then r.1.setWidth 64 ||| pteP.setWidth 64 else r.2.pdpt j }

/-- `pdpt_init`. -/
def pdptInit (s : Pae) : Pae := (((s.initEntry 0).initEntry 1).initEntry 2).initEntry 3

/-- `pae_pd`. -/
def paePd (s : Pae) (virt : U32) : Nat := entryPointer (s.pdpt (virt >>> 30).toNat)

/-- `map_page`. -/
def mapPage (s : Pae) (virt : U32) (phys : U64) (flags : U32) : Pae :=
  let pd := s.paePd virt
  let pde := s.frames pd (pdIdx virt)
  if pde &&& pteP.setWidth 64 ≠ 0#64 then s.setEntry (entryPointer pde) (ptIdx virt) (pteOf phys flags)
  else
    let r := s.allocPagePhys
    (r.2.setEntry pd (pdIdx virt) (pdeOf r.1 flags)).setEntry r.1.toNat (ptIdx virt) (pteOf phys flags)

/-- A loop that goes page by page up to a limit. After 2^20 turns it is where it began, so one that takes more does not end. -/
def mapLoop (limit : U32) (body : U32 → Pae → Pae) : Nat → U32 → Pae → Option Pae
  | 0, _, _ => none
  | turns + 1, x, s => if x < limit then mapLoop limit body turns (x + 0x1000#32) (body x s) else some s

theorem mapLoop_succ (limit : U32) (body : U32 → Pae → Pae) (turns : Nat) (x : U32) (s : Pae) :
    mapLoop limit body (turns + 1) x s = if x < limit then mapLoop limit body turns (x + 0x1000#32) (body x s) else some s := rfl

/-- The turns of a loop that ends. -/
def mapTurns : Nat := 2 ^ 20 + 1

/-- `map_identity`. -/
def mapIdentity (s : Pae) (base size flags : U32) : Option Pae :=
  mapLoop ((base + size + 0xFFF#32) &&& ~~~0xFFF#32) (fun addr s => s.mapPage addr (addr.setWidth 64) flags) mapTurns
    (base &&& ~~~0xFFF#32) s

/-- `map_phys_at`. -/
def mapPhysAt (s : Pae) (virt : U32) (phys : U64) (size flags : U32) : Option Pae :=
  mapLoop ((phys &&& 0xFFF#64).setWidth 32 + size)
    (fun done s => s.mapPage (virt + done) ((phys &&& ~~~0xFFF#64) + done.setWidth 64) flags) mapTurns 0#32 s

end Pae

/-- A call that maps pages. -/
inductive MapCall where
  | page (virt : U32) (phys : U64) (flags : U32)
  | identity (base size flags : U32)
  | physAt (virt : U32) (phys : U64) (size flags : U32)
  deriving DecidableEq

/-- One call; `none` where it does not return. -/
def Pae.call (s : Pae) : MapCall → Option Pae
  | .page virt phys flags => some (s.mapPage virt phys flags)
  | .identity base size flags => s.mapIdentity base size flags
  | .physAt virt phys size flags => s.mapPhysAt virt phys size flags

/-- Calls one after the other. -/
def Pae.calls (s : Pae) (cs : List MapCall) : Option Pae := cs.foldlM Pae.call s

/-! ## The walk -/

/-- Bits 51 to 12 of an entry: the physical address of the frame. -/
def entryFrame (e : U64) : Nat := (e &&& 0x000FFFFFFFFFF000#64).toNat

/-- The flags of an entry, less `PTE_W` and `PTE_U` where the entry above has them not. -/
def entryFlags (above e : U64) : U32 := (e &&& 0xFFF#64).setWidth 32 &&& (above.setWidth 32 ||| ~~~(pteW ||| pteU))

/-- The walk of the tables for an address: the physical address of the page and its flags, or nothing where an entry is not present. An
entry of a directory with bit 7 is a page of 2MB. -/
def Pae.walk (s : Pae) (virt : Nat) : Option (Nat × U32) :=
  let pdpte := s.pdpt (virt / 2 ^ 30)
  if pdpte &&& 1#64 = 0#64 then none
  else
    let pde := s.frames (entryFrame pdpte) (virt / 2 ^ 21 % 512)
    if pde &&& 1#64 = 0#64 then none
    else if pde &&& 0x80#64 ≠ 0#64 then
      some ((pde &&& 0x000FFFFFFFE00000#64).toNat + virt % 2 ^ 21 / pageSize * pageSize, entryFlags pde pde)
    else
      let pte := s.frames (entryFrame pde) (virt / 2 ^ 12 % 512)
      if pte &&& 1#64 = 0#64 then none else some (entryFrame pte, entryFlags pde pte)

/-- The translation of a page by its number: there is none past 4GB. -/
def Pae.translate (s : Pae) (page : Nat) : Option (Nat × U32) := if page < 2 ^ 20 then s.walk (page * pageSize) else none

/-! ## A map of pages -/

/-- Some byte of a range is in a page. -/
def PageMeets (start len page : Nat) : Prop := 0 < len ∧ start < (page + 1) * pageSize ∧ page * pageSize < start + len

instance (start len page : Nat) : Decidable (PageMeets start len page) := inferInstanceAs (Decidable (_ ∧ _ ∧ _))

namespace MapCall

/-- The flags of a call. -/
def flags : MapCall → U32
  | page _ _ f | identity _ _ f | physAt _ _ _ f => f

/-- The bytes that a call maps, from the first on. `map_phys_at` keeps the offset that `phys` has in its page. -/
def start : MapCall → Nat
  | page virt _ _ => virt.toNat
  | identity base _ _ => base.toNat
  | physAt virt phys _ _ => virt.toNat / pageSize * pageSize + phys.toNat % pageSize

/-- Their number. -/
def len : MapCall → Nat
  | page _ _ _ => 1
  | identity _ size _ => size.toNat
  | physAt _ _ size _ => size.toNat

/-- A call covers a page. -/
def Covers (c : MapCall) (page : Nat) : Prop := PageMeets c.start c.len page

instance (c : MapCall) (page : Nat) : Decidable (c.Covers page) := inferInstanceAs (Decidable (PageMeets _ _ _))

/-- The physical page for a page that a call covers, with the flags of the call. -/
def target (c : MapCall) (v : Nat) : Nat × U32 :=
  (match c with
    | page _ phys _ => phys.toNat / pageSize * pageSize
    | identity _ _ _ => v * pageSize
    | physAt virt phys _ _ => phys.toNat / pageSize * pageSize + (v - virt.toNat / pageSize) * pageSize,
  c.flags ||| pteP)

/-- A call as an update of a map of pages. -/
def update (m : Nat → Option (Nat × U32)) (c : MapCall) : Nat → Option (Nat × U32) := fun v => if c.Covers v then some (c.target v) else m v

/-- What pages are mapped to by the last call that covered them. -/
def flat (cs : List MapCall) : Nat → Option (Nat × U32) := cs.foldl update fun _ => none

end MapCall

end MiniOs32
