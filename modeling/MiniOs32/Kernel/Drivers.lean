import MiniOs32.Kernel.Frames

/-!
# Device memory for a driver

`SYS_MAP_PHYS` and `SYS_DMA_ALLOC` hand out ranges of two bands of the user window from the bottom up. Each band has a counter, which
`exec_user` sets back for the next program.
-/

namespace MiniOs32

/-- A range handed to a program: its user pointer, its bytes, and the physical address behind the first. -/
structure Window where
  dma : Bool
  start : U32
  size : U32
  phys : U64

/-- The process, with `user_mmio_used`. -/
structure DriverSpace extends ProcSpace where
  mmioUsed : U32

/-- A driver call, with the memory it finds. -/
inductive DriverCall where
  | mapPhys (mem : Frames) (ebx ecx edx : U32)
  | dmaAlloc (mem : Frames) (ebx out : U32)

/-- `page_off`. -/
def pageOff (phys : U64) : U32 := (phys &&& 0xFFF#64).setWidth 32

/-- `span`: what a mapping takes of the band. -/
def mapSpan (phys : U64) (size : U32) : U32 := (pageOff phys + size + 0xFFF#32) &&& ~~~0xFFF#32

namespace DriverSpace

/-- `SYS_MAP_PHYS` refuses. -/
def MapRefused (s : DriverSpace) (phys : U64) (size : U32) : Prop :=
  size = 0#32 ∨ BitVec.ofNat 32 userMmioSize < size ∨ BitVec.ofNat 32 userMmioSize - s.mmioUsed < mapSpan phys size

instance (s : DriverSpace) (phys : U64) (size : U32) : Decidable (s.MapRefused phys size) := inferInstanceAs (Decidable (_ ∨ _ ∨ _))

/-- `SYS_MAP_PHYS`: the process after it and the range it hands out, if any; none where the kernel faults in it. -/
def sysMapPhys (s : DriverSpace) (mem : Frames) (ebx ecx edx : U32) : Option (DriverSpace × Option Window) :=
  let phys : U64 := ecx ++ ebx
  if s.MapRefused phys edx then some (s, none)
  else
    let virt : U32 := BitVec.ofNat 32 (userBase + userMmioOffset) + s.mmioUsed
    (s.map.mapPagesLive mem (virt.toNat / pageSize) (FrameMap.lfbFrame phys) (pagesOf (pageOff phys + edx).toNat)).map fun (map, _) =>
      ({ s with map, mmioUsed := s.mmioUsed + mapSpan phys edx },
        some ⟨false, virt - BitVec.ofNat 32 userBase + pageOff phys, edx, phys⟩)

/-- One of the two calls. -/
def call (s : DriverSpace) : DriverCall → Option (DriverSpace × Option Window)
  | .mapPhys mem ebx ecx edx => s.sysMapPhys mem ebx ecx edx
  | .dmaAlloc mem ebx out => (s.sysDmaAlloc mem ebx out).map fun (p, _, granted) =>
      ({ s with toProcSpace := p }, if granted then some ⟨true, s.dmaUser, dmaSize ebx, s.dmaPhys.setWidth 64⟩ else none)

end DriverSpace

/-- What happens after boot: a driver call, or the next program. -/
inductive DriverEvent where
  | call (c : DriverCall)
  | exec

/-- The process, and what the program that runs in it has been handed. -/
structure DriverRun where
  space : DriverSpace
  windows : List Window

/-- After `paging_init`. -/
def DriverRun.boot (kernelEnd : U32) (fbEnabled : Bool) (fb : FbMode) : DriverRun := ⟨⟨pagingInit kernelEnd fbEnabled fb, 0#32⟩, []⟩

/-- One event; nothing happens after a fault of the kernel. -/
def DriverRun.step (r : Option DriverRun) (ev : DriverEvent) : Option DriverRun :=
  r.bind fun r =>
    match ev with
    | .call c => (r.space.call c).map fun (s, w) => ⟨s, w.toList ++ r.windows⟩
    | .exec => some ⟨{ r.space with dmaUsed := 0#32, mmioUsed := 0#32 }, []⟩

end MiniOs32
