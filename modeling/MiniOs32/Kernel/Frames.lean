import MiniOs32.Kernel.Paging

/-!
# Frames, and memory through the page tables

`paging_init` puts the kernel's page tables, the arena of the program and the arena of `SYS_DMA_ALLOC` behind the kernel, one after
the other. Its last step takes the identity mapping out of the user window, and from there on the kernel itself runs on the tables of
the process: every address it dereferences is looked up in them. The tables are kept apart from the memory: only the clearing of a
page that becomes a table is an access.
-/

namespace MiniOs32

/-- `KERNEL_IDENTITY_LIMIT`. -/
def kernelIdentityLimit : Nat := 128 * 1024 * 1024
/-- `FB_VIRT_BASE`. -/
def fbVirtBase : Nat := 0x10000000
/-- `FB_VIRT_SIZE`. -/
def fbVirtSize : Nat := 64 * 1024 * 1024
/-- `USER_ARENA_SIZE`. -/
def userArenaSize : Nat := userFbOffset

/-- `align_up` to a page. -/
def pageUp (v : U32) : U32 := (v + 0xFFF#32) &&& ~~~0xFFF#32

/-- The physical memory. -/
abbrev Frames : Type := Nat → Byte

/-- The directories of an address space, one entry for each 2MB, each nothing or a table of 512 frame numbers, and `phys_free`. -/
structure FrameMap where
  dirs : Nat → Option (Nat → Option Nat)
  physFree : U32

namespace FrameMap

/-- The frame of a page. -/
def frame (m : FrameMap) (page : Nat) : Option Nat := (m.dirs (page / 512)).bind fun pt => pt (page % 512)

/-- The table walk for a linear address. -/
def translate (m : FrameMap) (a : U32) : Option Nat := (m.frame (a.toNat / pageSize)).map fun f => f * pageSize + a.toNat % pageSize

/-- `map_page`, by page and frame number: a missing table takes a page of `phys_free`. -/
def mapPage (m : FrameMap) (page frame : Nat) : FrameMap where
  dirs i :=
    if i = page / 512 then some fun j => if j = page % 512 then some frame else (m.dirs i).bind fun pt => pt j
    else m.dirs i
  physFree := if (m.dirs (page / 512)).isSome then m.physFree else m.physFree + BitVec.ofNat 32 pageSize

/-- `map_page` for `n` pages one after the other. -/
def mapPages (m : FrameMap) (page : Nat) (frames : Nat → Nat) : Nat → FrameMap
  | 0 => m
  | n + 1 => (m.mapPages page frames n).mapPage (page + n) (frames n)

/-- The frames of a framebuffer, from the page of its first byte on. -/
def lfbFrame (phys : U64) (k : Nat) : Nat := (phys + BitVec.ofNat 64 (k * pageSize)).toNat / pageSize

/-- `map_phys_at`. -/
def mapPhysAt (m : FrameMap) (virt : Nat) (phys : U64) (size : U32) : FrameMap :=
  m.mapPages (virt / pageSize) (lfbFrame phys) (pagesOf (phys.toNat % pageSize + size.toNat))

/-- The frames of the arena of the program. -/
def arenaFrame (base : U32) (k : Nat) : Nat := (base + BitVec.ofNat 32 (k * pageSize)).toNat / pageSize

/-- The loop of `map_user_space` over the first `n` pages of the arena. -/
def mapArena (m : FrameMap) (base : U32) : Nat → FrameMap
  | 0 => m
  | n + 1 =>
    if n * pageSize = userStackGuardOff then m.mapArena base n
    else (m.mapArena base n).mapPage (userBase / pageSize + n) (arenaFrame base n)

/-- The first loop of `map_user_space`. -/
def clearWindow (m : FrameMap) : FrameMap :=
  { m with dirs := fun i => if userBase / 2 ^ 21 ≤ i ∧ i < userBase / 2 ^ 21 + userSpaceSize / 2 ^ 21 then none else m.dirs i }

/-- `map_user_space`. -/
def mapUserSpace (m : FrameMap) (base : U32) : FrameMap := m.clearWindow.mapArena base (userFbOffset / pageSize)

/-- `map_user_framebuffer`. -/
def mapUserFramebuffer (m : FrameMap) (fb : FbMode) : FrameMap :=
  if fb.mappable then m.mapPages ((userBase + userFbOffset) / pageSize) (lfbFrame fb.lfbPhys) (pagesOf fb.bytes.toNat) else m

/-- `gfx_map_lfb`, into the tables of the kernel and of the process. -/
def gfxMapLfb (kernel proc : FrameMap) (fb : FbMode) : FrameMap :=
  if fb.lfbPhys = 0#64 ∨ fb.bytes = 0#32 ∨ fbVirtSize < fb.bytes.toNat then proc
  else
    let kernel := mapPhysAt { kernel with physFree := proc.physFree } fbVirtBase fb.lfbPhys fb.bytes
    mapPhysAt { proc with physFree := kernel.physFree } fbVirtBase fb.lfbPhys fb.bytes

/-- Bytes stored one by one from a linear address on, none where one of the addresses is not mapped. -/
def store (m : FrameMap) (mem : Frames) (a : U32) : List Byte → Option Frames
  | [] => some mem
  | b :: bs => (m.translate a).bind fun x => m.store (Function.update mem x b) (a + 1#32) bs

theorem store_nil (m : FrameMap) (mem : Frames) (a : U32) : m.store mem a [] = some mem := rfl

theorem store_cons (m : FrameMap) (mem : Frames) (a : U32) (b : Byte) (bs : List Byte) :
    m.store mem a (b :: bs) = (m.translate a).bind fun x => m.store (Function.update mem x b) (a + 1#32) bs := rfl

/-- `memset` with zeros. -/
def zero (m : FrameMap) (mem : Frames) (a : U32) (n : Nat) : Option Frames := m.store mem a (List.replicate n 0#8)

/-- `map_page` once paging is on: `alloc_page_phys` clears the page of a new table. -/
def mapPageLive (m : FrameMap) (mem : Frames) (page frame : Nat) : Option (FrameMap × Frames) :=
  if (m.dirs (page / 512)).isSome then some (m.mapPage page frame, mem)
  else (m.zero mem m.physFree pageSize).map fun mem => (m.mapPage page frame, mem)

/-- `map_page` for `n` pages once paging is on. -/
def mapPagesLive (m : FrameMap) (mem : Frames) (page : Nat) (frames : Nat → Nat) : Nat → Option (FrameMap × Frames)
  | 0 => some (m, mem)
  | n + 1 => (m.mapPagesLive mem page frames n).bind fun (m, mem) => m.mapPageLive mem (page + n) (frames n)

end FrameMap

/-- The process as the kernel keeps it: `proc_pdpt` with `phys_free`, `user_phys_base`, `dma_arena_base` and `user_dma_used`. -/
structure ProcSpace where
  map : FrameMap
  physBase : U32
  arenaBase : U32
  dmaUsed : U32

/-- The tables of the kernel: five pages behind its end, then the identity mapping of low memory. -/
def kernelTables (kernelEnd : U32) : FrameMap :=
  FrameMap.mapPages ⟨fun _ => none, pageUp kernelEnd + BitVec.ofNat 32 (5 * pageSize)⟩ 0 id (kernelIdentityLimit / pageSize)

/-- The tables of the process before the user window is cut out: directories of its own over the tables of the kernel, none of which
changes afterwards. -/
def procTables (kernelEnd : U32) (fbEnabled : Bool) (fb : FbMode) : FrameMap :=
  let kernel := kernelTables kernelEnd
  let proc : FrameMap := { kernel with physFree := kernel.physFree + BitVec.ofNat 32 (5 * pageSize) }
  if fbEnabled then kernel.gfxMapLfb proc fb else proc

/-- `user_phys_limit` for a `user_phys_base`. -/
def physLimit (base : U32) : U32 :=
  if (base + BitVec.ofNat 32 userArenaSize).toNat < base.toNat then base else base + BitVec.ofNat 32 userArenaSize

/-- `dma_arena_base + USER_DMA_SIZE <= KERNEL_IDENTITY_LIMIT`. -/
def ArenaFits (base : U32) : Prop := (base + BitVec.ofNat 32 userDmaSize).toNat ≤ kernelIdentityLimit

instance (base : U32) : Decidable (ArenaFits base) := inferInstanceAs (Decidable (_ ≤ _))

/-- `phys_free` once both arenas are taken, lifted above the user window. -/
def physBehind (base : U32) : U32 :=
  let free := if ArenaFits (pageUp (physLimit base)) then pageUp (physLimit base) + BitVec.ofNat 32 userDmaSize else physLimit base
  if free.toNat < userBase + userSpaceSize then BitVec.ofNat 32 (userBase + userSpaceSize) else free

/-- `paging_init`. -/
def pagingInit (kernelEnd : U32) (fbEnabled : Bool) (fb : FbMode) : ProcSpace :=
  let proc := procTables kernelEnd fbEnabled fb
  let base := pageUp proc.physFree
  { map := (FrameMap.mapUserSpace { proc with physFree := physBehind base } base).mapUserFramebuffer fb
    physBase := base
    arenaBase := if ArenaFits (pageUp (physLimit base)) then pageUp (physLimit base) else 0#32
    dmaUsed := 0#32 }

section

variable (kernelEnd : U32) (fbEnabled : Bool) (fb : FbMode)

theorem physBase_pagingInit :
    (pagingInit kernelEnd fbEnabled fb).physBase = pageUp (procTables kernelEnd fbEnabled fb).physFree := by
  rw [pagingInit]

theorem arenaBase_pagingInit : (pagingInit kernelEnd fbEnabled fb).arenaBase =
    if ArenaFits (pageUp (physLimit (pagingInit kernelEnd fbEnabled fb).physBase)) then
      pageUp (physLimit (pagingInit kernelEnd fbEnabled fb).physBase)
    else 0#32 := by
  rw [pagingInit]

theorem dmaUsed_pagingInit : (pagingInit kernelEnd fbEnabled fb).dmaUsed = 0#32 := by
  rw [pagingInit]

theorem map_pagingInit : (pagingInit kernelEnd fbEnabled fb).map =
    (FrameMap.mapUserSpace { procTables kernelEnd fbEnabled fb with physFree := physBehind (pagingInit kernelEnd fbEnabled fb).physBase }
      (pagingInit kernelEnd fbEnabled fb).physBase).mapUserFramebuffer fb := by
  rw [pagingInit]

end

namespace ProcSpace

/-- The physical address a granted call reports. -/
def dmaPhys (s : ProcSpace) : U32 := s.arenaBase + s.dmaUsed

/-- The user pointer a granted call reports. -/
def dmaUser (s : ProcSpace) : U32 := BitVec.ofNat 32 userDmaOffset + s.dmaUsed

/-- The frames of a block that is handed out. -/
def dmaFrame (s : ProcSpace) (k : Nat) : Nat := (s.dmaPhys + BitVec.ofNat 32 (k * pageSize)).toNat / pageSize

/-- `SYS_DMA_ALLOC` hands memory out. -/
def dmaGranted (s : ProcSpace) (ebx out : U32) : Bool :=
  decide ((dmaSize ebx).toNat ≠ 0 ∧ (dmaSize ebx).toNat ≤ userDmaSize ∧ (dmaSize ebx).toNat ≤ userDmaSize - s.dmaUsed.toNat) &&
    userRangeOk out 8#32

/-- `SYS_DMA_ALLOC`: the process and the memory after it, and whether it returns 0; none where the kernel faults in it. -/
def sysDmaAlloc (s : ProcSpace) (mem : Frames) (ebx out : U32) : Option (ProcSpace × Frames × Bool) :=
  if s.dmaGranted ebx out then
    (s.map.mapPagesLive mem ((userBase + s.dmaUser.toNat) / pageSize) s.dmaFrame ((dmaSize ebx).toNat / pageSize)).bind fun (map, mem) =>
      (map.zero mem s.dmaPhys (dmaSize ebx).toNat).bind fun mem =>
        (map.store mem (BitVec.ofNat 32 userBase + out) (le32 s.dmaUser ++ le32 s.dmaPhys)).map fun mem =>
          ({ s with map, dmaUsed := s.dmaUsed + dmaSize ebx }, mem, true)
  else some (s, mem, false)

end ProcSpace

/-- A call of `SYS_DMA_ALLOC`, with the memory it finds. -/
structure DmaCall where
  mem : Frames
  ebx : U32
  out : U32

end MiniOs32
