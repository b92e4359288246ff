import MiniOs32.Kernel.Exec

/-!
# The process's page tables over the user window

`map_user_space` clears the directory entries of the window and maps the arena but for one guard page; the framebuffer window
and the two device bands behind it are mapped page by page as modes are set and drivers ask. A table entry, once present, is
never taken back. Only presence is modelled: the frame an entry names plays no part here.
-/

namespace MiniOs32

/-- `USER_MMIO_OFFSET`. -/
def userMmioOffset : Nat := userFbOffset + userFbSize
/-- `USER_MMIO_SIZE`. -/
def userMmioSize : Nat := 16 * 1024 * 1024
/-- `USER_DMA_OFFSET`. -/
def userDmaOffset : Nat := userMmioOffset + userMmioSize
/-- `USER_DMA_SIZE`. -/
def userDmaSize : Nat := 16 * 1024 * 1024

/-- The page directories, one entry for each 2MB: a table of 512 presence bits, or nothing. -/
abbrev PageTables : Type := Nat → Option (Nat → Bool)

/-- The table walk for a linear address. -/
def PageTables.present (t : PageTables) (virt : Nat) : Bool :=
  match t (virt / 2 ^ 21) with
  | none => false
  | some pt => pt (virt / pageSize % 512)

/-- `map_page`: a missing table is made, all absent, before the entry is set. -/
def PageTables.mapPage (t : PageTables) (virt : Nat) : PageTables := fun i =>
  if i = virt / 2 ^ 21 then
    some (fun j => decide (j = virt / pageSize % 512) || (t i).getD (fun _ => false) j)
  else t i

/-- `map_page` for `n` pages one after the other. -/
def PageTables.mapPages (t : PageTables) (virt : Nat) : Nat → PageTables
  | 0 => t
  | n + 1 => (t.mapPage virt).mapPages (virt + pageSize) n

/-- The loop of `map_user_space` over `n` pages of the arena from an offset on. -/
def PageTables.mapArena (t : PageTables) (off : Nat) : Nat → PageTables
  | 0 => t
  | n + 1 => (if off = userStackGuardOff then t else t.mapPage (userBase + off)).mapArena (off + pageSize) n

/-- `map_user_space`. -/
def PageTables.mapUserSpace (t : PageTables) : PageTables :=
  let cleared : PageTables := fun i => if userBase / 2 ^ 21 ≤ i ∧ i < userBase / 2 ^ 21 + userSpaceSize / 2 ^ 21 then none else t i
  cleared.mapArena 0 (userFbOffset / pageSize)

/-- The current graphics mode: `gfx_w`, `gfx_h`, `gfx_pitch`, `gfx_bpp` and `gfx_lfb_phys`. -/
structure FbMode where
  w : U32
  h : U32
  pitch : U32
  bpp : U32
  lfbPhys : U64

/-- `gfx_pitch * gfx_h`, in 32 bits. -/
def FbMode.bytes (m : FbMode) : U32 := m.pitch * m.h

/-- `map_user_framebuffer` maps this mode (it sets `gfx_fb_user_mapped`). -/
def FbMode.mappable (m : FbMode) : Bool :=
  m.lfbPhys != 0#64 && m.bytes != 0#32 && decide (m.bytes.toNat ≤ userFbSize)

/-- The pages that hold a number of bytes. -/
def pagesOf (n : Nat) : Nat := (n + (pageSize - 1)) / pageSize

/-- The memory map of the process. `mmioUsed` and `dmaUsed` are the kernel's own counters, which `exec_user` resets; the three
tops say how far each band has ever been mapped. -/
structure Paging where
  tables : PageTables
  mmioUsed : Nat
  dmaUsed : Nat
  fbTop : Nat
  mmioTop : Nat
  dmaTop : Nat

/-- `map_user_framebuffer`. -/
def Paging.mapUserFramebuffer (s : Paging) (m : FbMode) : Paging :=
  if m.mappable then
    { s with
      tables := s.tables.mapPages (userBase + userFbOffset) (pagesOf m.bytes.toNat)
      fbTop := max s.fbTop (pagesOf m.bytes.toNat * pageSize) }
  else s

/-- The part of `paging_init` that builds the user window, over whatever the kernel's directories hold. -/
def Paging.init (t : PageTables) (m : FbMode) : Paging :=
  Paging.mapUserFramebuffer ⟨t.mapUserSpace, 0, 0, 0, 0, 0⟩ m

/-- `SYS_MAP_PHYS`: the bytes it takes from the band, rounded up to pages. -/
def physSpan (phys : U64) (size : U32) : Nat := pagesOf (phys.toNat % pageSize + size.toNat) * pageSize

/-- `SYS_MAP_PHYS`. -/
def Paging.sysMapPhys (s : Paging) (phys : U64) (size : U32) : Paging :=
  if size.toNat = 0 ∨ userMmioSize < size.toNat then s
  else if userMmioSize - s.mmioUsed < physSpan phys size then s
  else
    { s with
      tables := s.tables.mapPages (userBase + userMmioOffset + s.mmioUsed) (pagesOf (phys.toNat % pageSize + size.toNat))
      mmioUsed := s.mmioUsed + physSpan phys size
      mmioTop := max s.mmioTop (s.mmioUsed + physSpan phys size) }

/-- The size `SYS_DMA_ALLOC` rounds a request to: `(ebx + 0xFFF) & ~0xFFF`, in 32 bits. -/
def dmaSize (ebx : U32) : U32 := (ebx + 0xFFF#32) &&& ~~~0xFFF#32

/-- `SYS_DMA_ALLOC` hands memory out. -/
def Paging.dmaGranted (s : Paging) (ebx out : U32) : Bool :=
  decide ((dmaSize ebx).toNat ≠ 0 ∧ (dmaSize ebx).toNat ≤ userDmaSize ∧ (dmaSize ebx).toNat ≤ userDmaSize - s.dmaUsed) &&
    userRangeOk out 8#32

/-- `SYS_DMA_ALLOC`, as far as the memory map goes. -/
def Paging.sysDmaAlloc (s : Paging) (ebx out : U32) : Paging :=
  if s.dmaGranted ebx out then
    { s with
      tables := s.tables.mapPages (userBase + userDmaOffset + s.dmaUsed) ((dmaSize ebx).toNat / pageSize)
      dmaUsed := s.dmaUsed + (dmaSize ebx).toNat
      dmaTop := max s.dmaTop (s.dmaUsed + (dmaSize ebx).toNat) }
  else s

/-- What changes the memory map after boot: a mode set or reported, the two driver calls, and a new program. -/
inductive MapOp where
  | framebuffer (m : FbMode)
  | mapPhys (phys : U64) (size : U32)
  | dmaAlloc (ebx out : U32)
  | exec

/-- One change of the memory map. -/
def Paging.step (s : Paging) : MapOp → Paging
  | .framebuffer m => s.mapUserFramebuffer m
  | .mapPhys phys size => s.sysMapPhys phys size
  | .dmaAlloc ebx out => s.sysDmaAlloc ebx out
  | .exec => { s with mmioUsed := 0, dmaUsed := 0 }

end MiniOs32
