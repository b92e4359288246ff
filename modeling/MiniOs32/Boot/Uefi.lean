import MiniOs32.Kernel.Frames

/-!
# The loader's buffers

`alloc_low` and `alloc_mapped` of `boot/uefi.c`. The firmware is given: what `AllocatePages` answers to a number of pages and the
highest address that is allowed, nothing where it fails.
-/

namespace MiniOs32

/-- `AllocatePages` with `ALLOCATE_MAX_ADDRESS`. -/
abbrev Firmware : Type := U64 → U64 → Option U64

/-- `KERNEL_MAP_LIMIT`. -/
def kernelMapLimit : U64 := 0x08000000#64
/-- `KERNEL_ARENA_END`. -/
def kernelArenaEnd : U64 := 0x01000000#64

/-- `alloc_low`; none where it dies. -/
def allocLow (fw : Firmware) (bytes max : U64) : Option U64 := fw ((bytes + 0xFFF#64) / 0x1000#64) max

/-- `alloc_mapped`; none where it dies. -/
def allocMapped (fw : Firmware) (bytes : U64) : Option U64 :=
  (allocLow fw bytes (kernelMapLimit - 1#64)).bind fun addr => if addr < kernelArenaEnd then none else some addr

/-- What is documented of `AllocatePages`: whole pages, none above the highest address allowed, and of memory, so that none of them is a
page of the framebuffer. -/
structure Firmware.Sound (fw : Firmware) (fb : FbMode) : Prop where
  aligned : ∀ {pages max addr}, fw pages max = some addr → addr.toNat % pageSize = 0
  below : ∀ {pages max addr}, fw pages max = some addr → addr.toNat + pages.toNat * pageSize ≤ max.toNat + 1
  memory : ∀ {pages max addr}, fw pages max = some addr →
    ∀ k < pages.toNat, ∀ j < pagesOf fb.bytes.toNat, addr.toNat / pageSize + k ≠ FrameMap.lfbFrame fb.lfbPhys j

end MiniOs32
