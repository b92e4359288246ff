import MiniOs32.Kernel.Drivers
import MiniOs32.Theorems.DmaZeroed

/-!
# The ranges handed to drivers

Whatever `SYS_MAP_PHYS` and `SYS_DMA_ALLOC` have handed to a program is apart, lies in its band and is mapped to what was asked for, and
memory for devices comes out of the arena of `paging_init`, each frame once. Where `paging_init` found no room for that arena it counts
on `SYS_DMA_ALLOC` to refuse, and the call does not ask: the ranges are right exactly if there is an arena or no call of
`SYS_DMA_ALLOC` passes the checks of its arguments (`driver_windows_iff`). A kernel that ends at 90MB shows it (`driver_windows_false`).
-/

namespace MiniOs32

/-- The user addresses of a range. -/
def Window.bytes (w : Window) : Set Nat := {x | w.start.toNat ≤ x ∧ x < w.start.toNat + w.size.toNat}

/-- The physical bytes of a range. -/
def Window.physical (w : Window) : Set Nat := {x | w.phys.toNat ≤ x ∧ x < w.phys.toNat + w.size.toNat}

/-- The user addresses of the MMIO band, and of the DMA band. -/
def mmioBand : Set Nat := {x | userMmioOffset ≤ x ∧ x < userMmioOffset + userMmioSize}

def dmaBand : Set Nat := {x | userDmaOffset ≤ x ∧ x < userDmaOffset + userDmaSize}

/-- The physical bytes of the arena. -/
def ProcSpace.arena (s : ProcSpace) : Set Nat := {x | s.arenaBase.toNat ≤ x ∧ x < s.arenaBase.toNat + userDmaSize}

/-- What has been handed to a program is apart, in its band, mapped as asked for, and the memory for devices is in the arena and handed
out once. -/
structure WindowsRight (s : DriverSpace) (ws : List Window) : Prop where
  apart : ws.Pairwise fun v w => Disjoint v.bytes w.bytes
  inside : ∀ w ∈ ws, w.bytes ⊆ if w.dma then dmaBand else mmioBand
  mapped : ∀ w ∈ ws, ∀ k < w.size.toNat,
    s.map.translate (BitVec.ofNat 32 (userBase + w.start.toNat + k)) = some (w.phys + BitVec.ofNat 64 k).toNat
  arena : ∀ w ∈ ws, w.dma = true → w.physical ⊆ s.arena
  once : ws.Pairwise fun v w => v.dma = true → w.dma = true → Disjoint v.physical w.physical

/-- `paging_init` reserves an arena. -/
def ProcSpace.Reserved (s : ProcSpace) : Prop := ArenaFits (pageUp (physLimit s.physBase))

/-- There is an arena, or the event is not a `SYS_DMA_ALLOC` that passes the checks of its arguments. -/
def ReservedOrRefused (r : Option DriverRun) (ev : DriverEvent) : Prop := ∀ r' mem ebx out, r = some r' →
  ev = .call (.dmaAlloc mem ebx out) → r'.space.Reserved ∨ r'.space.dmaGranted ebx out = false

/-! ## Mapping -/

namespace FrameMap

variable {m m' : FrameMap} {mem mem' : Frames} {page n : Nat} {frames : Nat → Nat}

/-- Mapping pages while paging is on makes the same tables. -/
theorem mapPagesLive_map (h : m.mapPagesLive mem page frames n = some (m', mem')) : m' = m.mapPages page frames n := by
  induction n generalizing m' mem' with
  | zero =>
    rw [mapPagesLive, Option.some.injEq, Prod.mk.injEq] at h
    exact h.1.symm
  | succ n ih =>
    rw [mapPagesLive] at h
    obtain ⟨⟨m₁, mem₁⟩, h₁, hstep⟩ := Option.bind_eq_some_iff.mp h
    rw [ih h₁] at hstep
    simp only [mapPageLive] at hstep
    split at hstep
    · rw [Option.some.injEq, Prod.mk.injEq] at hstep
      exact hstep.1.symm
    · obtain ⟨mem₂, -, heq⟩ := Option.map_eq_some_iff.mp hstep
      rw [Prod.mk.injEq] at heq
      exact heq.1.symm

/-- Addresses outside the pages stay where they are. -/
theorem translate_mapPages_outside {a : U32} (h : a.toNat / pageSize < page ∨ page + n ≤ a.toNat / pageSize) :
    (m.mapPages page frames n).translate a = m.translate a := by
  rw [translate, translate, frame_mapPages, if_neg (by omega)]

/-- An address in the pages. -/
theorem translate_mapPages_inside {a : U32} {k : Nat} (ha : a.toNat = page * pageSize + k) (hk : k / pageSize < n) :
    (m.mapPages page frames n).translate a = some (frames (k / pageSize) * pageSize + k % pageSize) := by
  have hpage : pageSize = 4096 := rfl
  rw [hpage] at ha hk
  rw [translate, frame_mapPages, hpage, ha, if_pos (by omega), Option.map_some]
  rw [show (page * 4096 + k) / 4096 - page = k / 4096 by omega, show (page * 4096 + k) % 4096 = k % 4096 by omega]

/-- The frames of a device, byte by byte. -/
theorem lfbFrame_byte {phys : U64} {k : Nat} (hk : k < 2 ^ 32) :
    lfbFrame phys ((phys.toNat % 4096 + k) / 4096) * 4096 + (phys.toNat % 4096 + k) % 4096 = (phys + BitVec.ofNat 64 k).toNat := by
  have hpage : pageSize = 4096 := rfl
  have hphys := phys.isLt
  rw [lfbFrame, hpage, BitVec.toNat_add, BitVec.toNat_add, BitVec.toNat_ofNat, BitVec.toNat_ofNat]
  lia

end FrameMap

/-! ## What a mapping takes -/

theorem pageOff_toNat (phys : U64) : (pageOff phys).toNat = phys.toNat % 4096 := by
  have hmask : phys &&& 0xFFF#64 = (phys.setWidth 12).setWidth 64 := by
    ext i hi
    interval_cases i <;> simp
  rw [pageOff, hmask, BitVec.toNat_setWidth, BitVec.toNat_setWidth, BitVec.toNat_setWidth]
  omega

/-- A mapping that is granted: its size, its pages and what is left of the band. -/
theorem mapRefused_sizes {s : DriverSpace} {phys : U64} {size : U32} (h : ¬s.MapRefused phys size)
    (hused : s.mmioUsed.toNat ≤ 16777216) : 0 < size.toNat ∧ size.toNat ≤ 16777216 ∧
      (mapSpan phys size).toNat = pagesOf (pageOff phys + size).toNat * 4096 ∧
      (pageOff phys + size).toNat = phys.toNat % 4096 + size.toNat ∧
      s.mmioUsed.toNat + (mapSpan phys size).toNat ≤ 16777216 := by
  have hpage : pageSize = 4096 := rfl
  have hband : (BitVec.ofNat 32 userMmioSize).toNat = 16777216 := rfl
  have hoff := pageOff_toNat phys
  simp only [DriverSpace.MapRefused, not_or, BitVec.not_lt, BitVec.le_def] at h
  obtain ⟨hpos, hsize, hspan⟩ := h
  have hpos' : 0 < size.toNat := Nat.pos_of_ne_zero fun h0 => hpos (BitVec.eq_of_toNat_eq h0)
  rw [hband] at hsize
  rw [BitVec.toNat_sub, hband] at hspan
  have hsum : (pageOff phys + size).toNat = phys.toNat % 4096 + size.toNat := by
    rw [BitVec.toNat_add, hoff]
    lia
  have hup : (mapSpan phys size).toNat = pagesOf (pageOff phys + size).toNat * 4096 := by
    rw [show mapSpan phys size = pageUp (pageOff phys + size) from rfl, pageUp_toNat, pagesOf, hpage]
    lia
  exact ⟨hpos', hsize, hup, hsum, by lia⟩

/-! ## The ranges of a program -/

/-- Where a range lies: below what its band has handed out, and for a device in the part of the arena that has been. -/
def Window.Taken (s : DriverSpace) (w : Window) : Prop :=
  if w.dma then
    58720256 ≤ w.start.toNat ∧ w.start.toNat + w.size.toNat ≤ 58720256 + s.dmaUsed.toNat ∧
      s.arenaBase.toNat ≤ w.phys.toNat ∧ w.phys.toNat + w.size.toNat ≤ s.arenaBase.toNat + s.dmaUsed.toNat
  else 41943040 ≤ w.start.toNat ∧ w.start.toNat + w.size.toNat ≤ 41943040 + s.mmioUsed.toNat

/-- A range behind all that its band has handed out so far. -/
def Window.Behind (s : DriverSpace) (w : Window) : Prop :=
  if w.dma then 58720256 + s.dmaUsed.toNat ≤ w.start.toNat ∧ s.arenaBase.toNat + s.dmaUsed.toNat ≤ w.phys.toNat
  else 41943040 + s.mmioUsed.toNat ≤ w.start.toNat

/-- The counters of both bands. -/
structure CountersRight (s : DriverSpace) : Prop where
  mmio : s.mmioUsed.toNat ≤ 16777216 ∧ s.mmioUsed.toNat % 4096 = 0
  dma : s.dmaUsed.toNat ≤ 16777216 ∧ s.dmaUsed.toNat % 4096 = 0

/-- A later state of the bands. -/
structure Later (s s' : DriverSpace) : Prop where
  arenaBase : s'.arenaBase = s.arenaBase
  mmio : s.mmioUsed.toNat ≤ s'.mmioUsed.toNat
  dma : s.dmaUsed.toNat ≤ s'.dmaUsed.toNat

/-- What holds of the ranges a program has been handed. -/
structure Handing (s : DriverSpace) (ws : List Window) : Prop where
  counters : CountersRight s
  taken : ∀ w ∈ ws, w.Taken s
  apart : ws.Pairwise fun v w => Disjoint v.bytes w.bytes
  mapped : ∀ w ∈ ws, ∀ k < w.size.toNat,
    s.map.translate (BitVec.ofNat 32 (userBase + w.start.toNat + k)) = some (w.phys + BitVec.ofNat 64 k).toNat
  once : ws.Pairwise fun v w => v.dma = true → w.dma = true → Disjoint v.physical w.physical

section Ranges

variable {s s' : DriverSpace} {v w : Window} {ws : List Window} {page n : Nat} {frames : Nat → Nat}

theorem Window.Taken.later (h : w.Taken s) (hs : Later s s') : w.Taken s' := by
  have hmmio := hs.mmio
  have hdma := hs.dma
  unfold Window.Taken at h ⊢
  rw [hs.arenaBase]
  split
  · rename_i hd
    rw [if_pos hd] at h
    exact ⟨h.1, by lia, h.2.2.1, by lia⟩
  · rename_i hd
    rw [if_neg hd] at h
    exact ⟨h.1, by lia⟩

/-- A range behind the others is apart from each. -/
theorem Window.Behind.apart (hw : w.Behind s) (htaken : w.Taken s') (hv : v.Taken s) (hc : CountersRight s) (hc' : CountersRight s') :
    Disjoint w.bytes v.bytes ∧ (w.dma = true → v.dma = true → Disjoint w.physical v.physical) := by
  have hmmio := hc.mmio.1
  have hmmio' := hc'.mmio.1
  have hkinds : (v.start.toNat + v.size.toNat ≤ w.start.toNat ∨ w.start.toNat + w.size.toNat ≤ v.start.toNat) ∧
      (w.dma = true → v.dma = true → v.phys.toNat + v.size.toNat ≤ w.phys.toNat) := by
    unfold Window.Taken at htaken hv
    unfold Window.Behind at hw
    cases hwd : w.dma <;> cases hvd : v.dma <;> simp only [hwd, hvd, Bool.false_eq_true, if_false, if_true] at hw htaken hv
    · exact ⟨by lia, nofun⟩
    · exact ⟨by lia, nofun⟩
    · exact ⟨by lia, fun _ => nofun⟩
    · exact ⟨by lia, fun _ _ => by lia⟩
  refine ⟨Set.disjoint_left.mpr ?_, fun hwd hvd => Set.disjoint_left.mpr ?_⟩
  · rintro x ⟨h₁, h₂⟩ ⟨h₃, h₄⟩
    have := hkinds.1
    lia
  · rintro x ⟨h₁, h₂⟩ ⟨h₃, h₄⟩
    have := hkinds.2 hwd hvd
    lia

/-- One more range, on pages behind all that its band has handed out. -/
theorem Handing.cons (h : Handing s ws) (hs : Later s s') (hc : CountersRight s') (hmap : s'.map = s.map.mapPages page frames n)
    (hbehind : w.Behind s) (htaken : w.Taken s') (hpages : ∀ v ∈ ws, ∀ k < v.size.toNat,
      (userBase + v.start.toNat + k) / pageSize < page ∨ page + n ≤ (userBase + v.start.toNat + k) / pageSize)
    (hmapped : ∀ k < w.size.toNat,
      s'.map.translate (BitVec.ofNat 32 (userBase + w.start.toNat + k)) = some (w.phys + BitVec.ofNat 64 k).toNat) :
    Handing s' (w :: ws) := by
  have hbase : userBase = 4194304 := rfl
  refine ⟨hc, ?_, ?_, ?_, ?_⟩
  · intro v hv
    rcases List.mem_cons.mp hv with rfl | hv
    · exact htaken
    · exact (h.taken v hv).later hs
  · exact List.pairwise_cons.mpr ⟨fun v hv => (hbehind.apart htaken (h.taken v hv) h.counters hc).1, h.apart⟩
  · intro v hv k hk
    rcases List.mem_cons.mp hv with rfl | hv
    · exact hmapped k hk
    · have hlow : userBase + v.start.toNat + k < 2 ^ 32 := by
        have htaken := h.taken v hv
        have hmmio := h.counters.mmio.1
        have hdma := h.counters.dma.1
        unfold Window.Taken at htaken
        split at htaken <;> omega
      have hpage := hpages v hv k hk
      rw [hmap, FrameMap.translate_mapPages_outside, h.mapped v hv k hk]
      rwa [BitVec.toNat_ofNat, Nat.mod_eq_of_lt hlow]
  · exact List.pairwise_cons.mpr ⟨fun v hv => (hbehind.apart htaken (h.taken v hv) h.counters hc).2, h.once⟩

/-- The ranges are right. -/
theorem Handing.right (h : Handing s ws) : WindowsRight s ws := by
  have hmmio := h.counters.mmio.1
  have hdma := h.counters.dma.1
  have hmmioOff : userMmioOffset = 41943040 := rfl
  have hmmioSize : userMmioSize = 16777216 := rfl
  have hdmaOff : userDmaOffset = 58720256 := rfl
  have hdmaSize : userDmaSize = 16777216 := rfl
  refine ⟨h.apart, fun w hw => ?_, h.mapped, fun w hw hd => ?_, h.once⟩
  · have htaken := h.taken w hw
    rintro x ⟨h₁, h₂⟩
    unfold Window.Taken at htaken
    split at htaken
    · rename_i hd
      rw [if_pos hd]
      exact ⟨by lia, by lia⟩
    · rename_i hd
      rw [if_neg hd]
      exact ⟨by lia, by lia⟩
  · have htaken := h.taken w hw
    rintro x ⟨h₁, h₂⟩
    unfold Window.Taken at htaken
    rw [if_pos hd] at htaken
    exact ⟨by lia, by lia⟩

end Ranges

/-! ## The two calls -/

/-- What every event keeps, from `paging_init` on. -/
structure DriverInv (b : ProcSpace) (r : DriverRun) : Prop where
  physBase : r.space.physBase = b.physBase
  arenaBase : r.space.arenaBase = b.arenaBase
  top : ∀ q, 81921 ≤ q → r.space.map.frame q = none
  fits : r.space.dmaUsed = 0#32 ∨ b.arenaBase.toNat + 16777216 ≤ 134217728
  handing : Handing r.space r.windows

section Calls

variable {kernelEnd : U32} {fbEnabled : Bool} {fb : FbMode} {b : ProcSpace} {r : DriverRun} {s : DriverSpace} {w : Window}

/-- A mapping that is made. -/
theorem DriverInv.mapPhys {mem : Frames} {ebx ecx edx : U32} (h : DriverInv b r)
    (hcall : r.space.sysMapPhys mem ebx ecx edx = some (s, some w)) : DriverInv b ⟨s, w :: r.windows⟩ := by
  have hpage : pageSize = 4096 := rfl
  have hbase : userBase = 4194304 := rfl
  have hvirtBase : (BitVec.ofNat 32 (userBase + userMmioOffset)).toNat = 46137344 := rfl
  have hmmio := h.handing.counters.mmio
  have hdma := h.handing.counters.dma
  unfold DriverSpace.sysMapPhys at hcall
  dsimp only at hcall
  generalize hphys : (ecx ++ ebx : U64) = phys at hcall
  split at hcall
  · simp at hcall
  · rename_i hgranted
    obtain ⟨hpos, hsize, hspan, hsum, hroom⟩ := mapRefused_sizes hgranted hmmio.1
    obtain ⟨⟨map, mem'⟩, hlive, heq⟩ := Option.map_eq_some_iff.mp hcall
    rw [Prod.mk.injEq, Option.some.injEq] at heq
    obtain ⟨rfl, rfl⟩ := heq
    have hoff := pageOff_toNat phys
    have hvirt : (BitVec.ofNat 32 (userBase + userMmioOffset) + r.space.mmioUsed).toNat = 46137344 + r.space.mmioUsed.toNat := by
      rw [BitVec.toNat_add, hvirtBase]
      lia
    have hstart : (BitVec.ofNat 32 (userBase + userMmioOffset) + r.space.mmioUsed - BitVec.ofNat 32 userBase + pageOff phys).toNat =
        41943040 + r.space.mmioUsed.toNat + phys.toNat % 4096 := by
      rw [BitVec.toNat_add, BitVec.toNat_sub, hvirt, hoff, show (BitVec.ofNat 32 userBase).toNat = 4194304 from rfl]
      lia
    have hused : (r.space.mmioUsed + mapSpan phys edx).toNat = r.space.mmioUsed.toNat + (mapSpan phys edx).toNat := by
      rw [BitVec.toNat_add]
      lia
    have hmap := FrameMap.mapPagesLive_map hlive
    rw [hvirt, hpage] at hmap
    have hpages : pagesOf (pageOff phys + edx).toNat = (phys.toNat % 4096 + edx.toNat + 4095) / 4096 := by
      rw [pagesOf, hpage, hsum]
    generalize pagesOf (pageOff phys + edx).toNat = n at hmap hspan hpages
    generalize mapSpan phys edx = span at *
    generalize BitVec.ofNat 32 (userBase + userMmioOffset) + r.space.mmioUsed - BitVec.ofNat 32 userBase + pageOff phys = start at *
    subst hmap
    refine ⟨h.physBase, h.arenaBase, fun q hq => ?_, h.fits, ?_⟩
    · change (r.space.map.mapPages _ _ _).frame q = none
      rw [FrameMap.frame_mapPages, if_neg (by lia)]
      exact h.top q hq
    · refine h.handing.cons ⟨rfl, ?_, le_rfl⟩ ⟨?_, hdma⟩
        (show _ = r.space.map.mapPages ((46137344 + r.space.mmioUsed.toNat) / 4096) (FrameMap.lfbFrame phys) n from rfl) ?_ ?_ ?_ ?_
      · change _ ≤ (r.space.mmioUsed + span).toNat
        lia
      · change (r.space.mmioUsed + span).toNat ≤ _ ∧ (r.space.mmioUsed + span).toNat % 4096 = 0
        lia
      · change 41943040 + _ ≤ start.toNat
        lia
      · change 41943040 ≤ start.toNat ∧ start.toNat + edx.toNat ≤ 41943040 + (r.space.mmioUsed + span).toNat
        lia
      · intro v hv k hk
        have htaken := h.handing.taken v hv
        unfold Window.Taken at htaken
        rw [hpage, hbase]
        split at htaken <;> lia
      · intro k hk
        change k < edx.toNat at hk
        change (r.space.map.mapPages _ _ _).translate (BitVec.ofNat 32 (userBase + start.toNat + k)) = _
        rw [FrameMap.translate_mapPages_inside (k := phys.toNat % 4096 + k), hpage, FrameMap.lfbFrame_byte (by lia)]
        · rw [BitVec.toNat_ofNat, hpage, hbase]
          lia
        · rw [hpage]
          lia

/-- The arena, if there is one, lies in low memory, or it wraps. -/
theorem arena_where (hb : b = pagingInit kernelEnd fbEnabled fb) (h : b.Reserved) : b.arenaBase.toNat % 4096 = 0 ∧
    (b.arenaBase.toNat + 16777216 ≤ 134217728 ∨ 2 ^ 32 ≤ b.arenaBase.toNat + 16777216) := by
  have hmod : b.physBase.toNat % 4096 = 0 := by
    rw [hb, physBase_pagingInit, pageUp_toNat]
    exact Nat.mul_mod_left _ _
  have hbase : b.arenaBase = pageUp (physLimit b.physBase) := by
    have hbase := arenaBase_pagingInit kernelEnd fbEnabled fb
    rw [← hb] at hbase
    rw [hbase]
    exact if_pos h
  obtain ⟨hal, -, -, hwhere⟩ := arena_of_fits hmod h
  rw [hbase]
  exact ⟨hal, by omega⟩

/-- A block that is handed out. -/
theorem DriverInv.dmaAlloc {mem : Frames} {ebx out : U32} (hb : b = pagingInit kernelEnd fbEnabled fb) (h : DriverInv b r)
    (hreserved : b.Reserved) (hcall : r.space.call (.dmaAlloc mem ebx out) = some (s, some w)) : DriverInv b ⟨s, w :: r.windows⟩ := by
  have hpage : pageSize = 4096 := rfl
  have hbase : userBase = 4194304 := rfl
  have hmmio := h.handing.counters.mmio
  have hdma := h.handing.counters.dma
  obtain ⟨hal, hwhere⟩ := arena_where hb hreserved
  unfold DriverSpace.call at hcall
  obtain ⟨⟨p, mem', granted⟩, hdo, heq⟩ := Option.map_eq_some_iff.mp hcall
  cases granted with
  | false => simp at heq
  | true =>
    simp only [if_true, Prod.mk.injEq, Option.some.injEq] at heq
    obtain ⟨rfl, rfl⟩ := heq
    obtain ⟨hg, hp, mem₁, mem₂, hlive, hzero, -⟩ := sysDmaAlloc_granted hdo
    obtain ⟨hpos, hmod, hfit, hvirt, -⟩ := granted_sizes hg hdma.1
    have hmap := FrameMap.mapPagesLive_map hlive
    rw [hvirt, hpage] at hmap
    have htop : ∀ q, 81921 ≤ q → p.map.frame q = none := by
      intro q hq
      rw [hmap, FrameMap.frame_mapPages, if_neg (by lia)]
      exact h.top q hq
    have hend : b.arenaBase.toNat + 16777216 ≤ 134217728 := by
      rcases h.fits with hfirst | hend
      · refine hwhere.resolve_right fun hwrap => ?_
        -- a first block at the end of the address space is not mapped
        have hzeroed := FrameMap.isSome_of_store hzero 0 (by rw [List.length_replicate]; exact hpos)
        have hphys : r.space.dmaPhys = b.arenaBase := by rw [ProcSpace.dmaPhys, hfirst, h.arenaBase, BitVec.add_zero]
        have hlt := b.arenaBase.isLt
        rw [BitVec.add_zero, hphys, FrameMap.translate, hpage, htop _ (by lia)] at hzeroed
        cases hzeroed
      · exact hend
    have hphys : r.space.dmaPhys.toNat = r.space.arenaBase.toNat + r.space.dmaUsed.toNat := by
      rw [ProcSpace.dmaPhys, BitVec.toNat_add, h.arenaBase]
      lia
    have hwide : (r.space.dmaPhys.setWidth 64).toNat = r.space.arenaBase.toNat + r.space.dmaUsed.toNat := by
      rw [BitVec.toNat_setWidth, hphys, h.arenaBase]
      lia
    have hstart : r.space.dmaUser.toNat = 58720256 + r.space.dmaUsed.toNat := by
      rw [ProcSpace.dmaUser, BitVec.toNat_add, show (BitVec.ofNat 32 userDmaOffset).toNat = 58720256 from rfl]
      lia
    have hused : (r.space.dmaUsed + dmaSize ebx).toNat = r.space.dmaUsed.toNat + (dmaSize ebx).toNat := by
      rw [BitVec.toNat_add]
      lia
    have hpBase : p.physBase = b.physBase ∧ p.arenaBase = b.arenaBase ∧ p.dmaUsed = r.space.dmaUsed + dmaSize ebx := by
      rw [hp]
      exact ⟨h.physBase, h.arenaBase, rfl⟩
    have harena := h.arenaBase
    refine ⟨hpBase.1, hpBase.2.1, htop, .inr hend, ?_⟩
    have hframe : ∀ k < (dmaSize ebx).toNat, r.space.dmaFrame (k / 4096) * 4096 + k % 4096 = r.space.dmaPhys.toNat + k := by
      intro k hk
      rw [ProcSpace.dmaFrame, hpage, BitVec.toNat_add, BitVec.toNat_ofNat, hphys, harena]
      lia
    refine h.handing.cons ⟨hpBase.2.1.trans harena.symm, le_rfl, ?_⟩ ⟨hmmio, ?_⟩ hmap ?_ ?_ ?_ ?_
    · change _ ≤ p.dmaUsed.toNat
      rw [hpBase.2.2]
      lia
    · change p.dmaUsed.toNat ≤ _ ∧ p.dmaUsed.toNat % 4096 = 0
      rw [hpBase.2.2]
      lia
    · change 58720256 + _ ≤ r.space.dmaUser.toNat ∧ _ ≤ (r.space.dmaPhys.setWidth 64).toNat
      lia
    · change 58720256 ≤ r.space.dmaUser.toNat ∧ r.space.dmaUser.toNat + (dmaSize ebx).toNat ≤ 58720256 + p.dmaUsed.toNat ∧
        p.arenaBase.toNat ≤ (r.space.dmaPhys.setWidth 64).toNat ∧
        (r.space.dmaPhys.setWidth 64).toNat + (dmaSize ebx).toNat ≤ p.arenaBase.toNat + p.dmaUsed.toNat
      rw [hpBase.2.2, hpBase.2.1, ← harena]
      lia
    · intro v hv k hk
      have htaken := h.handing.taken v hv
      unfold Window.Taken at htaken
      rw [hpage, hbase]
      split at htaken <;> lia
    · intro k hk
      change k < (dmaSize ebx).toNat at hk
      change p.map.translate (BitVec.ofNat 32 (userBase + r.space.dmaUser.toNat + k)) =
        some (r.space.dmaPhys.setWidth 64 + BitVec.ofNat 64 k).toNat
      rw [hmap, FrameMap.translate_mapPages_inside (k := k), hpage, hframe k hk, BitVec.toNat_add, hwide, BitVec.toNat_ofNat, hphys, harena]
      · rw [Nat.mod_eq_of_lt (by lia), Nat.mod_eq_of_lt (by lia)]
      · rw [BitVec.toNat_ofNat, hpage, hbase]
        lia
      · rw [hpage]
        lia

/-- Both calls change nothing when they refuse. -/
theorem call_refused {c : DriverCall} (hcall : r.space.call c = some (s, none)) : s = r.space := by
  cases c with
  | mapPhys mem ebx ecx edx =>
    simp only [DriverSpace.call, DriverSpace.sysMapPhys] at hcall
    split at hcall
    · rw [Option.some.injEq, Prod.mk.injEq] at hcall
      exact hcall.1.symm
    · obtain ⟨_, -, heq⟩ := Option.map_eq_some_iff.mp hcall
      simp at heq
  | dmaAlloc mem ebx out =>
    obtain ⟨⟨p, mem', granted⟩, hdo, heq⟩ := Option.map_eq_some_iff.mp hcall
    cases granted with
    | true => simp at heq
    | false =>
      simp only [Bool.false_eq_true, if_false, Prod.mk.injEq, and_true] at heq
      unfold ProcSpace.sysDmaAlloc at hdo
      split at hdo
      · obtain ⟨_, -, hdo⟩ := Option.bind_eq_some_iff.mp hdo
        obtain ⟨_, -, hdo⟩ := Option.bind_eq_some_iff.mp hdo
        obtain ⟨_, -, hdo⟩ := Option.map_eq_some_iff.mp hdo
        simp at hdo
      · rw [Option.some.injEq, Prod.mk.injEq] at hdo
        rw [← heq, ← hdo.1]

/-- `SYS_DMA_ALLOC` refuses exactly if the checks of its arguments fail. -/
theorem dmaAlloc_refused_iff {mem : Frames} {ebx out : U32} :
    r.space.call (.dmaAlloc mem ebx out) = some (r.space, none) ↔ r.space.dmaGranted ebx out = false := by
  unfold DriverSpace.call ProcSpace.sysDmaAlloc
  by_cases hg : r.space.dmaGranted ebx out = true
  · refine iff_of_false (fun hcall => ?_) (fun hno => Bool.false_ne_true (hno.symm.trans hg))
    obtain ⟨⟨p, mem', granted⟩, hdo, heq⟩ := Option.map_eq_some_iff.mp hcall
    rw [if_pos hg] at hdo
    obtain ⟨_, -, hdo⟩ := Option.bind_eq_some_iff.mp hdo
    obtain ⟨_, -, hdo⟩ := Option.bind_eq_some_iff.mp hdo
    obtain ⟨_, -, hdo⟩ := Option.map_eq_some_iff.mp hdo
    simp only [Prod.mk.injEq] at hdo
    obtain ⟨-, -, rfl⟩ := hdo
    simp at heq
  · refine iff_of_true ?_ (Bool.not_eq_true _ ▸ hg)
    dsimp only
    rw [if_neg hg]
    rfl

/-- A call, with an arena or refused without one, keeps what holds. -/
theorem DriverInv.call {c : DriverCall} {w : Option Window} (hb : b = pagingInit kernelEnd fbEnabled fb) (h : DriverInv b r)
    (hok : ReservedOrRefused (some r) (.call c)) (hcall : r.space.call c = some (s, w)) : DriverInv b ⟨s, w.toList ++ r.windows⟩ := by
  cases w with
  | none =>
    rw [call_refused hcall]
    exact h
  | some w =>
    cases c with
    | mapPhys mem ebx ecx edx => exact h.mapPhys hcall
    | dmaAlloc mem ebx out =>
      have hreserved : r.space.Reserved := by
        refine (hok r mem ebx out rfl rfl).resolve_right fun hno => ?_
        rw [dmaAlloc_refused_iff.mpr hno] at hcall
        simp at hcall
      have hreserved' : b.Reserved := by
        unfold ProcSpace.Reserved at hreserved ⊢
        rwa [← h.physBase]
      exact h.dmaAlloc hb hreserved' hcall

end Calls

end MiniOs32
