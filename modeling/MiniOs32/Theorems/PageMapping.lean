import MiniOs32.Lemmas.PageLoops

/-!
# Page mapping as a map update

A call maps the pages it covers and leaves the others, as long as its range does not come to the last page of an address space.
-/

namespace MiniOs32

namespace MapCall

/-- The bytes of a call end below the last page and below 4GB, their frames are addressed with 52 bits and the flags have twelve. A call for
no bytes begins where a page does, or so far up that the end of its page is past 4GB. -/
def Fits : MapCall → Prop
  | page _ phys flags => phys.toNat < 2 ^ 52 ∧ flags.toNat < 4096
  | identity base size flags =>
    if size = 0#32 then base.toNat % pageSize = 0 ∨ 0xFFFFF000 < base.toNat
    else base.toNat + size.toNat ≤ 0xFFFFF000 ∧ flags.toNat < 4096
  | physAt virt phys size flags =>
    if size = 0#32 then phys.toNat % pageSize = 0
    else phys.toNat % pageSize + size.toNat ≤ 0xFFFFF000 ∧
      virt.toNat / pageSize * pageSize + phys.toNat % pageSize + size.toNat ≤ 2 ^ 32 ∧ phys.toNat + size.toNat ≤ 2 ^ 52 ∧ flags.toNat < 4096

instance : DecidablePred Fits
  | page _ _ _ => inferInstanceAs (Decidable (_ ∧ _))
  | identity _ _ _ => inferInstanceAs (Decidable (ite _ _ _))
  | physAt _ _ _ _ => inferInstanceAs (Decidable (ite _ _ _))

/-- Mappings in one region of 2MB agree on `PTE_U`. -/
def Agree (cs : List MapCall) : Prop := ∀ c ∈ cs, ∀ c' ∈ cs, ∀ v v', c.Covers v → c'.Covers v' → v / 512 = v' / 512 →
  c.flags &&& pteU = c'.flags &&& pteU

end MapCall

/-- A run of calls maps pages to what the last call that covered them says, and no call changes a page it does not cover. -/
structure Pae.MapsRight (s : Pae) (cs : List MapCall) : Prop where
  flat : ∃ s', s.calls cs = some s' ∧ ∀ page, s'.translate page = MapCall.flat cs page
  frame : ∀ before c, before ++ [c] <+: cs → ∃ s₁ s₂, s.calls before = some s₁ ∧ s₁.call c = some s₂ ∧
    ∀ page, ¬c.Covers page → s₂.translate page = s₁.translate page

/-! ## The loops -/

section Loops

variable {base : Nat} {user : Nat → Bool} {s : Pae}

/-- `map_identity` maps the pages from the one of its base up to its limit, as the sum of 32 bits has it. -/
theorem Pae.Built.mapIdentity (h : s.Built base user) (b size flags : U32)
    (huser : ∀ v, b.toNat / 4096 ≤ v → v < (b.toNat + size.toNat + 4095) % 2 ^ 32 / 4096 →
      user (v / 512) = decide (flags &&& pteU ≠ 0#32)) :
    ∃ s', s.mapIdentity b size flags = some s' ∧ s'.Built base user ∧ ∀ page, s'.translate page =
      if b.toNat / 4096 ≤ page ∧ page < (b.toNat + size.toNat + 4095) % 2 ^ 32 / 4096 then
        readEntry (user (page / 512)) (pteOf (BitVec.ofNat 64 (page * 4096)) flags) else s.translate page := by
  have hpage : pageSize = 4096 := rfl
  have hb := b.isLt
  have hmask : (0xFFF#32 : U32) = BitVec.ofNat 32 (2 ^ 12 - 1) := rfl
  have hstart : (b &&& ~~~0xFFF#32).toNat = b.toNat / 4096 * 4096 := by
    rw [hmask, toNat_and_not_low]
    rfl
  have hlimit : ((b + size + 0xFFF#32) &&& ~~~0xFFF#32).toNat = (b.toNat + size.toNat + 4095) % 2 ^ 32 / 4096 * 4096 := by
    rw [hmask, toNat_and_not_low, BitVec.toNat_add, BitVec.toNat_add]
    have hlow : (BitVec.ofNat 32 (2 ^ 12 - 1)).toNat = 4095 := rfl
    rw [hlow, Nat.mod_add_mod]
    rfl
  generalize hn : (b.toNat + size.toNat + 4095) % 2 ^ 32 / 4096 = last at hlimit huser ⊢
  have hlast : last < 2 ^ 20 := by omega
  have hx : ∀ i ≤ last - b.toNat / 4096, (b &&& ~~~0xFFF#32) + BitVec.ofNat 32 (4096 * i) = BitVec.ofNat 32 ((b.toNat / 4096 + i) * 4096) ∧
      (b.toNat / 4096 + i) * 4096 < 2 ^ 32 := by
    intro i hi
    refine ⟨BitVec.eq_of_toNat_eq ?_, by omega⟩
    rw [BitVec.toNat_add, hstart, BitVec.toNat_ofNat, BitVec.toNat_ofNat]
    omega
  have hxn : ∀ i ≤ last - b.toNat / 4096, ((b &&& ~~~0xFFF#32) + BitVec.ofNat 32 (4096 * i)).toNat = (b.toNat / 4096 + i) * 4096 := by
    intro i hi
    obtain ⟨heq, hlt⟩ := hx i hi
    rw [heq, BitVec.toNat_ofNat, Nat.mod_eq_of_lt hlt]
  obtain ⟨s', hs', hb', ht'⟩ := @mapLoop_pages base user ((b + size + 0xFFF#32) &&& ~~~0xFFF#32) flags id (fun x => x.setWidth 64)
    (last - b.toNat / 4096) (2 ^ 20) (b.toNat / 4096) (b &&& ~~~0xFFF#32) s (by omega) (fun i hi => by
      rw [BitVec.lt_def, hxn i (by omega), hlimit]
      omega) (by
      rw [BitVec.lt_def, hxn _ le_rfl, hlimit]
      omega) (fun i hi => by
      rw [id, hxn i (by omega), hpage]
      omega) (fun i hi => huser _ (by omega) (by omega)) h
  refine ⟨s', hs', hb', fun page => ?_⟩
  rw [ht']
  by_cases hin : b.toNat / 4096 ≤ page ∧ page < last
  · have hback : b.toNat / 4096 + (page - b.toNat / 4096) = page := by omega
    have hphys : ((b &&& ~~~0xFFF#32) + BitVec.ofNat 32 (4096 * (page - b.toNat / 4096))).setWidth 64 = BitVec.ofNat 64 (page * 4096) := by
      apply BitVec.eq_of_toNat_eq
      rw [BitVec.toNat_setWidth, hxn _ (by omega), hback, BitVec.toNat_ofNat]
    rw [if_pos (by omega), if_pos hin, hphys]
  · rw [if_neg (by omega), if_neg hin]

/-- The limit of the loop in `map_phys_at`. -/
theorem total_toNat (phys : U64) (size : U32) :
    ((phys &&& 0xFFF#64).setWidth 32 + size).toNat = (phys.toNat % 4096 + size.toNat) % 2 ^ 32 := by
  have hoff : ((phys &&& 0xFFF#64).setWidth 32).toNat = phys.toNat % 4096 := by
    have hlow : (0xFFF#64 : U64).toNat = 2 ^ 12 - 1 := rfl
    rw [BitVec.toNat_setWidth, BitVec.toNat_and, hlow, Nat.and_two_pow_sub_one_eq_mod]
    omega
  rw [BitVec.toNat_add, hoff]

/-- `map_phys_at` maps as many pages as the offset and the size need together. -/
theorem Pae.Built.mapPhysAt (h : s.Built base user) (virt : U32) (phys : U64) (size flags : U32) {n : Nat}
    (hn : ((phys.toNat % 4096 + size.toNat) % 2 ^ 32 + 4095) / 4096 = n) (hend : (phys.toNat % 4096 + size.toNat) % 2 ^ 32 ≤ 0xFFFFF000)
    (hvirt : virt.toNat / 4096 + n ≤ 2 ^ 20)
    (huser : ∀ v, virt.toNat / 4096 ≤ v → v < virt.toNat / 4096 + n → user (v / 512) = decide (flags &&& pteU ≠ 0#32)) :
    ∃ s', s.mapPhysAt virt phys size flags = some s' ∧ s'.Built base user ∧ ∀ page, s'.translate page =
      if virt.toNat / 4096 ≤ page ∧ page < virt.toNat / 4096 + n then
        readEntry (user (page / 512)) (pteOf (BitVec.ofNat 64 (phys.toNat / 4096 * 4096 + (page - virt.toNat / 4096) * 4096)) flags)
      else s.translate page := by
  have hpage : pageSize = 4096 := rfl
  have hv := virt.isLt
  have hmask : (0xFFF#64 : U64) = BitVec.ofNat 64 (2 ^ 12 - 1) := rfl
  have hp : (phys &&& ~~~0xFFF#64).toNat = phys.toNat / 4096 * 4096 := by
    rw [hmask, toNat_and_not_low]
    rfl
  have htotal := total_toNat phys size
  have hx : ∀ i ≤ n, (0#32 + BitVec.ofNat 32 (4096 * i)).toNat = 4096 * i := by
    intro i hi
    rw [BitVec.zero_add, BitVec.toNat_ofNat]
    omega
  obtain ⟨s', hs', hb', ht'⟩ := @mapLoop_pages base user ((phys &&& 0xFFF#64).setWidth 32 + size) flags (fun done => virt + done)
    (fun done => (phys &&& ~~~0xFFF#64) + done.setWidth 64) n (2 ^ 20) (virt.toNat / 4096) 0#32 s (by omega) (fun i hi => by
      rw [BitVec.lt_def, hx i (by omega), htotal]
      omega) (by
      rw [BitVec.lt_def, hx _ le_rfl, htotal]
      omega) (fun i hi => by
      rw [BitVec.toNat_add, hx i (by omega), hpage]
      omega) (fun i hi => huser _ (by omega) (by omega)) h
  refine ⟨s', hs', hb', fun page => ?_⟩
  rw [ht']
  by_cases hin : virt.toNat / 4096 ≤ page ∧ page < virt.toNat / 4096 + n
  · have hphys : (phys &&& ~~~0xFFF#64) + (0#32 + BitVec.ofNat 32 (4096 * (page - virt.toNat / 4096))).setWidth 64 =
        BitVec.ofNat 64 (phys.toNat / 4096 * 4096 + (page - virt.toNat / 4096) * 4096) := by
      apply BitVec.eq_of_toNat_eq
      rw [BitVec.toNat_add, hp, BitVec.toNat_setWidth, hx _ (by omega), BitVec.toNat_ofNat]
      omega
    rw [if_pos hin, if_pos hin, hphys]
  · rw [if_neg hin, if_neg hin]

/-! ## Runs -/

/-- The calls of a list, the last one apart. -/
theorem Pae.calls_append (s : Pae) (before : List MapCall) (c : MapCall) : s.calls (before ++ [c]) = (s.calls before).bind fun s₁ => s₁.call c := by
  rw [Pae.calls, List.foldlM_append, Pae.calls]
  refine congrArg _ (funext fun s₁ => ?_)
  rw [List.foldlM_cons]
  exact bind_pure _

/-- A map of pages that the walk finds after a call is the update by the call. -/
theorem MapCall.update_eq {c : MapCall} {m m' : Nat → Option (Nat × U32)} {covered : Nat → Prop} [DecidablePred covered] {phys : Nat → U64}
    (ht : ∀ page, m' page = if covered page then readEntry (user (page / 512)) (pteOf (phys page) c.flags) else m page)
    (hcovers : ∀ page, c.Covers page ↔ covered page) (huser : ∀ v, c.Covers v → user (v / 512) = decide (c.flags &&& pteU ≠ 0#32))
    (hfit : ∀ page, c.Covers page → c.flags.toNat < 4096 ∧ (phys page).toNat < 2 ^ 52 ∧
      c.target page = ((phys page).toNat / pageSize * pageSize, c.flags ||| pteP)) : m' = MapCall.update m c := by
  funext page
  rw [ht, MapCall.update]
  by_cases hc : c.Covers page
  · obtain ⟨hflags, hphys, htarget⟩ := hfit page hc
    rw [if_pos ((hcovers page).mp hc), if_pos hc, huser page hc, readEntry_pteOf hphys hflags, htarget]
  · rw [if_neg (mt (hcovers page).mpr hc), if_neg hc]

/-- A call that fits maps the pages it covers to where it says. -/
theorem MapCall.Fits.call {c : MapCall} (hc : c.Fits) (h : s.Built base user)
    (huser : ∀ v, c.Covers v → user (v / 512) = decide (c.flags &&& pteU ≠ 0#32)) :
    ∃ s', s.call c = some s' ∧ s'.Built base user ∧ s'.translate = MapCall.update s.translate c := by
  have hpage : pageSize = 4096 := rfl
  cases c with
  | page virt phys flags =>
    obtain ⟨hphys, hflags⟩ := hc
    have hcovers : ∀ page, (MapCall.page virt phys flags).Covers page ↔ page = virt.toNat / pageSize := by
      intro page
      simp only [MapCall.Covers, PageMeets, MapCall.start, MapCall.len, hpage]
      omega
    obtain ⟨hb, ht⟩ := h.mapPage rfl phys (huser _ ((hcovers _).mpr rfl))
    exact ⟨_, rfl, hb, update_eq ht hcovers huser fun _ _ => ⟨hflags, hphys, rfl⟩⟩
  | identity b size flags =>
    have hb := b.isLt
    have hcovers : ∀ page, (MapCall.identity b size flags).Covers page ↔
        b.toNat / 4096 ≤ page ∧ page < (b.toNat + size.toNat + 4095) % 2 ^ 32 / 4096 := by
      intro page
      simp only [MapCall.Covers, PageMeets, MapCall.start, MapCall.len, hpage]
      rw [MapCall.Fits, hpage] at hc
      split at hc
      · next hzero =>
        have h0 : size.toNat = 0 := by rw [hzero]; rfl
        omega
      · next hsize =>
        have h0 : size.toNat ≠ 0 := fun h0 => hsize (BitVec.eq_of_toNat_eq h0)
        omega
    have hflags : ∀ page, (MapCall.identity b size flags).Covers page → size.toNat ≠ 0 := fun page hp => Nat.ne_of_gt hp.1
    obtain ⟨s', hs', hb', ht'⟩ := h.mapIdentity b size flags fun v h1 h2 => huser v ((hcovers v).mpr ⟨h1, h2⟩)
    refine ⟨s', hs', hb', update_eq ht' hcovers huser fun page hp => ?_⟩
    have hsize : size ≠ 0#32 := fun hzero => hflags page hp (by rw [hzero]; rfl)
    rw [MapCall.Fits, if_neg hsize] at hc
    have hlast := (hcovers page).mp hp
    have hphys : (BitVec.ofNat 64 (page * 4096)).toNat = page * 4096 := by
      rw [BitVec.toNat_ofNat]
      omega
    refine ⟨hc.2, by rw [hphys]; omega, ?_⟩
    rw [hphys, hpage, Nat.mul_div_cancel _ (by decide)]
    rfl
  | physAt virt phys size flags =>
    have hv := virt.isLt
    have hcovers : ∀ page, (MapCall.physAt virt phys size flags).Covers page ↔
        virt.toNat / 4096 ≤ page ∧ page < virt.toNat / 4096 + ((phys.toNat % 4096 + size.toNat) % 2 ^ 32 + 4095) / 4096 := by
      intro page
      simp only [MapCall.Covers, PageMeets, MapCall.start, MapCall.len, hpage]
      rw [MapCall.Fits, hpage] at hc
      split at hc
      · next hzero =>
        have h0 : size.toNat = 0 := by rw [hzero]; rfl
        omega
      · next hsize =>
        have h0 : size.toNat ≠ 0 := fun h0 => hsize (BitVec.eq_of_toNat_eq h0)
        omega
    have hend : (phys.toNat % 4096 + size.toNat) % 2 ^ 32 ≤ 0xFFFFF000 ∧
        virt.toNat / 4096 + ((phys.toNat % 4096 + size.toNat) % 2 ^ 32 + 4095) / 4096 ≤ 2 ^ 20 := by
      rw [MapCall.Fits, hpage] at hc
      split at hc
      · next hzero =>
        have h0 : size.toNat = 0 := by rw [hzero]; rfl
        omega
      · omega
    obtain ⟨s', hs', hb', ht'⟩ := h.mapPhysAt virt phys size flags rfl hend.1 hend.2 fun v h1 h2 => huser v ((hcovers v).mpr ⟨h1, h2⟩)
    refine ⟨s', hs', hb', update_eq ht' hcovers huser fun page hp => ?_⟩
    have hsize : size ≠ 0#32 := fun hzero => Nat.ne_of_gt hp.1 (by rw [MapCall.len, hzero]; rfl)
    rw [MapCall.Fits, if_neg hsize, hpage] at hc
    have hlast := (hcovers page).mp hp
    have hphys : (BitVec.ofNat 64 (phys.toNat / 4096 * 4096 + (page - virt.toNat / 4096) * 4096)).toNat =
        phys.toNat / 4096 * 4096 + (page - virt.toNat / 4096) * 4096 := by
      rw [BitVec.toNat_ofNat]
      omega
    refine ⟨hc.2.2.2, by rw [hphys]; omega, ?_⟩
    have hdown : (phys.toNat / 4096 * 4096 + (page - virt.toNat / 4096) * 4096) / 4096 * 4096 =
        phys.toNat / 4096 * 4096 + (page - virt.toNat / 4096) * 4096 := by omega
    rw [hphys, hpage, hdown]
    rfl

/-- A run of calls that fit. -/
theorem calls_fit : ∀ {cs : List MapCall} {s : Pae}, (∀ c ∈ cs, c.Fits) →
    (∀ c ∈ cs, ∀ v, c.Covers v → user (v / 512) = decide (c.flags &&& pteU ≠ 0#32)) → s.Built base user →
    ∃ s', s.calls cs = some s' ∧ s'.Built base user ∧ s'.translate = cs.foldl MapCall.update s.translate := by
  intro cs
  induction cs with
  | nil => exact fun _ _ h => ⟨_, rfl, h, rfl⟩
  | cons c cs ih =>
    intro s hfit huser h
    obtain ⟨s₁, hs₁, hb₁, ht₁⟩ := (hfit c List.mem_cons_self).call h (huser c List.mem_cons_self)
    obtain ⟨s', hs', hb', ht'⟩ := ih (fun c hc => hfit c (List.mem_cons_of_mem _ hc)) (fun c hc => huser c (List.mem_cons_of_mem _ hc)) hb₁
    refine ⟨s', ?_, hb', ?_⟩
    · rw [Pae.calls, List.foldlM_cons, hs₁]
      exact hs'
    · rw [ht', ht₁, List.foldl_cons]

/-- What the last call of a run has done. -/
theorem mapsRight_of_fit {cs : List MapCall} (hfit : ∀ c ∈ cs, c.Fits)
    (huser : ∀ c ∈ cs, ∀ v, c.Covers v → user (v / 512) = decide (c.flags &&& pteU ≠ 0#32)) (h : s.Built base user)
    (hnone : ∀ page, s.translate page = none) : s.MapsRight cs := by
  refine ⟨?_, fun before c hpre => ?_⟩
  · obtain ⟨s', hs', -, ht'⟩ := calls_fit hfit huser h
    refine ⟨s', hs', fun page => ?_⟩
    rw [ht', funext hnone]
    rfl
  · have hmem : ∀ c' ∈ before ++ [c], c' ∈ cs := fun c' hc' => hpre.subset hc'
    obtain ⟨s₁, hs₁, hb₁, -⟩ := calls_fit (fun c' hc' => hfit c' (hmem c' (List.mem_append_left _ hc')))
      (fun c' hc' => huser c' (hmem c' (List.mem_append_left _ hc'))) h
    have hc : c ∈ cs := hmem c List.mem_concat_self
    obtain ⟨s₂, hs₂, -, ht₂⟩ := (hfit c hc).call hb₁ (huser c hc)
    refine ⟨s₁, s₂, hs₁, hs₂, fun page hp => ?_⟩
    rw [ht₂, MapCall.update, if_neg hp]

end Loops

/-! ## One call that does not fit -/

/-- What a call that maps right has done. -/
theorem Pae.MapsRight.single {s : Pae} {c : MapCall} (h : s.MapsRight [c]) :
    ∃ s', s.call c = some s' ∧ ∀ page, s'.translate page = if c.Covers page then some (c.target page) else none := by
  obtain ⟨s', hs', ht'⟩ := h.flat
  rw [show [c] = [] ++ [c] from rfl, Pae.calls_append] at hs'
  exact ⟨s', hs', ht'⟩

/-- The flags that the walk finds are those of the call. -/
theorem flags_of_target {s : Pae} {c : MapCall} {page : Nat} (h : s.translate page = some (c.target page)) : c.flags.toNat < 4096 := by
  have hle : c.flags.toNat ≤ (c.flags ||| pteP).toNat := by
    rw [BitVec.toNat_or]
    exact Nat.left_le_or
  exact hle.trans_lt (translate_bounds h).2

section Single

variable {s : Pae}

theorem mapsRight_page {virt : U32} {phys : U64} {flags : U32} (h : s.MapsRight [.page virt phys flags]) :
    (MapCall.page virt phys flags).Fits := by
  have hpage : pageSize = 4096 := rfl
  obtain ⟨s', -, ht⟩ := h.single
  have hcovers : (MapCall.page virt phys flags).Covers (virt.toNat / 4096) := by
    simp only [MapCall.Covers, PageMeets, MapCall.start, MapCall.len, hpage]
    omega
  have hfound := ht (virt.toNat / 4096)
  rw [if_pos hcovers] at hfound
  have hphys : phys.toNat / 4096 * 4096 < 2 ^ 52 := (translate_bounds hfound).1
  exact ⟨by omega, flags_of_target hfound⟩

theorem mapsRight_identity (haligned : s.physFree.toNat % 4096 = 0) {b size flags : U32} (h : s.pdptInit.MapsRight [.identity b size flags]) :
    (MapCall.identity b size flags).Fits := by
  have hpage : pageSize = 4096 := rfl
  have hb := b.isLt
  obtain ⟨s', hs', ht⟩ := h.single
  obtain ⟨s₂, hs₂, -, ht₂⟩ := (built_pdptInit (fun _ => decide (flags &&& pteU ≠ 0#32)) haligned).mapIdentity b size flags fun _ _ _ => rfl
  obtain rfl : s' = s₂ := Option.some.inj (hs'.symm.trans hs₂)
  simp only [translate_pdptInit haligned, ht] at ht₂
  rw [MapCall.Fits]
  split
  · next hzero =>
    have h0 : size.toNat = 0 := by rw [hzero]; rfl
    by_contra hnot
    rw [hpage] at hnot
    -- the page of the base is mapped, though no byte of it is asked for
    have hfound := ht₂ (b.toNat / 4096)
    rw [if_neg (fun hc => Nat.ne_of_gt hc.1 h0), if_pos (by omega), readEntry, if_neg (pteOf_present _ _)] at hfound
    cases hfound
  · next hsize =>
    have h0 : size.toNat ≠ 0 := fun h0 => hsize (BitVec.eq_of_toNat_eq h0)
    have hcovers : ∀ page, (MapCall.identity b size flags).Covers page ↔ b.toNat < (page + 1) * 4096 ∧ page * 4096 < b.toNat + size.toNat := by
      intro page
      simp only [MapCall.Covers, PageMeets, MapCall.start, MapCall.len, hpage]
      omega
    constructor
    · by_contra hnot
      -- the last page of the address space is in the range, but no limit is above it
      have hlost := ht₂ (2 ^ 20 - 1)
      rw [if_pos ((hcovers _).mpr (by omega)), if_neg (by omega)] at hlost
      cases hlost
    · have hfound := ht (b.toNat / 4096)
      rw [if_pos ((hcovers _).mpr (by omega))] at hfound
      exact flags_of_target hfound

theorem mapsRight_physAt (haligned : s.physFree.toNat % 4096 = 0) {virt : U32} {phys : U64} {size flags : U32}
    (h : s.pdptInit.MapsRight [.physAt virt phys size flags]) : (MapCall.physAt virt phys size flags).Fits := by
  have hpage : pageSize = 4096 := rfl
  have hv := virt.isLt
  obtain ⟨s', hs', ht⟩ := h.single
  have hspec := fun n hn hend hvirt => @Pae.Built.mapPhysAt _ _ _ (built_pdptInit (fun _ => decide (flags &&& pteU ≠ 0#32)) haligned)
    virt phys size flags n hn hend hvirt fun _ _ _ => rfl
  rw [MapCall.Fits, hpage]
  split
  · next hzero =>
    have h0 : size.toNat = 0 := by rw [hzero]; rfl
    by_contra hnot
    obtain ⟨s₂, hs₂, -, ht₂⟩ := hspec 1 (by omega) (by omega) (by omega)
    obtain rfl : s' = s₂ := Option.some.inj (hs'.symm.trans hs₂)
    have hfound := (ht _).symm.trans (ht₂ (virt.toNat / 4096))
    rw [if_neg (fun hc => Nat.ne_of_gt hc.1 h0), if_pos (by omega), readEntry, if_neg (pteOf_present _ _)] at hfound
    cases hfound
  · next hsize =>
    have h0 : size.toNat ≠ 0 := fun h0 => hsize (BitVec.eq_of_toNat_eq h0)
    have hcovers : ∀ page, (MapCall.physAt virt phys size flags).Covers page ↔
        virt.toNat / 4096 * 4096 + phys.toNat % 4096 < (page + 1) * 4096 ∧
          page * 4096 < virt.toNat / 4096 * 4096 + phys.toNat % 4096 + size.toNat := by
      intro page
      simp only [MapCall.Covers, PageMeets, MapCall.start, MapCall.len, hpage]
      omega
    refine ⟨?_, ?_, ?_, ?_⟩
    · by_contra hnot
      by_cases hwrap : phys.toNat % 4096 + size.toNat < 2 ^ 32
      · have hnone : s.pdptInit.mapPhysAt virt phys size flags = none := by
          refine mapLoop_forever ?_ _ _ rfl
          rw [total_toNat]
          omega
        cases hnone.symm.trans hs'
      · -- the sum comes out at less than a page
        obtain ⟨s₂, hs₂, -, ht₂⟩ := hspec _ rfl (by omega) (by omega)
        obtain rfl : s' = s₂ := Option.some.inj (hs'.symm.trans hs₂)
        have hlost := (ht _).symm.trans (ht₂ (virt.toNat / 4096 + 1))
        rw [if_pos ((hcovers _).mpr (by omega)), if_neg (by omega), translate_pdptInit haligned] at hlost
        cases hlost
    · by_contra hnot
      -- a page past 4GB is in the range
      have hlost := ht (2 ^ 20)
      rw [if_pos ((hcovers _).mpr (by omega)), Pae.translate, if_neg (by omega)] at hlost
      cases hlost
    · have hlast := ht ((virt.toNat / 4096 * 4096 + phys.toNat % 4096 + size.toNat - 1) / 4096)
      rw [if_pos ((hcovers _).mpr (by omega))] at hlast
      have hphys : phys.toNat / 4096 * 4096 +
          ((virt.toNat / 4096 * 4096 + phys.toNat % 4096 + size.toNat - 1) / 4096 - virt.toNat / 4096) * 4096 < 2 ^ 52 :=
        (translate_bounds hlast).1
      omega
    · have hfound := ht (virt.toNat / 4096)
      rw [if_pos ((hcovers _).mpr (by omega))] at hfound
      exact flags_of_target hfound

end Single

theorem mapsRight_single_iff {s : Pae} (haligned : s.physFree.toNat % 4096 = 0) (c : MapCall) : s.pdptInit.MapsRight [c] ↔ c.Fits := by
  refine ⟨fun h => ?_, fun hfit => ?_⟩
  · cases c with
    | page => exact mapsRight_page h
    | identity => exact mapsRight_identity haligned h
    | physAt => exact mapsRight_physAt haligned h
  · refine mapsRight_of_fit ?_ ?_ (built_pdptInit (fun _ => decide (c.flags &&& pteU ≠ 0#32)) haligned) (translate_pdptInit haligned)
    · intro c' hc'
      rwa [List.mem_singleton.mp hc']
    · intro c' hc' v _
      rw [List.mem_singleton.mp hc']

/-- From the tables that `pdpt_init` builds on, runs of calls that fit are updates of a map of pages; a call by itself is one if and only if
it fits. -/
theorem page_mapping_updates {s : Pae} (haligned : s.physFree.toNat % pageSize = 0) :
    (∀ cs : List MapCall, (∀ c ∈ cs, c.Fits) → MapCall.Agree cs → s.pdptInit.MapsRight cs) ∧
      ∀ c, s.pdptInit.MapsRight [c] ↔ c.Fits := by
  refine ⟨fun cs hfit hagree => ?_, mapsRight_single_iff haligned⟩
  -- a region is for user code when some call of the run that covers a page of it says so
  classical
  refine mapsRight_of_fit hfit (fun c hc v hv => ?_)
    (built_pdptInit (fun r => decide (∃ c ∈ cs, ∃ v, c.Covers v ∧ v / 512 = r ∧ c.flags &&& pteU ≠ 0#32)) haligned)
    (translate_pdptInit haligned)
  refine decide_eq_decide.mpr ⟨?_, fun hu => ⟨c, hc, v, hv, rfl, hu⟩⟩
  rintro ⟨c', hc', v', hv', hr, hu⟩
  rwa [hagree c hc c' hc' v v' hv hv' hr.symm]

/-- Memory from 2MB on is free. -/
def Pae.fresh : Pae := ⟨fun _ => 0#64, fun _ _ => 0#64, 0x200000#32⟩

/-- A range of three pages for the kernel, and over the last of them a page at another place. -/
theorem page_mapping_updates_overlap :
    Pae.fresh.pdptInit.MapsRight [.identity 0x00100800#32 0x2000#32 pteW, .physAt 0x00102000#32 0xF00000010#64 0x20#32 pteW] := by
  refine (page_mapping_updates (s := Pae.fresh) rfl).1 _ (by decide) fun c hc c' hc' _ _ _ _ _ => ?_
  have hsystem : ∀ c ∈ [MapCall.identity 0x00100800#32 0x2000#32 pteW, .physAt 0x00102000#32 0xF00000010#64 0x20#32 pteW],
      c.flags = pteW := by decide
  rw [hsystem c hc, hsystem c' hc']

/-- The last page of the address space is not mapped to itself. -/
theorem page_mapping_loses_last_page :
    Pae.fresh.physFree.toNat % pageSize = 0 ∧ MapCall.Agree [.identity 0xFFFFF000#32 0x1000#32 pteW] ∧
      ¬Pae.fresh.pdptInit.MapsRight [.identity 0xFFFFF000#32 0x1000#32 pteW] := by
  refine ⟨rfl, fun c hc c' hc' _ _ _ _ _ => ?_, fun h => ?_⟩
  · rw [List.mem_singleton.mp hc, List.mem_singleton.mp hc']
  · exact absurd ((mapsRight_single_iff rfl _).mp h) (by decide)

end MiniOs32
