import MiniOs32.Lemmas.PageTables

/-!
# Calls of `map_page` page by page

The translation of every page after the loops of `map_identity` and `map_phys_at`, by the pages that they come to.
-/

namespace MiniOs32

/-- The tables behind a page-directory-pointer table are right. -/
def Pae.Built (base : Nat) (user : Nat → Bool) (s : Pae) : Prop := ∃ slot, PaeTables base user s slot

/-! ## `pdpt_init` -/

/-- The first directories are there, without an entry. -/
structure Directories (base : Nat) (s : Pae) (i : Nat) : Prop where
  free : s.physFree = BitVec.ofNat 32 (base + 4096 * i)
  pdpt : ∀ j < i, (s.pdpt j).toNat = frameAt base j + 1
  clear : ∀ j < i, ∀ k, s.frames (frameAt base j) k = 0#64

theorem Directories.initEntry {base : Nat} {s : Pae} {i : Nat} (haligned : base % 4096 = 0) (h : Directories base s i) :
    Directories base (s.initEntry i) (i + 1) := by
  have hnext : s.physFree.toNat = frameAt base i := by
    rw [h.free, BitVec.toNat_ofNat, frameAt]
  have hbounds := frameAt_bounds haligned i
  refine ⟨?_, fun j hj => ?_, fun j hj k => ?_⟩
  · have hsum : base + 4096 * (i + 1) = base + 4096 * i + 4096 := by lia
    have hfree : (s.initEntry i).physFree = s.physFree + 0x1000#32 := rfl
    rw [hfree, h.free, hsum]
    exact (BitVec.ofNat_add _ 4096).symm
  · have hpdpt : (s.initEntry i).pdpt j = if j = i then s.physFree.setWidth 64 ||| pteP.setWidth 64 else s.pdpt j := rfl
    rw [hpdpt]
    split
    · next heq =>
      have h64 : (s.physFree.setWidth 64).toNat = frameAt base i := by
        rw [BitVec.toNat_setWidth, hnext]
        lia
      have hP : (pteP.setWidth 64).toNat = 1 := rfl
      rw [toNat_or_low (k := 12) (by rw [h64]; exact hbounds.1) (by rw [hP]; decide), h64, hP, heq]
    · exact h.pdpt j (by lia)
  · have hframes : (s.initEntry i).frames (frameAt base j) k =
        if frameAt base j = s.physFree.toNat then 0#64 else s.frames (frameAt base j) k := rfl
    rw [hframes, hnext]
    split
    · rfl
    · next hne => exact h.clear j (Nat.lt_of_le_of_ne (by lia) fun heq => hne (by rw [heq])) k

/-- `pdpt_init` builds tables without an entry for a page. -/
theorem tables_pdptInit (user : Nat → Bool) {s : Pae} (h : s.physFree.toNat % 4096 = 0) :
    PaeTables s.physFree.toNat user s.pdptInit fun _ => none := by
  have h0 : Directories s.physFree.toNat s 0 := ⟨by simp, fun _ hj => absurd hj (Nat.not_lt_zero _), fun _ hj => absurd hj (Nat.not_lt_zero _)⟩
  have h4 : Directories s.physFree.toNat s.pdptInit 4 := (((h0.initEntry h).initEntry h).initEntry h).initEntry h
  have hcount : tableCount (fun _ => none) = 0 := by
    rw [tableCount, Finset.card_eq_zero, Finset.filter_eq_empty_iff]
    exact fun _ _ => Bool.false_ne_true
  refine ⟨h, ?_, h4.pdpt, fun r hr => ?_, fun _ _ hk => absurd hk (Option.some_ne_none _).symm,
    fun _ _ _ hk => absurd hk (Option.some_ne_none _).symm⟩
  · rw [hcount]
    exact h4.free
  · rw [h4.clear _ (by omega)]
    rfl

theorem built_pdptInit (user : Nat → Bool) {s : Pae} (h : s.physFree.toNat % 4096 = 0) : s.pdptInit.Built s.physFree.toNat user :=
  ⟨_, tables_pdptInit user h⟩

/-- No page is mapped. -/
theorem translate_pdptInit {s : Pae} (h : s.physFree.toNat % 4096 = 0) (page : Nat) : s.pdptInit.translate page = none := by
  by_cases hp : page < 2 ^ 20
  · have hclear : s.pdptInit.entryAt s.physFree.toNat (fun _ => none) (page / 512) (page % 512) = 0#64 := rfl
    rw [(tables_pdptInit (fun _ => true) h).translate hp, hclear]
    rfl
  · exact if_neg hp

/-! ## One page -/

section Mapping

variable {base : Nat} {user : Nat → Bool} {s : Pae}

/-- After `map_page` the walk comes to the new entry for its page, and for another page to the one it came to before. -/
theorem Pae.Built.mapPage (h : s.Built base user) {virt : U32} {first : Nat} (hv : virt.toNat / pageSize = first) (phys : U64) {flags : U32}
    (huser : user (first / 512) = decide (flags &&& pteU ≠ 0#32)) :
    (s.mapPage virt phys flags).Built base user ∧ ∀ page, (s.mapPage virt phys flags).translate page =
      if page = first then readEntry (user (page / 512)) (pteOf phys flags) else s.translate page := by
  obtain ⟨slot, h⟩ := h
  have hpage : pageSize = 4096 := rfl
  have hlt := virt.isLt
  rw [hpage] at hv
  have hregion : virt.toNat / 2 ^ 21 = first / 512 := by lia
  have hindex : virt.toNat / 2 ^ 12 % 512 = first % 512 := by lia
  obtain ⟨slot', h', hentry⟩ := h.mapPage virt phys (by rwa [hregion])
  refine ⟨⟨slot', h'⟩, fun page => ?_⟩
  by_cases hp : page < 2 ^ 20
  · rw [h'.translate hp, hentry, hregion, hindex, apply_ite (readEntry _)]
    refine if_congr ⟨fun heq => by lia, ?_⟩ rfl (h.translate hp).symm
    rintro rfl
    exact ⟨rfl, rfl⟩
  · have hnone : ∀ t : Pae, t.translate page = none := fun t => if_neg hp
    rw [if_neg (by lia), hnone, hnone]

/-- What the walk reads of an entry for a page. -/
theorem readEntry_pteOf {phys : U64} {flags : U32} (hphys : phys.toNat < 2 ^ 52) (hflags : flags.toNat < 4096) :
    readEntry (decide (flags &&& pteU ≠ 0#32)) (pteOf phys flags) = some (phys.toNat / pageSize * pageSize, flags ||| pteP) := by
  have hpage : pageSize = 4096 := rfl
  have he := toNat_pteOf phys hflags
  obtain ⟨hlt, -⟩ := toNat_present hflags
  have hframe : entryFrame (pteOf phys flags) = phys.toNat / pageSize * pageSize := by
    rw [entryFrame_eq, he, hpage]
    omega
  have hlow : (pteOf phys flags &&& 0xFFF#64).setWidth 32 = flags ||| pteP := by
    apply BitVec.eq_of_toNat_eq
    have hmask : (0xFFF#64 : U64).toNat = 2 ^ 12 - 1 := rfl
    rw [BitVec.toNat_setWidth, BitVec.toNat_and, hmask, Nat.and_two_pow_sub_one_eq_mod, he]
    omega
  have hkeep : (flags ||| pteP) &&& (if flags &&& pteU ≠ 0#32 then BitVec.allOnes 32 else ~~~pteU) = flags ||| pteP := by
    split
    · exact BitVec.and_allOnes
    · next hu =>
      rw [not_not] at hu
      have hor : (flags ||| pteP) &&& pteU = 0#32 := by
        rw [BitVec.and_comm, BitVec.and_or_distrib_left, BitVec.and_comm, hu]
        rfl
      have hsplit : (flags ||| pteP) &&& ~~~pteU = (flags ||| pteP) ^^^ ((flags ||| pteP) &&& pteU) := by
        ext i hi
        simp only [BitVec.getElem_and, BitVec.getElem_not, BitVec.getElem_xor]
        cases (flags ||| pteP)[i] <;> cases pteU[i] <;> rfl
      rw [hsplit, hor]
      exact BitVec.xor_zero
  rw [readEntry, if_neg (pteOf_present phys flags), hframe, hlow]
  simp only [decide_eq_true_eq]
  rw [hkeep]

/-- What a walk finds is a frame in 52 bits, with twelve bits of flags. -/
theorem translate_bounds {s : Pae} {page a : Nat} {f : U32} (h : s.translate page = some (a, f)) : a < 2 ^ 52 ∧ f.toNat < 4096 := by
  have hflags : ∀ above e : U64, (entryFlags above e).toNat < 4096 := by
    intro above e
    have hmask : (0xFFF#64 : U64).toNat = 2 ^ 12 - 1 := rfl
    have hle : (entryFlags above e).toNat ≤ ((e &&& 0xFFF#64).setWidth 32).toNat := by
      rw [entryFlags, BitVec.toNat_and]
      exact Nat.and_le_left
    rw [BitVec.toNat_setWidth, BitVec.toNat_and, hmask, Nat.and_two_pow_sub_one_eq_mod] at hle
    omega
  have hlarge : ∀ e : U64, (e &&& 0x000FFFFFFFE00000#64).toNat ≤ 0x000FFFFFFFE00000 := fun e => by
    rw [BitVec.toNat_and]
    exact Nat.and_le_right
  have hpage : pageSize = 4096 := rfl
  rw [Pae.translate, Pae.walk] at h
  dsimp only at h
  split at h <;> [skip; cases h]
  split at h <;> [cases h; skip]
  split at h <;> [cases h; skip]
  split at h
  · obtain ⟨rfl, rfl⟩ := Prod.mk.inj (Option.some.inj h)
    have hl := hlarge (s.frames (entryFrame (s.pdpt (page * pageSize / 2 ^ 30))) (page * pageSize / 2 ^ 21 % 512))
    rw [hpage] at hl ⊢
    exact ⟨by omega, hflags _ _⟩
  · split at h <;> [cases h; skip]
    obtain ⟨rfl, rfl⟩ := Prod.mk.inj (Option.some.inj h)
    refine ⟨?_, hflags _ _⟩
    rw [entryFrame_eq]
    exact Nat.mod_lt _ (by decide)

/-! ## Page by page -/

/-- A loop that stops after `n` turns maps `n` pages one behind the other. -/
theorem mapLoop_pages {limit flags : U32} {v : U32 → U32} {p : U32 → U64} {n : Nat} : ∀ {turns first : Nat} {x : U32} {s : Pae}, n ≤ turns →
    (∀ i < n, x + BitVec.ofNat 32 (4096 * i) < limit) → ¬x + BitVec.ofNat 32 (4096 * n) < limit →
    (∀ i < n, (v (x + BitVec.ofNat 32 (4096 * i))).toNat / pageSize = first + i) →
    (∀ i < n, user ((first + i) / 512) = decide (flags &&& pteU ≠ 0#32)) → s.Built base user →
    ∃ s', Pae.mapLoop limit (fun x s => s.mapPage (v x) (p x) flags) (turns + 1) x s = some s' ∧ s'.Built base user ∧
      ∀ page, s'.translate page = if first ≤ page ∧ page < first + n then
        readEntry (user (page / 512)) (pteOf (p (x + BitVec.ofNat 32 (4096 * (page - first)))) flags) else s.translate page := by
  induction n with
  | zero =>
    intro turns first x s _ _ hstop _ _ h
    rw [Nat.mul_zero, BitVec.add_zero] at hstop
    refine ⟨s, ?_, h, fun page => (if_neg (by lia)).symm⟩
    rw [Pae.mapLoop_succ, if_neg hstop]
  | succ n ih =>
    intro turns first x s hturns hgo hstop hv huser h
    -- the turns that are left begin one page on
    have hon : ∀ i, x + 0x1000#32 + BitVec.ofNat 32 (4096 * i) = x + BitVec.ofNat 32 (4096 * (i + 1)) := by
      intro i
      have hsum : 4096 * (i + 1) = 4096 + 4096 * i := by lia
      rw [hsum, BitVec.ofNat_add 4096, BitVec.add_assoc]
    have hx : x + BitVec.ofNat 32 (4096 * 0) = x := BitVec.add_zero x
    have hgo0 := hgo 0 (by lia)
    have hv0 := hv 0 (by lia)
    have huser0 := huser 0 (by lia)
    rw [hx] at hgo0 hv0
    obtain ⟨hb, ht⟩ := h.mapPage hv0 (p x) huser0
    obtain ⟨turns, rfl⟩ : ∃ t, turns = t + 1 := ⟨turns - 1, by lia⟩
    obtain ⟨s', hs', hb', ht'⟩ := @ih turns (first + 1) (x + 0x1000#32) _ (by lia) (fun i hi => by
      rw [hon]
      exact hgo (i + 1) (by lia)) (by rwa [hon]) (fun i hi => by
      rw [hon, hv (i + 1) (by lia)]
      lia) (fun i hi => by
      rw [← huser (i + 1) (by lia)]
      congr 2
      lia) hb
    refine ⟨s', ?_, hb', fun page => ?_⟩
    · rw [Pae.mapLoop_succ, if_pos hgo0]
      exact hs'
    · rw [ht', ht]
      by_cases hrest : first + 1 ≤ page ∧ page < first + 1 + n
      · have hback : page - (first + 1) + 1 = page - first := by lia
        rw [if_pos hrest, if_pos (by lia), hon, hback]
      · rw [if_neg hrest]
        by_cases hfirst : page = first
        · subst hfirst
          have hself : page - page = 0 := Nat.sub_self page
          rw [if_pos (Nat.add_zero page).symm, if_pos (by lia), hself, hx]
        · rw [if_neg (by lia), if_neg (by lia)]

/-- A loop up to a limit in the last page never ends. -/
theorem mapLoop_forever {limit : U32} (hlimit : 0xFFFFF000 < limit.toNat) (body : U32 → Pae → Pae) (turns : Nat) :
    ∀ {x : U32} {s : Pae}, x.toNat % 4096 = 0 → Pae.mapLoop limit body turns x s = none := by
  induction turns with
  | zero => exact fun _ => rfl
  | succ turns ih =>
    intro x s hx
    have hlt : x < limit := by
      rw [BitVec.lt_def]
      have := x.isLt
      omega
    rw [Pae.mapLoop_succ, if_pos hlt]
    apply ih
    rw [BitVec.toNat_add]
    have h4096 : (0x1000#32 : U32).toNat = 4096 := rfl
    omega

end Mapping

end MiniOs32
