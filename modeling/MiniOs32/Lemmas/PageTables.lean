import MiniOs32.Kernel.PageMap

/-!
# The tables that `map_page` builds

Frames are handed out one behind the other: four directories, then a table for each 2MB in which a page was mapped. What the walk finds
depends on one entry of a table, and a call of `map_page` sets one.
-/

namespace MiniOs32

/-! ## Entries -/

theorem entryPointer_eq (e : U64) : entryPointer e = e.toNat / 2 ^ 12 * 2 ^ 12 % 2 ^ 32 := by
  rw [entryPointer, BitVec.toNat_setWidth, show (0xFFF#64 : U64) = BitVec.ofNat 64 (2 ^ 12 - 1) from rfl, toNat_and_not_low]

theorem entryFrame_eq (e : U64) : entryFrame e = e.toNat / 2 ^ 12 * 2 ^ 12 % 2 ^ 52 := by
  have h : e &&& 0x000FFFFFFFFFF000#64 = (e &&& ~~~BitVec.ofNat 64 (2 ^ 12 - 1)) &&& BitVec.ofNat 64 (2 ^ 52 - 1) := by
    rw [BitVec.and_assoc]
    rfl
  have hmask : (BitVec.ofNat 64 (2 ^ 52 - 1)).toNat = 2 ^ 52 - 1 := rfl
  rw [entryFrame, h, BitVec.toNat_and, hmask, Nat.and_two_pow_sub_one_eq_mod, toNat_and_not_low]

theorem pdIdx_eq (virt : U32) : pdIdx virt = virt.toNat / 2 ^ 21 % 512 := by
  rw [pdIdx, BitVec.toNat_and, BitVec.toNat_ushiftRight, Nat.shiftRight_eq_div_pow]
  exact Nat.and_two_pow_sub_one_eq_mod _ 9

theorem ptIdx_eq (virt : U32) : ptIdx virt = virt.toNat / 2 ^ 12 % 512 := by
  rw [ptIdx, BitVec.toNat_and, BitVec.toNat_ushiftRight, Nat.shiftRight_eq_div_pow]
  exact Nat.and_two_pow_sub_one_eq_mod _ 9

/-- An entry that is not present. -/
theorem and_one_eq_zero_iff (e : U64) : e &&& 1#64 = 0#64 ↔ e.toNat % 2 = 0 := by
  rw [← BitVec.toNat_inj, BitVec.toNat_and]
  exact iff_of_eq (congrArg (· = 0) (Nat.and_one_is_mod _))

/-- Bit 7 of an entry. -/
theorem and_bit7_eq_zero {e : U64} (h : e.toNat % 2 ^ 12 < 128) : e &&& 0x80#64 = 0#64 := by
  apply BitVec.eq_of_getLsbD_eq
  intro i hi
  rw [BitVec.getLsbD_and]
  by_cases h7 : i = 7
  · subst h7
    have hbit : e.getLsbD 7 = false := by
      rw [← BitVec.testBit_toNat, Nat.testBit_eq_decide_div_mod_eq, decide_eq_false_iff_not]
      omega
    rw [hbit]
    rfl
  · have hmask : (0x80#64).getLsbD i = false := by
      have hall : ∀ j < 64, j ≠ 7 → (0x80#64).getLsbD j = false := by decide
      exact hall i hi h7
    rw [hmask, Bool.and_false]
    exact (BitVec.getLsbD_zero).symm

/-- Flags with `PTE_P`. -/
theorem toNat_present {flags : U32} (hf : flags.toNat < 4096) : (flags ||| pteP).toNat < 4096 ∧ (flags ||| pteP).toNat % 2 = 1 := by
  have hP : pteP.toNat = 1 := rfl
  rw [BitVec.toNat_or, hP]
  refine ⟨Nat.or_lt_two_pow (n := 12) hf (by decide), ?_⟩
  rw [← Nat.and_one_is_mod, Nat.and_or_distrib_right]
  rw [Nat.and_self, Nat.and_one_is_mod]
  rcases Nat.mod_two_eq_zero_or_one flags.toNat with h | h <;> rw [h] <;> rfl

/-- An entry for a page, whose flags are in the low bits. -/
theorem toNat_pteOf (phys : U64) {flags : U32} (hf : flags.toNat < 4096) :
    (pteOf phys flags).toNat = phys.toNat / 2 ^ 12 * 2 ^ 12 + (flags ||| pteP).toNat := by
  have hp := toNat_and_not_low phys 12
  have hw : ((flags ||| pteP).setWidth 64).toNat = (flags ||| pteP).toNat := by
    rw [BitVec.toNat_setWidth]
    have := (toNat_present hf).1
    lia
  rw [pteOf, toNat_or_low (k := 12) ?_ ?_, hw]
  · exact congrArg (· + _) hp
  · exact (congrArg (· % 4096) hp).trans (Nat.mul_mod_left _ _)
  · rw [hw]
    exact (toNat_present hf).1

/-- Every entry for a page is present. -/
theorem pteOf_present (phys : U64) (flags : U32) : pteOf phys flags &&& 1#64 ≠ 0#64 := by
  intro h
  have hbit := congrArg (fun e : U64 => e.getLsbD 0) h
  simp [pteOf, pteP] at hbit

/-- An entry for a table: three flags, in the low bits. -/
theorem toNat_pdeOf {pt flags : U32} (hpt : pt.toNat % 2 ^ 12 = 0) :
    (pdeOf pt flags).toNat = pt.toNat + 3 + (flags &&& pteU).toNat := by
  have hu : (flags &&& pteU).toNat = 0 ∨ (flags &&& pteU).toNat = 4 := by
    rw [BitVec.toNat_and, show pteU.toNat = 2 ^ 2 from rfl, Nat.and_two_pow]
    cases flags.toNat.testBit 2
    · exact .inl rfl
    · exact .inr rfl
  have hlow : (pteP ||| pteW ||| flags &&& pteU).toNat = 3 + (flags &&& pteU).toNat := by
    rw [BitVec.toNat_or, show (pteP ||| pteW).toNat = 3 from rfl]
    rcases hu with h | h <;> rw [h] <;> rfl
  have hw : ((pteP ||| pteW ||| flags &&& pteU).setWidth 64).toNat = 3 + (flags &&& pteU).toNat := by
    rw [BitVec.toNat_setWidth, hlow]
    lia
  have hpt64 : (pt.setWidth 64).toNat = pt.toNat := by
    rw [BitVec.toNat_setWidth]
    have := pt.isLt
    lia
  rw [pdeOf, toNat_or_low (k := 12) (by rw [hpt64]; exact hpt) (by rw [hw]; lia), hpt64, hw, Nat.add_assoc]

/-! ## Tables -/

/-- How many regions of 2MB have a table. -/
def tableCount (slot : Nat → Option Nat) : Nat := ((Finset.range 2048).filter fun r => (slot r).isSome = true).card

/-- The frame handed out after `k` others. -/
def frameAt (base k : Nat) : Nat := (base + 4096 * k) % 2 ^ 32

theorem frameAt_bounds {base : Nat} (h : base % 4096 = 0) (k : Nat) : frameAt base k % 4096 = 0 ∧ frameAt base k < 2 ^ 32 := by
  unfold frameAt
  omega

theorem frameAt_inj {base k k' : Nat} (hk : k < 2 ^ 20) (hk' : k' < 2 ^ 20) : frameAt base k = frameAt base k' ↔ k = k' := by
  unfold frameAt
  lia

/-- The entry for a page in a region, by the frames that the regions have for their tables. -/
def Pae.entryAt (s : Pae) (base : Nat) (slot : Nat → Option Nat) (r j : Nat) : U64 :=
  match slot r with
  | none => 0#64
  | some k => s.frames (frameAt base k) j

/-- The entry of a directory for a region, as a number. -/
def dirValue (base : Nat) (user : Bool) : Option Nat → Nat
  | none => 0
  | some k => frameAt base k + 3 + if user then 4 else 0

/-- Four directories and the tables behind them: the frames from an address on are handed out one by one, `slot` says which of them a
region has for its table, and `user` whether its pages are for user code. -/
structure PaeTables (base : Nat) (user : Nat → Bool) (s : Pae) (slot : Nat → Option Nat) : Prop where
  aligned : base % 4096 = 0
  free : s.physFree = BitVec.ofNat 32 (base + 4096 * (4 + tableCount slot))
  pdpt : ∀ i < 4, (s.pdpt i).toNat = frameAt base i + 1
  dir : ∀ r < 2048, (s.frames (frameAt base (r / 512)) (r % 512)).toNat = dirValue base (user r) (slot r)
  slots : ∀ r k, slot r = some k → r < 2048 ∧ 4 ≤ k ∧ k < 4 + tableCount slot
  inj : ∀ r r' k, slot r = some k → slot r' = some k → r = r'

theorem tableCount_le (slot : Nat → Option Nat) : tableCount slot ≤ 2048 :=
  (Finset.card_filter_le _ _).trans (Finset.card_range 2048).le

section Count

variable {slot : Nat → Option Nat} {r : Nat}

theorem tableCount_lt (hr : r < 2048) (h : slot r = none) : tableCount slot < 2048 := by
  have hss : (Finset.range 2048).filter (fun r => (slot r).isSome = true) ⊂ Finset.range 2048 := by
    refine (Finset.filter_ssubset).mpr ⟨r, Finset.mem_range.mpr hr, ?_⟩
    rw [h]
    exact Bool.false_ne_true
  exact (Finset.card_lt_card hss).trans_eq (Finset.card_range 2048)

theorem tableCount_update (hr : r < 2048) (h : slot r = none) (k : Nat) : tableCount (Function.update slot r (some k)) = tableCount slot + 1 := by
  have hnot : r ∉ (Finset.range 2048).filter fun r => (slot r).isSome = true := by
    rw [Finset.mem_filter, h]
    exact fun hmem => Bool.false_ne_true hmem.2
  have hins : ((Finset.range 2048).filter fun r' => (Function.update slot r (some k) r').isSome = true) =
      insert r ((Finset.range 2048).filter fun r => (slot r).isSome = true) := by
    ext r'
    rw [Finset.mem_filter, Finset.mem_insert, Finset.mem_filter, Finset.mem_range]
    by_cases hr' : r' = r
    · subst hr'
      simp [hr]
    · simp [hr']
  rw [tableCount, hins, Finset.card_insert_of_notMem hnot]
  rfl

end Count

/-- What the walk finds at an entry of a table. -/
def readEntry (user : Bool) (e : U64) : Option (Nat × U32) :=
  if e &&& 1#64 = 0#64 then none
  else some (entryFrame e, (e &&& 0xFFF#64).setWidth 32 &&& if user then BitVec.allOnes 32 else ~~~pteU)

/-- The flags that an entry of a directory lets through. -/
theorem above_flags {above : U64} (user : Bool) (h : above.toNat % 8 = if user then 7 else 3) :
    above.setWidth 32 ||| ~~~(pteW ||| pteU) = if user then BitVec.allOnes 32 else ~~~pteU := by
  have hand : above.setWidth 32 &&& (pteW ||| pteU) = if user then pteW ||| pteU else pteW := by
    apply BitVec.eq_of_toNat_eq
    have h6 : (pteW ||| pteU).toNat = 6 := rfl
    have h7 : above.toNat % 2 ^ 32 &&& 6 = above.toNat % 8 &&& 6 := by
      have hmod : above.toNat % 2 ^ 32 % 2 ^ 3 = above.toNat % 8 := by omega
      rw [← hmod, ← Nat.and_two_pow_sub_one_eq_mod _ 3, Nat.and_assoc, show 2 ^ 3 - 1 &&& 6 = 6 from rfl]
    rw [BitVec.toNat_and, BitVec.toNat_setWidth, h6, h7, h]
    cases user <;> rfl
  have hsplit : above.setWidth 32 ||| ~~~(pteW ||| pteU) = (above.setWidth 32 &&& (pteW ||| pteU)) ||| ~~~(pteW ||| pteU) := by
    ext i hi
    simp only [BitVec.getElem_or, BitVec.getElem_and, BitVec.getElem_not]
    cases (above.setWidth 32)[i] <;> cases pteW[i] <;> cases pteU[i] <;> rfl
  rw [hsplit, hand]
  cases user <;> rfl

namespace PaeTables

variable {base : Nat} {user : Nat → Bool} {s : Pae} {slot : Nat → Option Nat}

/-- The walk comes to the entry of the page. -/
theorem translate (h : PaeTables base user s slot) {page : Nat} (hp : page < 2 ^ 20) :
    s.translate page = readEntry (user (page / 512)) (s.entryAt base slot (page / 512) (page % 512)) := by
  have hpage : pageSize = 4096 := rfl
  have hpd := frameAt_bounds h.aligned (page / 512 / 512)
  have hi : page * pageSize / 2 ^ 30 = page / 512 / 512 := by
    rw [hpage]
    omega
  have hj : page * pageSize / 2 ^ 21 % 512 = page / 512 % 512 := by
    rw [hpage]
    omega
  have hk : page * pageSize / 2 ^ 12 % 512 = page % 512 := by
    rw [hpage]
    omega
  have hr : page / 512 < 2048 := by omega
  have hpdpt := h.pdpt (page / 512 / 512) (by omega)
  have hframe : entryFrame (s.pdpt (page / 512 / 512)) = frameAt base (page / 512 / 512) := by
    rw [entryFrame_eq, hpdpt]
    omega
  have hpresent : ¬s.pdpt (page / 512 / 512) &&& 1#64 = 0#64 := by
    rw [and_one_eq_zero_iff, hpdpt]
    omega
  have hdir := h.dir _ hr
  rw [Pae.translate, if_pos hp, Pae.walk]
  dsimp only
  rw [hi, hj, hk, if_neg hpresent, hframe]
  generalize s.frames (frameAt base (page / 512 / 512)) (page / 512 % 512) = pde at hdir
  cases hslot : slot (page / 512) with
  | none =>
    have hentry : s.entryAt base slot (page / 512) (page % 512) = 0#64 := by rw [Pae.entryAt, hslot]
    rw [hslot, dirValue] at hdir
    rw [if_pos ((and_one_eq_zero_iff _).mpr (by rw [hdir])), hentry]
    rfl
  | some k =>
    have hentry : s.entryAt base slot (page / 512) (page % 512) = s.frames (frameAt base k) (page % 512) := by rw [Pae.entryAt, hslot]
    have hpt := frameAt_bounds h.aligned k
    rw [hslot, dirValue] at hdir
    have hodd : ¬pde &&& 1#64 = 0#64 := by
      rw [and_one_eq_zero_iff, hdir]
      split <;> omega
    have hsmall : ¬pde &&& 0x80#64 ≠ 0#64 := by
      refine not_not_intro (and_bit7_eq_zero ?_)
      rw [hdir]
      split <;> omega
    have htable : entryFrame pde = frameAt base k := by
      rw [entryFrame_eq, hdir]
      split <;> omega
    have hflags := @above_flags pde (user (page / 512)) (by
      rw [hdir]
      split <;> omega)
    rw [if_neg hodd, if_neg hsmall, htable, hentry, readEntry, entryFlags, hflags]

/-- The frame that is handed out next. -/
theorem next_toNat (h : PaeTables base user s slot) : s.physFree.toNat = frameAt base (4 + tableCount slot) := by
  rw [h.free, BitVec.toNat_ofNat, frameAt]

/-- Tables are kept by a store to an entry of one of them. -/
theorem setEntry (h : PaeTables base user s slot) {r k : Nat} (hk : slot r = some k) (j : Nat) (e : U64) :
    PaeTables base user (s.setEntry (frameAt base k) j e) slot ∧
      ∀ r' j', (s.setEntry (frameAt base k) j e).entryAt base slot r' j' = if r' = r ∧ j' = j then e else s.entryAt base slot r' j' := by
  obtain ⟨-, hk4, hklt⟩ := h.slots r k hk
  have hle := tableCount_le slot
  refine ⟨⟨h.aligned, h.free, h.pdpt, fun r' hr' => ?_, h.slots, h.inj⟩, fun r' j' => ?_⟩
  · have hne : ¬(frameAt base (r' / 512) = frameAt base k ∧ r' % 512 = j) := fun heq => by
      have := (frameAt_inj (by lia) (by lia)).mp heq.1
      lia
    exact (congrArg BitVec.toNat (if_neg hne)).trans (h.dir r' hr')
  · unfold Pae.entryAt
    cases hr' : slot r' with
    | none =>
      have hne : ¬(r' = r ∧ j' = j) := by
        rintro ⟨rfl, -⟩
        rw [hk] at hr'
        exact nomatch hr'
      exact (if_neg hne).symm
    | some k' =>
      have hiff : frameAt base k' = frameAt base k ∧ j' = j ↔ r' = r ∧ j' = j := by
        refine and_congr_left fun _ => ⟨fun heq => ?_, ?_⟩
        · obtain ⟨-, -, hklt'⟩ := h.slots r' k' hr'
          have hkk : k' = k := (frameAt_inj (by lia) (by lia)).mp heq
          rw [hkk] at hr'
          exact h.inj r' r k hr' hk
        · rintro rfl
          rw [hk, Option.some.injEq] at hr'
          rw [hr']
      exact if_congr hiff rfl rfl

/-- A region gets a table, whose entries are clear. -/
theorem newTable (h : PaeTables base user s slot) {r : Nat} (hr : r < 2048) (hnone : slot r = none) {flags : U32}
    (huser : user r = decide (flags &&& pteU ≠ 0#32)) :
    let k := 4 + tableCount slot
    let s' := s.allocPagePhys.2.setEntry (frameAt base (r / 512)) (r % 512) (pdeOf s.physFree flags)
    PaeTables base user s' (Function.update slot r (some k)) ∧
      ∀ r' j', s'.entryAt base (Function.update slot r (some k)) r' j' = s.entryAt base slot r' j' := by
  intro k s'
  have hlt := tableCount_lt hr hnone
  have hnext := h.next_toNat
  have hcount := tableCount_update hr hnone k
  have hpt := frameAt_bounds h.aligned k
  have hframes : ∀ a j, s'.frames a j = if a = frameAt base (r / 512) ∧ j = r % 512 then pdeOf s.physFree flags
      else if a = frameAt base k then 0#64 else s.frames a j := by
    intro a j
    rw [← hnext]
    rfl
  have hfree : s'.physFree = s.physFree + 0x1000#32 := rfl
  refine ⟨⟨h.aligned, ?_, h.pdpt, fun r' hr' => ?_, fun r' k' hr' => ?_, fun r₁ r₂ k' h₁ h₂ => ?_⟩, fun r' j' => ?_⟩
  · have hsum : base + 4096 * (4 + (tableCount slot + 1)) = base + 4096 * (4 + tableCount slot) + 4096 := by lia
    rw [hcount, hfree, h.free, hsum]
    exact (BitVec.ofNat_add _ 4096).symm
  · rw [hframes]
    by_cases heq : r' = r
    · subst heq
      have hpt : s.physFree.toNat % 2 ^ 12 = 0 := by
        rw [hnext]
        exact hpt.1
      have hflag : (flags &&& pteU).toNat = if user r' then 4 else 0 := by
        have hnat : (flags &&& pteU).toNat = (flags.toNat.testBit 2).toNat * 2 ^ 2 := by
          rw [BitVec.toNat_and, show pteU.toNat = 2 ^ 2 from rfl, Nat.and_two_pow]
        rw [huser]
        by_cases hzero : flags &&& pteU = 0#32
        · rw [hzero]
          rfl
        · have hpos : (flags &&& pteU).toNat ≠ 0 := fun h0 => hzero (BitVec.eq_of_toNat_eq h0)
          rw [if_pos (decide_eq_true hzero), hnat]
          rw [hnat] at hpos
          cases hbit : flags.toNat.testBit 2
          · rw [hbit] at hpos
            exact absurd rfl hpos
          · rfl
      rw [if_pos ⟨rfl, rfl⟩, toNat_pdeOf hpt, hflag, hnext, Function.update_self, dirValue]
    · have hne : ¬(frameAt base (r' / 512) = frameAt base (r / 512) ∧ r' % 512 = r % 512) := fun h' => heq (by
        have := (frameAt_inj (by lia) (by lia)).mp h'.1
        lia)
      have hne' : ¬frameAt base (r' / 512) = frameAt base k := by
        rw [frameAt_inj (by lia) (by lia)]
        lia
      rw [if_neg hne, if_neg hne', Function.update_of_ne heq]
      exact h.dir r' hr'
  · rw [hcount]
    by_cases heq : r' = r
    · subst heq
      rw [Function.update_self, Option.some.injEq] at hr'
      exact ⟨hr, by lia, by lia⟩
    · rw [Function.update_of_ne heq] at hr'
      obtain ⟨h1, h2, h3⟩ := h.slots r' k' hr'
      exact ⟨h1, h2, by lia⟩
  · have hold : ∀ {r'}, r' ≠ r → Function.update slot r (some k) r' = some k' → slot r' = some k' ∧ k' < k := by
      intro r' hne heq
      rw [Function.update_of_ne hne] at heq
      exact ⟨heq, (h.slots r' k' heq).2.2⟩
    have hself : Function.update slot r (some k) r = some k' → k' = k := fun heq => by
      rw [Function.update_self, Option.some.injEq] at heq
      exact heq.symm
    by_cases e₁ : r₁ = r <;> by_cases e₂ : r₂ = r
    · rw [e₁, e₂]
    · subst e₁
      have := hself h₁
      have := (hold e₂ h₂).2
      lia
    · subst e₂
      have := hself h₂
      have := (hold e₁ h₁).2
      lia
    · exact h.inj r₁ r₂ k' (hold e₁ h₁).1 (hold e₂ h₂).1
  · unfold Pae.entryAt
    by_cases heq : r' = r
    · subst heq
      rw [Function.update_self, hnone]
      have hne : frameAt base k ≠ frameAt base (r' / 512) := by
        rw [ne_eq, frameAt_inj (by lia) (by lia)]
        lia
      dsimp only
      rw [hframes, if_neg (fun h' => hne h'.1), if_pos rfl]
    · rw [Function.update_of_ne heq]
      cases hr' : slot r' with
      | none => rfl
      | some k' =>
        obtain ⟨-, h4, hlt'⟩ := h.slots r' k' hr'
        have hdir : frameAt base k' ≠ frameAt base (r / 512) := by
          rw [ne_eq, frameAt_inj (by lia) (by lia)]
          lia
        have hnew : frameAt base k' ≠ frameAt base k := by
          rw [ne_eq, frameAt_inj (by lia) (by lia)]
          lia
        dsimp only
        rw [hframes, if_neg (fun h' => hdir h'.1), if_neg hnew]

/-- A call of `map_page` sets the entry of its page, and no other. -/
theorem mapPage (h : PaeTables base user s slot) (virt : U32) (phys : U64) {flags : U32}
    (huser : user (virt.toNat / 2 ^ 21) = decide (flags &&& pteU ≠ 0#32)) :
    ∃ slot', PaeTables base user (s.mapPage virt phys flags) slot' ∧ ∀ r j, (s.mapPage virt phys flags).entryAt base slot' r j =
      if r = virt.toNat / 2 ^ 21 ∧ j = virt.toNat / 2 ^ 12 % 512 then pteOf phys flags else s.entryAt base slot r j := by
  have hv := virt.isLt
  have hpdb := frameAt_bounds h.aligned (virt.toNat / 2 ^ 21 / 512)
  have hr : virt.toNat / 2 ^ 21 < 2048 := by lia
  have hpdpt := h.pdpt (virt.toNat / 2 ^ 21 / 512) (by lia)
  have hpd : s.paePd virt = frameAt base (virt.toNat / 2 ^ 21 / 512) := by
    have htop : (virt >>> 30).toNat = virt.toNat / 2 ^ 21 / 512 := by
      rw [BitVec.toNat_ushiftRight, Nat.shiftRight_eq_div_pow]
      lia
    rw [Pae.paePd, htop, entryPointer_eq, hpdpt]
    lia
  have hdir := h.dir _ hr
  have hpde : s.frames (s.paePd virt) (pdIdx virt) = s.frames (frameAt base (virt.toNat / 2 ^ 21 / 512)) (virt.toNat / 2 ^ 21 % 512) := by
    rw [hpd, pdIdx_eq]
  rw [Pae.mapPage]
  dsimp only
  rw [hpde, ptIdx_eq, hpd, pdIdx_eq]
  generalize s.frames (frameAt base (virt.toNat / 2 ^ 21 / 512)) (virt.toNat / 2 ^ 21 % 512) = pde at hdir
  cases hslot : slot (virt.toNat / 2 ^ 21) with
  | some k =>
    have hpt := frameAt_bounds h.aligned k
    rw [hslot, dirValue] at hdir
    have hpresent : pde &&& pteP.setWidth 64 ≠ 0#64 := by
      refine mt (and_one_eq_zero_iff pde).mp ?_
      rw [hdir]
      split <;> lia
    have htable : entryPointer pde = frameAt base k := by
      rw [entryPointer_eq, hdir]
      split <;> lia
    rw [if_pos hpresent, htable]
    exact ⟨slot, h.setEntry hslot _ _⟩
  | none =>
    rw [hslot, dirValue] at hdir
    have habsent : ¬pde &&& pteP.setWidth 64 ≠ 0#64 := not_not_intro ((and_one_eq_zero_iff pde).mpr (by rw [hdir]))
    rw [if_neg habsent]
    obtain ⟨hnew, hsame⟩ := h.newTable hr hslot huser
    obtain ⟨hset, hentry⟩ := hnew.setEntry (Function.update_self _ _ _) (virt.toNat / 2 ^ 12 % 512) (pteOf phys flags)
    rw [← h.next_toNat] at hset hentry
    change PaeTables base user _ _ at hset
    refine ⟨_, hset, fun r j => (hentry r j).trans ?_⟩
    exact if_congr Iff.rfl rfl (hsame r j)

end PaeTables

end MiniOs32
