import Mathlib

/-!
# Layout of records

Parts of a record placed one behind another, each at a multiple of its alignment, and the whole padded to a multiple of the
greatest. What is placed so is aligned, in order, disjoint and within the size (`WellLaid.struct`); the parts of a union all begin
where it begins.
-/

namespace MiniOs32

/-- The least multiple of an alignment that is not below a number. -/
def alignUp (n a : Nat) : Nat := (n + a - 1) / a * a

section AlignUp

variable {n a : Nat}

theorem dvd_alignUp (n a : Nat) : a ∣ alignUp n a := ⟨_, Nat.mul_comm _ _⟩

theorem le_alignUp (ha : 0 < a) : n ≤ alignUp n a := by
  have h := Nat.div_add_mod (n + a - 1) a
  have hm := Nat.mod_lt (n + a - 1) ha
  rw [alignUp, Nat.mul_comm]
  omega

end AlignUp

/-- A part of a record. -/
structure Part where
  size : Nat
  align : Nat
  deriving DecidableEq

/-- A part at an offset. -/
structure Slot extends Part where
  offset : Nat
  deriving DecidableEq

/-- Parts placed from an offset on. -/
def slots : Nat → List Part → List Slot
  | _, [] => []
  | off, p :: ps => ⟨p, alignUp off p.align⟩ :: slots (alignUp off p.align + p.size) ps

/-- Where the last of them ends. -/
def slotsEnd : Nat → List Part → Nat
  | off, [] => off
  | off, p :: ps => slotsEnd (alignUp off p.align + p.size) ps

/-- The greatest alignment of the parts, at least one. -/
def maxAlign (ps : List Part) : Nat := ps.foldr (fun p m => max p.align m) 1

/-- The greatest size of the parts. -/
def maxSize (ps : List Part) : Nat := ps.foldr (fun p m => max p.size m) 0

/-- The size of a record, or of a union. -/
def recordSize (isUnion : Bool) (ps : List Part) : Nat := alignUp (if isUnion then maxSize ps else slotsEnd 0 ps) (maxAlign ps)

/-- What the layout of a record is to be: every part is aligned and within the size; those of a union begin where it begins, and those
of a struct lie in order and apart. -/
structure WellLaid (isUnion : Bool) (size align : Nat) (ss : List Slot) : Prop where
  aligned : ∀ s ∈ ss, s.align ∣ s.offset
  within : ∀ s ∈ ss, s.offset + s.size ≤ size
  apart : if isUnion then ∀ s ∈ ss, s.offset = 0 else ss.Pairwise fun s s' => s.offset + s.size ≤ s'.offset
  padded : align ∣ size

section Slots

variable {ps : List Part} {off : Nat}

theorem le_slotsEnd (h : ∀ p ∈ ps, 0 < p.align) : off ≤ slotsEnd off ps := by
  induction ps generalizing off with
  | nil => exact le_rfl
  | cons p ps ih =>
    have h₁ := le_alignUp (n := off) (h p (by simp))
    have h₂ : alignUp off p.align + p.size ≤ slotsEnd (alignUp off p.align + p.size) ps := ih fun q hq => h q (by simp [hq])
    rw [slotsEnd]
    omega

/-- Every part lies between where they begin and where the last ends, at a multiple of its alignment. -/
theorem mem_slots (h : ∀ p ∈ ps, 0 < p.align) :
    ∀ s ∈ slots off ps, off ≤ s.offset ∧ s.align ∣ s.offset ∧ s.offset + s.size ≤ slotsEnd off ps := by
  induction ps generalizing off with
  | nil => simp [slots]
  | cons p ps ih =>
    intro s hs
    have hps : ∀ q ∈ ps, 0 < q.align := fun q hq => h q (by simp [hq])
    have h₁ := le_alignUp (n := off) (h p (by simp))
    rcases List.mem_cons.mp hs with rfl | hs
    · exact ⟨h₁, dvd_alignUp _ _, le_slotsEnd hps⟩
    · obtain ⟨h₂, h₃, h₄⟩ := ih hps s hs
      exact ⟨by omega, h₃, h₄⟩

/-- A part ends where the next one begins, or before. -/
theorem slots_pairwise (h : ∀ p ∈ ps, 0 < p.align) : (slots off ps).Pairwise fun s s' => s.offset + s.size ≤ s'.offset := by
  induction ps generalizing off with
  | nil => exact List.Pairwise.nil
  | cons p ps ih =>
    have hps : ∀ q ∈ ps, 0 < q.align := fun q hq => h q (by simp [hq])
    exact List.pairwise_cons.mpr ⟨fun s hs => (mem_slots hps s hs).1, ih hps⟩

theorem maxAlign_pos (ps : List Part) : 0 < maxAlign ps := by
  induction ps with
  | nil => exact Nat.one_pos
  | cons p ps ih => exact lt_of_lt_of_le ih (Nat.le_max_right _ _)

theorem size_le_maxSize {p : Part} (h : p ∈ ps) : p.size ≤ maxSize ps := by
  induction ps with
  | nil => simp at h
  | cons q ps ih =>
    rcases List.mem_cons.mp h with rfl | h
    · exact Nat.le_max_left _ _
    · exact (ih h).trans (Nat.le_max_right _ _)

/-- The layout of a struct. -/
theorem WellLaid.struct (h : ∀ p ∈ ps, 0 < p.align) : WellLaid false (recordSize false ps) (maxAlign ps) (slots 0 ps) where
  aligned s hs := (mem_slots h s hs).2.1
  within s hs := (mem_slots h s hs).2.2.trans (le_alignUp (maxAlign_pos ps))
  apart := slots_pairwise h
  padded := dvd_alignUp _ _

/-- The layout of a union. -/
theorem WellLaid.union : WellLaid true (recordSize true ps) (maxAlign ps) (ps.map fun p => ⟨p, 0⟩) where
  aligned := by simp
  within := by
    simp only [List.mem_map, forall_exists_index, and_imp]
    rintro s p hp rfl
    rw [Nat.zero_add]
    exact (size_le_maxSize hp).trans (le_alignUp (maxAlign_pos ps))
  apart := by simp
  padded := dvd_alignUp _ _

end Slots

end MiniOs32
