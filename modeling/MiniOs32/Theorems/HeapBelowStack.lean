import MiniOs32.Kernel.Heap
import MiniOs32.Theorems.LoaderConfined

/-!
# The heap below the stack

What `SYS_SBRK` grants ends at or below the stack guard page, but the page under that one holds the trampoline: the heap may cover
it (`heap_safe_false`). A break beyond the guard page leaves, in 32 bits, nearly the whole address space to be granted. The heap
stays clear of everything else if and only if the break starts at or below the trampoline page, no call asks for what ends between
the starts of the two pages, and none for what a segment lies in (`heap_safe_iff`).
-/

namespace MiniOs32

/-- The offsets a call hands out. -/
def SbrkCall.range (c : SbrkCall) : Set Nat := {x | c.result.isSome = true ∧ x ∈ covers c.brk c.inc}

/-- What the heap is not to contain: the trampoline, the guard page, and the main stack. -/
def reservedOffs : Set Nat := {x | userTrampOff ≤ x ∧ x < userTrampOff + 10 ∨ userStackGuardOff ≤ x ∧ x < userFbOffset}

/-- What the calls a program makes leave of its memory. -/
structure HeapSafe (l : Loaded) (incs : List U32) : Prop where
  start : l.brk.toNat ≤ userTrampOff
  grows : ∀ c ∈ sbrkCalls l.brk incs, c.brk.toNat ≤ c.after.toNat ∧ c.after.toNat ≤ userTrampOff
  apart : (sbrkCalls l.brk incs).Pairwise fun c d => Disjoint c.range d.range
  segments : ∀ c ∈ sbrkCalls l.brk incs, ∀ w ∈ l.segments, Disjoint c.range (covers w.1 w.2)
  reserved : ∀ c ∈ sbrkCalls l.brk incs, Disjoint c.range reservedOffs
  refused : ∀ c ∈ sbrkCalls l.brk incs, c.result = none → c.after = c.brk

/-- Two ranges without a common offset: one of them is empty, or neither starts in the other. -/
def Misses (off len off' len' : U32) : Prop := len = 0#32 ∨ len' = 0#32 ∨ len ≤ off' - off ∧ len' ≤ off - off'

/-- The condition on a call: what it asks for ends beyond the start of the guard page, or it ends at or below the trampoline page and
misses every segment. -/
def SbrkCall.Fits (c : SbrkCall) (segs : List (U32 × U32)) : Prop :=
  userStackGuardOff < c.brk.toNat + c.inc.toNat ∨
    c.brk.toNat + c.inc.toNat ≤ userTrampOff ∧ ∀ w ∈ segs, Misses c.brk c.inc w.1 w.2

section Calls

variable {off len off' len' brk inc : U32} {c : SbrkCall} {segs : List (U32 × U32)} {x : Nat}

/-- An offset is in a range if it is no further from its start than the range is long. -/
theorem mem_covers_iff : x ∈ covers off len ↔ x < 2 ^ 32 ∧ BitVec.ofNat 32 x - off < len := by
  constructor
  · rintro ⟨j, hj, rfl⟩
    have hlen := len.isLt
    refine ⟨Nat.mod_lt _ (by decide), ?_⟩
    rw [BitVec.lt_def, BitVec.toNat_sub, BitVec.toNat_ofNat]
    omega
  · rintro ⟨hx, h⟩
    rw [BitVec.lt_def, BitVec.toNat_sub, BitVec.toNat_ofNat] at h
    have hoff := off.isLt
    refine ⟨(2 ^ 32 - off.toNat + x % 2 ^ 32) % 2 ^ 32, h, ?_⟩
    omega

/-- Ranges miss each other if they have no common offset. -/
theorem disjoint_covers_iff : Disjoint (covers off len) (covers off' len') ↔ Misses off len off' len' := by
  rw [Set.disjoint_left]
  constructor
  · intro h
    by_contra hm
    unfold Misses at hm
    push Not at hm
    obtain ⟨h0, h0', hm⟩ := hm
    have hpos : 0 < len.toNat := by
      rcases Nat.eq_zero_or_pos len.toNat with hz | hz
      · exact absurd (BitVec.eq_of_toNat_eq hz) h0
      · exact hz
    have hpos' : 0 < len'.toNat := by
      rcases Nat.eq_zero_or_pos len'.toNat with hz | hz
      · exact absurd (BitVec.eq_of_toNat_eq hz) h0'
      · exact hz
    by_cases hin : len ≤ off' - off
    · have hlt := hm hin
      refine h (a := off.toNat) (mem_covers_self hpos) (mem_covers_iff.mpr ⟨off.isLt, ?_⟩)
      simpa using hlt
    · refine h (a := off'.toNat) (mem_covers_iff.mpr ⟨off'.isLt, ?_⟩) (mem_covers_self hpos')
      simpa using hin
  · rintro (rfl | rfl | ⟨h₁, h₂⟩) x hx hx'
    · exact absurd (mem_covers_iff.mp hx).2 (by simp)
    · exact absurd (mem_covers_iff.mp hx').2 (by simp)
    · have h := (mem_covers_iff.mp hx).2
      have h' := (mem_covers_iff.mp hx').2
      generalize BitVec.ofNat 32 x = y at h h'
      bv_omega

/-- A call is refused and leaves the break, or it is granted and moves it. -/
theorem SbrkCall.cases (c : SbrkCall) : c.result = none ∧ c.after = c.brk ∧ BitVec.ofNat 32 userStackGuardOff - c.brk < c.inc ∨
    c.result = some c.brk ∧ c.after = c.brk + c.inc ∧ c.inc ≤ BitVec.ofNat 32 userStackGuardOff - c.brk := by
  rw [SbrkCall.result, SbrkCall.after, sysSbrk]
  by_cases h : BitVec.ofNat 32 userStackGuardOff - c.brk < c.inc
  · rw [if_pos h]
    exact .inl ⟨rfl, rfl, h⟩
  · rw [if_neg h]
    exact .inr ⟨rfl, rfl, BitVec.not_lt.mp h⟩

/-- A call below the trampoline page is refused if what it asks for ends beyond the start of the guard page. -/
theorem SbrkCall.refused_iff (h : c.brk.toNat ≤ userTrampOff) : c.result = none ↔ userStackGuardOff < c.brk.toNat + c.inc.toNat := by
  have htramp : userTrampOff = 24109056 := rfl
  have hguard : userStackGuardOff = 24113152 := rfl
  have hbrk := c.brk.isLt
  rw [htramp] at h
  rcases c.cases with ⟨hn, -, hlt⟩ | ⟨hs, -, hle⟩
  · have hlt' := BitVec.lt_def.mp hlt
    rw [BitVec.toNat_sub, BitVec.toNat_ofNat, hguard] at hlt'
    refine iff_of_true hn ?_
    rw [hguard]
    clear hlt hguard htramp
    omega
  · have hle' := BitVec.le_def.mp hle
    rw [BitVec.toNat_sub, BitVec.toNat_ofNat, hguard] at hle'
    refine iff_of_false (by rw [hs]; nofun) ?_
    rw [hguard]
    clear hle hguard htramp
    omega

/-- Below the trampoline page nothing that is granted wraps. -/
theorem SbrkCall.after_toNat (h : c.brk.toNat ≤ userTrampOff) (hr : c.result ≠ none) :
    c.after.toNat = c.brk.toNat + c.inc.toNat := by
  have htramp : userTrampOff = 24109056 := rfl
  have hguard : userStackGuardOff = 24113152 := rfl
  rcases c.cases with ⟨hn, -⟩ | ⟨-, ha, hle⟩
  · exact absurd hn hr
  · rw [hguard, BitVec.le_def] at hle
    rw [ha]
    bv_omega

/-- A call that fits moves the break up, below the trampoline page, and hands out what is between. -/
theorem SbrkCall.Fits.moves (hf : c.Fits segs) (h : c.brk.toNat ≤ userTrampOff) :
    c.brk.toNat ≤ c.after.toNat ∧ c.after.toNat ≤ userTrampOff ∧ ∀ x ∈ c.range, c.brk.toNat ≤ x ∧ x < c.after.toNat := by
  rw [SbrkCall.Fits, ← SbrkCall.refused_iff h] at hf
  rcases c.cases with ⟨hn, ha, -⟩ | ⟨hr, -, -⟩
  · rw [ha]
    refine ⟨le_rfl, h, fun x hx => ?_⟩
    have hsome := hx.1
    rw [hn] at hsome
    cases hsome
  · have hafter := SbrkCall.after_toNat h (by rw [hr]; nofun)
    have hend := (hf.resolve_left (by rw [hr]; nofun)).1
    refine ⟨by omega, by omega, ?_⟩
    rintro x ⟨-, j, hj, rfl⟩
    have htramp : userTrampOff = 24109056 := rfl
    rw [Nat.mod_eq_of_lt (by omega)]
    omega

/-- Calls that fit move the break up from call to call. -/
theorem sbrkCalls_above {incs : List U32} (h : brk.toNat ≤ userTrampOff) (hf : ∀ c ∈ sbrkCalls brk incs, c.Fits segs) :
    ∀ c ∈ sbrkCalls brk incs, brk.toNat ≤ c.brk.toNat ∧ c.brk.toNat ≤ userTrampOff := by
  induction incs generalizing brk with
  | nil => nofun
  | cons inc incs ih =>
    rw [sbrkCalls, List.forall_mem_cons] at hf ⊢
    obtain ⟨hup, htop, -⟩ := hf.1.moves h
    refine ⟨⟨le_rfl, h⟩, fun c hc => ?_⟩
    obtain ⟨h₁, h₂⟩ := ih htop hf.2 c hc
    exact ⟨hup.trans h₁, h₂⟩

/-- What they hand out is pairwise disjoint. -/
theorem sbrkCalls_apart {incs : List U32} (h : brk.toNat ≤ userTrampOff) (hf : ∀ c ∈ sbrkCalls brk incs, c.Fits segs) :
    (sbrkCalls brk incs).Pairwise fun c d => Disjoint c.range d.range := by
  induction incs generalizing brk with
  | nil => exact .nil
  | cons inc incs ih =>
    rw [sbrkCalls, List.forall_mem_cons] at hf
    obtain ⟨-, htop, hrange⟩ := hf.1.moves h
    refine .cons (fun d hd => Set.disjoint_left.mpr fun x hx hx' => ?_) (ih htop hf.2)
    obtain ⟨habove, hbelow⟩ := sbrkCalls_above htop hf.2 d hd
    have h₁ := (hrange x hx).2
    have h₂ := ((hf.2 d hd).moves hbelow).2.2 x hx'
    have hafter : (SbrkCall.after ⟨brk, inc⟩).toNat ≤ d.brk.toNat := habove
    have hlt : x < (SbrkCall.after ⟨brk, inc⟩).toNat := h₁
    omega

/-- What is handed out misses a segment where the condition says so. -/
theorem SbrkCall.disjoint_iff {w : U32 × U32} :
    Disjoint c.range (covers w.1 w.2) ↔ c.result = none ∨ Misses c.brk c.inc w.1 w.2 := by
  rw [← disjoint_covers_iff]
  rcases c.cases with ⟨hn, -⟩ | ⟨hr, -⟩
  · have hempty : c.range = ∅ := by
      ext x
      simp [SbrkCall.range, hn]
    simp [hempty, hn]
  · have hrange : c.range = covers c.brk c.inc := by
      ext x
      simp [SbrkCall.range, hr]
    simp [hrange, hr]

end Calls

/-- The heap of a program stays clear of the rest of its memory if and only if its break starts at or below the trampoline page, and
every call asks for what ends there and misses the segments, or for what ends beyond the start of the guard page. -/
theorem heap_safe_iff (size : Nat) (file : Nat → Byte) (l : Loaded) (_h : loadImage size file = some l) (incs : List U32) :
    HeapSafe l incs ↔ l.brk.toNat ≤ userTrampOff ∧ ∀ c ∈ sbrkCalls l.brk incs, c.Fits l.segments := by
  have htramp : userTrampOff = 24109056 := rfl
  have hguard : userStackGuardOff = 24113152 := rfl
  constructor
  · intro h
    have hbelow : ∀ c ∈ sbrkCalls l.brk incs, c.brk.toNat ≤ userTrampOff := fun c hc => (h.grows c hc).1.trans (h.grows c hc).2
    refine ⟨h.start, fun c hc => ?_⟩
    rw [SbrkCall.Fits, ← SbrkCall.refused_iff (hbelow c hc)]
    by_cases hr : c.result = none
    · exact .inl hr
    · refine .inr ⟨?_, fun w hw => (SbrkCall.disjoint_iff.mp (h.segments c hc w hw)).resolve_left hr⟩
      rw [← SbrkCall.after_toNat (hbelow c hc) hr]
      exact (h.grows c hc).2
  · rintro ⟨hstart, hfits⟩
    have habove := sbrkCalls_above hstart hfits
    refine ⟨hstart, fun c hc => ?_, sbrkCalls_apart hstart hfits, fun c hc w hw => ?_, fun c hc => ?_, fun c hc hr => ?_⟩
    · obtain ⟨h₁, h₂, -⟩ := (hfits c hc).moves (habove c hc).2
      exact ⟨h₁, h₂⟩
    · have hfit := hfits c hc
      rw [SbrkCall.Fits, ← SbrkCall.refused_iff (habove c hc).2] at hfit
      exact SbrkCall.disjoint_iff.mpr (hfit.imp_right fun h => h.2 w hw)
    · refine Set.disjoint_left.mpr fun x hx hx' => ?_
      obtain ⟨-, h₂, h₃⟩ := (hfits c hc).moves (habove c hc).2
      have := h₃ x hx
      rcases hx' with hx' | hx' <;> omega
    · rcases c.cases with ⟨-, ha, -⟩ | ⟨hs, -⟩
      · exact ha
      · rw [hr] at hs
        cases hs

/-- A program of 84 bytes with a page of zeros behind it, loaded at 4096. -/
theorem loadImage_oneSegment : loadImage 84 (fun i => (oneSegment 0#32 4096#32 84#32 4180#32).getD i 0#8) =
    some ⟨[.read 52#32 4#32, .read 56#32 4#32, .read 60#32 4#32, .read 68#32 4#32, .read 72#32 4#32, .read 0#32 84#32,
      .write 4096#32 84#32, .write 4180#32 4096#32], 8276#32, 0#32⟩ := by
  rw [loadImage_of_isElf (by unfold IsElf; decide)]
  rfl

/-- It takes a page, is refused what there is not, and takes another page. -/
theorem heap_safe_iff_small : ∃ l, loadImage 84 (fun i => (oneSegment 0#32 4096#32 84#32 4180#32).getD i 0#8) = some l ∧
    HeapSafe l [4096#32, 0xFFFFFFFF#32, 4096#32] := by
  refine ⟨_, loadImage_oneSegment, (heap_safe_iff 84 _ _ loadImage_oneSegment _).2 ⟨by decide, ?_⟩⟩
  simp only [sbrkCalls, Loaded.segments, List.filterMap, List.forall_mem_cons, List.not_mem_nil, false_implies, implies_true,
    and_true, SbrkCall.Fits, Misses]
  decide

/-- It may also take all there is below the guard page, and the trampoline with it. -/
theorem heap_safe_false : ¬∀ (size : Nat) (file : Nat → Byte) (l : Loaded), loadImage size file = some l → ∀ incs, HeapSafe l incs := by
  intro h
  have hall := (h 84 _ _ loadImage_oneSegment [24104876#32]).grows _ (.head _)
  exact absurd hall.2 (by decide)

end MiniOs32
