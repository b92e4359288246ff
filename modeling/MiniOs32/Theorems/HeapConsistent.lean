import MiniOs32.Lemmas.HeapBlocks

/-!
# The heap stays consistent

A size near `INT_MAX` is rounded up to a negative one, which every free block fits. Without a free block, or with a smaller size, every
call of `malloc`, `calloc`, `realloc` and `free` keeps the blocks apart, large enough, and either held by the program or in the free list.
-/

namespace MiniOs32

namespace FsLib

namespace HeapRun

/-! ## What is claimed -/

/-- A block of the program, or of the free list. -/
def IsBlock (s : HeapRun) (p : U32) : Prop := (s.live p).isSome ∨ p ∈ s.freed

/-- The number of bytes behind a block's pointer. -/
def usable (s : HeapRun) (p : U32) : Nat := (s.heap.size (p - 8#32)).toNat

/-- The heap is consistent. -/
structure Consistent (s : HeapRun) : Prop where
  returned : s.returned = true
  /-- Behind a pointer that is held are as many bytes as were asked for. -/
  enough : ∀ p n, s.live p = some n → n ≤ s.usable p
  /-- A block with its header is memory that `sys_sbrk` gave. -/
  inside : ∀ p, s.IsBlock p → ∃ e ∈ granted s.heap.asked, e.2.toNat + 8 ≤ p.toNat ∧ p.toNat + s.usable p ≤ e.2.toNat + e.1.toNat
  /-- Blocks with their headers do not overlap. -/
  apart : ∀ p q, s.IsBlock p → s.IsBlock q → p ≠ q → p.toNat + s.usable p + 8 ≤ q.toNat ∨ q.toNat + s.usable q + 8 ≤ p.toNat
  /-- No block is both held and free. -/
  exclusive : ∀ p ∈ s.freed, s.live p = none
  /-- The free list comes to the blocks that were freed, and to its end. -/
  chain : ListMem.Chain 4#32 s.heap.list.mem s.heap.list.head (s.freed.map (· - 8#32))
  acyclic : (s.freed.map (· - 8#32)).Nodup

/-- What a call does to the bytes behind pointers: it leaves those of every block that is held, save the one it is given; `calloc`
clears what it gives; `realloc` keeps the bytes that both sizes have, and the block where it fails. -/
structure Kept (s : HeapRun) (c : HeapCall) : Prop where
  others : (∀ a v, c ≠ .store a v) → ∀ q, (s.live q).isSome → c.pointer ≠ some q → ∀ i < s.usable q,
    (s.step c).heap.list.mem (q + BitVec.ofNat 32 i) = s.heap.list.mem (q + BitVec.ofNat 32 i)
  zeroed : ∀ n size answer, c = .calloc n size answer → (s.step c).last ≠ 0#32 →
    ∀ i < (n * size).toInt.toNat, (s.step c).heap.list.mem ((s.step c).last + BitVec.ofNat 32 i) = 0#8
  moved : ∀ p size answer, c = .realloc p size answer → p ≠ 0#32 → (s.step c).last ≠ 0#32 → ∀ i < s.usable p, (i : Int) < size.toInt →
    (s.step c).heap.list.mem ((s.step c).last + BitVec.ofNat 32 i) = s.heap.list.mem (p + BitVec.ofNat 32 i)
  intact : ∀ p size answer, c = .realloc p size answer → p ≠ 0#32 → (s.step c).last = 0#32 →
    (s.step c).live = s.live ∧ (s.step c).freed = s.freed ∧ (s.step c).heap.list.mem = s.heap.list.mem

/-- A call of a program: it frees and reallocates what it holds, and stores to bytes it asked for, or outside the heap. -/
def Proper (s : HeapRun) : HeapCall → Prop
  | .free p => p = 0#32 ∨ (s.live p).isSome
  | .realloc p _ _ => p = 0#32 ∨ (s.live p).isSome
  | .store a _ => (∃ p n, s.live p = some n ∧ p.toNat ≤ a.toNat ∧ a.toNat < p.toNat + n) ∨
      ∀ e ∈ granted s.heap.asked, ¬(e.2.toNat ≤ a.toNat ∧ a.toNat < e.2.toNat + e.1.toNat)
  | _ => True

/-- A call of a program, and an answer as `sys_sbrk` gives them. -/
structure Legal (s : HeapRun) (c : HeapCall) : Prop where
  proper : s.Proper c
  answers : SbrkSound (s.step c).heap.asked

/-- No block is free, or the number of bytes that `malloc` is asked for is at most `INT_MAX - 3`. -/
def NoWrap (s : HeapRun) : HeapCall → Prop
  | .malloc size _ => Blocks.SizeFits s.heap size
  | .realloc _ size _ => Blocks.SizeFits s.heap size
  | .calloc n size _ => Blocks.CountFits s.heap n size
  | _ => True

/-! ## Steps -/

variable {s : HeapRun} {h : Heap} {p q size : U32} {c : HeapCall}

/-- The heap between two calls. -/
structure Sane (s : HeapRun) : Prop where
  returned : s.returned = true
  blocks : Blocks s.heap s.live s.freed

@[simp] theorem heap_give (s : HeapRun) (h : Heap) (p size : U32) : (s.give h p size).heap = h := by
  rw [give]
  split <;> rfl

@[simp] theorem last_give (s : HeapRun) (h : Heap) (p size : U32) : (s.give h p size).last = p := by
  rw [give]
  split <;> rfl

@[simp] theorem returned_give (s : HeapRun) (h : Heap) (p size : U32) : (s.give h p size).returned = s.returned := by
  rw [give]
  split <;> rfl

/-- A consistent heap, from its blocks. -/
theorem Sane.consistent (hs : s.Sane) : s.Consistent := by
  have hb := hs.blocks
  have husable : ∀ p, s.IsBlock p → ∃ e ∈ granted s.heap.asked, p = e.2 + 8#32 ∧ p.toNat = e.2.toNat + 8 ∧
      s.usable p + 8 = e.1.toNat := by
    intro p hp
    obtain ⟨e, he, hpe⟩ := hb.block hp
    refine ⟨e, he, hpe, ?_, ?_⟩
    · rw [hpe, (hb.sound.pointer he).1]
    · rw [usable, hpe, BitVec.add_sub_cancel, hb.size_toNat he]
  refine ⟨hs.returned, fun p n hp => ?_, fun p hp => ?_, fun p q hp hq hne => ?_, fun p hp => ?_, hb.chain, hb.nodup_map⟩
  · obtain ⟨-, e, he, hpe, hroom⟩ := hb.liveBlock p n hp
    have hsize := hb.size_toNat he
    rw [usable, hpe, BitVec.add_sub_cancel]
    omega
  · obtain ⟨e, he, -, hpointer, hsize⟩ := husable p hp
    exact ⟨e, he, by omega, by omega⟩
  · obtain ⟨e, he, hpe, hpointer, hsize⟩ := husable p hp
    obtain ⟨e', he', hqe, hpointer', hsize'⟩ := husable q hq
    have hapart := (hb.sound.apart he he').resolve_left fun heq => hne (by rw [hpe, hqe, heq])
    unfold RangesApart at hapart
    omega
  · cases hlive : s.live p with
    | none => rfl
    | some n => exact absurd hp (hb.liveBlock p n hlive).1

theorem sane_start (m : Mem) : (start m).Sane :=
  ⟨rfl, ⟨nofun, nofun, List.Pairwise.nil⟩, nofun, nofun, nofun, List.nodup_nil, rfl⟩

/-- The bytes behind a pointer that is held, by their addresses. -/
theorem frame_bytes (hs : s.Sane) (hq : (s.live q).isSome) {m : Mem}
    (hm : ∀ x : U32, q.toNat ≤ x.toNat → x.toNat < q.toNat + (s.heap.size (q - 8#32)).toNat → m x = s.heap.list.mem x) :
    ∀ i < s.usable q, m (q + BitVec.ofNat 32 i) = s.heap.list.mem (q + BitVec.ofNat 32 i) := by
  intro i hi
  obtain ⟨e, he, hqe⟩ := hs.blocks.block (.inl hq)
  have hsize := hs.blocks.size_toNat he
  have hpointer := (hs.blocks.sound.pointer he).1
  obtain ⟨-, hbound, -, hlow⟩ := hs.blocks.sound.bounds he
  have hplace : (q + BitVec.ofNat 32 i).toNat = q.toNat + i := by
    rw [usable, hqe, BitVec.add_sub_cancel] at hi
    rw [hqe, BitVec.toNat_add, hpointer, BitVec.toNat_ofNat]
    omega
  exact hm _ (by omega) (by rw [hplace]; exact Nat.add_lt_add_left hi _)

/-- The program is given what was allocated. -/
theorem sane_give (hs : s.Sane) (ha : Blocks.Allocated s.heap s.live s.freed h p size) : (s.give h p size).Sane := by
  refine ⟨(returned_give s h p size).trans hs.returned, ?_⟩
  rw [give]
  split
  · rename_i h0
    exact (ha.null h0).2
  · rename_i hne
    exact (ha.given hne).2

theorem step_malloc (hs : s.Sane) {answer : U32} (hl : s.Legal (.malloc size answer)) (hw : s.NoWrap (.malloc size answer)) :
    (s.step (.malloc size answer)).Sane ∧ s.Kept (.malloc size answer) := by
  obtain ⟨h, p, heq, hall⟩ := hs.blocks.malloc_allocated hw answer
  have hstep : s.step (.malloc size answer) = s.give h p size := by rw [step_malloc_eq, heq]
  have hanswers := hl.answers
  rw [hstep, heap_give] at hanswers
  have ha := hall hanswers
  refine ⟨hstep ▸ sane_give hs ha, fun _ q hq _ => ?_, nofun, nofun, nofun⟩
  rw [hstep, heap_give]
  exact frame_bytes hs hq (ha.frame q hq)

theorem step_calloc (hs : s.Sane) {n answer : U32} (hl : s.Legal (.calloc n size answer)) (hw : s.NoWrap (.calloc n size answer)) :
    (s.step (.calloc n size answer)).Sane ∧ s.Kept (.calloc n size answer) := by
  obtain ⟨h, p, heq, hall⟩ := hs.blocks.calloc_allocated hw answer
  have hstep : s.step (.calloc n size answer) = s.give h p (n * size) := by rw [step_calloc_eq, heq]
  have hanswers := hl.answers
  rw [hstep, heap_give] at hanswers
  obtain ⟨ha, hzero⟩ := hall hanswers
  refine ⟨hstep ▸ sane_give hs ha, fun _ q hq _ => ?_, fun n' size' answer' hc hlast => ?_, nofun, nofun⟩
  · rw [hstep, heap_give]
    exact frame_bytes hs hq (ha.frame q hq)
  · rw [HeapCall.calloc.injEq] at hc
    rw [← hc.1, ← hc.2.1]
    rw [hstep, last_give] at hlast
    rw [hstep, heap_give, last_give]
    exact hzero hlast

/-- `realloc` of a null pointer is `malloc`. -/
theorem step_realloc_null (s : HeapRun) (size answer : U32) : s.step (.realloc 0#32 size answer) = s.step (.malloc size answer) := by
  have hmalloc : FsLib.realloc s.heap 0#32 size answer = FsLib.malloc s.heap size answer := if_pos rfl
  have htake : s.take 0#32 = s := if_pos rfl
  rw [step_realloc_eq, step_malloc_eq, hmalloc, htake]
  cases FsLib.malloc s.heap size answer with
  | none => rfl
  | some r => exact ite_self _

theorem step_realloc (hs : s.Sane) {answer : U32} (hl : s.Legal (.realloc p size answer)) (hw : s.NoWrap (.realloc p size answer)) :
    (s.step (.realloc p size answer)).Sane ∧ s.Kept (.realloc p size answer) := by
  by_cases hp0 : p = 0#32
  · subst hp0
    have hnull := step_realloc_null s size answer
    have hlegal : s.Legal (.malloc size answer) := ⟨trivial, hnull ▸ hl.answers⟩
    obtain ⟨hsane, hkept⟩ := step_malloc hs hlegal hw
    refine ⟨hnull ▸ hsane, fun _ q hq _ => ?_, nofun, fun p' _ _ hc h0 => ?_, fun p' _ _ hc h0 => ?_⟩
    · rw [hnull]
      exact hkept.others nofun q hq nofun
    · exact absurd (HeapCall.realloc.inj hc).1.symm h0
    · exact absurd (HeapCall.realloc.inj hc).1.symm h0
  have hp : (s.live p).isSome := hl.proper.resolve_left hp0
  obtain ⟨h, np, heq, hall⟩ := hs.blocks.realloc_reallocated hp hw answer
  have hstep : s.step (.realloc p size answer) = if np = 0#32 then s.give h np size else (s.take p).give h np size := by rw [step_realloc_eq, heq]
  have hheap : (s.step (.realloc p size answer)).heap = h := by
    rw [hstep]
    split <;> exact heap_give _ _ _ _
  have hlast : (s.step (.realloc p size answer)).last = np := by
    rw [hstep]
    split <;> exact last_give _ _ _ _
  have ha := hall (hheap ▸ hl.answers)
  refine ⟨?_, fun _ q hq hne => ?_, nofun, fun p' size' answer' hc _ hnp => ?_, fun p' size' answer' hc _ hnp => ?_⟩
  · rw [hstep]
    by_cases hnp : np = 0#32
    · rw [if_pos hnp, give, if_pos hnp]
      exact ⟨hs.returned, (ha.null hnp).2⟩
    · rw [if_neg hnp, give, if_neg hnp, take, if_neg hp0]
      exact ⟨hs.returned, ha.given hnp⟩
  · rw [hheap]
    exact frame_bytes hs hq (ha.frame q hq fun heq => hne (congrArg some heq.symm))
  · rw [HeapCall.realloc.injEq] at hc
    rw [hlast] at hnp
    rw [hheap, hlast, ← hc.1, ← hc.2.1]
    exact ha.moved hnp
  · rw [hlast] at hnp
    rw [hheap, hstep, if_pos hnp, give, if_pos hnp]
    exact ⟨rfl, rfl, (ha.null hnp).1⟩

theorem step_free (hs : s.Sane) (hl : s.Legal (.free p)) : (s.step (.free p)).Sane ∧ s.Kept (.free p) := by
  by_cases hp0 : p = 0#32
  · have hsame : (s.step (.free p)).Sane ∧ (s.step (.free p)).heap = s.heap := by
      rw [step, take, if_pos hp0, FsLib.free, if_pos hp0]
      exact ⟨hs, rfl⟩
    refine ⟨hsame.1, fun _ q _ _ i _ => ?_, fun _ _ _ h => (by cases h), fun _ _ _ h => (by cases h),
      fun _ _ _ h => (by cases h)⟩
    rw [hsame.2]
  · have hp : (s.live p).isSome := hl.proper.resolve_left hp0
    obtain ⟨e, he, hpe⟩ := hs.blocks.block (.inl hp)
    refine ⟨?_, fun _ q hq hne => ?_, fun _ _ _ h => (by cases h), fun _ _ _ h => (by cases h),
      fun _ _ _ h => (by cases h)⟩
    · rw [step, take, if_neg hp0]
      exact ⟨hs.returned, hs.blocks.free_blocks hp⟩
    · change ∀ i < s.usable q, (FsLib.free s.heap p).list.mem _ = _
      refine frame_bytes hs hq fun x hx hx' => Blocks.free_mem he hs.blocks hpe ?_
      obtain ⟨e', he', hqe⟩ := hs.blocks.block (.inl hq)
      have hsize := hs.blocks.size_toNat he'
      have hpointer := (hs.blocks.sound.pointer he').1
      have h12 := (hs.blocks.sizes e he).2
      have hapart := (hs.blocks.sound.apart he he').resolve_left fun heq => hne (by rw [hqe, ← heq, ← hpe]; rfl)
      unfold RangesApart at hapart
      rw [hqe, BitVec.add_sub_cancel] at hx'
      rw [hqe] at hx
      omega

theorem step_store (hs : s.Sane) {a : U32} {v : Byte} (hl : s.Legal (.store a v)) :
    (s.step (.store a v)).Sane ∧ s.Kept (.store a v) := by
  refine ⟨⟨hs.returned, ?_⟩, fun hno => absurd rfl (hno a v), nofun, nofun, nofun⟩
  have hother : ∀ x : U32, x ≠ a → s.heap.list.mem.write a [v] x = s.heap.list.mem x := fun x hx => by
    rw [Mem.write_one, if_neg hx]
  rcases hl.proper with ⟨p, n, hp, hlow, hhigh⟩ | hout
  · obtain ⟨-, e, he, hpe, hroom⟩ := hs.blocks.liveBlock p n hp
    have hpointer := (hs.blocks.sound.pointer he).1
    rw [← hpe] at hpointer
    refine hs.blocks.withMem_payload he fun x hx => hother x ?_
    rintro rfl
    omega
  · refine hs.blocks.withMem fun e he x hx hx' => hother x ?_
    rintro rfl
    have h12 := (hs.blocks.sizes e he).2
    exact hout e he ⟨hx, by omega⟩

/-- A call whose size does not wrap, or without a free block, keeps the heap, and the bytes behind pointers. -/
theorem step_sane (hs : s.Sane) (hl : s.Legal c) (hw : s.NoWrap c) : (s.step c).Sane ∧ s.Kept c := by
  cases c with
  | malloc size answer => exact step_malloc hs hl hw
  | calloc n size answer => exact step_calloc hs hl hw
  | realloc p size answer => exact step_realloc hs hl hw
  | free p => exact step_free hs hl
  | store a v => exact step_store hs hl

end HeapRun

end FsLib

/-- In every run of calls of which none asks `malloc` for more than `INT_MAX - 3` bytes while a block is free, the heap is consistent
behind every call, and every call keeps the bytes behind pointers. -/
theorem heap_stays_consistent (m : Mem) (calls : List FsLib.HeapCall)
    (h : Meets FsLib.HeapRun.step (fun s c => s.Legal c ∧ s.NoWrap c) (FsLib.HeapRun.start m) calls) :
    (runFrom FsLib.HeapRun.step (FsLib.HeapRun.start m) calls).Consistent ∧
      Meets FsLib.HeapRun.step FsLib.HeapRun.Kept (FsLib.HeapRun.start m) calls := by
  have hstep : ∀ (s : FsLib.HeapRun) c, s.Sane → s.Legal c ∧ s.NoWrap c → (s.step c).Sane :=
    fun s c hs hc => (FsLib.HeapRun.step_sane hs hc.1 hc.2).1
  exact ⟨(inv_runFrom FsLib.HeapRun.Sane hstep (FsLib.HeapRun.sane_start m) h).consistent,
    meets_of_inv FsLib.HeapRun.Sane hstep (fun s c hs hc => (FsLib.HeapRun.step_sane hs hc.1 hc.2).2) (FsLib.HeapRun.sane_start m) h⟩

/-- A range of 12 bytes from 4096 on. -/
theorem oneRange_sound : FsLib.SbrkSound [(12#32, 0x1000#32)] := by
  have hgranted : FsLib.granted [(12#32, 0x1000#32)] = [(12#32, 0x1000#32)] := rfl
  refine ⟨?_, ?_, ?_⟩
  · rw [hgranted, List.forall_mem_singleton]
    exact Int.natCast_pos.mpr (Nat.zero_lt_succ 11)
  · rw [hgranted, List.forall_mem_singleton]
    exact fun h => absurd (congrArg BitVec.toNat h) (Nat.succ_ne_zero 4095)
  · rw [hgranted]
    exact List.pairwise_singleton _ _

/-- A block that is freed and given again for fewer bytes. -/
theorem heap_stays_consistent_reuse :
    (runFrom FsLib.HeapRun.step (FsLib.HeapRun.start fun _ => 0#8)
      [.malloc 4#32 0x1000#32, .free 0x1008#32, .calloc 1#32 3#32 0x2000#32]).Consistent ∧
    Meets FsLib.HeapRun.step FsLib.HeapRun.Kept (FsLib.HeapRun.start fun _ => 0#8)
      [.malloc 4#32 0x1000#32, .free 0x1008#32, .calloc 1#32 3#32 0x2000#32] :=
  heap_stays_consistent (fun _ => 0#8) [.malloc 4#32 0x1000#32, .free 0x1008#32, .calloc 1#32 3#32 0x2000#32]
    ⟨⟨⟨trivial, oneRange_sound⟩, .inl (by decide)⟩, ⟨⟨.inr rfl, oneRange_sound⟩, trivial⟩,
      ⟨⟨trivial, oneRange_sound⟩, .inr (.inr (.inr (.inl (by decide))))⟩, trivial⟩

/-- The block of 4 bytes is given for 2147483647. -/
theorem heap_stays_consistent_false : ¬∀ (m : Mem) (calls : List FsLib.HeapCall),
    Meets FsLib.HeapRun.step FsLib.HeapRun.Legal (FsLib.HeapRun.start m) calls →
    (runFrom FsLib.HeapRun.step (FsLib.HeapRun.start m) calls).Consistent := by
  intro h
  have hrun := h (fun _ => 0#8) [.malloc 4#32 0x1000#32, .free 0x1008#32, .malloc 0x7fffffff#32 0x2000#32]
    ⟨⟨trivial, oneRange_sound⟩, ⟨.inr rfl, oneRange_sound⟩, ⟨trivial, oneRange_sound⟩, trivial⟩
  have henough : 0x7fffffff ≤ 4 := hrun.enough 0x1008#32 0x7fffffff rfl
  omega

end MiniOs32
