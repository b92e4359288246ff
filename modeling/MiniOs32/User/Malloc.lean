import MiniOs32.Lib.Chains
import MiniOs32.Lib.Run

/-!
# The heap of a program in its own hands

`malloc`, `calloc`, `realloc` and `free` of `fs/lib/stdlib.c`. A block is two words, its size and the next free block, with the bytes of
the block behind them. What `sys_sbrk` would answer to a call is given, and every question is noted with its answer; `free_list` is
outside the memory. A call that walks the free list for ever returns nothing.
-/

namespace MiniOs32

namespace FsLib

/-- `ENOMEM`. -/
def enomem : U32 := 12#32

/-- The memory with `free_list`, `errno`, and what `sys_sbrk` was asked and answered. -/
structure Heap where
  list : ListMem
  errno : U32
  asked : List (U32 × U32)

/-- `b->size`. -/
def Heap.size (h : Heap) (b : U32) : U32 := h.list.mem.read32 b

/-- `(*pp)->size >= want`. -/
def Heap.fits (h : Heap) (want b : U32) : Bool := decide (want.toInt ≤ (h.size b).toInt)

/-- More turns than a free list can have nodes. -/
def walkTurns : Nat := 2 ^ 32 + 1

/-- `(size + 3) & ~3`. -/
def roundWord (size : U32) : U32 := (size + 3#32) &&& ~~~3#32

/-- `malloc`: the heap and the result. -/
def malloc (h : Heap) (size answer : U32) : Option (Heap × U32) :=
  if size.toInt ≤ 0 then some (h, 0#32)
  else
    match h.list.walk 4#32 (h.fits (roundWord size)) walkTurns none with
    | .endless => none
    | .found place =>
      let b := h.list.load place
      some ({ h with list := h.list.store place (h.list.mem.read32 (b + 4#32)) }, b + 8#32)
    | .absent =>
      let h := { h with asked := h.asked ++ [(roundWord size + 8#32, answer)] }
      if answer.toInt < 0 then some ({ h with errno := enomem }, 0#32)
      else
        let mem := (h.list.mem.write32 answer (roundWord size)).write32 (answer + 4#32) 0#32
        some ({ h with list := { h.list with mem } }, answer + 8#32)

/-- `free`. -/
def free (h : Heap) (p : U32) : Heap :=
  if p = 0#32 then h else { h with list := ⟨h.list.mem.write32 (p - 8#32 + 4#32) h.list.head, p - 8#32⟩ }

/-- The loop of `memset_local`, from index `i` on. -/
def setLocal (m : Mem) (dst i : U32) (v : Byte) : Nat → Mem
  | 0 => m
  | left + 1 => setLocal (m.write (dst + i) [v]) dst (i + 1#32) v left

/-- The loop of `memcpy_local`, from index `i` on. -/
def copyLocal (m : Mem) (dst src i : U32) : Nat → Mem
  | 0 => m
  | left + 1 => copyLocal (m.write (dst + i) [m (src + i)]) dst src (i + 1#32) left

/-- The heap with another memory. -/
def Heap.withMem (h : Heap) (m : Mem) : Heap := { h with list := { h.list with mem := m } }

/-- `calloc`. -/
def calloc (h : Heap) (n size answer : U32) : Option (Heap × U32) :=
  if n.toInt ≤ 0 ∨ size.toInt ≤ 0 then some (h, 0#32)
  else if ((0x7fffffff#32 : U32).sdiv size).toInt < n.toInt then some (h, 0#32)
  else
    (malloc h (n * size) answer).map fun (h, p) =>
      if p ≠ 0#32 then (h.withMem (setLocal h.list.mem p 0#32 0#8 (n * size).toInt.toNat), p) else (h, p)

/-- `realloc`. -/
def realloc (h : Heap) (p size answer : U32) : Option (Heap × U32) :=
  if p = 0#32 then malloc h size answer
  else if size.toInt ≤ (h.size (p - 8#32)).toInt then some (h, p)
  else
    (malloc h size answer).map fun (h, np) =>
      if np ≠ 0#32 then (free (h.withMem (copyLocal h.list.mem np p 0#32 (h.size (p - 8#32)).toInt.toNat)) p, np) else (h, np)

/-! ## Runs -/

/-- A call of a program, with the answer of `sys_sbrk` if it asks, or a byte that the program stores itself. -/
inductive HeapCall where
  | malloc (size answer : U32)
  | calloc (n size answer : U32)
  | realloc (p size answer : U32)
  | free (p : U32)
  | store (a : U32) (c : Byte)

/-- The pointer that a call is given. -/
def HeapCall.pointer : HeapCall → Option U32
  | .realloc p _ _ => some p
  | .free p => some p
  | _ => none

/-- A program that uses the heap: how many bytes it asked for behind each pointer it holds, the pointers it freed and was not given
again, the last first, the result of the last call, and whether every call returned. -/
structure HeapRun where
  heap : Heap
  live : U32 → Option Nat
  freed : List U32
  last : U32
  returned : Bool

namespace HeapRun

/-- Before the first call. -/
def start (m : Mem) : HeapRun := ⟨⟨⟨m, 0#32⟩, 0#32, []⟩, fun _ => none, [], 0#32, true⟩

/-- The program is given a block, or a null pointer. -/
def give (s : HeapRun) (h : Heap) (p size : U32) : HeapRun :=
  if p = 0#32 then { s with heap := h, last := p }
  else { s with heap := h, live := Function.update s.live p (some size.toInt.toNat), freed := s.freed.erase p, last := p }

/-- The program gives a block back. -/
def take (s : HeapRun) (p : U32) : HeapRun :=
  if p = 0#32 then s else { s with live := Function.update s.live p none, freed := p :: s.freed }

/-- One call. -/
def step (s : HeapRun) : HeapCall → HeapRun
  | .malloc size answer =>
    match FsLib.malloc s.heap size answer with
    | none => { s with returned := false }
    | some (h, p) => s.give h p size
  | .calloc n size answer =>
    match FsLib.calloc s.heap n size answer with
    | none => { s with returned := false }
    | some (h, p) => s.give h p (n * size)
  | .realloc p size answer =>
    match FsLib.realloc s.heap p size answer with
    | none => { s with returned := false }
    | some (h, np) => if np = 0#32 then s.give h np size else (s.take p).give h np size
  | .free p => { s.take p with heap := FsLib.free s.heap p }
  | .store a c => { s with heap := s.heap.withMem (s.heap.list.mem.write a [c]) }

theorem step_malloc_eq (s : HeapRun) (size answer : U32) : s.step (.malloc size answer) =
    match FsLib.malloc s.heap size answer with
    | none => { s with returned := false }
    | some (h, p) => s.give h p size := rfl

theorem step_calloc_eq (s : HeapRun) (n size answer : U32) : s.step (.calloc n size answer) =
    match FsLib.calloc s.heap n size answer with
    | none => { s with returned := false }
    | some (h, p) => s.give h p (n * size) := rfl

theorem step_realloc_eq (s : HeapRun) (p size answer : U32) : s.step (.realloc p size answer) =
    match FsLib.realloc s.heap p size answer with
    | none => { s with returned := false }
    | some (h, np) => if np = 0#32 then s.give h np size else (s.take p).give h np size := rfl

end HeapRun

end FsLib

end MiniOs32
