import MiniOs32.Kernel.User

/-!
# The string and memory functions of the two C libraries

`user/libc.c` walks its pointers, `fs/lib/string.c` counts an index up. Both are compiled with a signed `char`: `gcc` takes it so
on this machine, and `cc` loads one with `movsx`. A pointer is an offset into the segment of the program, so no address of a
buffer wraps, and the counts are natural numbers. A scan for a NUL is none if it goes through as many bytes as the segment has.
`user/libc.c` has no `memcmp`.
-/

namespace MiniOs32

/-- `(int)c` of a `char`. -/
def charInt (c : Byte) : U32 := c.signExtend 32

/-- `(int)c` of an `unsigned char`. -/
def ucharInt (c : Byte) : U32 := c.setWidth 32

/-- `um[a] = c`. -/
def UserMem.set (um : UserMem) (a : Nat) (c : Byte) : UserMem := fun x => if x = a then c else um x

/-- A C string in memory: its characters, none of them NUL, and a NUL behind them inside the segment. -/
structure CStr (um : UserMem) (a : Nat) (s : List Byte) : Prop where
  isName : IsName s
  chars : ∀ i ≤ s.length, um (a + i) = s.getD i 0#8
  inside : a + s.length < userSpaceSize

namespace FsLib

/-- `while (a[i] && a[i] == b[i]) i = i + 1;` -/
def matchLoop (um : UserMem) (a b i : Nat) : Nat → Option Nat
  | 0 => none
  | n + 1 => if um (a + i) ≠ 0#8 ∧ um (a + i) = um (b + i) then matchLoop um a b (i + 1) n else some i

/-- `strcmp`. -/
def strcmp (um : UserMem) (a b : Nat) : Option U32 :=
  (matchLoop um a b 0 userSpaceSize).map fun i => charInt (um (a + i)) - charInt (um (b + i))

/-- `while (i < n && a[i] && a[i] == b[i]) i = i + 1;`, with `n - i` characters left. -/
def matchUpTo (um : UserMem) (a b i : Nat) : Nat → Nat
  | 0 => i
  | left + 1 => if um (a + i) ≠ 0#8 ∧ um (a + i) = um (b + i) then matchUpTo um a b (i + 1) left else i

/-- `strncmp`. -/
def strncmp (um : UserMem) (a b n : Nat) : U32 :=
  let i := matchUpTo um a b 0 n
  if i = n then 0#32 else charInt (um (a + i)) - charInt (um (b + i))

/-- The loop of `memcmp`, with `n - i` bytes left. -/
def memcmpLoop (um : UserMem) (p q i : Nat) : Nat → U32
  | 0 => 0#32
  | left + 1 => if um (p + i) ≠ um (q + i) then ucharInt (um (p + i)) - ucharInt (um (q + i)) else memcmpLoop um p q (i + 1) left

/-- `memcmp`. -/
def memcmp (um : UserMem) (p q n : Nat) : U32 := memcmpLoop um p q 0 n

/-- `while (i < n) { d[i] = s[i]; i = i + 1; }`, with `n - i` bytes left. -/
def copyUp (um : UserMem) (d s i : Nat) : Nat → UserMem
  | 0 => um
  | left + 1 => copyUp (um.set (d + i) (um (s + i))) d s (i + 1) left

/-- `while (i >= 0) { d[i] = s[i]; i = i - 1; }`, with `i + 1` bytes left. -/
def copyDown (um : UserMem) (d s : Nat) : Nat → UserMem
  | 0 => um
  | i + 1 => copyDown (um.set (d + i) (um (s + i))) d s i

/-- `memmove`. -/
def memmove (um : UserMem) (d s n : Nat) : UserMem := if d < s then copyUp um d s 0 n else copyDown um d s n

/-- `while (i < n) { d[i] = 0; i = i + 1; }`, with `n - i` bytes left. -/
def zeroUp (um : UserMem) (d i : Nat) : Nat → UserMem
  | 0 => um
  | left + 1 => zeroUp (um.set (d + i) 0#8) d (i + 1) left

/-- `strncpy`, from index `i` on with `n - i` bytes left. -/
def strncpyLoop (um : UserMem) (d s i : Nat) : Nat → UserMem
  | 0 => um
  | left + 1 =>
    if um (s + i) ≠ 0#8 then strncpyLoop (um.set (d + i) (um (s + i))) d s (i + 1) left else zeroUp um d i (left + 1)

/-- `strncpy`. -/
def strncpy (um : UserMem) (d s n : Nat) : UserMem := strncpyLoop um d s 0 n

end FsLib

namespace UserLibc

/-- `while (*a && *a==*b) { a++; b++; } return (unsigned char)*a - (unsigned char)*b;` -/
def strcmpLoop (um : UserMem) (a b : Nat) : Nat → Option U32
  | 0 => none
  | n + 1 => if um a ≠ 0#8 ∧ um a = um b then strcmpLoop um (a + 1) (b + 1) n else some (ucharInt (um a) - ucharInt (um b))

/-- `strcmp`. -/
def strcmp (um : UserMem) (a b : Nat) : Option U32 := strcmpLoop um a b userSpaceSize

/-- `strncmp`. -/
def strncmp (um : UserMem) (a b : Nat) : Nat → U32
  | 0 => 0#32
  | n + 1 => if um a ≠ 0#8 ∧ um a = um b then strncmp um (a + 1) (b + 1) n else ucharInt (um a) - ucharInt (um b)

/-- `while (n--) *d++=*s++;` -/
def copyUp (um : UserMem) (d s : Nat) : Nat → UserMem
  | 0 => um
  | n + 1 => copyUp (um.set d (um s)) (d + 1) (s + 1) n

/-- `while (n--) *--d=*--s;` -/
def copyDown (um : UserMem) (d s : Nat) : Nat → UserMem
  | 0 => um
  | n + 1 => copyDown (um.set (d - 1) (um (s - 1))) (d - 1) (s - 1) n

/-- `memmove`. -/
def memmove (um : UserMem) (d s n : Nat) : UserMem := if d < s then copyUp um d s n else copyDown um (d + n) (s + n) n

/-- `while (n--) *d++=0;` -/
def zeroUp (um : UserMem) (d : Nat) : Nat → UserMem
  | 0 => um
  | n + 1 => zeroUp (um.set d 0#8) (d + 1) n

/-- `strncpy`. -/
def strncpy (um : UserMem) (d s : Nat) : Nat → UserMem
  | 0 => um
  | n + 1 => if um s ≠ 0#8 then strncpy (um.set d (um s)) (d + 1) (s + 1) n else zeroUp um d (n + 1)

end UserLibc

end MiniOs32
