import MiniOs32.Kernel.User

/-!
# Paths in the shell and in the C library

`build_path` of the shell, `path_resolve` of `user/libc.c` and its twin in `fs/lib/path.c` join a name onto a directory and fold
away `.` and `..`, in place, in a buffer `out` of the caller. The three share the loop over the components and differ in how
they start, in how they step back over a component and in what they return.

A string is the list of its bytes before the NUL, so that reading a NUL is reaching the end of the list. A null pointer leaves
each function where an empty string does. Every string lies in the 96MB user segment, so no length reaches `2^31` and the
counters are natural numbers. A write outside `out` is `none`.
-/

namespace MiniOs32

/-- `'/'`. -/
def slash : Byte := 47#8
/-- `'.'`. -/
def dot : Byte := 46#8

/-- `out[i] = b`. -/
def bufSet (out : List Byte) (i : Nat) (b : Byte) : Option (List Byte) :=
  if i < out.length then some (out.set i b) else none

/-- `memcpy(out + i, s, len)`. -/
def bufCopy (out : List Byte) (i : Nat) (s : List Byte) : Option (List Byte) :=
  if i + s.length ≤ out.length then some (out.take i ++ s ++ out.drop (i + s.length)) else none

/-- `while (i > 0 && out[i - 1] != '/') i--;` -/
def backToSlash (out : List Byte) : Nat → Nat
  | 0 => 0
  | i + 1 => if out.getD i 0#8 ≠ slash then backToSlash out i else i + 1

/-- The test `n > 0 && out[n - 1] == '/'`. -/
def endsInSlash (out : List Byte) (n : Nat) : Bool := decide (0 < n ∧ out.getD (n - 1) 0#8 = slash)

/-- Where the component before position `n` starts. -/
def componentStart (out : List Byte) (n : Nat) : Nat := backToSlash out (if endsInSlash out n then n - 1 else n)

/-- `path_pop` of the library: it writes a NUL at the root too. -/
def pathPop (out : List Byte) (n : Nat) : Option (List Byte × Nat) := do
  let i := componentStart out n
  let out ← bufSet out i 0#8
  return (out, i)

/-- `pop_component` of the shell: it leaves `out` alone at the root. -/
def popComponent (out : List Byte) (n : Nat) : Option (List Byte × Nat) := do
  if n = 0 then return (out, n)
  let i := componentStart out n
  let out ← bufSet out i 0#8
  return (out, i)

/-- The component at `start` goes behind position `n`, with a `'/'` and a NUL. -/
def pushComponent (out : List Byte) (n : Nat) (start : List Byte) : Option (List Byte × Nat) := do
  let out ← bufCopy out n start
  let n := n + start.length
  let out ← bufSet out n slash
  let n := n + 1
  let out ← bufSet out n 0#8
  return (out, n)

/-- How the loop over the components ends. -/
inductive Folded where
  /-- A byte outside `out` was written. -/
  | wild
  /-- A component did not fit. -/
  | full (out : List Byte)
  /-- The name is used up. -/
  | done (out : List Byte) (n : Nat)
deriving DecidableEq

/-- What is left of a name behind its first component. -/
def behindComponent (p : List Byte) : List Byte := (p.dropWhile (· == slash)).dropWhile (· != slash)

/-- Each turn of the loop that finds a component uses some of the name up. -/
theorem length_behindComponent {p : List Byte} (h : p.dropWhile (· == slash) ≠ []) : (behindComponent p).length < p.length := by
  have h0 : 0 < (p.dropWhile (· == slash)).length := List.length_pos_iff.2 h
  have hc := List.dropWhile_get_zero_not (· == slash) p h0
  have hle := (List.dropWhile_sublist (l := p) (· == slash)).length_le
  unfold behindComponent
  obtain ⟨c, q, hq⟩ := List.exists_cons_of_ne_nil h
  have hcne : (c != slash) = true := by
    simp only [hq, List.get_eq_getElem, List.getElem_cons_zero] at hc
    simpa using hc
  have hle' := (List.dropWhile_sublist (l := q) (· != slash)).length_le
  rw [hq, List.length_cons] at hle
  rw [hq, List.dropWhile_cons_of_pos (p := (· != slash)) hcne]
  omega

/-- The loop `while (*p)` of the three functions, with the function that steps back over a component. -/
def foldPath (pop : List Byte → Nat → Option (List Byte × Nat)) (outsz : Nat) (p out : List Byte) (n : Nat) : Folded :=
  if h : p.dropWhile (· == slash) = [] then
    .done out n
  else
    let start := (p.dropWhile (· == slash)).takeWhile (· != slash)
    have : (behindComponent p).length < p.length := length_behindComponent h
    if start = [dot] then
      foldPath pop outsz (behindComponent p) out n
    else if start = [dot, dot] then
      match pop out n with
      | none => .wild
      | some (out, n) => foldPath pop outsz (behindComponent p) out n
    else if outsz ≤ n + start.length + 1 then
      .full out
    else
      match pushComponent out n start with
      | none => .wild
      | some (out, n) => foldPath pop outsz (behindComponent p) out n
termination_by p.length

/-- `if (n > 0 && out[n - 1] == '/') { n--; out[n] = 0; }` -/
def dropSlash (out : List Byte) (n : Nat) : Option (List Byte × Nat) := do
  if endsInSlash out n then
    let out ← bufSet out (n - 1) 0#8
    return (out, n - 1)
  else
    return (out, n)

/-- `build_path` behind its loop: a directory keeps its last `'/'`, a file loses it. -/
def buildPathEnd (wantDir : Bool) : Folded → Option (Int × List Byte)
  | .wild => none
  | .full out => some (-1, out)
  | .done out n => do
    if wantDir then
      if n = 0 then return (1, ← bufSet out 0 0#8)
      if out.getD (n - 1) 0#8 ≠ slash then
        let out ← bufSet out n slash
        return (1, ← bufSet out (n + 1) 0#8)
      return (1, out)
    else
      let (out, n) ← dropSlash out n
      if n = 0 then return (0, out)
      return (1, out)

/-- `build_path`, with the shell's `cwd`: the value it returns and `out` afterwards. -/
def buildPath (cwd arg out : List Byte) (outsz : Nat) (wantDir : Bool) : Option (Int × List Byte) := do
  if arg = [] then return (0, out)
  if arg.head? ≠ some slash then
    if outsz ≤ cwd.length then return (-1, out)
    let out ← bufCopy out 0 cwd
    let out ← bufSet out cwd.length 0#8
    buildPathEnd wantDir (foldPath popComponent outsz arg out cwd.length)
  else
    buildPathEnd wantDir (foldPath popComponent outsz arg.tail out 0)

/-- `path_resolve` behind its loop. -/
def pathResolveEnd : Folded → Option (Int × List Byte)
  | .wild => none
  | .full out => some (0, out)
  | .done out n => do
    let (out, n) ← dropSlash out n
    return (if 0 < n then 1 else 0, out)

/-- `path_resolve` of `user/libc.c`: the value it returns and `out` afterwards. -/
def pathResolve (base name out : List Byte) (outsz : Nat) : Option (Int × List Byte) := do
  if name = [] then return (0, out)
  let out ← bufSet out 0 0#8
  if name.head? ≠ some slash ∧ base ≠ [] then
    if outsz ≤ base.length + 1 then return (0, out)
    let out ← bufCopy out 0 base
    if out.getD (base.length - 1) 0#8 ≠ slash then
      let out ← bufSet out base.length slash
      let out ← bufSet out (base.length + 1) 0#8
      pathResolveEnd (foldPath pathPop outsz name out (base.length + 1))
    else
      let out ← bufSet out base.length 0#8
      pathResolveEnd (foldPath pathPop outsz name out base.length)
  else
    pathResolveEnd (foldPath pathPop outsz name out 0)

/-- `path_resolve` of `fs/lib/path.c`: the same statements, with `out[n++] = c` written as two. -/
def libPathResolve (base name out : List Byte) (outsz : Nat) : Option (Int × List Byte) := pathResolve base name out outsz

/-- `NAME_MAX` of the shell. -/
def nameMax : Nat := 47

/-- `cmd_cd`: the working directory afterwards. `dirExists` stands for the listing of the directory entries, and `path` for what
the stack held in the buffer. -/
def cmdCd (dirExists : List Byte → Bool) (path cwd arg : List Byte) : Option (List Byte) := do
  let (ok, path) ← buildPath cwd arg path 64 true
  let s := path.takeWhile (· != 0#8)
  if ok ≤ 0 then return cwd
  if nameMax < s.length then return cwd
  if s = [] then return []
  if !dirExists s then return cwd
  return s

end MiniOs32
