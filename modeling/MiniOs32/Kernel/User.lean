import MiniOs32.Lib.Words

/-!
# The user address space as the kernel reads it

User pointers are offsets into a 96MB segment. `user_range_ok` checks an (offset, length) pair, `user_copy_str` copies a
NUL-terminated string into a kernel buffer, and `normalize_name` turns it into the name the filesystem uses.
-/

namespace MiniOs32

/-- `PAGE_SIZE`. -/
def pageSize : Nat := 4096
/-- `USER_BASE`: the linear address of user offset 0. -/
def userBase : Nat := 0x00400000
/-- `USER_SPACE_SIZE`: the length of the user segment. -/
def userSpaceSize : Nat := 96 * 1024 * 1024
/-- `USER_FB_OFFSET`: the arena of real RAM ends here and the framebuffer window begins. -/
def userFbOffset : Nat := 24 * 1024 * 1024
/-- `USER_FB_SIZE`. -/
def userFbSize : Nat := 16 * 1024 * 1024

/-- The memory of the running program, by user offset. -/
abbrev UserMem : Type := Nat → Byte

/-- A program's memory that starts with a text and a NUL. -/
def userText (s : String) : UserMem := fun i => (asciiBytes s).getD i 0#8

/-- `user_range_ok`: an (offset, length) pair lies in the arena or in the framebuffer window. -/
def userRangeOk (off len : U32) : Bool :=
  if off.toNat < userFbOffset then
    decide (len.toNat ≤ userFbOffset - off.toNat)
  else if userFbSize ≤ off.toNat - userFbOffset then
    false
  else
    decide (len.toNat ≤ userFbSize - (off.toNat - userFbOffset))

/-- The loop of `user_copy_str`: the bytes before the first NUL among the next `n`, if there is one. -/
def userCopyStrLoop (um : UserMem) : Nat → Nat → Option (List Byte)
  | _, 0 => none
  | a, n + 1 => if um a = 0#8 then some [] else (userCopyStrLoop um (a + 1) n).map (um a :: ·)

/-- How many bytes `user_copy_str` looks at: at most `max - 1`, and none past the end of the segment. -/
def userCopyStrLimit (off : U32) (max : Nat) : Nat := min (userSpaceSize - off.toNat) (max - 1)

/-- `user_copy_str`: the string at a user offset when it ends within `max` bytes (the call returns 1), `none` otherwise
(it returns 0). -/
def userCopyStr (um : UserMem) (off : U32) (max : Nat) : Option (List Byte) :=
  if max = 0 then none
  else if userSpaceSize ≤ off.toNat then none
  else userCopyStrLoop um off.toNat (userCopyStrLimit off max)

/-- The string every filesystem call reads its name from: a `char[64]` buffer. -/
def nameAt (um : UserMem) (off : U32) : Option (List Byte) := userCopyStr um off 64

/-- An ASCII lower-case letter minus 32, any other byte unchanged. -/
def upper (c : Byte) : Byte := if 97#8 ≤ c ∧ c ≤ 122#8 then c - 32#8 else c

/-- `FS_NAME_LEN`: the characters a stored name holds, its NUL not counted. -/
def fsNameLen : Nat := 47

/-- `normalize_name`: the first 47 characters in upper case. -/
def normalizeName (s : List Byte) : List Byte := (s.take fsNameLen).map upper

/-- A file name as a program may pass it: no NUL inside. -/
def IsName (s : List Byte) : Prop := ∀ c ∈ s, c ≠ 0#8

/-- What `user_copy_str` copies has no NUL inside. -/
theorem userCopyStrLoop_isName (um : UserMem) (n : Nat) :
    ∀ (a : Nat) (s : List Byte), userCopyStrLoop um a n = some s → IsName s := by
  induction n with
  | zero => intro a s h; simp [userCopyStrLoop] at h
  | succ n ih =>
    intro a s h
    simp only [userCopyStrLoop] at h
    split at h
    · simp only [Option.some.injEq] at h
      subst h
      intro c hc
      simp at hc
    · rename_i hne
      obtain ⟨t, ht, rfl⟩ := Option.map_eq_some_iff.1 h
      intro c hc
      rcases List.mem_cons.1 hc with rfl | hc
      · exact hne
      · exact ih (a + 1) t ht c hc

/-- The string a filesystem call reads has no NUL inside. -/
theorem nameAt_isName {um : UserMem} {off : U32} {s : List Byte} (h : nameAt um off = some s) : IsName s := by
  unfold nameAt userCopyStr at h
  split at h
  · cases h
  · split at h
    · cases h
    · exact userCopyStrLoop_isName um _ _ s h

/-- Upper case never makes a NUL. -/
theorem upper_ne_zero {c : Byte} (h : c ≠ 0#8) : upper c ≠ 0#8 := by
  revert c
  decide

/-- Upper case twice is upper case once. -/
theorem upper_upper (c : Byte) : upper (upper c) = upper c := by
  revert c
  decide

/-- A normalised name has no NUL inside. -/
theorem normalizeName_isName {s : List Byte} (h : IsName s) : IsName (normalizeName s) := by
  intro c hc
  obtain ⟨b, hb, rfl⟩ := List.mem_map.1 hc
  exact upper_ne_zero (h b (List.mem_of_mem_take hb))

/-- A normalised name is at most 47 characters long. -/
theorem normalizeName_length_le (s : List Byte) : (normalizeName s).length ≤ fsNameLen := by
  simp [normalizeName, List.length_take]

/-- A name of at most 47 characters keeps all its characters. -/
theorem normalizeName_of_length_le {s : List Byte} (h : s.length ≤ fsNameLen) : normalizeName s = s.map upper := by
  rw [normalizeName, List.take_of_length_le h]

end MiniOs32
