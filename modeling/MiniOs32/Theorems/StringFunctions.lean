import MiniOs32.User.Strings

/-!
# The string and memory functions mean the same in both libraries

The two libraries run the same loops, one by pointers and one by an index. They differ in the last line of `strcmp` and `strncmp`:
`user/libc.c` subtracts the characters as `unsigned char`, `fs/lib/string.c` subtracts them as they are, and so as signed ones. A
call means what C says if and only if it is not one of those two, or the first difference is between characters of the same half
of the byte values (`string_functions_iff`).
-/

namespace MiniOs32

/-- A result has the sign of the first difference of two byte sequences among their first `n` bytes, and is 0 if there is none. -/
structure SignOfDiff (r : U32) (x y : Nat → Byte) (n : Nat) : Prop where
  same : (∀ i < n, x i = y i) → r = 0#32
  differ : ∀ i < n, (∀ j < i, x j = y j) → x i ≠ y i → r.toInt.sign = ((x i).toNat - (y i).toNat : Int).sign

/-- The first difference is between two bytes below 128 or between two others. -/
def SameHalf (x y : Nat → Byte) (n : Nat) : Prop := ∀ i < n, (∀ j < i, x j = y j) → ((x i).toNat < 128 ↔ (y i).toNat < 128)

/-- The memory with `n` bytes at `d` as `src` gives them. -/
structure BytesWritten (um um' : UserMem) (d n : Nat) (src : Nat → Byte) : Prop where
  inside : ∀ i < n, um' (d + i) = src i
  outside : ∀ x, ¬(d ≤ x ∧ x < d + n) → um' x = um x

/-! ## Both libraries run one loop -/

section Loops

variable (um : UserMem) (a b d s i n : Nat)

theorem copyUp_alike : UserLibc.copyUp um (d + i) (s + i) n = FsLib.copyUp um d s i n := by
  induction n generalizing um i with
  | zero => rfl
  | succ n ih => rw [UserLibc.copyUp, FsLib.copyUp, ← ih, Nat.add_assoc, Nat.add_assoc]

theorem copyDown_alike : UserLibc.copyDown um (d + n) (s + n) n = FsLib.copyDown um d s n := by
  induction n generalizing um with
  | zero => rfl
  | succ n ih => rw [UserLibc.copyDown, FsLib.copyDown, ← ih, ← Nat.add_assoc, ← Nat.add_assoc, Nat.add_sub_cancel, Nat.add_sub_cancel]

theorem memmove_alike : UserLibc.memmove um d s n = FsLib.memmove um d s n := by
  rw [UserLibc.memmove, FsLib.memmove, copyDown_alike, ← copyUp_alike, Nat.add_zero, Nat.add_zero]

theorem zeroUp_alike : UserLibc.zeroUp um (d + i) n = FsLib.zeroUp um d i n := by
  induction n generalizing um i with
  | zero => rfl
  | succ n ih => rw [UserLibc.zeroUp, FsLib.zeroUp, ← ih, Nat.add_assoc]

theorem strncpy_alike : UserLibc.strncpy um (d + i) (s + i) n = FsLib.strncpyLoop um d s i n := by
  induction n generalizing um i with
  | zero => rfl
  | succ n ih => rw [UserLibc.strncpy, FsLib.strncpyLoop, ← ih, zeroUp_alike, Nat.add_assoc, Nat.add_assoc]

/-- The unbounded scan is the bounded one, as long as it ends. -/
theorem matchLoop_eq : FsLib.matchLoop um a b i n =
    if FsLib.matchUpTo um a b i n = i + n then none else some (FsLib.matchUpTo um a b i n) := by
  induction n generalizing i with
  | zero => simp [FsLib.matchLoop, FsLib.matchUpTo]
  | succ n ih =>
    rw [FsLib.matchLoop, FsLib.matchUpTo]
    split
    · rw [ih, Nat.add_assoc, Nat.add_comm 1]
    · rw [if_neg (by omega)]

theorem strcmpLoop_alike : UserLibc.strcmpLoop um (a + i) (b + i) n =
    (FsLib.matchLoop um a b i n).map fun j => ucharInt (um (a + j)) - ucharInt (um (b + j)) := by
  induction n generalizing i with
  | zero => rfl
  | succ n ih =>
    rw [UserLibc.strcmpLoop, FsLib.matchLoop, Nat.add_assoc, Nat.add_assoc, ih]
    split <;> rfl

theorem strncmp_alike : UserLibc.strncmp um (a + i) (b + i) n =
    if FsLib.matchUpTo um a b i n = i + n then 0#32
    else ucharInt (um (a + FsLib.matchUpTo um a b i n)) - ucharInt (um (b + FsLib.matchUpTo um a b i n)) := by
  induction n generalizing i with
  | zero => simp [UserLibc.strncmp, FsLib.matchUpTo]
  | succ n ih =>
    rw [UserLibc.strncmp, FsLib.matchUpTo, Nat.add_assoc, Nat.add_assoc, ih, Nat.add_assoc, Nat.add_comm 1]
    split
    · rfl
    · rw [if_neg (by omega)]

end Loops

/-! ## Copies -/

section Copies

variable {um : UserMem} {d s i n : Nat}

theorem copyUp_spec (h : d ≤ s) (x : Nat) :
    FsLib.copyUp um d s i n x = if d + i ≤ x ∧ x < d + i + n then um (s + (x - d)) else um x := by
  induction n generalizing um i with
  | zero => rw [FsLib.copyUp, if_neg (by omega)]
  | succ n ih =>
    rw [FsLib.copyUp, ih]
    by_cases hx : x = d + i
    · rw [if_neg (by omega), if_pos (by omega), UserMem.set, if_pos hx, hx, Nat.add_sub_cancel_left]
    · by_cases hin : d + (i + 1) ≤ x ∧ x < d + (i + 1) + n
      · rw [if_pos hin, if_pos (by omega), UserMem.set, if_neg (by omega)]
      · rw [if_neg hin, if_neg (by omega), UserMem.set, if_neg hx]

theorem copyDown_spec (h : s ≤ d) (x : Nat) :
    FsLib.copyDown um d s n x = if d ≤ x ∧ x < d + n then um (s + (x - d)) else um x := by
  induction n generalizing um with
  | zero => rw [FsLib.copyDown, if_neg (by omega)]
  | succ n ih =>
    rw [FsLib.copyDown, ih]
    by_cases hx : x = d + n
    · rw [if_neg (by omega), if_pos (by omega), UserMem.set, if_pos hx, hx, Nat.add_sub_cancel_left]
    · by_cases hin : d ≤ x ∧ x < d + n
      · rw [if_pos hin, if_pos (by omega), UserMem.set, if_neg (by omega)]
      · rw [if_neg hin, if_neg (by omega), UserMem.set, if_neg hx]

/-- What `memmove` leaves at an address. -/
theorem memmove_apply (um : UserMem) (d s n x : Nat) :
    FsLib.memmove um d s n x = if d ≤ x ∧ x < d + n then um (s + (x - d)) else um x := by
  rw [FsLib.memmove]
  split
  · rw [copyUp_spec (by omega), Nat.add_zero]
  · rw [copyDown_spec (by omega)]

/-- `memmove` moves the bytes as they were, however the ranges overlap. -/
theorem memmove_written (um : UserMem) (d s n : Nat) : BytesWritten um (FsLib.memmove um d s n) d n fun i => um (s + i) := by
  constructor
  · intro i hi
    rw [memmove_apply, if_pos (by omega), Nat.add_sub_cancel_left]
  · intro x hx
    rw [memmove_apply, if_neg hx]

theorem zeroUp_spec (x : Nat) : FsLib.zeroUp um d i n x = if d + i ≤ x ∧ x < d + i + n then 0#8 else um x := by
  induction n generalizing um i with
  | zero => rw [FsLib.zeroUp, if_neg (by omega)]
  | succ n ih =>
    rw [FsLib.zeroUp, ih]
    by_cases hx : x = d + i
    · rw [if_neg (by omega), if_pos (by omega), UserMem.set, if_pos hx]
    · rw [UserMem.set, if_neg hx]
      exact if_congr (by omega) rfl rfl

/-- `strncpy` from index `i` on: what it still reads has not been written over. -/
theorem strncpyLoop_spec {l : List Byte} (hl : IsName l) (hi : i ≤ l.length)
    (hchars : ∀ j, i ≤ j → j < i + n → j ≤ l.length → um (s + j) = l.getD j 0#8)
    (hd : d ≤ s ∨ s + min (i + n) (l.length + 1) ≤ d) (x : Nat) :
    FsLib.strncpyLoop um d s i n x = if d + i ≤ x ∧ x < d + i + n then l.getD (x - d) 0#8 else um x := by
  induction n generalizing um i with
  | zero => rw [FsLib.strncpyLoop, if_neg (by omega)]
  | succ n ih =>
    have hc := hchars i le_rfl (by omega) hi
    rw [FsLib.strncpyLoop]
    rcases Nat.lt_or_eq_of_le hi with hlt | heq
    · have hne : um (s + i) ≠ 0#8 := by
        rw [hc, List.getD_eq_getElem _ _ hlt]
        exact hl _ (List.getElem_mem hlt)
      rw [if_pos hne, ih hlt ?_ (by omega)]
      · by_cases hx : x = d + i
        · rw [if_neg (by omega), if_pos (by omega), UserMem.set, if_pos hx, hc, hx, Nat.add_sub_cancel_left]
        · rw [UserMem.set, if_neg hx]
          exact if_congr (by omega) rfl rfl
      · intro j h₁ h₂ h₃
        rw [UserMem.set, if_neg (by omega)]
        exact hchars j (by omega) (by omega) h₃
    · -- the NUL: everything from here on is zero
      have hz : um (s + i) = 0#8 := by rw [hc, List.getD_eq_default _ _ (by omega)]
      rw [if_neg (by simpa using hz), zeroUp_spec]
      by_cases hin : d + i ≤ x ∧ x < d + i + (n + 1)
      · rw [if_pos hin, if_pos hin, List.getD_eq_default _ _ (by omega)]
      · rw [if_neg hin, if_neg hin]

/-- `strncpy` writes exactly `n` bytes, those of the source and then zeros. -/
theorem strncpy_written {l : List Byte} (hl : CStr um s l) (hd : d ≤ s ∨ s + min n (l.length + 1) ≤ d) :
    BytesWritten um (FsLib.strncpy um d s n) d n fun i => l.getD i 0#8 := by
  have h := strncpyLoop_spec (i := 0) (n := n) hl.isName (Nat.zero_le _) (fun j _ _ hj => hl.chars j hj) (by rwa [Nat.zero_add])
  simp only [Nat.add_zero] at h
  constructor
  · intro i hi
    rw [FsLib.strncpy, h, if_pos (by omega), Nat.add_sub_cancel_left]
  · intro x hx
    rw [FsLib.strncpy, h, if_neg hx]

end Copies

/-! ## Comparisons -/

theorem ucharInt_sub (c d : Byte) : (ucharInt c - ucharInt d).toInt = c.toNat - d.toNat := by
  have hc := c.isLt
  have hd := d.isLt
  rw [ucharInt, ucharInt, BitVec.toInt_sub, BitVec.toInt_setWidth, BitVec.toInt_setWidth]
  simp only [Int.bmod_def]
  omega

theorem charInt_sub (c d : Byte) : (charInt c - charInt d).toInt = c.toInt - d.toInt := by
  have hc := c.isLt
  have hd := d.isLt
  rw [charInt, charInt, BitVec.toInt_sub, BitVec.toInt_signExtend_of_le (by decide), BitVec.toInt_signExtend_of_le (by decide)]
  simp only [Int.bmod_def, BitVec.toInt_eq_toNat_cond]
  omega

/-- As signed characters two bytes compare as they do unsigned if they are of the same half. -/
theorem charInt_sub_sign {c d : Byte} (h : c ≠ d) :
    (charInt c - charInt d).toInt.sign = (c.toNat - d.toNat : Int).sign ↔ (c.toNat < 128 ↔ d.toNat < 128) := by
  have hne : c.toNat ≠ d.toNat := fun he => h (BitVec.eq_of_toNat_eq he)
  have hc := c.isLt
  have hd := d.isLt
  rw [charInt_sub, BitVec.toInt_eq_toNat_cond, BitVec.toInt_eq_toNat_cond]
  rcases Nat.lt_or_gt_of_ne hne with hlt | hlt
  · rw [Int.sign_eq_neg_one_of_neg (show (c.toNat : Int) - d.toNat < 0 by omega), Int.sign_eq_neg_one_iff_neg]
    split <;> split <;> omega
  · rw [Int.sign_eq_one_of_pos (show (0 : Int) < c.toNat - d.toNat by omega), Int.sign_eq_one_iff_pos]
    split <;> split <;> omega

section Compare

variable {x y : Nat → Byte} {n j : Nat} {r : U32}

/-- Where the scan stops is the first difference, or the end of two equal strings. -/
structure StopsAt (x y : Nat → Byte) (n j : Nat) : Prop where
  before : ∀ k < j, x k = y k
  within : j < n
  rest : x j = y j → ∀ k, x k = y k

theorem StopsAt.first (h : StopsAt x y n j) {i : Nat} (hi : ∀ k < i, x k = y k) (hne : x i ≠ y i) : i = j := by
  rcases lt_trichotomy i j with hij | hij | hij
  · exact absurd (h.before i hij) hne
  · exact hij
  · exact absurd (h.rest (hi j hij) i) hne

theorem StopsAt.sign_iff (h : StopsAt x y n j) (h0 : x j = y j → r = 0#32) :
    SignOfDiff r x y n ↔ (x j ≠ y j → r.toInt.sign = ((x j).toNat - (y j).toNat : Int).sign) := by
  constructor
  · exact fun hs hne => hs.differ j h.within h.before hne
  · intro hs
    refine ⟨fun hall => h0 (hall j h.within), fun i _ hi hne => ?_⟩
    obtain rfl := h.first hi hne
    exact hs hne

theorem StopsAt.sameHalf_iff (h : StopsAt x y n j) : SameHalf x y n ↔ (x j ≠ y j → ((x j).toNat < 128 ↔ (y j).toNat < 128)) := by
  constructor
  · exact fun hs _ => hs j h.within h.before
  · intro hs i _ hi
    by_cases hne : x i = y i
    · rw [hne]
    · obtain rfl := h.first hi hne
      exact hs hne

theorem StopsAt.uchar (h : StopsAt x y n j) : SignOfDiff (ucharInt (x j) - ucharInt (y j)) x y n := by
  rw [h.sign_iff (fun he => by rw [he, BitVec.sub_self])]
  intro
  rw [ucharInt_sub]

theorem StopsAt.char_iff (h : StopsAt x y n j) : SignOfDiff (charInt (x j) - charInt (y j)) x y n ↔ SameHalf x y n := by
  rw [h.sign_iff (fun he => by rw [he, BitVec.sub_self]), h.sameHalf_iff]
  exact forall_congr' fun hne => charInt_sub_sign hne

theorem signOfDiff_zero (h : ∀ i < n, x i = y i) : SignOfDiff 0#32 x y n :=
  ⟨fun _ => rfl, fun i hi _ hne => absurd (h i hi) hne⟩

end Compare

/-- What the bounded scan passes over, and why it stops. -/
theorem matchUpTo_spec (um : UserMem) (a b i n : Nat) :
    i ≤ FsLib.matchUpTo um a b i n ∧ FsLib.matchUpTo um a b i n ≤ i + n ∧
      (∀ k, i ≤ k → k < FsLib.matchUpTo um a b i n → um (a + k) ≠ 0#8 ∧ um (a + k) = um (b + k)) ∧
      (FsLib.matchUpTo um a b i n < i + n → ¬(um (a + FsLib.matchUpTo um a b i n) ≠ 0#8 ∧
        um (a + FsLib.matchUpTo um a b i n) = um (b + FsLib.matchUpTo um a b i n))) := by
  induction n generalizing i with
  | zero => exact ⟨le_rfl, le_rfl, fun k h₁ h₂ => absurd h₁ (by rw [FsLib.matchUpTo] at h₂; omega), fun h => absurd h (lt_irrefl _)⟩
  | succ n ih =>
    rw [FsLib.matchUpTo]
    split
    · rename_i hc
      obtain ⟨h₁, h₂, h₃, h₄⟩ := ih (i + 1)
      refine ⟨by omega, by omega, fun k hk hk' => ?_, fun h => h₄ (by omega)⟩
      rcases Nat.lt_or_eq_of_le hk with hlt | rfl
      · exact h₃ k hlt hk'
      · exact hc
    · rename_i hc
      exact ⟨le_rfl, by omega, fun k h₁ h₂ => absurd h₁ (by omega), fun _ => hc⟩

section Strings

variable {um : UserMem} {a b n : Nat} {s t : List Byte}

theorem CStr.ne_zero (h : CStr um a s) {i : Nat} (hi : i ≤ s.length) : um (a + i) ≠ 0#8 ↔ i < s.length := by
  rw [h.chars i hi]
  constructor
  · intro hne
    by_contra hge
    exact hne (List.getD_eq_default _ _ (by omega))
  · intro hlt
    rw [List.getD_eq_getElem _ _ hlt]
    exact h.isName _ (List.getElem_mem hlt)

/-- A scan of two strings does not go past the end of either. -/
theorem match_le (hs : CStr um a s) (ht : CStr um b t) {m : Nat} (h : ∀ k < m, um (a + k) ≠ 0#8 ∧ um (a + k) = um (b + k)) :
    m ≤ s.length ∧ m ≤ t.length := by
  constructor
  · by_contra hgt
    exact absurd ((hs.ne_zero le_rfl).mp (h s.length (by omega)).1) (lt_irrefl _)
  · by_contra hgt
    have hk := h t.length (by omega)
    rw [hk.2] at hk
    exact absurd ((ht.ne_zero le_rfl).mp hk.1) (lt_irrefl _)

/-- Where the scan of two strings stops before its bound. -/
theorem stopsAt_match (hs : CStr um a s) (ht : CStr um b t) (hlt : FsLib.matchUpTo um a b 0 n < n) {m : Nat}
    (hm : FsLib.matchUpTo um a b 0 n < m) :
    StopsAt (fun i => s.getD i 0#8) (fun i => t.getD i 0#8) m (FsLib.matchUpTo um a b 0 n) ∧
      um (a + FsLib.matchUpTo um a b 0 n) = s.getD (FsLib.matchUpTo um a b 0 n) 0#8 ∧
      um (b + FsLib.matchUpTo um a b 0 n) = t.getD (FsLib.matchUpTo um a b 0 n) 0#8 ∧
      FsLib.matchUpTo um a b 0 n ≤ s.length := by
  obtain ⟨-, -, hbefore, hstop⟩ := matchUpTo_spec um a b 0 n
  rw [Nat.zero_add] at hstop
  replace hstop := hstop hlt
  generalize FsLib.matchUpTo um a b 0 n = j at *
  obtain ⟨hjs, hjt⟩ := match_le hs ht fun k hk => hbefore k (Nat.zero_le _) hk
  refine ⟨⟨fun k hk => ?_, hm, fun he k => ?_⟩, hs.chars j hjs, ht.chars j hjt, hjs⟩
  · have hk' := (hbefore k (Nat.zero_le _) hk).2
    rwa [hs.chars k (by omega), ht.chars k (by omega)] at hk'
  · rw [← hs.chars j hjs, ← ht.chars j hjt] at he
    -- equal where the scan stops, so both strings end there
    have hz : um (a + j) = 0#8 := by
      by_contra hne
      exact hstop ⟨hne, he⟩
    have hjs' : j = s.length := by
      by_contra hne
      exact (hs.ne_zero hjs).mpr (by omega) hz
    have hjt' : j = t.length := by
      by_contra hne
      exact (ht.ne_zero hjt).mpr (by omega) (he ▸ hz)
    rcases Nat.lt_or_ge k j with hk | hk
    · have hk' := (hbefore k (Nat.zero_le _) hk).2
      rwa [hs.chars k (by omega), ht.chars k (by omega)] at hk'
    · rw [List.getD_eq_default _ _ (by omega), List.getD_eq_default _ _ (by omega)]

/-- A scan that reaches its bound has found the strings alike so far. -/
theorem same_of_match (hs : CStr um a s) (ht : CStr um b t) (h : FsLib.matchUpTo um a b 0 n = n) :
    ∀ i < n, s.getD i 0#8 = t.getD i 0#8 := by
  obtain ⟨-, -, hbefore, -⟩ := matchUpTo_spec um a b 0 n
  rw [h] at hbefore
  obtain ⟨hjs, hjt⟩ := match_le hs ht fun k hk => hbefore k (Nat.zero_le _) hk
  intro i hi
  have hi' := (hbefore i (Nat.zero_le _) hi).2
  rwa [hs.chars i (by omega), ht.chars i (by omega)] at hi'

/-- The unbounded scan of two strings ends inside the segment. -/
theorem match_ends (hs : CStr um a s) (ht : CStr um b t) :
    FsLib.matchUpTo um a b 0 userSpaceSize < userSpaceSize := by
  obtain ⟨-, -, hbefore, -⟩ := matchUpTo_spec um a b 0 userSpaceSize
  obtain ⟨hjs, -⟩ := match_le hs ht fun k hk => hbefore k (Nat.zero_le _) hk
  have := hs.inside
  omega

end Strings

theorem memcmpLoop_spec (um : UserMem) (p q i n : Nat) :
    (∀ k, i ≤ k → k < i + n → um (p + k) = um (q + k)) ∧ FsLib.memcmpLoop um p q i n = 0#32 ∨
      ∃ j, i ≤ j ∧ j < i + n ∧ (∀ k, i ≤ k → k < j → um (p + k) = um (q + k)) ∧ um (p + j) ≠ um (q + j) ∧
        FsLib.memcmpLoop um p q i n = ucharInt (um (p + j)) - ucharInt (um (q + j)) := by
  induction n generalizing i with
  | zero => exact .inl ⟨fun k h₁ h₂ => absurd h₁ (by omega), rfl⟩
  | succ n ih =>
    rw [FsLib.memcmpLoop]
    split
    · rename_i hne
      exact .inr ⟨i, le_rfl, by omega, fun k h₁ h₂ => absurd h₁ (by omega), hne, rfl⟩
    · rename_i heq
      rw [not_not] at heq
      have hfrom {m : Nat} (h : ∀ k, i + 1 ≤ k → k < m → um (p + k) = um (q + k)) (k : Nat) (hk : i ≤ k) (hk' : k < m) :
          um (p + k) = um (q + k) := by
        rcases Nat.lt_or_eq_of_le hk with hlt | rfl
        · exact h k hlt hk'
        · exact heq
      rcases ih (i + 1) with ⟨hsame, h0⟩ | ⟨j, h₁, h₂, h₃, h₄, h₅⟩
      · exact .inl ⟨hfrom fun k hk hk' => hsame k hk (by omega), h0⟩
      · exact .inr ⟨j, by omega, by omega, hfrom h₃, h₄, h₅⟩

theorem memcmp_sign (um : UserMem) (p q n : Nat) :
    SignOfDiff (FsLib.memcmp um p q n) (fun i => um (p + i)) (fun i => um (q + i)) n := by
  rw [FsLib.memcmp]
  rcases memcmpLoop_spec um p q 0 n with ⟨hsame, h0⟩ | ⟨j, -, h₂, h₃, h₄, h₅⟩
  · rw [h0]
    exact signOfDiff_zero fun i hi => hsame i (Nat.zero_le _) (by omega)
  · rw [h₅]
    exact StopsAt.uchar (x := fun i => um (p + i)) (y := fun i => um (q + i))
      ⟨fun k hk => h₃ k (Nat.zero_le _) hk, by omega, fun he => absurd he h₄⟩

/-! ## The calls -/

/-- The two C libraries. -/
inductive Library where
  /-- `user/libc.c` -/
  | user
  /-- `fs/lib/string.c` -/
  | fs
  deriving DecidableEq

/-- A call of one of the functions. Only `fs/lib/string.c` has `memcmp`. -/
inductive StrCall where
  | strcmp (a b : Nat)
  | strncmp (a b n : Nat)
  | memcmp (p q n : Nat)
  | memmove (d s n : Nat)
  | strncpy (d s n : Nat)

namespace StrCall

/-- What C says of the call: the sign of the first difference of the strings or of the memory, as `unsigned char`; the bytes of the
source as they were; the characters of the source and then zeros, if none of them is written over before it is read. -/
def Right (lib : Library) (um : UserMem) : StrCall → Prop
  | .strcmp a b => ∀ s t, CStr um a s → CStr um b t →
      ∃ r, (match lib with | .user => UserLibc.strcmp um a b | .fs => FsLib.strcmp um a b) = some r ∧
        SignOfDiff r (fun i => s.getD i 0#8) (fun i => t.getD i 0#8) (s.length + 1)
  | .strncmp a b n => ∀ s t, CStr um a s → CStr um b t →
      SignOfDiff (match lib with | .user => UserLibc.strncmp um a b n | .fs => FsLib.strncmp um a b n)
        (fun i => s.getD i 0#8) (fun i => t.getD i 0#8) n
  | .memcmp p q n => SignOfDiff (FsLib.memcmp um p q n) (fun i => um (p + i)) (fun i => um (q + i)) n
  | .memmove d s n => BytesWritten um (match lib with | .user => UserLibc.memmove um d s n | .fs => FsLib.memmove um d s n) d n
      fun i => um (s + i)
  | .strncpy d s n => ∀ l, CStr um s l → d ≤ s ∨ s + min n (l.length + 1) ≤ d →
      BytesWritten um (match lib with | .user => UserLibc.strncpy um d s n | .fs => FsLib.strncpy um d s n) d n fun i => l.getD i 0#8

/-- The condition: a comparison of strings by `fs/lib/string.c` finds its first difference in one half of the byte values. -/
def OneHalf (lib : Library) (um : UserMem) : StrCall → Prop
  | .strcmp a b => lib = .fs → ∀ s t, CStr um a s → CStr um b t →
      SameHalf (fun i => s.getD i 0#8) (fun i => t.getD i 0#8) (s.length + 1)
  | .strncmp a b n => lib = .fs → ∀ s t, CStr um a s → CStr um b t → SameHalf (fun i => s.getD i 0#8) (fun i => t.getD i 0#8) n
  | _ => True

theorem strcmp_iff {lib : Library} {um : UserMem} {a b : Nat} {s t : List Byte} (hs : CStr um a s) (ht : CStr um b t) :
    (∃ r, (match lib with | .user => UserLibc.strcmp um a b | .fs => FsLib.strcmp um a b) = some r ∧
      SignOfDiff r (fun i => s.getD i 0#8) (fun i => t.getD i 0#8) (s.length + 1)) ↔
    (lib = .fs → SameHalf (fun i => s.getD i 0#8) (fun i => t.getD i 0#8) (s.length + 1)) := by
  have hends := match_ends hs ht
  have hle : FsLib.matchUpTo um a b 0 userSpaceSize < s.length + 1 := by
    have := (stopsAt_match hs ht hends hends).2.2.2
    omega
  obtain ⟨hstop, ha, hb, -⟩ := stopsAt_match hs ht hends hle
  have hloop : FsLib.matchLoop um a b 0 userSpaceSize = some (FsLib.matchUpTo um a b 0 userSpaceSize) := by
    rw [matchLoop_eq, if_neg (by omega)]
  cases lib with
  | user =>
    have halike := strcmpLoop_alike um a b 0 userSpaceSize
    rw [Nat.add_zero, Nat.add_zero, hloop, Option.map_some, ha, hb] at halike
    exact iff_of_true ⟨_, halike, hstop.uchar⟩ nofun
  | fs =>
    rw [FsLib.strcmp, hloop, Option.map_some, ha, hb]
    simp only [Option.some.injEq, exists_eq_left', forall_const]
    exact hstop.char_iff

theorem strncmp_iff {lib : Library} {um : UserMem} {a b n : Nat} {s t : List Byte} (hs : CStr um a s) (ht : CStr um b t) :
    SignOfDiff (match lib with | .user => UserLibc.strncmp um a b n | .fs => FsLib.strncmp um a b n)
      (fun i => s.getD i 0#8) (fun i => t.getD i 0#8) n ↔
    (lib = .fs → SameHalf (fun i => s.getD i 0#8) (fun i => t.getD i 0#8) n) := by
  have halike := strncmp_alike um a b 0 n
  rw [Nat.add_zero, Nat.add_zero, Nat.zero_add] at halike
  by_cases hn : FsLib.matchUpTo um a b 0 n = n
  · have hsame := same_of_match hs ht hn
    rw [if_pos hn] at halike
    refine iff_of_true ?_ fun _ i hi _ => ?_
    · cases lib with
      | user =>
        dsimp only
        rw [halike]
        exact signOfDiff_zero hsame
      | fs =>
        dsimp only
        rw [FsLib.strncmp, if_pos hn]
        exact signOfDiff_zero hsame
    · dsimp only
      rw [hsame i hi]
  · have hlt : FsLib.matchUpTo um a b 0 n < n := by
      have := (matchUpTo_spec um a b 0 n).2.1
      omega
    obtain ⟨hstop, ha, hb, -⟩ := stopsAt_match hs ht hlt hlt
    cases lib with
    | user =>
      dsimp only
      rw [halike, if_neg hn, ha, hb]
      exact iff_of_true hstop.uchar nofun
    | fs =>
      dsimp only
      rw [FsLib.strncmp, if_neg hn, ha, hb]
      simp only [forall_const]
      exact hstop.char_iff

end StrCall

/-- A call of either library does what C says if and only if it is no comparison of strings by `fs/lib/string.c`, or the strings
first differ in characters of one half of the byte values. -/
theorem string_functions_iff (lib : Library) (um : UserMem) (c : StrCall) : c.Right lib um ↔ c.OneHalf lib um := by
  cases c with
  | strcmp a b =>
    constructor
    · exact fun h hlib s t hs ht => (StrCall.strcmp_iff hs ht).mp (h s t hs ht) hlib
    · exact fun h s t hs ht => (StrCall.strcmp_iff hs ht).mpr fun hlib => h hlib s t hs ht
  | strncmp a b n =>
    constructor
    · exact fun h hlib s t hs ht => (StrCall.strncmp_iff hs ht).mp (h s t hs ht) hlib
    · exact fun h s t hs ht => (StrCall.strncmp_iff hs ht).mpr fun hlib => h hlib s t hs ht
  | memcmp p q n => exact iff_of_true (memcmp_sign um p q n) trivial
  | memmove d s n =>
    refine iff_of_true ?_ trivial
    cases lib with
    | user =>
      rw [StrCall.Right, memmove_alike]
      exact memmove_written um d s n
    | fs => exact memmove_written um d s n
  | strncpy d s n =>
    refine iff_of_true (fun l hl hd => ?_) trivial
    have halike := strncpy_alike um d s 0 n
    rw [Nat.add_zero, Nat.add_zero] at halike
    cases lib with
    | user =>
      dsimp only
      rw [halike]
      exact strncpy_written hl hd
    | fs => exact strncpy_written hl hd

/-- `strcmp` of `fs/lib/string.c` puts the character 128 before `a`. -/
theorem string_functions_false : ¬∀ (lib : Library) (um : UserMem) (c : StrCall), c.Right lib um := by
  intro h
  let um : UserMem := fun i => [128#8, 0#8, 97#8, 0#8].getD i 0#8
  have hs : CStr um 0 [128#8] := ⟨by unfold IsName; decide, by decide, by decide⟩
  have ht : CStr um 2 [97#8] := ⟨by unfold IsName; decide, by decide, by decide⟩
  have hhalf := (@StrCall.strncmp_iff .fs um 0 2 1 _ _ hs ht).mp (h .fs um (.strncmp 0 2 1) _ _ hs ht) rfl
  exact absurd (hhalf 0 (by decide) nofun) (by decide)

end MiniOs32
