import MiniOs32.Cc.Expand

/-!
# What a turn of the expansion reads and writes

A turn of the loop of `pp_expand_text` reads one character at least. `ppNames` are the names the loop comes upon when it
replaces nothing.
-/

namespace MiniOs32

/-! ## Buffers -/

theorem ppFill_of_room {outMax : Nat} {out bs : List Byte} (h : out.length + bs.length < outMax) :
    ppFill outMax out bs = out ++ bs := by
  rw [ppFill, List.take_of_length_le (by omega)]

theorem ppFill_length_le (outMax : Nat) (out bs : List Byte) : (ppFill outMax out bs).length ≤ out.length + bs.length := by
  simp [ppFill]

theorem ppFill_length_ge (outMax : Nat) (out bs : List Byte) : out.length ≤ (ppFill outMax out bs).length := by
  simp [ppFill]

theorem ppFill_length_lt {outMax : Nat} {out : List Byte} (h : out.length < outMax) (bs : List Byte) : (ppFill outMax out bs).length < outMax := by
  simp only [ppFill, List.length_append, List.length_take]
  omega

theorem ppPut_of_room {outMax : Nat} {out bs : List Byte} (h : out.length + bs.length ≤ outMax) :
    ppPut outMax out bs = some (out ++ bs) := if_pos h

theorem ppPut_eq_some {outMax : Nat} {out bs out' : List Byte} :
    ppPut outMax out bs = some out' ↔ out.length + bs.length ≤ outMax ∧ out' = out ++ bs := by
  unfold ppPut
  split
  · simp [*, eq_comm]
  · simp [*]

theorem ppClose_eq_some {outMax : Nat} {out out' : List Byte} :
    ppClose outMax out = some out' ↔ out.length < outMax ∧ out' = out := by
  unfold ppClose
  split
  · simp [*, eq_comm]
  · simp [*]

/-! ## Names -/

theorem ppReadName_append_drop (p : List Byte) : ppReadName p ++ p.drop (ppReadName p).length = p :=
  List.prefix_iff_eq_append.mp ((List.takeWhile_prefix _).trans (List.take_prefix _ _))

theorem take_ppReadName (p : List Byte) : p.take (ppReadName p).length = ppReadName p :=
  (List.prefix_iff_eq_take.mp ((List.takeWhile_prefix _).trans (List.take_prefix _ _))).symm

theorem ppReadName_length_le (p : List Byte) : (ppReadName p).length ≤ p.length := by
  have h := congrArg List.length (ppReadName_append_drop p)
  rw [List.length_append] at h
  omega

theorem ppReadName_cons {c : Byte} (hc : ppIsAlpha c = true) (rest : List Byte) :
    ppReadName (c :: rest) = c :: (rest.take 30).takeWhile ppIsAlnum := by
  have h : ppIsAlnum c = true := by simp [ppIsAlnum, hc]
  rw [ppReadName, List.take_succ_cons, List.takeWhile_cons_of_pos h]

theorem ppReadName_pos {c : Byte} (hc : ppIsAlpha c = true) (rest : List Byte) : 0 < (ppReadName (c :: rest)).length := by
  rw [ppReadName_cons hc]
  simp

/-- The names that a scan of a text reads outside what it takes for literals, when none is replaced. -/
def ppNames : Nat → TextMode → List Byte → List (List Byte)
  | 0, _, _ => []
  | _, _, [] => []
  | n + 1, .code, c :: rest =>
    if c = doubleQuote then ppNames n .str rest
    else if c = singleQuote then ppNames n .chr rest
    else if ppIsAlpha c then ppReadName (c :: rest) :: ppNames n .code ((c :: rest).drop (ppReadName (c :: rest)).length)
    else ppNames n .code rest
  | n + 1, .str, c :: rest =>
    if c = backslash ∧ rest ≠ [] then ppNames n .str rest.tail
    else ppNames n (if c = doubleQuote then .code else .str) rest
  | n + 1, .chr, c :: rest =>
    if c = backslash ∧ rest ≠ [] then ppNames n .chr rest.tail
    else ppNames n (if c = singleQuote then .code else .chr) rest

/-! ## Arguments -/

/-- The texts between the commas outside inner parentheses, up to the parenthesis that closes `depthp` open ones; `cur` are the
characters read of the first. -/
def argTexts : Nat → List Byte → List Byte → List (List Byte)
  | _, cur, [] => [cur]
  | depthp, cur, ch :: rest =>
    if ch = Char.byte '(' then argTexts (depthp + 1) (cur ++ [ch]) rest
    else if ch = Char.byte ')' then
      if depthp = 1 then [cur] else argTexts (depthp - 1) (cur ++ [ch]) rest
    else if ch = Char.byte ',' ∧ depthp = 1 then cur :: argTexts depthp [] rest
    else argTexts depthp (cur ++ [ch]) rest

/-- The first text goes on from the characters read of it. -/
theorem exists_argTexts (depthp : Nat) (cur text : List Byte) : ∃ a ∈ argTexts depthp cur text, cur.length ≤ a.length := by
  induction text generalizing depthp cur with
  | nil => exact ⟨cur, by simp [argTexts], le_rfl⟩
  | cons ch rest ih =>
    have more : ∀ d, ∃ a ∈ argTexts d (cur ++ [ch]) rest, cur.length ≤ a.length := fun d =>
      let ⟨a, ha, hle⟩ := ih d (cur ++ [ch])
      ⟨a, ha, by simp at hle; omega⟩
    simp only [argTexts]
    split_ifs
    · exact more _
    · exact ⟨cur, by simp, le_rfl⟩
    · exact more _
    · exact ⟨cur, by simp, le_rfl⟩
    · exact more _

/-- The arguments are gathered if and only if each fits its row. -/
theorem ppCollect_isSome_iff {depthp : Nat} {done : List (List Byte)} {cur text : List Byte} :
    (ppCollect depthp done cur text).isSome = true ↔ ∀ a ∈ argTexts depthp cur text, a.length < 128 := by
  induction text generalizing depthp done cur with
  | nil => simp [ppCollect, argTexts, apply_ite Option.isSome]
  | cons ch rest ih =>
    -- A row that is full with the character is never closed.
    have full : ∀ d, 128 ≤ cur.length + 1 → ¬∀ a ∈ argTexts d (cur ++ [ch]) rest, a.length < 128 := by
      intro d hfull h
      obtain ⟨a, ha, hle⟩ := exists_argTexts d (cur ++ [ch]) rest
      have := h a ha
      simp only [List.length_append, List.length_cons, List.length_nil] at hle
      omega
    have taken : ∀ d, (if cur.length < 128 then ppCollect d done (cur ++ [ch]) rest else none).isSome = true ↔
        ∀ a ∈ argTexts d (cur ++ [ch]) rest, a.length < 128 := by
      intro d
      by_cases hf : cur.length < 128
      · rw [if_pos hf]
        exact ih
      · rw [if_neg hf]
        exact iff_of_false (by simp) (full d (by omega))
    by_cases ho : ch = Char.byte '('
    · simp only [ppCollect, argTexts, if_pos ho]
      exact taken _
    by_cases hc : ch = Char.byte ')'
    · simp only [ppCollect, argTexts, if_neg ho, if_pos hc]
      by_cases hd : depthp = 1
      · simp [if_pos hd, apply_ite Option.isSome]
      · simp only [if_neg hd]
        exact taken _
    by_cases hm : ch = Char.byte ',' ∧ depthp = 1
    · simp only [ppCollect, argTexts, if_neg ho, if_neg hc, if_pos hm, List.forall_mem_cons]
      by_cases hf : cur.length < 128
      · rw [if_pos hf, ih]
        exact (and_iff_right hf).symm
      · rw [if_neg hf]
        exact iff_of_false (by simp) fun h => hf h.1
    · simp only [ppCollect, argTexts, if_neg ho, if_neg hc, if_neg hm]
      by_cases hf : cur.length + 1 < 128
      · rw [if_pos hf]
        exact ih
      · rw [if_neg hf]
        exact iff_of_false (by simp) (full _ (by omega))

theorem ppCollect_length_le {depthp : Nat} {done args : List (List Byte)} {cur text behind : List Byte}
    (h : ppCollect depthp done cur text = some (args, behind)) : behind.length ≤ text.length := by
  induction text generalizing depthp done cur with
  | nil =>
    unfold ppCollect at h
    split at h
    · cases h
      exact le_rfl
    · cases h
  | cons ch rest ih =>
    have more : ∀ {d done' cur'}, ppCollect d done' cur' rest = some (args, behind) → behind.length ≤ (ch :: rest).length :=
      fun h => (ih h).trans (by simp)
    simp only [ppCollect] at h
    split_ifs at h
    all_goals first
      | exact more h
      | cases h
        simp

/-! ## The loop -/

section

variable {file : List Byte} {line : Nat} {pp : Preproc} {sub : List Byte → Nat → Option (List Byte)} {outMax n : Nat}

theorem ppExpandLoop_length_lt {s : Expansion} {out : List Byte} (h : ppExpandLoop file line pp sub outMax n s = some out) :
    out.length < outMax := by
  induction n generalizing s with
  | zero =>
    obtain ⟨hlt, rfl⟩ := ppClose_eq_some.mp h
    exact hlt
  | succ n ih =>
    obtain ⟨t, -, ht⟩ := Option.bind_eq_some_iff.mp h
    cases t with
    | stop o =>
      obtain ⟨hlt, rfl⟩ := ppClose_eq_some.mp ht
      exact hlt
    | more s => exact ih ht

/-- What is returned is shorter than the buffer. -/
theorem ppExpandText_length_lt {depth : Nat} {text out : List Byte} (h : ppExpandText file line pp depth text outMax = some out) :
    out.length < outMax := by
  cases depth with
  | zero =>
    obtain ⟨hlt, rfl⟩ := ppClose_eq_some.mp h
    exact hlt
  | succ depth => exact ppExpandLoop_length_lt h

/-- A name that no macro has and that stands for nothing of its own. -/
def Unreplaced (pp : Preproc) (w : List Byte) : Prop :=
  w ≠ asciiBytes "__LINE__" ∧ w ≠ asciiBytes "__FILE__" ∧ ppFindMacro pp w = none

theorem ppNameTurn_unreplaced {out text : List Byte} (h : Unreplaced pp (ppReadName text)) :
    ppNameTurn file line pp sub outMax out text =
      some (.more ⟨ppFill outMax out (ppReadName text), .code, text.drop (ppReadName text).length⟩) := by
  obtain ⟨h₁, h₂, h₃⟩ := h
  simp only [ppNameTurn, h₁, h₂, h₃, if_false]

theorem ppExpandTurn_alpha {s : Expansion} (hm : s.mode = .code) (ha : ppIsAlpha (s.rest.headD 0#8) = true) :
    ppExpandTurn file line pp sub outMax s = ppNameTurn file line pp sub outMax s.out s.rest := by
  have hquote : ∀ c : Byte, ppIsAlpha c = true → c ≠ doubleQuote ∧ c ≠ singleQuote := by decide
  obtain ⟨out, mode, rest⟩ := s
  cases rest with
  | nil => cases ha
  | cons c rest =>
    obtain rfl : mode = .code := hm
    obtain ⟨hd, hs⟩ := hquote c ha
    have ha' : ppIsAlpha c = true := ha
    simp only [ppExpandTurn, if_neg hd, if_neg hs, if_pos ha']

theorem ppCall_behind {m : Macro} {text : List Byte} {r : List Byte × List Byte} (h : ppCall sub m text = some r) :
    r.2.length ≤ text.length := by
  obtain ⟨⟨args, behind⟩, hc, h⟩ := Option.bind_eq_some_iff.mp h
  obtain ⟨reps, -, h⟩ := Option.bind_eq_some_iff.mp h
  obtain ⟨e, -, h⟩ := Option.bind_eq_some_iff.mp h
  obtain rfl := Option.some.inj h
  exact ppCollect_length_le hc

/-- The turn in a literal, by what stands at `in + i`. -/
theorem ppLiteralTurn_eq (quote c : Byte) (s : Expansion) (rest : List Byte) :
    ppLiteralTurn outMax quote s c rest =
      if outMax ≤ s.out.length + 1 then some (.stop s.out)
      else if c = backslash ∧ rest ≠ [] then
        (ppPut outMax (s.out ++ [c]) (rest.take 1)).map fun out => .more ⟨out, s.mode, rest.tail⟩
      else some (.more ⟨s.out ++ [c], if c = quote then .code else s.mode, rest⟩) := by
  cases rest with
  | nil => simp [ppLiteralTurn]
  | cons e rest' => by_cases hc : c = backslash <;> simp [ppLiteralTurn, hc]

/-- The turn in a literal, when there is room for what is left of the text. -/
theorem ppLiteralTurn_of_room {quote c : Byte} {s : Expansion} {rest : List Byte} (h : s.out.length + (rest.length + 1) < outMax) :
    ppLiteralTurn outMax quote s c rest =
      if c = backslash ∧ rest ≠ [] then some (.more ⟨s.out ++ c :: rest.take 1, s.mode, rest.tail⟩)
      else some (.more ⟨s.out ++ [c], if c = quote then .code else s.mode, rest⟩) := by
  have hput : ppPut outMax (s.out ++ [c]) (rest.take 1) = some (s.out ++ c :: rest.take 1) := by
    rw [ppPut_of_room]
    · simp
    · simp only [List.length_append, List.length_cons, List.length_nil, List.length_take]
      omega
  rw [ppLiteralTurn_eq, if_neg (by omega), hput]
  rfl

/-- A text none of whose names is replaced is copied, when there is room for it. -/
theorem ppExpandLoop_copies {mode : TextMode} {out rest : List Byte} (hnames : ∀ w ∈ ppNames n mode rest, Unreplaced pp w)
    (hn : rest.length ≤ n) (hroom : out.length + rest.length < outMax) :
    ppExpandLoop file line pp sub outMax n ⟨out, mode, rest⟩ = some (out ++ rest) := by
  induction n generalizing mode out rest with
  | zero =>
    have : rest = [] := List.eq_nil_of_length_eq_zero (by omega)
    subst this
    rw [ppExpandLoop, List.append_nil, ppClose, if_pos (by omega)]
  | succ n ih =>
    cases rest with
    | nil =>
      have : ppExpandTurn file line pp sub outMax ⟨out, mode, []⟩ = some (.stop out) := rfl
      rw [ppExpandLoop, this, List.append_nil]
      exact ppClose_eq_some.mpr ⟨by omega, rfl⟩
    | cons c rest =>
      rw [List.length_cons] at hn hroom
      -- One turn copies some characters of the text and leaves the others.
      have go : ∀ (k : Nat) (mode' : TextMode), 0 < k → k ≤ rest.length + 1 →
          ppExpandTurn file line pp sub outMax ⟨out, mode, c :: rest⟩ =
            some (.more ⟨out ++ (c :: rest).take k, mode', (c :: rest).drop k⟩) →
          (∀ w ∈ ppNames n mode' ((c :: rest).drop k), Unreplaced pp w) →
          ppExpandLoop file line pp sub outMax (n + 1) ⟨out, mode, c :: rest⟩ = some (out ++ c :: rest) := by
        intro k mode' hk hk' hturn hw
        rw [ppExpandLoop, hturn]
        have hd : ((c :: rest).drop k).length = rest.length + 1 - k := by simp
        have ht : (out ++ (c :: rest).take k).length = out.length + k := by
          simp only [List.length_append, List.length_take, List.length_cons]
          omega
        refine (ih hw (by omega) (by omega)).trans ?_
        rw [List.append_assoc, List.take_append_drop]
      -- In a literal a backslash takes the character behind it along.
      have literal : ∀ quote : Byte, (∀ w ∈ if c = backslash ∧ rest ≠ [] then ppNames n mode rest.tail
            else ppNames n (if c = quote then .code else mode) rest, Unreplaced pp w) →
          ppExpandTurn file line pp sub outMax ⟨out, mode, c :: rest⟩ =
            ppLiteralTurn outMax quote ⟨out, mode, c :: rest⟩ c rest →
          ppExpandLoop file line pp sub outMax (n + 1) ⟨out, mode, c :: rest⟩ = some (out ++ c :: rest) := by
        intro quote hw hturn
        rw [ppLiteralTurn_of_room hroom] at hturn
        split at hturn
        next h =>
          rw [if_pos h] at hw
          obtain ⟨e, rest', rfl⟩ := List.exists_cons_of_ne_nil h.2
          exact go 2 mode (by omega) (by simp) hturn hw
        next h =>
          rw [if_neg h] at hw
          exact go 1 _ (by omega) (by omega) hturn hw
      have hput : ppPut outMax out [c] = some (out ++ [c]) := ppPut_of_room (by simp only [List.length_cons, List.length_nil]; omega)
      cases mode with
      | str => exact literal doubleQuote hnames rfl
      | chr => exact literal singleQuote hnames rfl
      | code =>
        simp only [ppNames] at hnames
        by_cases hd : c = doubleQuote
        · rw [if_pos hd] at hnames
          refine go 1 .str (by omega) (by omega) ?_ hnames
          simp only [ppExpandTurn, if_pos hd, hput]
          rfl
        rw [if_neg hd] at hnames
        by_cases hs : c = singleQuote
        · rw [if_pos hs] at hnames
          refine go 1 .chr (by omega) (by omega) ?_ hnames
          simp only [ppExpandTurn, if_neg hd, if_pos hs, hput]
          rfl
        rw [if_neg hs] at hnames
        by_cases ha : ppIsAlpha c = true
        · rw [if_pos ha] at hnames
          have hlen := ppReadName_length_le (c :: rest)
          rw [List.length_cons] at hlen
          refine go (ppReadName (c :: rest)).length .code (ppReadName_pos ha rest) hlen ?_
            fun w hw => hnames w (List.mem_cons_of_mem _ hw)
          simp only [ppExpandTurn, if_neg hd, if_neg hs, if_pos ha]
          rw [ppNameTurn_unreplaced (hnames _ List.mem_cons_self), ppFill_of_room (by omega), take_ppReadName]
        · rw [if_neg ha] at hnames
          refine go 1 .code (by omega) (by omega) ?_ hnames
          have hstop : ¬outMax ≤ out.length + 1 := by omega
          simp only [ppExpandTurn, if_neg hd, if_neg hs, if_neg ha, if_neg hstop]
          rfl

end

end MiniOs32
