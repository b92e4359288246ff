import MiniOs32.Cc.Pieces
import MiniOs32.Lemmas.CondText
import MiniOs32.Lemmas.Expand

/-!
# The scan of a text and C's pieces of it

A scan that pays no heed to literals cuts a text into names of at most 31 characters and single characters. Its cuts never cross
the border of one of C's pieces, so the scan of a text is the scans of its pieces, one after the other.
-/

namespace MiniOs32

/-! ## The scan -/

/-- The names and single characters a scan that pays no heed to literals cuts a text into, at most `n` of them. -/
def ppCutsOf : Nat → List Byte → List (List Byte)
  | 0, _ => []
  | _, [] => []
  | n + 1, c :: text =>
    if ppIsAlpha c then ppReadName (c :: text) :: ppCutsOf n ((c :: text).drop (ppReadName (c :: text)).length)
    else [c] :: ppCutsOf n text

theorem ppCutsOf_cons (n : Nat) (c : Byte) (text : List Byte) : ppCutsOf (n + 1) (c :: text) =
    if ppIsAlpha c then ppReadName (c :: text) :: ppCutsOf n ((c :: text).drop (ppReadName (c :: text)).length)
    else [c] :: ppCutsOf n text := rfl

/-- All of them. -/
def ppCuts (text : List Byte) : List (List Byte) := ppCutsOf text.length text

theorem ppCutsOf_eq {n : Nat} {text : List Byte} (h : text.length ≤ n) : ppCutsOf n text = ppCuts text := by
  induction n using Nat.strong_induction_on generalizing text with
  | _ n ih =>
    cases text with
    | nil => cases n <;> rfl
    | cons c text =>
      obtain ⟨n, rfl⟩ : ∃ k, n = k + 1 := ⟨n - 1, by simp at h; omega⟩
      rw [List.length_cons] at h
      unfold ppCuts
      simp only [List.length_cons, ppCutsOf_cons]
      by_cases ha : ppIsAlpha c = true
      · have hpos := ppReadName_pos ha text
        have hle : ((c :: text).drop (ppReadName (c :: text)).length).length ≤ text.length := by
          simp only [List.length_drop, List.length_cons]
          omega
        simp only [if_pos ha]
        rw [ih n (by omega) (by omega), ih text.length (by omega) hle]
      · simp only [if_neg ha]
        rw [ih n (by omega) (by omega)]
        rfl

theorem ppCuts_nil : ppCuts [] = [] := rfl

theorem ppCuts_alpha {c : Byte} (ha : ppIsAlpha c = true) (text : List Byte) :
    ppCuts (c :: text) = ppReadName (c :: text) :: ppCuts ((c :: text).drop (ppReadName (c :: text)).length) := by
  have hpos := ppReadName_pos ha text
  conv_lhs => unfold ppCuts
  simp only [List.length_cons, ppCutsOf_cons, if_pos ha]
  rw [ppCutsOf_eq]
  simp only [List.length_drop, List.length_cons]
  omega

theorem ppCuts_other {c : Byte} (ha : ppIsAlpha c = false) (text : List Byte) : ppCuts (c :: text) = [c] :: ppCuts text := by
  conv_lhs => unfold ppCuts
  simp [ppCutsOf_cons, ha, ppCuts]

/-- The scan of a text, by what stands at its start. -/
theorem ppCuts_induction {motive : List Byte → Prop} (nil : motive [])
    (name : ∀ c text, ppIsAlpha c = true → motive ((c :: text).drop (ppReadName (c :: text)).length) → motive (c :: text))
    (other : ∀ c text, ppIsAlpha c = false → motive text → motive (c :: text)) (text : List Byte) : motive text := by
  induction h : text.length using Nat.strong_induction_on generalizing text with
  | _ n ih =>
    cases text with
    | nil => exact nil
    | cons c text =>
      subst h
      cases ha : ppIsAlpha c with
      | true =>
        have hpos := ppReadName_pos ha text
        refine name c text ha (ih _ ?_ _ rfl)
        simp only [List.length_drop, List.length_cons]
        omega
      | false => exact other c text ha (ih _ (by simp) _ rfl)

/-- The cuts make up the text. -/
theorem flatten_ppCuts (text : List Byte) : (ppCuts text).flatten = text := by
  induction text using ppCuts_induction with
  | nil => rfl
  | name c text ha ih => rw [ppCuts_alpha ha, List.flatten_cons, ih, ppReadName_append_drop]
  | other c text ha ih => rw [ppCuts_other ha, List.flatten_cons, ih, List.singleton_append]

/-- No name goes on from one text into the next. -/
def Apart (a b : List Byte) : Prop := (∀ c, a.getLast? = some c → ppIsAlnum c = false) ∨ TokenEnd b

theorem Apart.drop {a b : List Byte} (h : Apart a b) (k : Nat) : Apart (a.drop k) b := by
  rcases h with h | h
  · refine .inl fun c hc => h c ?_
    rw [List.getLast?_drop] at hc
    split at hc
    · cases hc
    · exact hc
  · exact .inr h

theorem ppReadName_eq_take (p : List Byte) : ppReadName p = (p.takeWhile ppIsAlnum).take 31 := List.take_takeWhile.symm

theorem ppReadName_append_of_apart {a b : List Byte} (h : Apart a b) (ha : a ≠ []) : ppReadName (a ++ b) = ppReadName a := by
  have hsame : (a ++ b).takeWhile ppIsAlnum = a.takeWhile ppIsAlnum := by
    rw [List.takeWhile_append]
    split
    next hall =>
      have heq : a.takeWhile ppIsAlnum = a := List.Sublist.eq_of_length (List.takeWhile_sublist _) hall
      have hlast : ppIsAlnum (a.getLast ha) = true := List.takeWhile_eq_self_iff.mp heq _ (List.getLast_mem ha)
      have hend : TokenEnd b := h.resolve_left fun h => by
        rw [h _ (List.getLast?_eq_some_getLast ha)] at hlast
        cases hlast
      have hnone : b.takeWhile ppIsAlnum = [] := by
        cases b with
        | nil => rfl
        | cons c b => exact List.takeWhile_cons_of_neg (by simpa [TokenEnd] using hend)
      rw [hnone, List.append_nil, heq]
    next => rfl
  rw [ppReadName_eq_take, ppReadName_eq_take, hsame]

/-- The scan of two texts no name goes across is the scan of one and then of the other. -/
theorem ppCuts_append {a b : List Byte} (h : Apart a b) : ppCuts (a ++ b) = ppCuts a ++ ppCuts b := by
  induction a using ppCuts_induction with
  | nil => rfl
  | name c a ha ih =>
    have hread := ppReadName_append_of_apart h (List.cons_ne_nil c a)
    rw [List.cons_append] at hread
    have hle := ppReadName_length_le (c :: a)
    rw [List.cons_append, ppCuts_alpha ha, ppCuts_alpha ha, hread, ← List.cons_append, List.drop_append_of_le_length hle,
      ih (h.drop _), List.cons_append]
  | other c a ha ih =>
    rw [List.cons_append, ppCuts_other ha, ppCuts_other ha, ih (h.drop 1), List.cons_append]

/-- A name of at most 31 characters is one cut. -/
theorem ppCuts_name (w : CName) (h : w.val.length ≤ 31) : ppCuts w.val = [w.val] := by
  obtain ⟨w, ha, hall⟩ := w
  cases w with
  | nil => cases ha
  | cons c w =>
    have hread : ppReadName (c :: w) = c :: w := by
      have := ppReadName_append (p := []) hall h rfl
      rwa [List.append_nil] at this
    have hcuts := ppCuts_alpha (show ppIsAlpha c = true from ha) w
    rw [hread, List.drop_length, ppCuts_nil] at hcuts
    exact hcuts

/-! ## The pieces -/

theorem Apart.of_ends {x y b : List Byte} {q : Byte} (hq : ppIsAlnum q = false) (h : b = [] ∨ y.getLast? = some q) :
    Apart (x ++ y) b := by
  rcases h with rfl | h
  · exact .inr rfl
  · refine .inl fun c hc => ?_
    rw [List.getLast?_append, h, Option.some_or] at hc
    exact Option.some.inj hc ▸ hq

/-- A literal goes to its closing quote or to the end of the text. -/
theorem literal_ends (quote : Byte) (r : List Byte) :
    r.drop (literalLength quote r) = [] ∨ (r.take (literalLength quote r)).getLast? = some quote := by
  fun_induction literalLength quote r with
  | case1 => exact .inl rfl
  | case2 => exact .inl rfl
  | case3 e r ih =>
    rw [Nat.add_comm, List.drop_succ_cons, List.drop_succ_cons, List.take_succ_cons, List.take_succ_cons]
    exact ih.imp_right fun h => by rw [List.getLast?_cons, List.getLast?_cons, h]; rfl
  | case4 => exact .inr (by simp)
  | case5 c e r hc hq ih =>
    rw [Nat.add_comm, List.drop_succ_cons, List.take_succ_cons]
    exact ih.imp_right fun h => by rw [List.getLast?_cons, h]; rfl

/-- A block comment goes to its end mark or to the end of the text. -/
theorem comment_ends (r : List Byte) :
    r.drop (commentLength r) = [] ∨ (r.take (commentLength r)).getLast? = some (Char.byte '/') := by
  fun_induction commentLength r with
  | case1 => exact .inl rfl
  | case2 => exact .inl rfl
  | case3 c e r h => exact .inr (by simp [h.2])
  | case4 c e r h ih =>
    rw [Nat.add_comm, List.drop_succ_cons, List.take_succ_cons]
    exact ih.imp_right fun h => by rw [List.getLast?_cons, h]; rfl

/-- A number goes as far as it can. -/
theorem number_ends (r : List Byte) : TokenEnd (r.drop (numberLength r)) := by
  fun_induction numberLength r with
  | case1 => rfl
  | case2 c h => rfl
  | case3 c h =>
    rw [Bool.not_eq_true, Bool.or_eq_false_iff] at h
    exact h.1
  | case4 c s r h ih =>
    rw [Nat.add_comm, List.drop_succ_cons, List.drop_succ_cons]
    exact ih
  | case5 c s r h h' ih =>
    rw [Nat.add_comm, List.drop_succ_cons]
    exact ih
  | case6 c s r h h' =>
    rw [Bool.not_eq_true, Bool.or_eq_false_iff] at h'
    exact h'.1

theorem take_takeWhile_length (text : List Byte) : text.take (text.takeWhile ppIsAlnum).length = text.takeWhile ppIsAlnum :=
  (List.prefix_iff_eq_take.mp (List.takeWhile_prefix _)).symm

/-- Behind a run of letters and digits no name goes on. -/
theorem takeWhile_ends (text : List Byte) : TokenEnd (text.drop (text.takeWhile ppIsAlnum).length) := by
  induction text with
  | nil => rfl
  | cons c text ih =>
    by_cases hc : ppIsAlnum c = true
    · rw [List.takeWhile_cons_of_pos hc, List.length_cons, List.drop_succ_cons]
      exact ih
    · rw [List.takeWhile_cons_of_neg hc]
      simpa [TokenEnd] using hc

/-- What the first piece of a text is: some characters from its start, and no name goes on from them. -/
structure FirstPiece (text : List Byte) (p : CPiece) : Prop where
  pos : p.text ≠ []
  starts : p.text <+: text
  apart : Apart p.text (text.drop p.text.length)

theorem FirstPiece.of_take {text : List Byte} {p : CPiece} {k : Nat} (hp : p.text = text.take k) (hk : 0 < k) (ht : text ≠ [])
    (ha : Apart (text.take k) (text.drop k)) : FirstPiece text p := by
  have hdrop : text.drop p.text.length = text.drop k := by
    rw [hp, List.length_take]
    rcases Nat.le_total k text.length with h | h
    · rw [Nat.min_eq_left h]
    · rw [Nat.min_eq_right h, List.drop_length, List.drop_eq_nil_of_le h]
  refine ⟨?_, hp ▸ List.take_prefix _ _, by rw [hdrop, hp]; exact ha⟩
  rw [hp]
  simp only [ne_eq, List.take_eq_nil_iff, not_or]
  exact ⟨by omega, ht⟩

theorem cFirst_firstPiece (c : Byte) (rest : List Byte) : FirstPiece (c :: rest) (cFirst c rest) := by
  have hquote : ppIsAlnum doubleQuote = false ∧ ppIsAlnum singleQuote = false := by decide
  have hslash : ppIsAlnum (Char.byte '/') = false := by decide
  have number : FirstPiece (c :: rest) (.number (c :: rest.take (numberLength rest))) :=
    .of_take (k := numberLength rest + 1) (by simp [CPiece.text]) (by omega) (by simp) (.inr (by simpa using number_ends rest))
  unfold cFirst
  by_cases ha : ppIsAlpha c = true
  · rw [if_pos ha]
    have hw : 0 < ((c :: rest).takeWhile ppIsAlnum).length := by
      rw [List.takeWhile_cons_of_pos (by simp [ppIsAlnum, ha])]
      simp
    have name : FirstPiece (c :: rest) (.name ((c :: rest).takeWhile ppIsAlnum)) :=
      .of_take (k := ((c :: rest).takeWhile ppIsAlnum).length) (take_takeWhile_length _).symm hw (by simp) (.inr (takeWhile_ends _))
    dsimp only
    split
    next quote hquoteAt =>
      split
      · have hq : ppIsAlnum quote = false := by
          obtain ⟨-, hq⟩ := Option.filter_eq_some_iff.mp hquoteAt
          rw [Bool.or_eq_true, beq_iff_eq, beq_iff_eq] at hq
          rcases hq with rfl | rfl
          · exact hquote.1
          · exact hquote.2
        refine .of_take (k := _) rfl (by omega) (by simp) ?_
        have hdrop : ∀ i j, (c :: rest).drop (i + j) = ((c :: rest).drop i).drop j := fun i j => List.drop_drop.symm
        rw [List.take_add, hdrop (_ + 1)]
        exact .of_ends hq (literal_ends _ _)
      · exact name
    next => exact name
  rw [if_neg ha]
  by_cases hd : ppIsDigit c = true
  · rw [if_pos hd]
    exact number
  rw [if_neg hd]
  by_cases hdot : c = Char.byte '.' ∧ ppIsDigit (rest.headD 0#8) = true
  · rw [if_pos hdot]
    exact number
  rw [if_neg hdot]
  by_cases hq : c = doubleQuote ∨ c = singleQuote
  · rw [if_pos hq]
    refine .of_take (k := literalLength c rest + 1) (by simp [CPiece.text]) (by omega) (by simp) ?_
    have hc : ppIsAlnum c = false := by
      rcases hq with rfl | rfl
      · exact hquote.1
      · exact hquote.2
    rw [List.take_succ_cons, List.drop_succ_cons]
    exact .of_ends (x := [c]) hc (literal_ends c rest)
  rw [if_neg hq]
  by_cases hl : c = Char.byte '/' ∧ rest.head? = some (Char.byte '/')
  · rw [if_pos hl]
    refine .of_take (k := rest.length + 1) (by simp [CPiece.text]) (by omega) (by simp) (.inr ?_)
    simp [TokenEnd]
    decide
  rw [if_neg hl]
  by_cases hb : c = Char.byte '/' ∧ rest.head? = some (Char.byte '*')
  · rw [if_pos hb]
    obtain ⟨e, rest, rfl⟩ : ∃ e r, rest = e :: r := by
      cases rest with
      | nil => simp at hb
      | cons e r => exact ⟨e, r, rfl⟩
    refine .of_take (k := commentLength rest + 2) (by simp [CPiece.text, Nat.add_comm 1]) (by omega) (by simp) ?_
    rw [List.take_succ_cons, List.take_succ_cons, List.drop_succ_cons, List.drop_succ_cons]
    exact .of_ends (x := [c, e]) hslash (comment_ends rest)
  rw [if_neg hb]
  refine .of_take (k := 1) rfl (by omega) (by simp) (.inl fun d hd' => ?_)
  obtain rfl : c = d := by simpa using hd'
  simp [ppIsAlnum, ha, hd]

theorem cPiecesOf_cons (n : Nat) (c : Byte) (rest : List Byte) :
    cPiecesOf (n + 1) (c :: rest) = cFirst c rest :: cPiecesOf n ((c :: rest).drop (cFirst c rest).text.length) := rfl

/-- The pieces of a text, by its first piece. -/
theorem cPiecesOf_induction {motive : Nat → List Byte → Prop} (nil : ∀ n, motive n [])
    (cons : ∀ n c rest, motive n ((c :: rest).drop (cFirst c rest).text.length) → motive (n + 1) (c :: rest)) {n : Nat} :
    ∀ text : List Byte, text.length ≤ n → motive n text := by
  induction n with
  | zero =>
    intro text h
    rw [List.eq_nil_of_length_eq_zero (Nat.le_zero.mp h)]
    exact nil 0
  | succ n ih =>
    intro text h
    cases text with
    | nil => exact nil _
    | cons c rest =>
      refine cons n c rest (ih _ ?_)
      have hpos := List.length_pos_iff_ne_nil.mpr (cFirst_firstPiece c rest).pos
      rw [List.length_cons] at h
      simp only [List.length_drop, List.length_cons]
      omega

/-- The pieces make up the text, and its scan is their scans. -/
theorem flatMap_cPiecesOf {n : Nat} {text : List Byte} (h : text.length ≤ n) :
    (cPiecesOf n text).flatMap CPiece.text = text ∧ ppCuts text = (cPiecesOf n text).flatMap fun p => ppCuts p.text := by
  refine cPiecesOf_induction (motive := fun n text => (cPiecesOf n text).flatMap CPiece.text = text ∧
    ppCuts text = (cPiecesOf n text).flatMap fun p => ppCuts p.text) ?_ ?_ text h
  · intro n
    cases n <;> exact ⟨rfl, rfl⟩
  · rintro n c rest ⟨ih₁, ih₂⟩
    obtain ⟨-, hstarts, hapart⟩ := cFirst_firstPiece c rest
    have htext : (cFirst c rest).text ++ (c :: rest).drop (cFirst c rest).text.length = c :: rest :=
      List.prefix_iff_eq_append.mp hstarts
    rw [cPiecesOf_cons, List.flatMap_cons, List.flatMap_cons, ih₁, ← ih₂, ← ppCuts_append hapart, htext]
    exact ⟨rfl, rfl⟩

end MiniOs32
