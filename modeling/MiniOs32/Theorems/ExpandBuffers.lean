import MiniOs32.Lemmas.Expand

/-!
# Macro expansion and its buffers

The expander checks for room before most of its writes. Three of them it makes unchecked: the quote that opens a literal, the
character behind a backslash in a literal, and the characters of an argument. An expansion stays in its buffers if and only if,
wherever it or an expansion it calls comes to one of the three, there is room.
-/

namespace MiniOs32

/-! ## Where the three writes are made -/

/-- The macro whose name stands at `in + i`, with the text behind the name; a function-like one only before a parenthesis. -/
def Expansion.use (pp : Preproc) (s : Expansion) : Option (Macro × List Byte) :=
  let name := ppReadName s.rest
  let after := s.rest.drop name.length
  if s.mode = .code ∧ ppIsAlpha (s.rest.headD 0#8) = true ∧ name ≠ asciiBytes "__LINE__" ∧ name ≠ asciiBytes "__FILE__" then
    (ppFindMacro pp name).bind fun m => if m.isFunc && decide (after.head? ≠ some (Char.byte '(')) then none else some (m, after)
  else none

/-- There is room for what the turn at this state writes unchecked into a buffer of `outMax` characters, and into the rows of
128 for the arguments. -/
structure Expansion.HasRoom (pp : Preproc) (outMax : Nat) (s : Expansion) : Prop where
  quote : s.mode = .code → s.rest.head? = some doubleQuote ∨ s.rest.head? = some singleQuote → s.out.length + 1 < outMax
  escape : s.mode ≠ .code → s.rest.head? = some backslash → 2 ≤ s.rest.length → s.out.length + 2 ≠ outMax
  args : ∀ m after, s.use pp = some (m, after) → m.isFunc = true → ∀ a ∈ argTexts 1 [] after.tail, a.length < 128

section

variable (file : List Byte) (line : Nat) (pp : Preproc)

/-- The texts that the turn at a state expands, each with the size of the buffer it goes to; `sub` is `pp_expand_text` one
level deeper. -/
inductive Expansion.Expands (sub : List Byte → Nat → Option (List Byte)) (s : Expansion) : List Byte → Nat → Prop where
  | body {m : Macro} {after : List Byte} (hu : s.use pp = some (m, after)) (hm : m.isFunc = false) : s.Expands sub m.body 512
  | arg {m : Macro} {after behind : List Byte} {args : List (List Byte)} {a : List Byte} (hu : s.use pp = some (m, after))
      (hm : m.isFunc = true) (hc : ppCollect 1 [] [] after.tail = some (args, behind)) (ha : a ∈ args) : s.Expands sub a 256
  | replaced {m : Macro} {after behind : List Byte} {args reps : List (List Byte)} (hu : s.use pp = some (m, after))
      (hm : m.isFunc = true) (hc : ppCollect 1 [] [] after.tail = some (args, behind))
      (hr : args.mapM (fun a => sub a 256) = some reps) : s.Expands sub (ppSubst m.params reps m.body.length [] m.body) 512

/-- The loop goes from a state to the next. -/
def TurnsTo (sub : List Byte → Nat → Option (List Byte)) (outMax : Nat) (s s' : Expansion) : Prop :=
  ppExpandTurn file line pp sub outMax s = some (.more s')

/-- The states that the expansion of a text comes to, each with the size of the buffer it writes into: its own and those of the
expansions it calls. -/
inductive ComesTo : Nat → List Byte → Nat → Nat → Expansion → Prop where
  | own {depth : Nat} {text : List Byte} {outMax : Nat} {s : Expansion}
      (hs : Relation.ReflTransGen (TurnsTo file line pp (ppExpandText file line pp depth) outMax) ⟨[], .code, text⟩ s) :
      ComesTo (depth + 1) text outMax outMax s
  | deeper {depth : Nat} {text text' : List Byte} {outMax size outMax' : Nat} {s s' : Expansion}
      (hs : Relation.ReflTransGen (TurnsTo file line pp (ppExpandText file line pp depth) outMax) ⟨[], .code, text⟩ s)
      (he : s.Expands pp (ppExpandText file line pp depth) text' size) (h : ComesTo depth text' size outMax' s') :
      ComesTo (depth + 1) text outMax outMax' s'

end

/-- The expansion writes inside its buffers only and returns a length below `out_max`, with a NUL there. -/
def Confined (file : List Byte) (line : Nat) (pp : Preproc) (depth : Nat) (text : List Byte) (outMax : Nat) : Prop :=
  ∃ out, ppExpandText file line pp depth text outMax = some out ∧ out.length < outMax

/-! ## One turn -/

section

variable {file : List Byte} {line : Nat} {pp : Preproc} {sub : List Byte → Nat → Option (List Byte)} {outMax : Nat}

namespace Expansion

theorem use_eq_none {s : Expansion} (h : s.mode ≠ .code ∨ ppIsAlpha (s.rest.headD 0#8) = false) : s.use pp = none := by
  unfold use
  rw [if_neg]
  rintro ⟨hm, ha, -⟩
  rcases h with h | h
  · exact h hm
  · rw [h] at ha
    cases ha

theorem code_of_use {s : Expansion} {u : Macro × List Byte} (h : s.use pp = some u) :
    s.mode = .code ∧ ppIsAlpha (s.rest.headD 0#8) = true := by
  by_contra hnot
  rw [use_eq_none] at h
  · cases h
  · by_cases hm : s.mode = .code
    · exact .inr (by simpa using fun ha => hnot ⟨hm, ha⟩)
    · exact .inl hm

/-- At a name that is not replaced the turn copies or writes what it stands for, as far as there is room. -/
theorem turn_of_unused {s : Expansion} {c : Byte} {rest : List Byte} (hs : s.rest = c :: rest) (hm : s.mode = .code)
    (ha : ppIsAlpha c = true) (hu : s.use pp = none) :
    ∃ out, ppNameTurn file line pp sub outMax s.out s.rest = some (.more ⟨out, .code, s.rest.drop (ppReadName s.rest).length⟩) ∧
      s.out.length ≤ out.length ∧ (s.out.length < outMax → out.length < outMax) := by
  by_cases hl : ppReadName s.rest = asciiBytes "__LINE__"
  · exact ⟨ppFill outMax s.out (ppLineText line), by simp only [ppNameTurn, if_pos hl], ppFill_length_ge _ _ _,
      fun h => ppFill_length_lt h _⟩
  by_cases hf : ppReadName s.rest = asciiBytes "__FILE__"
  · refine ⟨ppFill outMax (ppFill outMax (ppFill outMax s.out [doubleQuote]) file) [doubleQuote],
      by simp only [ppNameTurn, if_neg hl, if_pos hf], ?_, fun h => ppFill_length_lt (ppFill_length_lt (ppFill_length_lt h _) _) _⟩
    exact (ppFill_length_ge _ _ _).trans ((ppFill_length_ge _ _ _).trans (ppFill_length_ge _ _ _))
  refine ⟨ppFill outMax s.out (ppReadName s.rest), ?_, ppFill_length_ge _ _ _, fun h => ppFill_length_lt h _⟩
  have hhead : ppIsAlpha (s.rest.headD 0#8) = true := by rw [hs]; exact ha
  unfold use at hu
  rw [if_pos ⟨hm, hhead, hl, hf⟩] at hu
  cases hfind : ppFindMacro pp (ppReadName s.rest) with
  | none => simp only [ppNameTurn, if_neg hl, if_neg hf, hfind]
  | some m =>
    rw [hfind, Option.bind_some] at hu
    split at hu
    next h =>
      rw [Bool.and_eq_true, decide_eq_true_eq] at h
      simp only [ppNameTurn, if_neg hl, if_neg hf, hfind, if_pos h.1, if_neg h.2]
    next h => cases hu

/-- What a use is: a name in the table that stands for itself nowhere, and before a parenthesis if its macro has one. -/
theorem use_eq_some {s : Expansion} {m : Macro} {after : List Byte} (hu : s.use pp = some (m, after)) :
    ppReadName s.rest ≠ asciiBytes "__LINE__" ∧ ppReadName s.rest ≠ asciiBytes "__FILE__" ∧
      ppFindMacro pp (ppReadName s.rest) = some m ∧ after = s.rest.drop (ppReadName s.rest).length ∧
      (m.isFunc = true → after.head? = some (Char.byte '(')) := by
  simp only [use] at hu
  split at hu
  next h =>
    obtain ⟨-, -, hl, hf⟩ := h
    obtain ⟨m', hfind, hm'⟩ := Option.bind_eq_some_iff.mp hu
    split at hm'
    next h => cases hm'
    next h =>
      obtain ⟨rfl, rfl⟩ := Prod.mk.inj (Option.some.inj hm')
      refine ⟨hl, hf, hfind, rfl, fun hm => ?_⟩
      rw [hm, Bool.true_and, decide_eq_true_eq, not_not] at h
      exact h
  next h => cases hu

theorem after_length_lt {s : Expansion} {m : Macro} {after : List Byte} (hu : s.use pp = some (m, after)) :
    after.length < s.rest.length := by
  obtain ⟨-, ha⟩ := code_of_use hu
  obtain ⟨-, -, -, rfl, -⟩ := use_eq_some hu
  cases hr : s.rest with
  | nil =>
    rw [hr] at ha
    cases ha
  | cons c rest =>
    rw [hr] at ha
    have := ppReadName_pos (show ppIsAlpha c = true from ha) rest
    rw [List.length_drop, List.length_cons]
    omega

/-- At the use of a macro the turn writes its expansion, as far as there is room. -/
theorem turn_of_use {s : Expansion} {m : Macro} {after : List Byte} (hu : s.use pp = some (m, after)) :
    ppExpandTurn file line pp sub outMax s = (if m.isFunc then ppCall sub m after.tail else (sub m.body 512).map fun e => (e, after)).map
        (fun r => .more ⟨ppFill outMax s.out r.1, .code, r.2⟩) := by
  obtain ⟨hm, ha⟩ := code_of_use hu
  obtain ⟨hl, hf, hfind, rfl, hparen⟩ := use_eq_some hu
  rw [ppExpandTurn_alpha hm ha]
  simp only [ppNameTurn, if_neg hl, if_neg hf, hfind]
  cases hfunc : m.isFunc with
  | true => simp only [if_true, if_pos (hparen hfunc)]
  | false =>
    simp only [Bool.false_eq_true, if_false, Option.map_map]
    rfl

theorem mapM_isSome_iff {α β : Type} {f : α → Option β} {l : List α} :
    (l.mapM f).isSome = true ↔ ∀ a ∈ l, (f a).isSome = true := by
  induction l with
  | nil => simp
  | cons a l ih =>
    rw [List.mapM_cons, List.forall_mem_cons, ← ih]
    cases f a <;> cases l.mapM f <;> simp

/-- The use of a function-like macro is expanded if and only if its arguments fit their rows and it and they are expanded. -/
theorem ppCall_isSome_iff {m : Macro} {text : List Byte} :
    (ppCall sub m text).isSome = true ↔ ∃ args behind reps, ppCollect 1 [] [] text = some (args, behind) ∧
      args.mapM (fun a => sub a 256) = some reps ∧ (sub (ppSubst m.params reps m.body.length [] m.body) 512).isSome = true := by
  unfold ppCall
  constructor
  · intro h
    obtain ⟨r, hr⟩ := Option.isSome_iff_exists.mp h
    obtain ⟨⟨args, behind⟩, hc, hr⟩ := Option.bind_eq_some_iff.mp hr
    obtain ⟨reps, hreps, hr⟩ := Option.bind_eq_some_iff.mp hr
    obtain ⟨e, he, -⟩ := Option.bind_eq_some_iff.mp hr
    exact ⟨args, behind, reps, hc, hreps, Option.isSome_iff_exists.mpr ⟨e, he⟩⟩
  · rintro ⟨args, behind, reps, hc, hreps, he⟩
    obtain ⟨e, he⟩ := Option.isSome_iff_exists.mp he
    simp [hc, hreps, he]

/-- A turn is fine when nothing is written outside an array and the buffer is not full afterwards. -/
def Fine (t : Option ExpandTurn) (outMax : Nat) : Prop := t ≠ none ∧ ∀ s', t = some (.more s') → s'.out.length < outMax

/-- The turn at the use of a macro is fine when its arguments fit their rows and what it expands is expanded in its buffers. -/
theorem fine_use {s : Expansion} {m : Macro} {after : List Byte} (hlt : s.out.length < outMax) (hu : s.use pp = some (m, after)) :
    Fine (ppExpandTurn file line pp sub outMax s) outMax ↔
      (m.isFunc = true → ∀ a ∈ argTexts 1 [] after.tail, a.length < 128) ∧
      ∀ text size, s.Expands pp sub text size → (sub text size).isSome = true := by
  have hfine : ∀ x : Option (List Byte × List Byte),
      Fine (x.map fun r => .more ⟨ppFill outMax s.out r.1, .code, r.2⟩) outMax ↔ x.isSome = true := by
    intro x
    cases x with
    | none => simp [Fine]
    | some r => simpa [Fine] using ppFill_length_lt hlt r.1
  rw [turn_of_use hu, hfine]
  cases hm : m.isFunc with
  | false =>
    simp only [Bool.false_eq_true, if_false, Option.isSome_map, false_implies, true_and]
    constructor
    · intro h text size he
      cases he with
      | body hu' _ =>
        obtain ⟨rfl, rfl⟩ := Prod.mk.inj (Option.some.inj (hu.symm.trans hu'))
        exact h
      | arg hu' hm' =>
        obtain ⟨rfl, rfl⟩ := Prod.mk.inj (Option.some.inj (hu.symm.trans hu'))
        rw [hm] at hm'
        cases hm'
      | replaced hu' hm' =>
        obtain ⟨rfl, rfl⟩ := Prod.mk.inj (Option.some.inj (hu.symm.trans hu'))
        rw [hm] at hm'
        cases hm'
    · exact fun h => h _ _ (.body hu hm)
  | true =>
    simp only [if_true, true_implies, ppCall_isSome_iff]
    constructor
    · rintro ⟨args, behind, reps, hc, hreps, he⟩
      refine ⟨ppCollect_isSome_iff.mp (Option.isSome_iff_exists.mpr ⟨_, hc⟩), fun text size hex => ?_⟩
      cases hex with
      | body hu' hm' =>
        obtain ⟨rfl, rfl⟩ := Prod.mk.inj (Option.some.inj (hu.symm.trans hu'))
        rw [hm] at hm'
        cases hm'
      | arg hu' _ hc' ha =>
        obtain ⟨rfl, rfl⟩ := Prod.mk.inj (Option.some.inj (hu.symm.trans hu'))
        obtain ⟨rfl, rfl⟩ := Prod.mk.inj (Option.some.inj (hc.symm.trans hc'))
        exact mapM_isSome_iff.mp (Option.isSome_iff_exists.mpr ⟨_, hreps⟩) _ ha
      | replaced hu' _ hc' hr =>
        obtain ⟨rfl, rfl⟩ := Prod.mk.inj (Option.some.inj (hu.symm.trans hu'))
        obtain ⟨rfl, rfl⟩ := Prod.mk.inj (Option.some.inj (hc.symm.trans hc'))
        obtain rfl := Option.some.inj (hreps.symm.trans hr)
        exact he
    · rintro ⟨hargs, hsub⟩
      have hsome : (ppCollect 1 [] [] after.tail).isSome = true := ppCollect_isSome_iff.mpr hargs
      obtain ⟨⟨args, behind⟩, hc⟩ := Option.isSome_iff_exists.mp hsome
      obtain ⟨reps, hreps⟩ := Option.isSome_iff_exists.mp (mapM_isSome_iff.mpr fun a ha => hsub _ _ (.arg hu hm hc ha))
      exact ⟨args, behind, reps, hc, hreps, hsub _ _ (.replaced hu hm hc hreps)⟩

/-- Where no macro is used, only the quote that opens a literal and an escape need room, and nothing is expanded. -/
theorem hasRoom_of_unused {s : Expansion} (hu : s.use pp = none) :
    (s.HasRoom pp outMax ∧ ∀ text size, s.Expands pp sub text size → (sub text size).isSome = true) ↔
      (s.mode = .code → s.rest.head? = some doubleQuote ∨ s.rest.head? = some singleQuote → s.out.length + 1 < outMax) ∧
        (s.mode ≠ .code → s.rest.head? = some backslash → 2 ≤ s.rest.length → s.out.length + 2 ≠ outMax) := by
  constructor
  · exact fun h => ⟨h.1.quote, h.1.escape⟩
  · refine fun h => ⟨⟨h.1, h.2, fun m after hu' => ?_⟩, fun text size he => ?_⟩
    · rw [hu] at hu'
      cases hu'
    · cases he with
      | body hu' | arg hu' | replaced hu' =>
        rw [hu] at hu'
        cases hu'

theorem fine_literal {quote c : Byte} {rest out : List Byte} {mode : TextMode} (hlt : out.length < outMax) :
    Fine (ppLiteralTurn outMax quote ⟨out, mode, c :: rest⟩ c rest) outMax ↔
      (c = backslash → rest ≠ [] → out.length + 2 ≠ outMax) := by
  rw [ppLiteralTurn_eq]
  by_cases hfull : outMax ≤ out.length + 1
  · rw [if_pos hfull]
    exact iff_of_true ⟨by simp, by simp⟩ fun _ _ => by omega
  rw [if_neg hfull]
  by_cases hesc : c = backslash ∧ rest ≠ []
  · rw [if_pos hesc]
    obtain ⟨e, rest', rfl⟩ := List.exists_cons_of_ne_nil hesc.2
    rw [List.take_succ_cons, List.take_zero, ppPut_of_room (by simp; omega)]
    constructor
    · intro h _ _
      have := h.2 _ rfl
      simp only [List.length_append, List.length_cons, List.length_nil] at this
      omega
    · intro h
      have := h hesc.1 hesc.2
      refine ⟨by simp, fun s' hs' => ?_⟩
      obtain rfl := ExpandTurn.more.inj (Option.some.inj hs')
      simp only [List.length_append, List.length_cons, List.length_nil]
      omega
  · rw [if_neg hesc]
    refine iff_of_true ⟨by simp, fun s' hs' => ?_⟩ fun hc hr => absurd ⟨hc, hr⟩ hesc
    obtain rfl := ExpandTurn.more.inj (Option.some.inj hs')
    simp only [List.length_append, List.length_cons, List.length_nil]
    omega

/-- A turn is fine if and only if there is room for what it writes unchecked and what it expands is expanded in its buffers. -/
theorem fine_iff {s : Expansion} (hlt : s.out.length < outMax) :
    Fine (ppExpandTurn file line pp sub outMax s) outMax ↔
      s.HasRoom pp outMax ∧ ∀ text size, s.Expands pp sub text size → (sub text size).isSome = true := by
  cases hu : s.use pp with
  | some u =>
    obtain ⟨m, after⟩ := u
    rw [fine_use hlt hu]
    obtain ⟨hm, ha⟩ := code_of_use hu
    refine and_congr_left fun _ => ⟨fun h => ⟨fun _ hq => ?_, fun hm' => absurd hm hm', fun m' after' hu' hm' => ?_⟩,
      fun h => h.args m after hu⟩
    · have hquote : ppIsAlpha doubleQuote = false ∧ ppIsAlpha singleQuote = false := by decide
      rcases hq with hq | hq
      all_goals
        rw [List.headD_eq_head?_getD, hq] at ha
        simp [hquote] at ha
    · obtain ⟨rfl, rfl⟩ := Prod.mk.inj (Option.some.inj (hu.symm.trans hu'))
      exact h hm'
  | none =>
    rw [hasRoom_of_unused hu]
    obtain ⟨out, mode, rest⟩ := s
    cases rest with
    | nil => exact iff_of_true ⟨by simp [ppExpandTurn], by simp [ppExpandTurn]⟩ (by simp)
    | cons c rest =>
      have literal : ∀ quote : Byte, ppExpandTurn file line pp sub outMax ⟨out, mode, c :: rest⟩ =
            ppLiteralTurn outMax quote ⟨out, mode, c :: rest⟩ c rest → mode ≠ .code →
          (Fine (ppExpandTurn file line pp sub outMax ⟨out, mode, c :: rest⟩) outMax ↔
            (mode = .code → (c :: rest).head? = some doubleQuote ∨ (c :: rest).head? = some singleQuote → out.length + 1 < outMax) ∧
            (mode ≠ .code → (c :: rest).head? = some backslash → 2 ≤ (c :: rest).length → out.length + 2 ≠ outMax)) := by
        intro quote hturn hm
        rw [hturn, fine_literal hlt]
        simp only [hm, false_implies, ne_eq, not_false_eq_true, true_implies, true_and, List.head?_cons, Option.some.injEq,
          List.length_cons]
        refine imp_congr_right fun _ => imp_congr_left ?_
        cases rest <;> simp
      -- Outside literals only the quotes are written unchecked.
      have plain : ∀ t : Option ExpandTurn, ppExpandTurn file line pp sub outMax ⟨out, .code, c :: rest⟩ = t → Fine t outMax →
          c ≠ doubleQuote → c ≠ singleQuote → (Fine (ppExpandTurn file line pp sub outMax ⟨out, .code, c :: rest⟩) outMax ↔
            (TextMode.code = .code → (c :: rest).head? = some doubleQuote ∨ (c :: rest).head? = some singleQuote →
              out.length + 1 < outMax) ∧
            (TextMode.code ≠ .code → (c :: rest).head? = some backslash → 2 ≤ (c :: rest).length → out.length + 2 ≠ outMax)) := by
        intro t hturn ht hd hs
        rw [hturn]
        exact iff_of_true ht ⟨fun _ hq => by simp [hd, hs] at hq, fun h => absurd rfl h⟩
      have quoted : ∀ mode' : TextMode, ppExpandTurn file line pp sub outMax ⟨out, .code, c :: rest⟩ =
            (ppPut outMax out [c]).map (fun out => .more ⟨out, mode', rest⟩) → c = doubleQuote ∨ c = singleQuote →
          (Fine (ppExpandTurn file line pp sub outMax ⟨out, .code, c :: rest⟩) outMax ↔
            (TextMode.code = .code → (c :: rest).head? = some doubleQuote ∨ (c :: rest).head? = some singleQuote →
              out.length + 1 < outMax) ∧
            (TextMode.code ≠ .code → (c :: rest).head? = some backslash → 2 ≤ (c :: rest).length → out.length + 2 ≠ outMax)) := by
        intro mode' hturn hc
        rw [hturn, ppPut_of_room (by simpa using hlt)]
        simp [Fine, hc]
      cases mode with
      | str => exact literal doubleQuote rfl (by simp)
      | chr => exact literal singleQuote rfl (by simp)
      | code =>
        by_cases hd : c = doubleQuote
        · exact quoted .str (by simp only [ppExpandTurn, if_pos hd]) (.inl hd)
        by_cases hs : c = singleQuote
        · exact quoted .chr (by simp only [ppExpandTurn, if_neg hd, if_pos hs]) (.inr hs)
        by_cases ha : ppIsAlpha c = true
        · obtain ⟨o, hturn, -, ho⟩ := turn_of_unused rfl rfl ha hu
          have hhead : ppIsAlpha ((⟨out, .code, c :: rest⟩ : Expansion).rest.headD 0#8) = true := ha
          refine plain _ ((ppExpandTurn_alpha rfl hhead).trans hturn) ⟨by simp, fun s' hs' => ?_⟩ hd hs
          obtain rfl := ExpandTurn.more.inj (Option.some.inj hs')
          exact ho hlt
        by_cases hfull : outMax ≤ out.length + 1
        · exact plain (some (.stop out)) (by simp only [ppExpandTurn, if_neg hd, if_neg hs, if_neg ha, if_pos hfull])
            ⟨by simp, by simp⟩ hd hs
        · refine plain (some (.more ⟨out ++ [c], .code, rest⟩))
            (by simp only [ppExpandTurn, if_neg hd, if_neg hs, if_neg ha, if_neg hfull]) ⟨by simp, fun s' hs' => ?_⟩ hd hs
          obtain rfl := ExpandTurn.more.inj (Option.some.inj hs')
          simp only [List.length_append, List.length_cons, List.length_nil]
          omega

/-- A turn that goes on reads a character at least and writes behind what there was; one that ends the loop writes nothing. -/
def Advances (s : Expansion) : ExpandTurn → Prop
  | .stop out => out = s.out
  | .more s' => s'.rest.length < s.rest.length ∧ s.out.length ≤ s'.out.length

theorem turn_advances {s : Expansion} {t : ExpandTurn} (h : ppExpandTurn file line pp sub outMax s = some t) : s.Advances t := by
  cases hu : s.use pp with
  | some u =>
    obtain ⟨m, after⟩ := u
    have hlt := after_length_lt hu
    rw [turn_of_use hu] at h
    obtain ⟨r, hr, rfl⟩ := Option.map_eq_some_iff.mp h
    refine ⟨?_, ppFill_length_ge _ _ _⟩
    split at hr
    · have := ppCall_behind hr
      rw [List.length_tail] at this
      show r.2.length < s.rest.length
      omega
    · obtain ⟨e, -, rfl⟩ := Option.map_eq_some_iff.mp hr
      exact hlt
  | none =>
    obtain ⟨out, mode, rest⟩ := s
    cases rest with
    | nil =>
      obtain rfl := Option.some.inj h
      rfl
    | cons c rest =>
      have literal : ∀ quote : Byte, ppLiteralTurn outMax quote ⟨out, mode, c :: rest⟩ c rest = some t →
          Advances ⟨out, mode, c :: rest⟩ t := by
        intro quote h
        rw [ppLiteralTurn_eq] at h
        by_cases hfull : outMax ≤ out.length + 1
        · rw [if_pos hfull] at h
          obtain rfl := Option.some.inj h
          rfl
        rw [if_neg hfull] at h
        by_cases hesc : c = backslash ∧ rest ≠ []
        · rw [if_pos hesc] at h
          obtain ⟨o, ho, rfl⟩ := Option.map_eq_some_iff.mp h
          obtain ⟨-, rfl⟩ := ppPut_eq_some.mp ho
          simp [Advances]
        · rw [if_neg hesc] at h
          obtain rfl := Option.some.inj h
          simp [Advances]
      have quoted : ∀ mode' : TextMode, (ppPut outMax out [c]).map (fun out => ExpandTurn.more ⟨out, mode', rest⟩) = some t →
          Advances ⟨out, mode, c :: rest⟩ t := by
        intro mode' h
        obtain ⟨o, ho, rfl⟩ := Option.map_eq_some_iff.mp h
        obtain ⟨-, rfl⟩ := ppPut_eq_some.mp ho
        simp [Advances]
      cases mode with
      | str => exact literal doubleQuote h
      | chr => exact literal singleQuote h
      | code =>
        by_cases ha : ppIsAlpha c = true
        · have hhead : ppIsAlpha ((⟨out, .code, c :: rest⟩ : Expansion).rest.headD 0#8) = true := ha
          obtain ⟨o, hturn, hle, -⟩ : ∃ o, ppNameTurn file line pp sub outMax out (c :: rest) =
              some (.more ⟨o, .code, (c :: rest).drop (ppReadName (c :: rest)).length⟩) ∧ out.length ≤ o.length ∧
              (out.length < outMax → o.length < outMax) := turn_of_unused rfl rfl ha hu
          rw [ppExpandTurn_alpha rfl hhead, hturn] at h
          obtain rfl := Option.some.inj h
          have := ppReadName_pos ha rest
          refine ⟨?_, hle⟩
          simp only [List.length_drop, List.length_cons]
          omega
        by_cases hd : c = doubleQuote
        · simp only [ppExpandTurn, if_pos hd] at h
          exact quoted _ h
        by_cases hs : c = singleQuote
        · simp only [ppExpandTurn, if_neg hd, if_pos hs] at h
          exact quoted _ h
        by_cases hfull : outMax ≤ out.length + 1
        · simp only [ppExpandTurn, if_neg hd, if_neg hs, if_neg ha, if_pos hfull] at h
          obtain rfl := Option.some.inj h
          rfl
        · simp only [ppExpandTurn, if_neg hd, if_neg hs, if_neg ha, if_neg hfull] at h
          obtain rfl := Option.some.inj h
          simp [Advances]

end Expansion

/-! ## The loop and the calls -/

open Expansion

/-- What the loop returns goes on from what had been written. -/
theorem ppExpandLoop_length_le {n : Nat} {s : Expansion} {out : List Byte}
    (h : ppExpandLoop file line pp sub outMax n s = some out) : s.out.length ≤ out.length := by
  induction n generalizing s with
  | zero =>
    obtain ⟨-, rfl⟩ := ppClose_eq_some.mp h
    exact le_rfl
  | succ n ih =>
    obtain ⟨t, ht, h⟩ := Option.bind_eq_some_iff.mp h
    have hadv := turn_advances ht
    cases t with
    | stop o =>
      obtain ⟨-, rfl⟩ := ppClose_eq_some.mp h
      rw [show out = s.out from hadv]
    | more s' => exact hadv.2.trans (ih h)

/-- The loop returns if and only if every turn it comes to is fine. -/
theorem ppExpandLoop_isSome_iff {n : Nat} {s : Expansion} (hn : s.rest.length ≤ n) (hlt : s.out.length < outMax) :
    (ppExpandLoop file line pp sub outMax n s).isSome = true ↔
      ∀ s', Relation.ReflTransGen (TurnsTo file line pp sub outMax) s s' → Fine (ppExpandTurn file line pp sub outMax s') outMax := by
  -- Where the loop ends nothing else is reached.
  have ends : ∀ {s : Expansion} {t : ExpandTurn}, ppExpandTurn file line pp sub outMax s = some t → (∀ s', t ≠ .more s') →
      ∀ s', Relation.ReflTransGen (TurnsTo file line pp sub outMax) s s' → Fine (ppExpandTurn file line pp sub outMax s') outMax := by
    intro s t ht hmore s' hs'
    rcases hs'.cases_head with rfl | ⟨s₁, h₁, -⟩
    · rw [ht]
      exact ⟨by simp, fun s' hs' => absurd (Option.some.inj hs') (hmore s')⟩
    · exact absurd (Option.some.inj (ht.symm.trans h₁)) (hmore s₁)
  induction n generalizing s with
  | zero =>
    have hstop : ppExpandTurn file line pp sub outMax s = some (.stop s.out) := by
      simp [ppExpandTurn, List.eq_nil_of_length_eq_zero (Nat.le_zero.mp hn)]
    exact iff_of_true (by simp [ppExpandLoop, ppClose, hlt]) (ends hstop (by simp))
  | succ n ih =>
    constructor
    · intro h
      obtain ⟨out, hout⟩ := Option.isSome_iff_exists.mp h
      obtain ⟨t, ht, hrest⟩ := Option.bind_eq_some_iff.mp hout
      cases t with
      | stop o => exact ends ht (by simp)
      | more s₁ =>
        obtain ⟨hadv, -⟩ := turn_advances ht
        have hlt₁ : s₁.out.length < outMax := (ppExpandLoop_length_le hrest).trans_lt (ppExpandLoop_length_lt hrest)
        intro s' hs'
        rcases hs'.cases_head with rfl | ⟨s₂, h₂, hs'⟩
        · rw [ht]
          refine ⟨by simp, fun s' hs' => ?_⟩
          obtain rfl := ExpandTurn.more.inj (Option.some.inj hs')
          exact hlt₁
        · obtain rfl := ExpandTurn.more.inj (Option.some.inj (ht.symm.trans h₂))
          exact (ih (by omega) hlt₁).mp (Option.isSome_iff_exists.mpr ⟨out, hrest⟩) s' hs'
    · intro h
      obtain ⟨hne, hfull⟩ := h s .refl
      obtain ⟨t, ht⟩ := Option.ne_none_iff_exists'.mp hne
      have hadv := turn_advances ht
      rw [ppExpandLoop, ht]
      cases t with
      | stop o =>
        obtain rfl : o = s.out := hadv
        simp [ppClose, hlt]
      | more s₁ =>
        obtain ⟨hrest, -⟩ := hadv
        exact (ih (by omega) (hfull s₁ ht)).mpr fun s' hs' => h s' (.head ht hs')

/-- An expansion returns if and only if there is room wherever it and the expansions it calls come to. -/
theorem ppExpandText_isSome_iff {depth : Nat} {text : List Byte} {outMax : Nat} (hpos : 0 < outMax) :
    (ppExpandText file line pp depth text outMax).isSome = true ↔
      ∀ size s, ComesTo file line pp depth text outMax size s → s.HasRoom pp size := by
  induction depth generalizing text outMax with
  | zero =>
    have hclose : (ppExpandText file line pp 0 text outMax).isSome = true := by
      have : (ppFill outMax [] text).length < outMax := ppFill_length_lt hpos text
      simp [ppExpandText, ppClose, this]
    exact iff_of_true hclose fun size s h => by cases h
  | succ depth ih =>
    have hsize : ∀ {s text size}, Expands pp (ppExpandText file line pp depth) s text size → 0 < size := by
      intro s text size he
      cases he <;> decide
    have hstart : (⟨[], .code, text⟩ : Expansion).out.length < outMax := hpos
    refine (ppExpandLoop_isSome_iff (le_refl (⟨[], .code, text⟩ : Expansion).rest.length) hstart).trans ?_
    constructor
    · intro h
      have hlt : ∀ s, Relation.ReflTransGen (TurnsTo file line pp (ppExpandText file line pp depth) outMax) ⟨[], .code, text⟩ s →
          s.out.length < outMax := by
        intro s hs
        cases hs with
        | refl => exact hpos
        | tail hs ht => exact (h _ hs).2 _ ht
      intro size s hcomes
      cases hcomes with
      | own hs => exact ((fine_iff (hlt _ hs)).mp (h _ hs)).1
      | deeper hs he hcomes =>
        exact (ih (hsize he)).mp (((fine_iff (hlt _ hs)).mp (h _ hs)).2 _ _ he) _ _ hcomes
    · intro h
      have hturn : ∀ s, Relation.ReflTransGen (TurnsTo file line pp (ppExpandText file line pp depth) outMax) ⟨[], .code, text⟩ s →
          s.out.length < outMax → Fine (ppExpandTurn file line pp (ppExpandText file line pp depth) outMax s) outMax := by
        intro s hs hlt
        refine (fine_iff hlt).mpr ⟨h _ _ (.own hs), fun text' size he => ?_⟩
        exact (ih (hsize he)).mpr fun size' s' hcomes => h _ _ (.deeper hs he hcomes)
      intro s hs
      refine hturn s hs ?_
      induction hs with
      | refl => exact hpos
      | tail hs ht ih => exact (hturn _ hs ih).2 _ ht

end

/-- An expansion stays in its buffers if and only if, wherever it or an expansion it calls opens a literal, copies an escape or
gathers the arguments of a macro, there is room. -/
theorem expansion_confined_iff_hasRoom (file : List Byte) (line : Nat) (pp : Preproc) (depth : Nat) (text : List Byte) (outMax : Nat)
    (hpos : 1 ≤ outMax) :
    Confined file line pp depth text outMax ↔ ∀ size s, ComesTo file line pp depth text outMax size s → s.HasRoom pp size := by
  rw [← ppExpandText_isSome_iff hpos]
  constructor
  · rintro ⟨out, h, -⟩
    exact Option.isSome_iff_exists.mpr ⟨out, h⟩
  · intro h
    obtain ⟨out, hout⟩ := Option.isSome_iff_exists.mp h
    exact ⟨out, hout, ppExpandText_length_lt hout⟩

/-- The table of one function-like macro that stands for its argument. -/
def oneMacro : Preproc := [⟨asciiBytes "F", true, [asciiBytes "x"], asciiBytes "x"⟩]

/-- There is room where the expansion of a use with a short argument begins. -/
theorem expansion_confined_iff_hasRoom_short : Expansion.HasRoom oneMacro 1024 ⟨[], .code, asciiBytes "F(y)"⟩ :=
  (expansion_confined_iff_hasRoom (asciiBytes "a.c") 1 oneMacro 8 (asciiBytes "F(y)") 1024 (by decide)).mp
    ⟨asciiBytes "y", by decide, by decide⟩ 1024 _ (.own .refl)

/-- Not every expansion stays in its buffers: an argument of 1100 characters is gathered into a row of 128. -/
theorem expansion_confined_false :
    ¬∀ (file : List Byte) (line : Nat) (pp : Preproc) (depth : Nat) (text : List Byte) (outMax : Nat), 1 ≤ outMax →
      Confined file line pp depth text outMax := by
  intro h
  obtain ⟨out, hout, -⟩ := h (asciiBytes "a.c") 1 oneMacro 8
    (asciiBytes "F(" ++ List.replicate 1100 (Char.byte 'y') ++ asciiBytes ")") 1024 (by decide)
  have hnone : ppExpandText (asciiBytes "a.c") 1 oneMacro 8
      (asciiBytes "F(" ++ List.replicate 1100 (Char.byte 'y') ++ asciiBytes ")") 1024 = none := by
    decide +kernel
  rw [hnone] at hout
  cases hout

end MiniOs32
