import MiniOs32.Cc.Process
import MiniOs32.Lemmas.Pieces
import MiniOs32.Lib.Returns

/-!
# The lines of a source and the table of macros

`pp_process` takes a text apart into lines, each line into a directive and its argument, and keeps a table with one entry for a
name. The first two are read back here from the lines and the keywords a text is made of; the third holds through any run.
-/

namespace MiniOs32

/-! ## Lines -/

/-- A line that is not too long is taken whole. -/
theorem ppTakeLine_append {line behind : List Byte} (hnl : Char.byte '\n' ∉ line) (hlen : line.length ≤ 1535)
    (hb : behind = [] ∨ behind.head? = some (Char.byte '\n')) : ppTakeLine (line ++ behind) = (line, behind.tail) := by
  have hall : ∀ c ∈ line, decide (c ≠ Char.byte '\n') = true := fun c hc => decide_eq_true fun h => hnl (h ▸ hc)
  have hline : ((line ++ behind).take 1535).takeWhile (· ≠ Char.byte '\n') = line := by
    rw [List.take_append, List.takeWhile_append_of_pos (fun c hc => hall c (List.mem_of_mem_take hc)), List.take_of_length_le hlen]
    have hnil : (behind.take (1535 - line.length)).takeWhile (· ≠ Char.byte '\n') = [] := by
      rcases hb with rfl | hb
      · simp
      · cases behind with
        | nil => simp
        | cons c behind =>
          have hc : c = Char.byte '\n' := by simpa using hb
          cases 1535 - line.length with
          | zero => simp
          | succ k => simp [hc]
    rw [hnil, List.append_nil]
  simp only [ppTakeLine, hline, List.drop_left]
  rcases hb with rfl | hb
  · simp
  · rw [if_pos hb]

/-- The lines that a text is made of; only the last may lack its newline. -/
inductive LinesOf : List (List Byte) → List Byte → Prop where
  | nil : LinesOf [] []
  | last {line : List Byte} (hne : line ≠ []) : LinesOf [line] line
  | cons (line : List Byte) {lines : List (List Byte)} {text : List Byte} (h : LinesOf lines text) :
      LinesOf (line :: lines) (line ++ Char.byte '\n' :: text)

/-- A line that fits `linebuf`. -/
def FitsLine (line : List Byte) : Prop := line.length ≤ 1535 ∧ Char.byte '\n' ∉ line

instance (line : List Byte) : Decidable (FitsLine line) := inferInstanceAs (Decidable (_ ∧ _))

section

variable {env : PpEnv} {filename : List Byte} {outMax : Nat} {deepest : Bool}
  {sub : Preproc → List Byte → List Byte → Nat → Except PpFail (Preproc × List Byte)} {s : PpState}

/-- A run over a text is a run over its lines. -/
theorem ppLines_eq_foldlM {lines : List (List Byte)} {text : List Byte} (h : LinesOf lines text)
    (hfit : ∀ line ∈ lines, FitsLine line) {n : Nat} (hn : text.length ≤ n) :
    ppLines env filename outMax deepest sub n s text = lines.foldlM (ppLine env filename outMax deepest sub) s := by
  induction h generalizing n s with
  | nil => cases n <;> rfl
  | @last line hne =>
    obtain ⟨hlen, hnl⟩ := hfit line List.mem_cons_self
    obtain ⟨n, rfl⟩ : ∃ m, n = m + 1 := ⟨n - 1, by have := List.length_pos_iff.mpr hne; omega⟩
    have htake := ppTakeLine_append hnl hlen (.inl (Eq.refl []))
    rw [List.append_nil] at htake
    rw [ppLines, if_neg hne, htake, List.foldlM_cons]
    cases ppLine env filename outMax deepest sub s line with
    | error e => rfl
    | ok s => cases n <;> rfl
  | @cons line lines text _ ih =>
    obtain ⟨hlen, hnl⟩ := hfit line List.mem_cons_self
    simp only [List.length_append, List.length_cons] at hn
    obtain ⟨n, rfl⟩ : ∃ m, n = m + 1 := ⟨n - 1, by omega⟩
    rw [ppLines, if_neg (by simp), ppTakeLine_append hnl hlen (.inr rfl), List.foldlM_cons]
    cases ppLine env filename outMax deepest sub s line with
    | error e => rfl
    | ok s => exact ih (fun l hl => hfit l (List.mem_cons_of_mem line hl)) (by omega)

end

/-! ## Keywords -/

/-- A keyword with a space behind it. -/
theorem ppKeyword_append {word : String} {arg : List Byte} (h : ppIsSpace (arg.headD 0#8) = true) :
    ppKeyword word (asciiBytes word ++ arg) = some arg := by
  simp only [ppKeyword, List.drop_left, h, Bool.and_true]
  rw [if_pos (List.isPrefixOf_iff_prefix.mpr (List.prefix_append _ _))]

theorem ppDirective_incl {arg : List Byte} (h : ppIsSpace (arg.headD 0#8) = true) :
    ppDirective (asciiBytes "include" ++ arg) = .incl arg := by
  rw [ppDirective, ppKeyword_append h]

/-- Without the space, no other keyword is read. -/
theorem ppDirective_incl_unspaced {arg : List Byte} (h : ppIsSpace (arg.headD 0#8) = false) :
    ppDirective (asciiBytes "include" ++ arg) = .other := by
  have h₁ : ppKeyword "include" (asciiBytes "include" ++ arg) = none := by
    simp only [ppKeyword, List.drop_left, h, Bool.and_false, Bool.false_eq_true, if_false]
  rw [ppDirective, h₁]
  rfl

theorem ppDirective_define {arg : List Byte} (h : ppIsSpace (arg.headD 0#8) = true) :
    ppDirective (asciiBytes "define" ++ arg) = .define arg := by
  have h₁ : ppKeyword "include" (asciiBytes "define" ++ arg) = none := rfl
  rw [ppDirective, h₁, ppKeyword_append h]

theorem ppDirective_undef {arg : List Byte} (h : ppIsSpace (arg.headD 0#8) = true) :
    ppDirective (asciiBytes "undef" ++ arg) = .undef arg := by
  have h₁ : ppKeyword "include" (asciiBytes "undef" ++ arg) = none := rfl
  have h₂ : ppKeyword "define" (asciiBytes "undef" ++ arg) = none := rfl
  rw [ppDirective, h₁, h₂, ppKeyword_append h]

theorem ppDirective_ifdef {arg : List Byte} (h : ppIsSpace (arg.headD 0#8) = true) :
    ppDirective (asciiBytes "ifdef" ++ arg) = .ifdef arg := by
  have h₁ : ppKeyword "include" (asciiBytes "ifdef" ++ arg) = none := rfl
  have h₂ : ppKeyword "define" (asciiBytes "ifdef" ++ arg) = none := rfl
  have h₃ : ppKeyword "undef" (asciiBytes "ifdef" ++ arg) = none := rfl
  rw [ppDirective, h₁, h₂, h₃, ppKeyword_append h]

theorem ppDirective_ifndef {arg : List Byte} (h : ppIsSpace (arg.headD 0#8) = true) :
    ppDirective (asciiBytes "ifndef" ++ arg) = .ifndef arg := by
  have h₁ : ppKeyword "include" (asciiBytes "ifndef" ++ arg) = none := rfl
  have h₂ : ppKeyword "define" (asciiBytes "ifndef" ++ arg) = none := rfl
  have h₃ : ppKeyword "undef" (asciiBytes "ifndef" ++ arg) = none := rfl
  have h₄ : ppKeyword "ifdef" (asciiBytes "ifndef" ++ arg) = none := rfl
  rw [ppDirective, h₁, h₂, h₃, h₄, ppKeyword_append h]

/-- A space behind `if` keeps the longer keywords apart. -/
theorem ppDirective_cond {arg : List Byte} (h : ppIsSpace (arg.headD 0#8) = true) :
    ppDirective (asciiBytes "if" ++ arg) = .cond arg := by
  have hspace : ∀ c : Byte, ppIsSpace c = true → (Char.byte 'd' == c) = false ∧ (Char.byte 'n' == c) = false := by decide
  obtain ⟨hd, hn⟩ := hspace _ h
  have h₁ : ppKeyword "include" (asciiBytes "if" ++ arg) = none := rfl
  have h₂ : ppKeyword "define" (asciiBytes "if" ++ arg) = none := rfl
  have h₃ : ppKeyword "undef" (asciiBytes "if" ++ arg) = none := rfl
  have h₄ : ppKeyword "ifdef" (asciiBytes "if" ++ arg) = none := by
    cases arg with
    | nil => rfl
    | cons c arg =>
      have : (asciiBytes "ifdef").isPrefixOf (asciiBytes "if" ++ c :: arg) =
          (Char.byte 'd' == c && (asciiBytes "ef").isPrefixOf arg) := rfl
      rw [ppKeyword, this, show (Char.byte 'd' == c) = false from hd]
      rfl
  have h₅ : ppKeyword "ifndef" (asciiBytes "if" ++ arg) = none := by
    cases arg with
    | nil => rfl
    | cons c arg =>
      have : (asciiBytes "ifndef").isPrefixOf (asciiBytes "if" ++ c :: arg) =
          (Char.byte 'n' == c && (asciiBytes "def").isPrefixOf arg) := rfl
      rw [ppKeyword, this, show (Char.byte 'n' == c) = false from hn]
      rfl
  rw [ppDirective, h₁, h₂, h₃, h₄, h₅, ppKeyword_append h]

theorem ppDirective_elif {arg : List Byte} (h : ppIsSpace (arg.headD 0#8) = true) :
    ppDirective (asciiBytes "elif" ++ arg) = .elif arg := by
  have h₁ : ppKeyword "include" (asciiBytes "elif" ++ arg) = none := rfl
  have h₂ : ppKeyword "define" (asciiBytes "elif" ++ arg) = none := rfl
  have h₃ : ppKeyword "undef" (asciiBytes "elif" ++ arg) = none := rfl
  have h₄ : ppKeyword "ifdef" (asciiBytes "elif" ++ arg) = none := rfl
  have h₅ : ppKeyword "ifndef" (asciiBytes "elif" ++ arg) = none := rfl
  have h₆ : ppKeyword "if" (asciiBytes "elif" ++ arg) = none := rfl
  rw [ppDirective, h₁, h₂, h₃, h₄, h₅, h₆, ppKeyword_append h]

theorem ppDirective_els (arg : List Byte) : ppDirective (asciiBytes "else" ++ arg) = .els := rfl

theorem ppDirective_endif (arg : List Byte) : ppDirective (asciiBytes "endif" ++ arg) = .endif := rfl

/-! ## The table -/

/-- A name has one entry at most. -/
def Preproc.Distinct (pp : Preproc) : Prop := (pp.map Macro.name).Nodup

theorem ppFindMacro_isSome_iff {pp : Preproc} {n : List Byte} : (ppFindMacro pp n).isSome = true ↔ n ∈ pp.map Macro.name := by
  simp [ppFindMacro, List.find?_isSome]

/-- A definition keeps the names when its name has an entry or the table is full, and adds its name at the end otherwise. -/
theorem names_ppDefine (pp : Preproc) (m : Macro) :
    (ppDefine pp m).map Macro.name =
      if m.name ∈ pp.map Macro.name ∨ 256 ≤ pp.length then pp.map Macro.name else pp.map Macro.name ++ [m.name] := by
  unfold ppDefine
  cases hi : pp.findIdx? fun m' => decide (m'.name = m.name) with
  | some i =>
    obtain ⟨hlt, hm, -⟩ := List.findIdx?_eq_some_iff_getElem.mp hi
    have hm : pp[i].name = m.name := of_decide_eq_true hm
    have hmem : m.name ∈ pp.map Macro.name := List.mem_map.mpr ⟨pp[i], List.getElem_mem hlt, hm⟩
    rw [if_pos (Or.inl hmem)]
    dsimp only
    have hi' : (pp.map Macro.name).get ⟨i, by simpa using hlt⟩ = m.name := by rw [List.get_eq_getElem, List.getElem_map, hm]
    rw [List.map_set, ← hi', List.get_eq_getElem, List.set_getElem_self]
  | none =>
    have hnot : m.name ∉ pp.map Macro.name := by
      intro hmem
      obtain ⟨m', hm', hname⟩ := List.mem_map.mp hmem
      have := List.findIdx?_eq_none_iff.mp hi m' hm'
      simp [hname] at this
    dsimp only
    by_cases hfull : 256 ≤ pp.length
    · rw [if_pos hfull, if_pos (Or.inr hfull)]
    · rw [if_neg hfull, if_neg (by rintro (h | h) <;> contradiction), List.map_append, List.map_singleton]

/-- The name goes with its entry. -/
theorem names_ppUndef (pp : Preproc) (n : List Byte) : (ppUndef pp n).map Macro.name = (pp.map Macro.name).erase n := by
  induction pp with
  | nil => rfl
  | cons m pp ih =>
    by_cases h : m.name = n
    · simp [ppUndef, h]
    · have hne : (m.name == n) = false := by simpa using h
      rw [ppUndef, List.eraseP_cons, decide_eq_false h]
      simp only [cond_false, List.map_cons, List.erase_cons, hne]
      exact congrArg (m.name :: ·) ih

theorem Preproc.Distinct.define {pp : Preproc} (h : pp.Distinct) (m : Macro) : (ppDefine pp m).Distinct := by
  rw [Preproc.Distinct, names_ppDefine]
  split
  · exact h
  · rename_i hnot
    rw [List.nodup_append]
    refine ⟨h, List.nodup_singleton _, fun a ha b hb hab => hnot (.inl ?_)⟩
    rwa [← List.mem_singleton.mp hb, ← hab]

theorem Preproc.Distinct.undef {pp : Preproc} (h : pp.Distinct) (n : List Byte) : (ppUndef pp n).Distinct := by
  rw [Preproc.Distinct, names_ppUndef]
  exact h.erase n

section

variable {env : PpEnv} {filename : List Byte} {outMax : Nat} {deepest : Bool}
  {sub : Preproc → List Byte → List Byte → Nat → Except PpFail (Preproc × List Byte)}

/-- What an included file must do for the names to stay distinct. -/
def KeepsDistinct (sub : Preproc → List Byte → List Byte → Nat → Except PpFail (Preproc × List Byte)) : Prop :=
  ∀ pp text path n r, pp.Distinct → sub pp text path n = .ok r → r.1.Distinct

theorem PpState.open_pp {s s' : PpState} {val : Bool} (h : s.open val = .ok s') : s'.pp = s.pp := by
  unfold PpState.open at h
  split at h
  · cases h
    rfl
  · cases h

theorem ppText_pp {s s' : PpState} {line : List Byte} (h : ppText filename outMax s line = .ok s') : s'.pp = s.pp := by
  unfold ppText at h
  split at h
  · cases h
  · split at h
    · cases h
    · cases h
      rfl

theorem ppInclude_distinct (hsub : KeepsDistinct sub) {s s' : PpState} {q : List Byte} (hs : s.pp.Distinct)
    (h : ppInclude env filename outMax deepest sub s q = .ok s') : s'.pp.Distinct := by
  unfold ppInclude at h
  split at h
  · cases h
    exact hs
  split at h
  · cases h
    exact hs
  split at h
  · cases h
  split at h
  · cases h
  · obtain ⟨r, hr, h⟩ := except_bind_eq_ok.mp h
    cases h
    exact hsub _ _ _ _ _ hs hr

/-- One line keeps the names distinct. -/
theorem ppLine_distinct (hsub : KeepsDistinct sub) {s s' : PpState} {line : List Byte} (hs : s.pp.Distinct)
    (h : ppLine env filename outMax deepest sub s line = .ok s') : s'.pp.Distinct := by
  unfold ppLine at h
  dsimp only at h
  split at h
  · cases hd : ppDirective (ppExprSkip (ppExprSkip line).tail) with
    | incl q =>
      rw [hd, ppRunDirective] at h
      split at h
      · exact ppInclude_distinct hsub hs h
      · cases h
        exact hs
    | define q =>
      rw [hd] at h
      cases h
      dsimp only
      split
      · exact hs.define _
      · exact hs
    | undef q =>
      rw [hd] at h
      cases h
      dsimp only
      split
      · exact hs.undef _
      · exact hs
    | ifdef q | ifndef q | cond q =>
      rw [hd] at h
      exact PpState.open_pp h ▸ hs
    | elif q | els =>
      rw [hd, ppRunDirective] at h
      split at h <;>
      · cases h
        exact hs
    | endif | other =>
      rw [hd] at h
      cases h
      exact hs
  · split at h
    · exact ppText_pp h ▸ hs
    · cases h
      exact hs

theorem ppLines_distinct (hsub : KeepsDistinct sub) {n : Nat} {s s' : PpState} {p : List Byte} (hs : s.pp.Distinct)
    (h : ppLines env filename outMax deepest sub n s p = .ok s') : s'.pp.Distinct := by
  induction n generalizing s p with
  | zero =>
    cases h
    exact hs
  | succ n ih =>
    rw [ppLines] at h
    split at h
    · cases h
      exact hs
    · obtain ⟨t, ht, h⟩ := except_bind_eq_ok.mp h
      exact ih (ppLine_distinct hsub hs ht) h

end

/-- At every depth of files. -/
theorem ppProcess_distinct (env : PpEnv) (levels : Nat) :
    KeepsDistinct fun pp text path outMax => ppProcess env levels path pp text outMax := by
  induction levels with
  | zero =>
    intro pp text path n r hs h
    cases h
  | succ levels ih =>
    intro pp text path n r hs h
    dsimp only at h
    rw [ppProcess] at h
    obtain ⟨t, ht, h⟩ := except_bind_eq_ok.mp h
    split at h
    · cases h
      exact ppLines_distinct ih hs ht
    · cases h

end MiniOs32
