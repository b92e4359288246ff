import MiniOs32.Lemmas.Expand
import MiniOs32.Lemmas.Process

/-!
# A line of text without macros is copied

The expander scans a line by a rule of its own: a name begins at any letter outside a literal, also in a number or in a comment,
and ends after 31 characters at the latest. A line that fits its buffer comes out as it went in, whatever macros there are other
than its identifiers, if and only if every name so read is an identifier of the line.
-/

namespace MiniOs32

/-- An active line of text comes out unchanged and in full, whatever the table, when no macro has the name of one of its
identifiers: a run of `pp_process` that comes to the line appends it and a newline, or fails when the output is full. -/
def Copied (inComment : Bool) (line : List Byte) : Prop :=
  ∀ (env : PpEnv) (filename : List Byte) (outMax : Nat) (deepest : Bool)
    (sub : Preproc → List Byte → List Byte → Nat → Except PpFail (Preproc × List Byte)) (s : PpState) (n : Nat) (behind : List Byte),
    line ++ behind ≠ [] → (behind = [] ∨ behind.head? = some (Char.byte '\n')) → ppActive s.conds = true →
    (∀ w ∈ cNames inComment line, ppFindMacro s.pp w = none) →
    ppLines env filename outMax deepest sub (n + 1) s (line ++ behind) =
      if outMax ≤ s.out.length + line.length + 2 then .error .ovf
      else ppLines env filename outMax deepest sub n
        { s with out := s.out ++ line ++ [Char.byte '\n'], line := s.line + 1 } behind.tail

/-! ## The line -/

section

variable {env : PpEnv} {filename : List Byte} {outMax : Nat} {deepest : Bool}
  {sub : Preproc → List Byte → List Byte → Nat → Except PpFail (Preproc × List Byte)} {s : PpState} {n : Nat} {line behind : List Byte}

/-- A run comes to an active line of text and expands it. -/
theorem ppLines_text (hnl : Char.byte '\n' ∉ line) (hlen : line.length ≤ 1535)
    (htext : (ppExprSkip line).head? ≠ some (Char.byte '#')) (hne : line ++ behind ≠ [])
    (hb : behind = [] ∨ behind.head? = some (Char.byte '\n')) (hs : ppActive s.conds = true) :
    ppLines env filename outMax deepest sub (n + 1) s (line ++ behind) =
      (ppText filename outMax s line).bind fun s => ppLines env filename outMax deepest sub n s behind.tail := by
  rw [ppLines, if_neg hne, ppTakeLine_append hnl hlen hb]
  simp only [ppLine, if_neg htext, hs, if_true]
  rfl

/-- A line that fits is copied when none of the names read in it is replaced. -/
theorem ppText_copies (hlen : line.length ≤ 1023) (hnames : ∀ w ∈ ppNames line.length .code line, Unreplaced s.pp w) :
    ppText filename outMax s line =
      if outMax ≤ s.out.length + line.length + 2 then .error .ovf
      else .ok { s with out := s.out ++ line ++ [Char.byte '\n'], line := s.line + 1 } := by
  have h : ppExpandText filename s.line s.pp 8 line 1024 = some line :=
    ppExpandLoop_copies hnames le_rfl (by simp only [List.length_nil]; omega)
  simp only [ppText, h]

/-! ## Names that vanish -/

/-- The table of one macro that stands for nothing. -/
def vanish (w : List Byte) : Preproc := [⟨w, false, [], []⟩]

/-- What shrinks when the macro stands for nothing, the line is the first and the file has no name. -/
def Shrinks (w v : List Byte) : Prop := v = w ∨ v = asciiBytes "__LINE__" ∨ v = asciiBytes "__FILE__"

variable {w : List Byte} {subText : List Byte → Nat → Option (List Byte)}

theorem ppNameTurn_vanish (hsub : subText [] 512 = some []) (out : List Byte) {text : List Byte} (hpos : 0 < (ppReadName text).length) :
    ∃ out', ppNameTurn [] 1 (vanish w) subText outMax out text =
        some (.more ⟨out', .code, text.drop (ppReadName text).length⟩) ∧
      out'.length ≤ out.length + (ppReadName text).length ∧
      (Shrinks w (ppReadName text) → out'.length < out.length + (ppReadName text).length) := by
  by_cases hl : ppReadName text = asciiBytes "__LINE__"
  · refine ⟨ppFill outMax out (ppLineText 1), by simp only [ppNameTurn, if_pos hl], ?_⟩
    have h := ppFill_length_le outMax out (ppLineText 1)
    have h₁ : (ppLineText 1).length = 1 := by decide
    have h₂ : (asciiBytes "__LINE__").length = 8 := by decide
    rw [hl]
    exact ⟨by omega, fun _ => by omega⟩
  by_cases hf : ppReadName text = asciiBytes "__FILE__"
  · refine ⟨ppFill outMax (ppFill outMax (ppFill outMax out [doubleQuote]) []) [doubleQuote],
      by simp only [ppNameTurn, if_neg hl, if_pos hf], ?_⟩
    have h₀ := ppFill_length_le outMax out [doubleQuote]
    have h₁ := ppFill_length_le outMax (ppFill outMax out [doubleQuote]) []
    have h₂ := ppFill_length_le outMax (ppFill outMax (ppFill outMax out [doubleQuote]) []) [doubleQuote]
    have h₃ : (asciiBytes "__FILE__").length = 8 := by decide
    simp only [List.length_cons, List.length_nil] at h₀ h₁ h₂
    rw [hf]
    exact ⟨by omega, fun _ => by omega⟩
  by_cases hw : w = ppReadName text
  · have hm : ppFindMacro (vanish w) (ppReadName text) = some ⟨w, false, [], []⟩ := by simp [ppFindMacro, vanish, hw]
    refine ⟨ppFill outMax out [], by simp [ppNameTurn, hl, hf, hm, hsub], ?_⟩
    have h := ppFill_length_le outMax out []
    rw [List.length_nil] at h
    exact ⟨by omega, fun _ => by omega⟩
  · have hm : ppFindMacro (vanish w) (ppReadName text) = none := by simp [ppFindMacro, vanish, hw]
    refine ⟨_, ppNameTurn_unreplaced ⟨hl, hf, hm⟩, ppFill_length_le _ _ _, ?_⟩
    rintro (h | h | h)
    · exact absurd h.symm hw
    · exact absurd h hl
    · exact absurd h hf

/-- What comes out is no longer than what went in, and shorter when a name that shrinks is read. -/
theorem ppExpandLoop_vanish (hsub : subText [] 512 = some []) {mode : TextMode} {out rest out' : List Byte}
    (h : ppExpandLoop [] 1 (vanish w) subText outMax n ⟨out, mode, rest⟩ = some out') :
    out'.length ≤ out.length + rest.length ∧
      ((∃ v ∈ ppNames n mode rest, Shrinks w v) → out'.length < out.length + rest.length) := by
  induction n generalizing mode out rest with
  | zero =>
    obtain ⟨-, rfl⟩ := ppClose_eq_some.mp h
    refine ⟨Nat.le_add_right _ _, ?_⟩
    rintro ⟨v, hv, -⟩
    simp [ppNames] at hv
  | succ n ih =>
    cases rest with
    | nil =>
      have hturn : ppExpandTurn [] 1 (vanish w) subText outMax ⟨out, mode, []⟩ = some (.stop out) := rfl
      rw [ppExpandLoop, hturn] at h
      obtain ⟨-, rfl⟩ := ppClose_eq_some.mp h
      refine ⟨Nat.le_add_right _ _, ?_⟩
      rintro ⟨v, hv, -⟩
      simp [ppNames] at hv
    | cons c rest =>
      -- A turn that ends the loop leaves a character behind.
      have stop : ∀ o : List Byte, ppExpandTurn [] 1 (vanish w) subText outMax ⟨out, mode, c :: rest⟩ = some (.stop o) →
          o.length ≤ out.length → out'.length < out.length + (c :: rest).length := by
        intro o hturn ho
        rw [ppExpandLoop, hturn] at h
        obtain ⟨-, rfl⟩ := ppClose_eq_some.mp h
        rw [List.length_cons]
        omega
      -- A turn that goes on writes no more than it reads, and its names are the first ones of the scan.
      have go : ∀ (o : List Byte) (mode' : TextMode) (rest' : List Byte) (vs : List (List Byte)),
          ppExpandTurn [] 1 (vanish w) subText outMax ⟨out, mode, c :: rest⟩ = some (.more ⟨o, mode', rest'⟩) →
          ppNames (n + 1) mode (c :: rest) = vs ++ ppNames n mode' rest' →
          o.length + rest'.length ≤ out.length + (c :: rest).length →
          ((∃ v ∈ vs, Shrinks w v) → o.length + rest'.length < out.length + (c :: rest).length) →
          out'.length ≤ out.length + (c :: rest).length ∧
            ((∃ v ∈ ppNames (n + 1) mode (c :: rest), Shrinks w v) → out'.length < out.length + (c :: rest).length) := by
        intro o mode' rest' vs hturn hvs hle hlt
        rw [ppExpandLoop, hturn] at h
        obtain ⟨h₁, h₂⟩ := ih h
        refine ⟨by omega, ?_⟩
        rintro ⟨v, hv, hs⟩
        rw [hvs] at hv
        rcases List.mem_append.mp hv with hv | hv
        · have := hlt ⟨v, hv, hs⟩
          omega
        · have := h₂ ⟨v, hv, hs⟩
          omega
      have literal : ∀ quote : Byte, ppNames (n + 1) mode (c :: rest) = (if c = backslash ∧ rest ≠ [] then ppNames n mode rest.tail
            else ppNames n (if c = quote then .code else mode) rest) →
          ppExpandTurn [] 1 (vanish w) subText outMax ⟨out, mode, c :: rest⟩ =
            ppLiteralTurn outMax quote ⟨out, mode, c :: rest⟩ c rest →
          out'.length ≤ out.length + (c :: rest).length ∧
            ((∃ v ∈ ppNames (n + 1) mode (c :: rest), Shrinks w v) → out'.length < out.length + (c :: rest).length) := by
        intro quote hvs hturn
        rw [ppLiteralTurn_eq] at hturn
        by_cases hfull : outMax ≤ out.length + 1
        · rw [if_pos hfull] at hturn
          have := stop out hturn le_rfl
          exact ⟨this.le, fun _ => this⟩
        rw [if_neg hfull] at hturn
        by_cases hesc : c = backslash ∧ rest ≠ []
        · rw [if_pos hesc] at hvs hturn
          obtain ⟨e, rest', rfl⟩ := List.exists_cons_of_ne_nil hesc.2
          cases hput : ppPut outMax (out ++ [c]) ((e :: rest').take 1) with
          | none =>
            rw [hput] at hturn
            rw [ppExpandLoop, hturn] at h
            cases h
          | some o =>
            rw [hput] at hturn
            obtain ⟨-, rfl⟩ := ppPut_eq_some.mp hput
            exact go _ _ _ [] hturn hvs (by simp; omega) (by simp)
        · rw [if_neg hesc] at hvs hturn
          exact go _ _ _ [] hturn hvs (by simp; omega) (by simp)
      cases mode with
      | str => exact literal doubleQuote rfl rfl
      | chr => exact literal singleQuote rfl rfl
      | code =>
        -- An opening quote is written or falls outside the buffer.
        have quoted : ∀ mode' : TextMode, ppNames (n + 1) .code (c :: rest) = ppNames n mode' rest →
            ppExpandTurn [] 1 (vanish w) subText outMax ⟨out, .code, c :: rest⟩ =
              (ppPut outMax out [c]).map (fun out => .more ⟨out, mode', rest⟩) →
            out'.length ≤ out.length + (c :: rest).length ∧
              ((∃ v ∈ ppNames (n + 1) .code (c :: rest), Shrinks w v) → out'.length < out.length + (c :: rest).length) := by
          intro mode' hvs hturn
          cases hput : ppPut outMax out [c] with
          | none =>
            rw [hput] at hturn
            rw [ppExpandLoop, hturn] at h
            cases h
          | some o =>
            rw [hput] at hturn
            obtain ⟨-, rfl⟩ := ppPut_eq_some.mp hput
            exact go _ _ _ [] hturn hvs (by simp; omega) (by simp)
        by_cases hd : c = doubleQuote
        · exact quoted .str (by simp only [ppNames, if_pos hd]) (by simp only [ppExpandTurn, if_pos hd])
        by_cases hs : c = singleQuote
        · exact quoted .chr (by simp only [ppNames, if_neg hd, if_pos hs]) (by simp only [ppExpandTurn, if_neg hd, if_pos hs])
        by_cases ha : ppIsAlpha c = true
        · obtain ⟨o, hturn, hle, hlt⟩ := ppNameTurn_vanish hsub out (ppReadName_pos ha rest)
          have hlen := congrArg List.length (ppReadName_append_drop (c :: rest))
          rw [List.length_append] at hlen
          refine go o .code _ [ppReadName (c :: rest)] ?_ (by simp only [ppNames, if_neg hd, if_neg hs, if_pos ha]; rfl)
            (by omega) ?_
          · simp only [ppExpandTurn, if_neg hd, if_neg hs, if_pos ha]
            exact hturn
          · rintro ⟨v, hv, hshrinks⟩
            obtain rfl := List.mem_singleton.mp hv
            have := hlt hshrinks
            omega
        · have hvs : ppNames (n + 1) .code (c :: rest) = ppNames n .code rest := by simp only [ppNames, if_neg hd, if_neg hs, if_neg ha]
          by_cases hfull : outMax ≤ out.length + 1
          · have := stop out (by simp only [ppExpandTurn, if_neg hd, if_neg hs, if_neg ha, if_pos hfull]) le_rfl
            exact ⟨this.le, fun _ => this⟩
          · have hturn : ppExpandTurn [] 1 (vanish w) subText outMax ⟨out, .code, c :: rest⟩ = some (.more ⟨out ++ [c], .code, rest⟩) := by
              simp only [ppExpandTurn, if_neg hd, if_neg hs, if_neg ha, if_neg hfull]
            exact go _ _ _ [] hturn hvs (by simp; omega) (by simp)

end

/-! ## The lines that are copied -/

/-- A line is copied, whatever the macros other than its identifiers, if and only if it fits the buffer of 1024 characters and
every name the expander reads in it is an identifier of the line. -/
theorem line_copied_iff_names_whole (inComment : Bool) (line : List Byte) (hnl : Char.byte '\n' ∉ line) (hlen : line.length ≤ 1535)
    (htext : (ppExprSkip line).head? ≠ some (Char.byte '#'))
    (hown : asciiBytes "__LINE__" ∉ cNames inComment line ∧ asciiBytes "__FILE__" ∉ cNames inComment line) :
    Copied inComment line ↔
      line.length ≤ 1023 ∧ ∀ w ∈ ppNames line.length .code line, w ∈ cNames inComment line := by
  constructor
  · intro h
    -- The expansion of the line with a table that spares its identifiers is the line.
    have expands : ∀ pp : Preproc, (∀ w ∈ cNames inComment line, ppFindMacro pp w = none) →
        ppExpandText [] 1 pp 8 line 1024 = some line := by
      intro pp hpp
      have hb := h ⟨fun _ _ => false, fun _ _ _ => none, false⟩ [] (line.length + 3) true (fun _ _ _ _ => .error .includeDepth)
        ⟨pp, [], [], 1⟩ 0 [Char.byte '\n'] (by simp) (.inr rfl) rfl hpp
      rw [ppLines_text hnl hlen htext (by simp) (.inr rfl) rfl, if_neg (by simp)] at hb
      unfold ppText at hb
      dsimp only at hb
      cases hexp : ppExpandText [] 1 pp 8 line 1024 with
      | none =>
        rw [hexp] at hb
        cases hb
      | some expanded =>
        rw [hexp] at hb
        dsimp only at hb
        split at hb
        · cases hb
        · have hout := congrArg PpState.out (Except.ok.inj hb)
          simpa using hout
    have hfits : line.length ≤ 1023 := Nat.le_of_lt_succ (ppExpandText_length_lt (expands [] fun _ _ => rfl))
    refine ⟨hfits, fun w hw => ?_⟩
    by_contra hnot
    have hspared : ∀ v ∈ cNames inComment line, ppFindMacro (vanish w) v = none := by
      intro v hv
      have hne : w ≠ v := fun h => hnot (h ▸ hv)
      simp [ppFindMacro, vanish, hne]
    have hlt := (ppExpandLoop_vanish (by rfl) (expands (vanish w) hspared)).2 ⟨w, hw, .inl rfl⟩
    simp at hlt
  · rintro ⟨hfits, hwhole⟩ env filename outMax deepest sub s n behind hne hb hs hpp
    rw [ppLines_text hnl hlen htext hne hb hs, ppText_copies hfits]
    · split <;> rfl
    · intro w hw
      refine ⟨fun h => hown.1 (h ▸ hwhole w hw), fun h => hown.2 (h ▸ hwhole w hw), hpp w (hwhole w hw)⟩

/-- A line whose number has no suffix is copied. -/
theorem line_copied_iff_names_whole_number : Copied false (asciiBytes "n = 1;") :=
  (line_copied_iff_names_whole false (asciiBytes "n = 1;") (by decide) (by decide) (by decide) (by decide)).mpr
    ⟨by decide, by decide⟩

/-- Not every line without macros is copied: with a macro `U` that stands for 5, `n = 1U;` becomes `n = 15;`. -/
theorem line_copied_false :
    ¬∀ (inComment : Bool) (line : List Byte), Char.byte '\n' ∉ line → line.length ≤ 1535 →
      (ppExprSkip line).head? ≠ some (Char.byte '#') →
      asciiBytes "__LINE__" ∉ cNames inComment line ∧ asciiBytes "__FILE__" ∉ cNames inComment line → Copied inComment line := by
  intro h
  have hb := h false (asciiBytes "n = 1U;") (by decide) (by decide) (by decide) (by decide)
    ⟨fun _ _ => false, fun _ _ _ => none, false⟩ (asciiBytes "a.c") 100 true (fun _ _ _ _ => .error .includeDepth)
    ⟨[⟨asciiBytes "U", false, [], asciiBytes "5"⟩], [], [], 1⟩ 0 [] (by decide) (.inl rfl) rfl (by decide)
  have hout := congrArg (fun r => r.toOption.map PpState.out) hb
  revert hout
  decide

end MiniOs32
