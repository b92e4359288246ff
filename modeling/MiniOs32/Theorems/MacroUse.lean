import MiniOs32.Cc.Process
import MiniOs32.Lemmas.Pieces

/-!
# Uses of function-like macros

C takes the arguments of a use from its pieces, and replaces the parameters among the identifiers of the body. The expander does
both character by character: it wants the parenthesis right behind the name, counts parentheses and commas in literals too, and
replaces a parameter wherever it scans its name. It does what C does if and only if none of the three makes a difference.
-/

namespace MiniOs32

/-! ## What C does -/

/-- A function-like macro as a definition leaves it. -/
structure FuncMacro where
  name : CName
  params : List CName
  body : List Byte
  name_le : name.val.length ≤ 31
  name_own : name.val ≠ asciiBytes "__LINE__" ∧ name.val ≠ asciiBytes "__FILE__"
  params_le : params.length ≤ 8 ∧ ∀ p ∈ params, p.val.length ≤ 31
  body_le : body.length ≤ 255

/-- Its entry in the table. -/
def FuncMacro.entry (m : FuncMacro) : Macro := ⟨m.name.val, true, m.params.map Subtype.val, m.body⟩

/-- The texts between the commas outside inner parentheses, up to the parenthesis that closes `d` open ones, and the pieces
behind it; `cur` is what has been read of the first. -/
def cArgs : Nat → List Byte → List CPiece → Option (List (List Byte) × List CPiece)
  | _, _, [] => none
  | d, cur, p :: ps =>
    if p = .char (Char.byte '(') then cArgs (d + 1) (cur ++ p.text) ps
    else if p = .char (Char.byte ')') then if d = 1 then some ([cur], ps) else cArgs (d - 1) (cur ++ p.text) ps
    else if p = .char (Char.byte ',') ∧ d = 1 then (cArgs 1 [] ps).map fun r => (cur :: r.1, r.2)
    else cArgs d (cur ++ p.text) ps

/-- A use of a function-like macro within a line: its name, spaces, and behind the opening parenthesis at most eight arguments
that fit their rows. -/
structure CUse where
  name : CName
  sp : Spaces
  text : List Byte
  args : List (List Byte)
  rest : List CPiece
  takes : cArgs 1 [] (cPieces false text) = some (args, rest)
  args_le : args.length ≤ 8 ∧ ∀ a ∈ args, a.length < 128

/-- The line from the use on. -/
def CUse.source (u : CUse) : List Byte := u.name.val ++ (u.sp.val ++ Char.byte '(' :: u.text)

/-- The line behind the use. -/
def CUse.behind (u : CUse) : List Byte := u.rest.flatMap CPiece.text

/-- What stands for a word when the parameters are replaced. -/
def paramText (params reps : List (List Byte)) (w : List Byte) : List Byte :=
  match params.findIdx? fun p => decide (w = p) with
  | some a => reps.getD a []
  | none => w

/-- What stands for a piece of a body: a parameter is replaced where it is an identifier. -/
def cReplace (params reps : List (List Byte)) : CPiece → List Byte
  | .name w => paramText params reps w
  | p => p.text

/-- The body with its parameters replaced. -/
def cSubst (params reps : List (List Byte)) (body : List Byte) : List Byte :=
  (cPieces false body).flatMap (cReplace params reps)

/-! ## What the expander does -/

/-- The expander treats the use of a macro as C does: it takes the text for a use, whatever stands before it, gathers C's
arguments, and replaces the parameters by their expansions as C does, as far as the result fits. -/
structure FollowsC (m : FuncMacro) (u : CUse) : Prop where
  taken : ∀ (file : List Byte) (line : Nat) (pp : Preproc) (depth outMax : Nat) (out : List Byte),
    ppFindMacro pp m.name.val = some m.entry →
    ppExpandTurn file line pp (ppExpandText file line pp depth) outMax ⟨out, .code, u.source⟩ =
      (ppCall (ppExpandText file line pp depth) m.entry u.text).map fun r => .more ⟨ppFill outMax out r.1, .code, r.2⟩
  args : ppCollect 1 [] [] u.text = some (u.args, u.behind)
  body : ∀ reps, (cSubst m.entry.params reps m.body).length < 512 →
    ppSubst m.entry.params reps m.body.length [] m.body = cSubst m.entry.params reps m.body

/-- Read character by character inside `d` open parentheses, a text closes as many as it opens, and has no comma outside them. -/
def Level : Nat → List Byte → Prop
  | d, [] => d = 0
  | d, ch :: text =>
    if ch = Char.byte '(' then Level (d + 1) text
    else if ch = Char.byte ')' then 0 < d ∧ Level (d - 1) text
    else (ch = Char.byte ',' → 0 < d) ∧ Level d text

/-- A use whose parenthesis stands right behind the name and whose arguments are level. -/
def CUse.Plain (u : CUse) : Prop := u.sp.val = [] ∧ ∀ a ∈ u.args, Level 0 a

/-- A macro in whose body the scan comes upon a parameter only where it is an identifier. -/
def FuncMacro.Plain (m : FuncMacro) : Prop :=
  ∀ p ∈ cPieces false m.body, ∀ w ∈ ppCuts p.text, w ∈ m.entry.params → p = .name w

/-! ## The substitution -/

section Substitution

variable {params reps : List (List Byte)}

theorem paramText_of_notMem {w : List Byte} (h : w ∉ params) : paramText params reps w = w := by
  have hnone : params.findIdx? (fun p => decide (w = p)) = none := by
    rw [List.findIdx?_eq_none_iff]
    intro p hp
    exact decide_eq_false fun heq => h (heq ▸ hp)
  rw [paramText, hnone]

theorem paramText_nil_of_mem {w : List Byte} (h : w ∈ params) : paramText params [] w = [] := by
  rw [paramText]
  split
  next => rfl
  next hnone =>
    have := List.findIdx?_eq_none_iff.mp hnone w h
    simp at this

theorem length_paramText_nil (params : List (List Byte)) (w : List Byte) : (paramText params [] w).length ≤ w.length := by
  by_cases h : w ∈ params
  · rw [paramText_nil_of_mem h]
    exact Nat.zero_le _
  · rw [paramText_of_notMem h]

/-- The loop replaces the cuts of the body, as long as the result fits. -/
theorem ppSubst_eq (hp : ∀ p ∈ params, ppIsAlpha (p.headD 0#8) = true) {n : Nat} {temp body : List Byte} (hn : body.length ≤ n)
    (hroom : temp.length + ((ppCuts body).flatMap (paramText params reps)).length < 512) :
    ppSubst params reps n temp body = temp ++ (ppCuts body).flatMap (paramText params reps) := by
  induction n generalizing temp body with
  | zero =>
    rw [List.eq_nil_of_length_eq_zero (Nat.le_zero.mp hn)]
    exact (List.append_nil temp).symm
  | succ n ih =>
    cases body with
    | nil => exact (List.append_nil temp).symm
    | cons c body =>
      rw [List.length_cons] at hn
      by_cases hfull : temp.length + 1 < 512
      · cases ha : ppIsAlpha c with
        | true =>
          rw [ppCuts_alpha ha, List.flatMap_cons] at hroom ⊢
          rw [List.length_append] at hroom
          have hpos := ppReadName_pos ha body
          have hfill : ppFill 512 temp (paramText params reps (ppReadName (c :: body))) =
              temp ++ paramText params reps (ppReadName (c :: body)) := ppFill_of_room (by omega)
          have hstep : ppSubst params reps (n + 1) temp (c :: body) =
              ppSubst params reps n (ppFill 512 temp (paramText params reps (ppReadName (c :: body))))
                ((c :: body).drop (ppReadName (c :: body)).length) := by
            rw [ppSubst, if_pos hfull, if_pos ha]
            rfl
          rw [hstep, hfill, ih, List.append_assoc]
          · simp only [List.length_drop, List.length_cons]
            omega
          · rw [List.length_append]
            omega
        | false =>
          have hnot : [c] ∉ params := fun h => by
            have := hp _ h
            rw [List.headD_cons, ha] at this
            cases this
          rw [ppCuts_other ha, List.flatMap_cons, paramText_of_notMem hnot] at hroom ⊢
          rw [List.length_append, List.length_singleton] at hroom
          rw [ppSubst, if_pos hfull, if_neg (by simp [ha]), ih (by omega), List.append_assoc]
          rw [List.length_append, List.length_singleton]
          omega
      · have hnil : (ppCuts (c :: body)).flatMap (paramText params reps) = [] := List.eq_nil_of_length_eq_zero (by omega)
        rw [ppSubst, if_neg hfull, hnil, List.append_nil]

/-- The cuts of a text none of which is a parameter stay. -/
theorem flatMap_paramText_of_notMem {text : List Byte} (h : ∀ w ∈ ppCuts text, w ∉ params) :
    (ppCuts text).flatMap (paramText params reps) = text := by
  have hmap : (ppCuts text).flatMap (paramText params reps) = (ppCuts text).flatMap id := by
    rw [List.flatMap_def, List.flatMap_def]
    congr 1
    exact List.map_congr_left fun w hw => paramText_of_notMem (h w hw)
  rw [hmap, List.flatMap_id, flatten_ppCuts]

end Substitution

/-- Lists that are no longer one by one are no longer joined, and as long joined only if they are one by one. -/
theorem length_flatMap_le {α : Type} {f g : α → List Byte} {l : List α} (h : ∀ a ∈ l, (f a).length ≤ (g a).length) :
    (l.flatMap f).length ≤ (l.flatMap g).length ∧
      ((l.flatMap f).length = (l.flatMap g).length → ∀ a ∈ l, (f a).length = (g a).length) := by
  induction l with
  | nil => simp
  | cons a l ih =>
    obtain ⟨ih₁, ih₂⟩ := ih fun b hb => h b (List.mem_cons_of_mem _ hb)
    have ha := h a List.mem_cons_self
    simp only [List.flatMap_cons, List.length_append, List.forall_mem_cons]
    exact ⟨by lia, fun heq => ⟨by lia, ih₂ (by lia)⟩⟩

section Body

variable (m : FuncMacro)

theorem FuncMacro.entry_alpha {p : List Byte} (h : p ∈ m.entry.params) : ppIsAlpha (p.headD 0#8) = true := by
  obtain ⟨p, -, rfl⟩ := List.mem_map.mp h
  exact p.property.1

theorem FuncMacro.entry_cut {p : List Byte} (h : p ∈ m.entry.params) : ppCuts p = [p] := by
  obtain ⟨p, hp, rfl⟩ := List.mem_map.mp h
  exact ppCuts_name p (m.params_le.2 p hp)

/-- Where the scan comes upon parameters only as identifiers, a piece is replaced as C replaces it. -/
theorem cReplace_eq {reps : List (List Byte)} {p : CPiece} (h : ∀ w ∈ ppCuts p.text, w ∈ m.entry.params → p = .name w) :
    (ppCuts p.text).flatMap (paramText m.entry.params reps) = cReplace m.entry.params reps p := by
  by_cases hp : ∃ w ∈ m.entry.params, p = .name w
  · obtain ⟨w, hw, rfl⟩ := hp
    simp only [CPiece.text, m.entry_cut hw, List.flatMap_singleton]
    rfl
  · have hnone : ∀ w ∈ ppCuts p.text, w ∉ m.entry.params := fun w hw hmem => hp ⟨w, hmem, h w hw hmem⟩
    rw [flatMap_paramText_of_notMem hnone]
    cases p with
    | name w =>
      have hw : w ∉ m.entry.params := fun hmem => hp ⟨w, hmem, rfl⟩
      exact (paramText_of_notMem hw).symm
    | number t | literal t | comment t | char c => rfl

/-- When every parameter stands for nothing, a piece leaves no more by the scan than by C's rule, and less where the scan comes
upon a parameter that is not an identifier. -/
theorem length_cReplace_nil (p : CPiece) :
    ((ppCuts p.text).flatMap (paramText m.entry.params [])).length ≤ (cReplace m.entry.params [] p).length ∧
      (((ppCuts p.text).flatMap (paramText m.entry.params [])).length = (cReplace m.entry.params [] p).length →
        ∀ w ∈ ppCuts p.text, w ∈ m.entry.params → p = .name w) := by
  have hgone : ∀ w ∈ m.entry.params, paramText m.entry.params [] w = [] := fun w hw => paramText_nil_of_mem hw
  by_cases hp : ∃ w ∈ m.entry.params, p = .name w
  · obtain ⟨w, hw, rfl⟩ := hp
    simp only [CPiece.text, m.entry_cut hw, List.flatMap_singleton, List.mem_singleton]
    refine ⟨le_rfl, fun _ w' hw' _ => by rw [hw']⟩
  · have hp' : cReplace m.entry.params [] p = p.text := by
      cases p with
      | name w => exact paramText_of_notMem fun hmem => hp ⟨w, hmem, rfl⟩
      | number t | literal t | comment t | char c => rfl
    have hcuts : (ppCuts p.text).flatMap id = p.text := by rw [List.flatMap_id, flatten_ppCuts]
    obtain ⟨hle, heq⟩ := length_flatMap_le (f := paramText m.entry.params []) (g := id) (l := ppCuts p.text) fun w _ =>
      length_paramText_nil _ w
    rw [hp']
    rw [hcuts] at hle heq
    refine ⟨hle, fun h w hw hmem => ?_⟩
    have hlen := heq h w hw
    rw [hgone w hmem] at hlen
    have halpha := m.entry_alpha hmem
    have hnil : w = [] := List.eq_nil_of_length_eq_zero hlen.symm
    rw [hnil] at halpha
    cases halpha

/-- The loop replaces what C replaces, whatever the arguments, if and only if the body is plain. -/
theorem ppSubst_eq_cSubst_iff :
    (∀ reps, (cSubst m.entry.params reps m.body).length < 512 →
      ppSubst m.entry.params reps m.body.length [] m.body = cSubst m.entry.params reps m.body) ↔ m.Plain := by
  obtain ⟨htext, hcuts⟩ := flatMap_cPiecesOf (le_refl m.body.length)
  have hpieces : ∀ reps, (ppCuts m.body).flatMap (paramText m.entry.params reps) =
      (cPieces false m.body).flatMap fun p => (ppCuts p.text).flatMap (paramText m.entry.params reps) := by
    intro reps
    rw [hcuts, List.flatMap_assoc]
    rfl
  constructor
  · intro h
    obtain ⟨hle, heq⟩ := length_flatMap_le fun p (_ : p ∈ cPieces false m.body) => (length_cReplace_nil m p).1
    have hshort : (cSubst m.entry.params [] m.body).length ≤ m.body.length := by
      refine (length_flatMap_le fun p _ => ?_).1.trans_eq (congrArg List.length htext)
      cases p with
      | name w => exact length_paramText_nil _ w
      | number t | literal t | comment t | char c => exact le_rfl
    have hbody := m.body_le
    have hsame := h [] (by omega)
    rw [ppSubst_eq (fun p => m.entry_alpha) le_rfl, hpieces] at hsame
    · intro p hp
      refine (length_cReplace_nil m p).2 (heq ?_ p hp)
      exact congrArg List.length hsame
    · rw [hpieces, List.length_nil, Nat.zero_add]
      refine hle.trans_lt ?_
      show (cSubst m.entry.params [] m.body).length < 512
      omega
  · intro h reps hfits
    have hsame : (ppCuts m.body).flatMap (paramText m.entry.params reps) = cSubst m.entry.params reps m.body := by
      rw [hpieces, cSubst, List.flatMap_def, List.flatMap_def]
      congr 1
      exact List.map_congr_left fun p hp => cReplace_eq m (h p hp)
    rw [ppSubst_eq (fun p => m.entry_alpha) le_rfl, hsame, List.nil_append]
    rw [hsame, List.length_nil, Nat.zero_add]
    exact hfits

end Body

/-! ## The arguments -/

/-- The text behind the parenthesis that closes `depthp` open ones. -/
def argEnd : Nat → List Byte → Option (List Byte)
  | _, [] => none
  | depthp, ch :: text =>
    if ch = Char.byte '(' then argEnd (depthp + 1) text
    else if ch = Char.byte ')' then if depthp = 1 then some text else argEnd (depthp - 1) text
    else argEnd depthp text

/-- Rows joined to finished ones, of which there are eight at most: the last is written over by the next. -/
def clipRows : List (List Byte) → List (List Byte) → List (List Byte)
  | done, [] => done
  | done, [r] => done ++ [r]
  | done, r :: rs => clipRows (if done.length + 1 < 8 then done ++ [r] else done) rs

/-- Arguments with a comma between each two, and what stands behind the last. -/
def joinArgs (last : List Byte) : List (List Byte) → List Byte
  | [] => last
  | [a] => a ++ last
  | a :: as => a ++ Char.byte ',' :: joinArgs last as

theorem joinArgs_cons_cons (last a b : List Byte) (as : List (List Byte)) :
    joinArgs last (a :: b :: as) = a ++ Char.byte ',' :: joinArgs last (b :: as) := rfl

theorem argTexts_ne_nil (d : Nat) (cur text : List Byte) : argTexts d cur text ≠ [] := by
  obtain ⟨a, ha, -⟩ := exists_argTexts d cur text
  exact List.ne_nil_of_mem ha

/-- What the loop gathers: the texts between the commas, as far as there are rows. -/
theorem ppCollect_eq_some {depthp : Nat} {done : List (List Byte)} {cur text : List Byte} {r : List (List Byte) × List Byte}
    (h : ppCollect depthp done cur text = some r) :
    r = (clipRows done (argTexts depthp cur text), (argEnd depthp text).getD []) := by
  induction text generalizing depthp done cur with
  | nil =>
    simp only [ppCollect] at h
    split at h
    · exact (Option.some.inj h).symm
    · cases h
  | cons ch text ih =>
    simp only [ppCollect, argTexts, argEnd] at h ⊢
    by_cases ho : ch = Char.byte '('
    · simp only [if_pos ho] at h ⊢
      split at h
      · exact ih h
      · cases h
    simp only [if_neg ho] at h ⊢
    by_cases hc : ch = Char.byte ')'
    · simp only [if_pos hc] at h ⊢
      by_cases hd : depthp = 1
      · simp only [if_pos hd] at h ⊢
        split at h
        · exact (Option.some.inj h).symm
        · cases h
      · simp only [if_neg hd] at h ⊢
        split at h
        · exact ih h
        · cases h
    simp only [if_neg hc] at h ⊢
    by_cases hm : ch = Char.byte ',' ∧ depthp = 1
    · simp only [if_pos hm] at h ⊢
      split at h
      · rw [ih h]
        obtain ⟨a, as, has⟩ := List.exists_cons_of_ne_nil (argTexts_ne_nil depthp [] text)
        rw [has]
        rfl
      · cases h
    · simp only [if_neg hm] at h ⊢
      split at h
      · exact ih h
      · cases h

/-- The texts joined again. -/
theorem joinArgs_argTexts (depthp : Nat) (cur text : List Byte) :
    cur ++ text = joinArgs (match argEnd depthp text with
      | some behind => Char.byte ')' :: behind
      | none => []) (argTexts depthp cur text) := by
  induction text generalizing depthp cur with
  | nil => simp [argEnd, argTexts, joinArgs]
  | cons ch text ih =>
    have hcur : cur ++ ch :: text = (cur ++ [ch]) ++ text := by simp
    simp only [argEnd, argTexts]
    by_cases ho : ch = Char.byte '('
    · simp only [if_pos ho]
      rw [hcur, ih]
    simp only [if_neg ho]
    by_cases hc : ch = Char.byte ')'
    · simp only [if_pos hc]
      by_cases hd : depthp = 1
      · simp only [if_pos hd, joinArgs, hc]
      · simp only [if_neg hd]
        rw [hcur, ih]
    simp only [if_neg hc]
    by_cases hm : ch = Char.byte ',' ∧ depthp = 1
    · simp only [if_pos hm]
      obtain ⟨a, as, has⟩ := List.exists_cons_of_ne_nil (argTexts_ne_nil depthp [] text)
      have := ih depthp []
      rw [List.nil_append, has] at this
      rw [has, joinArgs_cons_cons, ← this, hm.1]
    · simp only [if_neg hm]
      rw [hcur, ih]

/-- The texts are level when a parenthesis closes the last. -/
theorem level_argTexts {d : Nat} {text behind : List Byte} (h : argEnd (d + 1) text = some behind) (cur : List Byte) :
    ∃ x rs, argTexts (d + 1) cur text = (cur ++ x) :: rs ∧ Level d x ∧ ∀ r ∈ rs, Level 0 r := by
  induction text generalizing d cur with
  | nil => cases h
  | cons ch text ih =>
    -- The character goes to the first text.
    have go : ∀ {d'}, argEnd (d' + 1) text = some behind → (∀ x, Level d' x → Level d (ch :: x)) →
        argTexts (d + 1) cur (ch :: text) = argTexts (d' + 1) (cur ++ [ch]) text →
        ∃ x rs, argTexts (d + 1) cur (ch :: text) = (cur ++ x) :: rs ∧ Level d x ∧ ∀ r ∈ rs, Level 0 r := by
      intro d' hend hlevel htexts
      obtain ⟨x, rs, hx, hlx, hrs⟩ := ih hend (cur ++ [ch])
      exact ⟨ch :: x, rs, by rw [htexts, hx, List.append_assoc, List.singleton_append], hlevel x hlx, hrs⟩
    simp only [argEnd] at h
    by_cases ho : ch = Char.byte '('
    · rw [if_pos ho] at h
      exact go h (fun x hx => by simpa only [Level, if_pos ho] using hx) (by simp only [argTexts, if_pos ho])
    rw [if_neg ho] at h
    by_cases hc : ch = Char.byte ')'
    · rw [if_pos hc] at h
      cases d with
      | zero => exact ⟨[], [], by rw [argTexts, if_neg ho, if_pos hc, if_pos rfl, List.append_nil], rfl, by simp⟩
      | succ d =>
        rw [if_neg (by omega)] at h
        refine go h (fun x hx => ?_) (by rw [argTexts, if_neg ho, if_pos hc, if_neg (by omega)]; rfl)
        simp only [Level, if_neg ho, if_pos hc]
        exact ⟨by omega, hx⟩
    rw [if_neg hc] at h
    by_cases hm : ch = Char.byte ',' ∧ d + 1 = 1
    · obtain ⟨x, rs, hx, hlx, hrs⟩ := ih h []
      obtain rfl : d = 0 := by omega
      refine ⟨[], ([] ++ x) :: rs, by rw [argTexts, if_neg ho, if_neg hc, if_pos hm, hx, List.append_nil], rfl, ?_⟩
      simpa using ⟨hlx, hrs⟩
    · refine go h (fun x hx => ?_) (by simp only [argTexts, if_neg ho, if_neg hc, if_neg hm])
      simp only [Level, if_neg ho, if_neg hc]
      refine ⟨fun hcomma => Nat.pos_of_ne_zero fun hd => hm ⟨hcomma, by omega⟩, hx⟩

/-- A level text is passed as a whole. -/
theorem argTexts_level {d : Nat} {x : List Byte} (h : Level d x) (cur k : List Byte) :
    argTexts (d + 1) cur (x ++ k) = argTexts 1 (cur ++ x) k ∧ argEnd (d + 1) (x ++ k) = argEnd 1 k := by
  induction x generalizing d cur with
  | nil =>
    obtain rfl : d = 0 := h
    simp
  | cons ch x ih =>
    have hcur : cur ++ ch :: x = (cur ++ [ch]) ++ x := by simp
    rw [List.cons_append, argTexts, argEnd, hcur]
    simp only [Level] at h
    by_cases ho : ch = Char.byte '('
    · rw [if_pos ho] at h
      rw [if_pos ho, if_pos ho]
      exact ih h _
    rw [if_neg ho] at h
    rw [if_neg ho, if_neg ho]
    by_cases hc : ch = Char.byte ')'
    · rw [if_pos hc] at h
      obtain ⟨d, rfl⟩ : ∃ k, d = k + 1 := ⟨d - 1, by omega⟩
      rw [if_pos hc, if_pos hc, if_neg (by omega), if_neg (by omega)]
      exact ih h.2 _
    rw [if_neg hc] at h
    rw [if_neg hc, if_neg hc, if_neg (fun hm => by have := h.1 hm.1; omega)]
    exact ih h.2 _

/-- Level arguments are taken as they are. -/
theorem argTexts_joinArgs {args : List (List Byte)} {behind : List Byte} (h : ∀ a ∈ args, Level 0 a) (hne : args ≠ []) :
    argTexts 1 [] (joinArgs (Char.byte ')' :: behind) args) = args ∧
      argEnd 1 (joinArgs (Char.byte ')' :: behind) args) = some behind := by
  have hclose : ∀ cur, argTexts 1 cur (Char.byte ')' :: behind) = [cur] ∧ argEnd 1 (Char.byte ')' :: behind) = some behind := by
    intro cur
    constructor <;> rfl
  have hcomma : ∀ cur k, argTexts 1 cur (Char.byte ',' :: k) = cur :: argTexts 1 [] k ∧ argEnd 1 (Char.byte ',' :: k) = argEnd 1 k := by
    intro cur k
    constructor <;> rfl
  induction args with
  | nil => exact absurd rfl hne
  | cons a args ih =>
    have ha := h a List.mem_cons_self
    cases args with
    | nil =>
      obtain ⟨h₁, h₂⟩ := argTexts_level ha [] (Char.byte ')' :: behind)
      rw [joinArgs, h₁, h₂]
      exact hclose a
    | cons b args =>
      obtain ⟨ih₁, ih₂⟩ := ih (fun c hc => h c (List.mem_cons_of_mem _ hc)) (by simp)
      obtain ⟨h₁, h₂⟩ := argTexts_level ha [] (Char.byte ',' :: joinArgs (Char.byte ')' :: behind) (b :: args))
      rw [joinArgs_cons_cons, h₁, h₂, (hcomma _ _).1, (hcomma [] _).2, ih₁, ih₂]
      exact ⟨rfl, rfl⟩

/-- C's arguments joined again. -/
theorem joinArgs_cArgs {d : Nat} {cur : List Byte} {ps rest : List CPiece} {args : List (List Byte)}
    (h : cArgs d cur ps = some (args, rest)) :
    args ≠ [] ∧ cur ++ ps.flatMap CPiece.text = joinArgs (Char.byte ')' :: rest.flatMap CPiece.text) args := by
  induction ps generalizing d cur args with
  | nil => cases h
  | cons p ps ih =>
    have hcur : cur ++ (p :: ps).flatMap CPiece.text = (cur ++ p.text) ++ ps.flatMap CPiece.text := by simp
    simp only [cArgs] at h
    by_cases ho : p = .char (Char.byte '(')
    · rw [if_pos ho] at h
      rw [hcur]
      exact ih h
    rw [if_neg ho] at h
    by_cases hc : p = .char (Char.byte ')')
    · rw [if_pos hc] at h
      by_cases hd : d = 1
      · rw [if_pos hd] at h
        obtain ⟨rfl, rfl⟩ := Prod.mk.inj (Option.some.inj h)
        exact ⟨by simp, by rw [hc]; rfl⟩
      · rw [if_neg hd] at h
        rw [hcur]
        exact ih h
    rw [if_neg hc] at h
    by_cases hm : p = .char (Char.byte ',') ∧ d = 1
    · rw [if_pos hm] at h
      obtain ⟨⟨as, rest'⟩, hr, he⟩ := Option.map_eq_some_iff.mp h
      obtain ⟨rfl, rfl⟩ := Prod.mk.inj he
      obtain ⟨hne, htext⟩ := ih hr
      obtain ⟨b, bs, rfl⟩ := List.exists_cons_of_ne_nil hne
      rw [List.nil_append] at htext
      refine ⟨by simp, ?_⟩
      rw [joinArgs_cons_cons, ← htext, hm.1]
      rfl
    · rw [if_neg hm] at h
      rw [hcur]
      exact ih h

/-! ### Rows -/

theorem clipRows_of_le {done rows : List (List Byte)} (h : done.length + rows.length ≤ 8) : clipRows done rows = done ++ rows := by
  fun_induction clipRows done rows with
  | case1 done => simp
  | case2 done r => rfl
  | case3 done r rs hne ih =>
    have hpos : 0 < rs.length := List.length_pos_iff_ne_nil.mpr hne
    rw [List.length_cons] at h
    have hroom : done.length + 1 < 8 := by omega
    simp only [hroom, if_true] at ih ⊢
    rw [ih (by rw [List.length_append, List.length_singleton]; omega), List.append_assoc, List.singleton_append]

/-- The rows that are left, with those written over, are all of them. -/
theorem clipRows_perm (done rows : List (List Byte)) : ∃ dropped, (clipRows done rows ++ dropped).Perm (done ++ rows) := by
  fun_induction clipRows done rows with
  | case1 done => exact ⟨[], by simp⟩
  | case2 done r => exact ⟨[], by simp⟩
  | case3 done r rs hne ih =>
    obtain ⟨dropped, hperm⟩ := ih
    by_cases hroom : done.length + 1 < 8
    · simp only [hroom, if_true] at hperm ⊢
      exact ⟨dropped, by simpa using hperm⟩
    · simp only [hroom, if_false] at hperm ⊢
      exact ⟨r :: dropped, List.perm_middle.trans ((hperm.cons r).trans List.perm_middle.symm)⟩

/-- Something that adds up over texts adds up over joined ones. -/
theorem sum_joinArgs {μ : List Byte → Nat} (hμ : ∀ a b, μ (a ++ b) = μ a + μ b) (last : List Byte) {args : List (List Byte)}
    (hne : args ≠ []) : μ (joinArgs last args) + μ [Char.byte ','] = (args.map μ).sum + args.length * μ [Char.byte ','] + μ last := by
  induction args with
  | nil => exact absurd rfl hne
  | cons a args ih =>
    cases args with
    | nil =>
      rw [joinArgs, hμ]
      simp
      lia
    | cons b args =>
      have hcomma : ∀ k, μ (Char.byte ',' :: k) = μ [Char.byte ','] + μ k := fun k => hμ [Char.byte ','] k
      rw [joinArgs_cons_cons, hμ, hcomma, List.map_cons, List.sum_cons, List.length_cons, Nat.add_mul, Nat.one_mul]
      have := ih (by simp)
      lia

/-- The loop gathers C's arguments if and only if each of them is level. -/
theorem ppCollect_eq_args_iff (u : CUse) : ppCollect 1 [] [] u.text = some (u.args, u.behind) ↔ ∀ a ∈ u.args, Level 0 a := by
  obtain ⟨hne, htext⟩ := joinArgs_cArgs u.takes
  have hflat : (cPieces false u.text).flatMap CPiece.text = u.text := (flatMap_cPiecesOf (le_refl u.text.length)).1
  rw [hflat, List.nil_append] at htext
  have hbehind : joinArgs (Char.byte ')' :: u.rest.flatMap CPiece.text) u.args = joinArgs (Char.byte ')' :: u.behind) u.args := rfl
  rw [hbehind] at htext
  constructor
  · intro h
    obtain ⟨hrows, hrest⟩ := Prod.mk.inj (ppCollect_eq_some h)
    obtain ⟨dropped, hperm⟩ := clipRows_perm [] (argTexts 1 [] u.text)
    rw [← hrows, List.nil_append] at hperm
    -- Lengths and closing parentheses add up over the arguments of either reading.
    have hsum : ∀ μ : List Byte → Nat, (∀ a b, μ (a ++ b) = μ a + μ b) →
        μ u.text + μ [Char.byte ','] = (u.args.map μ).sum + u.args.length * μ [Char.byte ','] + μ (Char.byte ')' :: u.behind) ∧
        μ u.text + μ [Char.byte ','] = ((argTexts 1 [] u.text).map μ).sum + (argTexts 1 [] u.text).length * μ [Char.byte ','] +
          μ (match argEnd 1 u.text with
            | some behind => Char.byte ')' :: behind
            | none => []) ∧
        (u.args.map μ).sum + (dropped.map μ).sum = ((argTexts 1 [] u.text).map μ).sum := by
      intro μ hμ
      refine ⟨?_, ?_, ?_⟩
      · conv_lhs => rw [htext]
        exact sum_joinArgs hμ _ hne
      · have hjoin := joinArgs_argTexts 1 [] u.text
        rw [List.nil_append] at hjoin
        conv_lhs => rw [hjoin]
        exact sum_joinArgs hμ _ (argTexts_ne_nil _ _ _)
      · have := (hperm.map μ).sum_eq
        rwa [List.map_append, List.sum_append] at this
    have hcount : u.args.length + dropped.length = (argTexts 1 [] u.text).length := by
      have := hperm.length_eq
      rwa [List.length_append] at this
    obtain ⟨hl₁, hl₂, hl₃⟩ := hsum List.length (fun a b => List.length_append)
    cases hend : argEnd 1 u.text with
    | some behind =>
      rw [hend] at hrest
      obtain rfl : u.behind = behind := hrest
      simp only [hend, List.length_singleton, Nat.mul_one] at hl₁ hl₂
      have hargs := u.args_le.1
      have hsame : u.args = argTexts 1 [] u.text := by
        rw [hrows, clipRows_of_le (by simp only [List.length_nil]; lia), List.nil_append]
      obtain ⟨x, rs, hx, hlx, hrs⟩ := level_argTexts hend []
      rw [hsame, hx, List.nil_append]
      simpa using ⟨hlx, hrs⟩
    | none =>
      -- Were the last text left open, one empty row would be written over, and a parenthesis be missing.
      rw [hend] at hrest
      have hnil : u.behind = [] := hrest
      obtain ⟨hc₁, hc₂, hc₃⟩ := hsum (List.count (Char.byte ')')) (fun a b => List.count_append)
      have hdropped : (dropped.map (List.count (Char.byte ')'))).sum ≤ (dropped.map List.length).sum :=
        List.sum_le_sum fun _ _ => List.count_le_length
      have hpar : List.count (Char.byte ')') [Char.byte ')'] = 1 ∧ List.count (Char.byte ')') [Char.byte ','] = 0 := by decide
      simp only [hend, hnil, List.length_singleton, List.length_nil, Nat.mul_one, hpar.1, hpar.2, List.count_nil] at hl₁ hl₂ hc₁ hc₂
      have hsum0 : dropped.length = 0 → (dropped.map List.length).sum = 0 := fun h => by
        simp [List.eq_nil_of_length_eq_zero h]
      lia
  · intro h
    obtain ⟨htexts, hend⟩ : argTexts 1 [] u.text = u.args ∧ argEnd 1 u.text = some u.behind := by
      rw [htext]
      exact argTexts_joinArgs h hne
    have hsome : (ppCollect 1 [] [] u.text).isSome = true := by
      rw [ppCollect_isSome_iff, htexts]
      exact u.args_le.2
    obtain ⟨r, hr⟩ := Option.isSome_iff_exists.mp hsome
    rw [hr, ppCollect_eq_some hr, htexts, hend, clipRows_of_le (by simpa using u.args_le.1)]
    rfl

/-! ## The use -/

theorem head_append {w : List Byte} (h : ppIsAlpha (w.headD 0#8) = true) (text : List Byte) :
    ppIsAlpha ((w ++ text).headD 0#8) = true := by
  cases w with
  | nil => cases h
  | cons c w => exact h

/-- The turn at the name of a function-like macro: a use is one whose parenthesis stands right behind it. -/
theorem turn_at_use {m : FuncMacro} {u : CUse} (hname : u.name = m.name) {file : List Byte} {line : Nat} {pp : Preproc}
    {sub : List Byte → Nat → Option (List Byte)} {outMax : Nat} {out : List Byte}
    (hfind : ppFindMacro pp m.name.val = some m.entry) :
    ppExpandTurn file line pp sub outMax ⟨out, .code, u.source⟩ =
      if (u.sp.val ++ Char.byte '(' :: u.text).head? = some (Char.byte '(') then
        (ppCall sub m.entry (u.sp.val ++ Char.byte '(' :: u.text).tail).map fun r => .more ⟨ppFill outMax out r.1, .code, r.2⟩
      else some (.more ⟨ppFill outMax out m.name.val, .code, u.sp.val ++ Char.byte '(' :: u.text⟩) := by
  have hend : TokenEnd (u.sp.val ++ Char.byte '(' :: u.text) := TokenEnd.spaces u.sp rfl
  have hread : ppReadName u.source = m.name.val := by
    rw [CUse.source, hname]
    exact ppReadName_append m.name.property.2 m.name_le hend
  have hafter : u.source.drop m.name.val.length = u.sp.val ++ Char.byte '(' :: u.text := by
    rw [CUse.source, hname, List.drop_left]
  have halpha : ppIsAlpha (u.source.headD 0#8) = true := by
    rw [CUse.source, hname]
    exact head_append m.name.property.1 _
  rw [ppExpandTurn_alpha (s := ⟨out, .code, u.source⟩) rfl halpha]
  simp only [ppNameTurn, hread, hafter, if_neg m.name_own.1, if_neg m.name_own.2, hfind]
  rfl

/-- The expander treats the use of a function-like macro as C does if and only if the parenthesis stands right behind the name,
every argument is level, and the scan of the body comes upon a parameter only where it is an identifier. -/
theorem follows_c_iff_plain (m : FuncMacro) (u : CUse) (hname : u.name = m.name) : FollowsC m u ↔ u.Plain ∧ m.Plain := by
  constructor
  · rintro ⟨htaken, hargs, hbody⟩
    refine ⟨⟨?_, (ppCollect_eq_args_iff u).mp hargs⟩, (ppSubst_eq_cSubst_iff m).mp hbody⟩
    have hfind : ppFindMacro [m.entry] m.name.val = some m.entry := by simp [ppFindMacro, FuncMacro.entry]
    have hturn := htaken [] 1 [m.entry] 0 1 [] hfind
    rw [turn_at_use hname hfind] at hturn
    by_contra hsp
    obtain ⟨c, sp, hcons⟩ := List.exists_cons_of_ne_nil hsp
    have hspace : ppIsSpace c = true := u.sp.property c (hcons ▸ List.mem_cons_self)
    have hparen : c ≠ Char.byte '(' := fun h => by
      rw [h] at hspace
      revert hspace
      decide
    rw [if_neg (by simp [hcons, hparen])] at hturn
    obtain ⟨r, hr, he⟩ := Option.map_eq_some_iff.mp hturn.symm
    have hlen := ppCall_behind hr
    have hrest := congrArg Expansion.rest (ExpandTurn.more.inj he)
    simp only at hrest
    rw [hrest, List.length_append, List.length_cons] at hlen
    omega
  · rintro ⟨⟨hsp, hlevel⟩, hplain⟩
    refine ⟨fun file line pp depth outMax out hfind => ?_, (ppCollect_eq_args_iff u).mpr hlevel, (ppSubst_eq_cSubst_iff m).mpr hplain⟩
    rw [turn_at_use hname hfind, hsp, List.nil_append, if_pos List.head?_cons, List.tail_cons]

/-- What a use comes to when the expander treats it as C does: the body with its parameters replaced by the expanded arguments,
expanded in its turn. -/
theorem FollowsC.turn {m : FuncMacro} {u : CUse} (h : FollowsC m u) {file : List Byte} {line : Nat} {pp : Preproc} {depth outMax : Nat}
    {out e : List Byte} {reps : List (List Byte)} (hfind : ppFindMacro pp m.name.val = some m.entry)
    (hreps : u.args.mapM (fun a => ppExpandText file line pp depth a 256) = some reps)
    (hfits : (cSubst m.entry.params reps m.body).length < 512)
    (he : ppExpandText file line pp depth (cSubst m.entry.params reps m.body) 512 = some e) (hroom : out.length + e.length < outMax) :
    ppExpandTurn file line pp (ppExpandText file line pp depth) outMax ⟨out, .code, u.source⟩ =
      some (.more ⟨out ++ e, .code, u.behind⟩) := by
  have hcall : ppCall (ppExpandText file line pp depth) m.entry u.text = some (e, u.behind) := by
    have hbody : ppSubst m.entry.params reps m.entry.body.length [] m.entry.body = cSubst m.entry.params reps m.body := h.body reps hfits
    simp [ppCall, h.args, hreps, hbody, he]
  rw [h.taken file line pp depth outMax out hfind, hcall, Option.map_some, ppFill_of_room hroom]

/-! ## The definition -/

/-- The parameters of a definition, each with the spaces behind it and those behind its comma. -/
def paramsText : List (CName × Spaces × Spaces) → List Byte
  | [] => []
  | [(p, sp, _)] => p.val ++ sp.val
  | (p, sp, sp1) :: ps => p.val ++ (sp.val ++ Char.byte ',' :: (sp1.val ++ paramsText ps))

theorem paramsText_single (p : CName × Spaces × Spaces) : paramsText [p] = p.1.val ++ p.2.1.val := rfl

theorem paramsText_cons (p p' : CName × Spaces × Spaces) (ps : List (CName × Spaces × Spaces)) :
    paramsText (p :: p' :: ps) = p.1.val ++ (p.2.1.val ++ Char.byte ',' :: (p.2.2.val ++ paramsText (p' :: ps))) := rfl

/-- A name at the start of a text is neither a space nor one of the characters that end a list. -/
theorem head_of_alpha {text : List Byte} (h : ppIsAlpha (text.headD 0#8) = true) :
    ppExprSkip text = text ∧ text ≠ [] ∧ text.head? ≠ some (Char.byte ')') := by
  have hall : ∀ c : Byte, ppIsAlpha c = true → ppIsSpace c = false ∧ c ≠ Char.byte ')' := by decide
  cases text with
  | nil => cases h
  | cons c text =>
    obtain ⟨hspace, hne⟩ := hall c h
    exact ⟨ppExprSkip_of_head hspace, by simp, by simpa using hne⟩

theorem paramsText_alpha {p : CName × Spaces × Spaces} (ps : List (CName × Spaces × Spaces)) (k : List Byte) :
    ppIsAlpha ((paramsText (p :: ps) ++ k).headD 0#8) = true := by
  have h := p.1.property.1
  cases ps with
  | nil => exact head_append (head_append h _) k
  | cons p' ps => exact head_append (head_append h _) k

/-- The parameters are read to the parenthesis that closes their list. -/
theorem ppReadParams_text {ps : List (CName × Spaces × Spaces)} {read : List (List Byte)} {n : Nat} (hn : ps.length < n)
    (h31 : ∀ p ∈ ps, p.1.val.length ≤ 31) (h8 : read.length + ps.length ≤ 8) (k : List Byte) :
    ppReadParams n read (paramsText ps ++ Char.byte ')' :: k) = (read ++ ps.map (fun p => p.1.val), Char.byte ')' :: k) := by
  induction ps generalizing read n with
  | nil =>
    obtain ⟨n, rfl⟩ : ∃ j, n = j + 1 := ⟨n - 1, by omega⟩
    simp [ppReadParams, paramsText]
  | cons p ps ih =>
    obtain ⟨n, rfl⟩ : ∃ j, n = j + 1 := ⟨n - 1, by omega⟩
    rw [List.length_cons] at hn h8
    obtain ⟨hskip, hne, hparen⟩ := head_of_alpha (paramsText_alpha (p := p) ps (Char.byte ')' :: k))
    have hp := h31 p List.mem_cons_self
    -- Behind the name and its spaces stands a comma or the parenthesis.
    have hname : ∀ rest, TokenEnd rest → paramsText (p :: ps) ++ Char.byte ')' :: k = p.1.val ++ rest →
        ppReadName (paramsText (p :: ps) ++ Char.byte ')' :: k) = p.1.val ∧
          (paramsText (p :: ps) ++ Char.byte ')' :: k).drop p.1.val.length = rest := by
      intro rest hend heq
      rw [heq, List.drop_left]
      exact ⟨ppReadName_append p.1.property.2 hp hend, rfl⟩
    rw [ppReadParams, if_neg fun h => h.elim hne hparen]
    have hroom : read.length < 8 := by omega
    cases ps with
    | nil =>
      obtain ⟨hread, hrest⟩ := hname (p.2.1.val ++ Char.byte ')' :: k) (TokenEnd.spaces p.2.1 rfl) (by simp [paramsText_single])
      simp only [hread, hrest, ppExprSkip_append, if_pos hroom]
      rw [ppExprSkip_of_head (by rfl), if_neg (by simp; decide)]
      rfl
    | cons p' ps =>
      obtain ⟨hread, hrest⟩ := hname (p.2.1.val ++ Char.byte ',' :: (p.2.2.val ++ (paramsText (p' :: ps) ++ Char.byte ')' :: k)))
        (TokenEnd.spaces p.2.1 rfl) (by simp [paramsText_cons])
      have hskip' := (head_of_alpha (paramsText_alpha (p := p') ps (Char.byte ')' :: k))).1
      simp only [hread, hrest, ppExprSkip_append, if_pos hroom]
      rw [ppExprSkip_of_head (by rfl), if_pos List.head?_cons, List.tail_cons, ppExprSkip_append, hskip',
        ih (by simpa using hn) (fun q hq => h31 q (List.mem_cons_of_mem _ hq)) (by simp at h8 ⊢; omega)]
      simp

theorem length_le_paramsText (ps : List (CName × Spaces × Spaces)) : ps.length ≤ (paramsText ps).length := by
  induction ps with
  | nil => exact le_rfl
  | cons p ps ih =>
    have hpos : 0 < p.1.val.length := by
      obtain ⟨w, ha, -⟩ := p.1
      cases w with
      | nil => cases ha
      | cons c w => simp
    cases ps with
    | nil =>
      simp only [paramsText_single, List.length_append, List.length_cons, List.length_nil]
      omega
    | cons p' ps =>
      simp only [paramsText_cons, List.length_append, List.length_cons] at ih ⊢
      omega

/-- A function-like macro is in the table as its definition has it. -/
theorem ppReadMacro_definition (m : FuncMacro) (ps : List (CName × Spaces × Spaces)) (hps : ps.map (fun p => p.1) = m.params)
    (sp sp1 : Spaces) (hbody : ppIsSpace (m.body.headD 0#8) = false) :
    ppReadMacro (m.name.val ++ Char.byte '(' :: (sp.val ++ (paramsText ps ++ Char.byte ')' :: (sp1.val ++ m.body)))) = m.entry := by
  have hread := ppReadName_append (p := Char.byte '(' :: (sp.val ++ (paramsText ps ++ Char.byte ')' :: (sp1.val ++ m.body))))
    m.name.property.2 m.name_le rfl
  have hskip : ppExprSkip (paramsText ps ++ Char.byte ')' :: (sp1.val ++ m.body)) =
      paramsText ps ++ Char.byte ')' :: (sp1.val ++ m.body) := by
    cases ps with
    | nil => exact ppExprSkip_of_head rfl
    | cons p ps => exact (head_of_alpha (paramsText_alpha ps _)).1
  have hlen : ps.length = m.params.length := by rw [← hps, List.length_map]
  have hparams : ∀ n, ps.length < n → ppReadParams n [] (paramsText ps ++ Char.byte ')' :: (sp1.val ++ m.body)) =
      ([] ++ ps.map (fun p => p.1.val), Char.byte ')' :: (sp1.val ++ m.body)) := fun n hn =>
    ppReadParams_text hn (fun p hp => m.params_le.2 p.1 (hps ▸ List.mem_map_of_mem hp))
      (by have := m.params_le.1; rw [List.length_nil]; omega) _
  have hnames : ps.map (fun p => p.1.val) = m.entry.params := by
    show _ = m.params.map _
    rw [← hps]
    exact List.map_map.symm
  have hfuel : ps.length < (Char.byte '(' :: (sp.val ++ (paramsText ps ++ Char.byte ')' :: (sp1.val ++ m.body)))).length := by
    have := length_le_paramsText ps
    simp only [List.length_cons, List.length_append]
    omega
  simp only [ppReadMacro, hread, List.drop_left, List.head?_cons, if_true, List.tail_cons, ppExprSkip_append, hskip,
    hparams _ hfuel, ppExprSkip_of_head hbody, List.take_of_length_le m.body_le, List.nil_append, hnames]
  rfl

/-- The macro that stands for its argument. -/
def idMacro : FuncMacro where
  name := ⟨asciiBytes "F", by decide, by decide⟩
  params := [⟨asciiBytes "x", by decide, by decide⟩]
  body := asciiBytes "x"
  name_le := by decide
  name_own := by decide
  params_le := by decide
  body_le := by decide

/-- Its use with one argument. -/
def idUse : CUse where
  name := ⟨asciiBytes "F", by decide, by decide⟩
  sp := Spaces.none
  text := asciiBytes "y)"
  args := [asciiBytes "y"]
  rest := []
  takes := by decide
  args_le := by decide

/-- A plain use of a plain macro is treated as C treats it. -/
theorem follows_c_iff_plain_id : FollowsC idMacro idUse := by
  refine (follows_c_iff_plain idMacro idUse rfl).mpr ⟨⟨rfl, ?_⟩, ?_⟩
  · simp only [idUse, List.mem_singleton, forall_eq]
    exact ⟨nofun, rfl⟩
  · unfold FuncMacro.Plain
    decide

/-- The macro whose body is its parameter in a string literal. -/
def quotedMacro : FuncMacro := { idMacro with body := asciiBytes "\"x\"", body_le := by decide }

/-- Not every use is treated as C treats it: a parameter is replaced in a string literal of the body too. -/
theorem follows_c_false : ¬∀ (m : FuncMacro) (u : CUse), u.name = m.name → FollowsC m u := by
  intro h
  have hbody := (h quotedMacro idUse rfl).body [asciiBytes "y"] (by decide)
  revert hbody
  decide

end MiniOs32