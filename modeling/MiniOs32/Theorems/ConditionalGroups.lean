import MiniOs32.Cc.Groups
import MiniOs32.Lemmas.Process

/-!
# Conditional inclusion selects C's groups

A run of `pp_process` over the lines of a tree keeps two stacks and looks at each line by itself; C's reading of the same tree
selects whole groups. Inside a selected group every open conditional is active, and the rest of a section is passed over as soon
as one of its groups was taken or a level outside is inactive. Both end in the same state, with the same lines emitted and
executed, when the keywords are spaced, the names are short and the table has room.
-/

namespace MiniOs32

/-! ## The run with a record -/

/-- The directives that do something when they are active. -/
def PpDirective.acts (env : PpEnv) : PpDirective → Bool
  | .incl q =>
    match ppIncludeName q with
    | none => false
    | some (_, name) => !(env.skipStdio && decide (name = asciiBytes "stdio.c"))
  | .define _ => true
  | .undef _ => true
  | _ => false

/-- Whether a line is emitted or executed. -/
def ppPerforms (env : PpEnv) (s : PpState) (linebuf : List Byte) : Bool :=
  let q := ppExprSkip linebuf
  ppActive s.conds && if q.head? = some (Char.byte '#') then (ppDirective (ppExprSkip q.tail)).acts env else true

section

variable (env : PpEnv) (filename : List Byte) (outMax : Nat) (deepest : Bool)
  (sub : Preproc → List Byte → List Byte → Nat → Except PpFail (Preproc × List Byte))

/-- What a line does, with the numbers of the lines emitted or executed so far. -/
def ppTrace (t : PpState × List Nat) (linebuf : List Byte) : Except PpFail (PpState × List Nat) :=
  (ppLine env filename outMax deepest sub t.1 linebuf).map fun s =>
    (s, if ppPerforms env t.1 linebuf then t.2 ++ [t.1.line] else t.2)

/-! ## The condition -/

/-- A space stands behind `#if`. -/
def CondHead.Spaced : CondHead → Prop
  | .ifdef _ _ => True
  | .ifndef _ _ => True
  | .cond _ arg => ppIsSpace (arg.val.headD 0#8) = true

mutual

/-- A space stands behind every `#if` and `#elif` of a group. -/
def PpGroup.Spaced : PpGroup → Prop
  | .nil => True
  | .text _ _ rest => rest.Spaced
  | .control _ rest => rest.Spaced
  | .sect head group tail rest => head.Spaced ∧ group.Spaced ∧ tail.Spaced ∧ rest.Spaced

/-- The same for the rest of a section. -/
def PpTail.Spaced : PpTail → Prop
  | .endif _ _ => True
  | .els _ _ group _ _ => group.Spaced
  | .elif _ arg group tail => ppIsSpace (arg.val.headD 0#8) = true ∧ group.Spaced ∧ tail.Spaced

end

/-- The name of an executed control line fits `name`, a new macro finds room in the table, and a space and then a file stand
behind `#include`, other than the one that is skipped. -/
def Control.Fits (v : CView) : Control → Prop
  | .define _ a => a.id.val.length ≤ 31 ∧ (v.defined a.id.val = true ∨ v.s.pp.length < 256)
  | .undef _ a => a.id.val.length ≤ 31
  | .incl _ arg => ppIsSpace (arg.val.headD 0#8) = true ∧ (PpDirective.incl arg.val).acts env = true

/-- The name of an evaluated `#ifdef` or `#ifndef` fits. -/
def CondHead.Fits : CondHead → Prop
  | .ifdef _ a => a.id.val.length ≤ 31
  | .ifndef _ a => a.id.val.length ≤ 31
  | .cond _ _ => True

mutual

/-- Every line of a selected group fits where C comes to it. -/
def PpGroup.Fits : PpGroup → CView → Prop
  | .nil, _ => True
  | .text line _ rest, v => ∀ v', v.emit filename outMax line = .ok v' → rest.Fits v'
  | .control c rest, v => c.Fits env v ∧ ∀ v', v.exec env filename outMax deepest sub c = .ok v' → rest.Fits v'
  | .sect head group tail rest, v =>
    head.Fits ∧
      if head.holds env v then
        group.Fits (v.pass 1) ∧
          ∀ v', group.run env filename outMax deepest sub (v.pass 1) = .ok v' → rest.Fits (v'.pass tail.lines.length)
      else
        tail.Fits (v.pass (1 + group.lines.length)) ∧
          ∀ v', tail.run env filename outMax deepest sub (v.pass (1 + group.lines.length)) = .ok v' → rest.Fits v'

/-- The same for the rest of a section. -/
def PpTail.Fits : PpTail → CView → Prop
  | .endif _ _, _ => True
  | .els _ _ group _ _, v => group.Fits (v.pass 1)
  | .elif _ arg group tail, v =>
    if env.evalIf v.s.pp arg.val then group.Fits (v.pass 1) else tail.Fits (v.pass (1 + group.lines.length))

end

end

/-! ## A line with a directive -/

section

variable {env : PpEnv} {filename : List Byte} {outMax : Nat} {deepest : Bool}
  {sub : Preproc → List Byte → List Byte → Nat → Except PpFail (Preproc × List Byte)} {s : PpState} {done : List Nat}

theorem NameArg.head_space (a : NameArg) : ppIsSpace (a.text.headD 0#8) = true := by
  obtain ⟨c, sp, hsp⟩ := List.exists_cons_of_ne_nil a.sp_ne
  have hc := a.sp.property c (by rw [hsp]; exact List.mem_cons_self)
  simpa only [NameArg.text, hsp, List.cons_append, List.headD_cons] using hc

theorem NameArg.skip (a : NameArg) : ppExprSkip a.text = a.id.val ++ a.rest := by
  have hnot : ∀ c : Byte, ppIsAlpha c = true → ppIsSpace c = false := by decide
  rw [NameArg.text, ppExprSkip_append]
  apply ppExprSkip_of_head
  obtain ⟨halpha, -⟩ := a.id.property
  cases hid : a.id.val with
  | nil =>
    rw [hid] at halpha
    cases halpha
  | cons c id =>
    rw [hid] at halpha
    exact hnot c halpha

theorem NameArg.readName {a : NameArg} (h : a.id.val.length ≤ 31) : ppReadName (ppExprSkip a.text) = a.id.val := by
  rw [a.skip]
  exact ppReadName_append a.id.property.2 h a.rest_end

/-- A line with a directive is taken apart into the keyword and what stands behind it. -/
theorem Hash.directive (h : Hash) {word : String} {arg : List Byte} (hw : ppIsSpace ((asciiBytes word ++ arg).headD 0#8) = false) :
    (ppExprSkip (h.line word arg)).head? = some (Char.byte '#') ∧
      ppExprSkip (ppExprSkip (h.line word arg)).tail = asciiBytes word ++ arg := by
  have hskip : ppExprSkip (h.line word arg) = Char.byte '#' :: (h.mid.val ++ (asciiBytes word ++ arg)) := by
    rw [Hash.line, ppExprSkip_append]
    rfl
  rw [hskip, List.tail_cons, ppExprSkip_append, ppExprSkip_of_head hw]
  exact ⟨rfl, rfl⟩

theorem ppTrace_hash (h : Hash) {word : String} {arg : List Byte} {d : PpDirective}
    (hw : ppIsSpace ((asciiBytes word ++ arg).headD 0#8) = false) (hd : ppDirective (asciiBytes word ++ arg) = d) :
    ppTrace env filename outMax deepest sub (s, done) (h.line word arg) =
      (ppRunDirective env filename outMax deepest sub s d).map fun s' =>
        (s', if ppActive s.conds && d.acts env then done ++ [s.line] else done) := by
  obtain ⟨hhash, hrest⟩ := h.directive hw
  simp only [ppTrace, ppLine, ppPerforms, hhash, hrest, hd, if_true]

/-- The value that opens a section. -/
def CondHead.value (env : PpEnv) (pp : Preproc) : CondHead → Bool
  | .ifdef _ a => (ppFindMacro pp (ppReadName (ppExprSkip a.text))).isSome
  | .ifndef _ a => (ppFindMacro pp (ppReadName (ppExprSkip a.text))).isNone
  | .cond _ arg => env.evalIf pp arg.val

theorem ppTrace_head {head : CondHead} (hsp : head.Spaced) (hroom : s.conds.length < 16) :
    ppTrace env filename outMax deepest sub (s, done) head.line =
      .ok ({ s with conds := ⟨ppActive s.conds && head.value env s.pp, head.value env s.pp⟩ :: s.conds, line := s.line + 1 }, done) := by
  cases head with
  | ifdef h a =>
    rw [CondHead.line, ppTrace_hash h rfl (ppDirective_ifdef a.head_space), ppRunDirective, PpState.open, if_pos hroom]
    simp [PpDirective.acts, CondHead.value, Except.map]
  | ifndef h a =>
    rw [CondHead.line, ppTrace_hash h rfl (ppDirective_ifndef a.head_space), ppRunDirective, PpState.open, if_pos hroom]
    simp [PpDirective.acts, CondHead.value, Except.map]
  | cond h arg =>
    rw [CondHead.line, ppTrace_hash h rfl (ppDirective_cond hsp), ppRunDirective, PpState.open, if_pos hroom]
    simp [PpDirective.acts, CondHead.value, Except.map]

theorem ppTrace_endif (h : Hash) (arg : List Byte) :
    ppTrace env filename outMax deepest sub (s, done) (h.line "endif" arg) =
      .ok ({ s with conds := s.conds.tail, line := s.line + 1 }, done) := by
  rw [ppTrace_hash h rfl (ppDirective_endif arg), ppRunDirective]
  simp [PpDirective.acts, Except.map]

/-- The entry of a section at its next group, whose condition has the value `val`. -/
def PpCond.next (c : PpCond) (parent val : Bool) : PpCond := if c.taken then { c with active := false } else ⟨parent && val, val⟩

theorem ppTrace_els (h : Hash) (arg : List Byte) {c : PpCond} {cs : List PpCond} (hs : s.conds = c :: cs) :
    ppTrace env filename outMax deepest sub (s, done) (h.line "else" arg) =
      .ok ({ s with conds := c.next (ppActive cs) true :: cs, line := s.line + 1 }, done) := by
  rw [ppTrace_hash h rfl (ppDirective_els arg), ppRunDirective, hs]
  simp [PpDirective.acts, Except.map, PpCond.next]

theorem ppTrace_elif (h : Hash) {arg : List Byte} (hsp : ppIsSpace (arg.headD 0#8) = true) {c : PpCond} {cs : List PpCond}
    (hs : s.conds = c :: cs) :
    ppTrace env filename outMax deepest sub (s, done) (h.line "elif" arg) =
      .ok ({ s with conds := c.next (ppActive cs) (env.evalIf s.pp arg) :: cs, line := s.line + 1 }, done) := by
  rw [ppTrace_hash h rfl (ppDirective_elif hsp), ppRunDirective, hs]
  simp [PpDirective.acts, Except.map, PpCond.next]

/-! ## Lines that are passed over -/

theorem ppActive_cons (c : PpCond) (cs : List PpCond) : ppActive (c :: cs) = (c.active && ppActive cs) := rfl

/-- A group behind a taken one, or inside an inactive one, is inactive, and so is the next. -/
theorem PpCond.next_off {c : PpCond} {cs : List PpCond} (h : c.taken = true ∨ ppActive cs = false) (val : Bool) :
    ppActive (c.next (ppActive cs) val :: cs) = false ∧ ((c.next (ppActive cs) val).taken = true ∨ ppActive cs = false) := by
  rcases h with h | h
  · rw [ppActive_cons, PpCond.next, if_pos h]
    exact ⟨rfl, .inl h⟩
  · rw [ppActive_cons, h, Bool.and_false]
    exact ⟨rfl, .inr rfl⟩

theorem ppTrace_text_inactive {line : List Byte} (ht : (ppExprSkip line).head? ≠ some (Char.byte '#')) (hs : ppActive s.conds = false) :
    ppTrace env filename outMax deepest sub (s, done) line = .ok ({ s with line := s.line + 1 }, done) := by
  simp [ppTrace, ppLine, ppPerforms, ht, hs, Except.map]

theorem ppTrace_control_inactive (c : Control) (hs : ppActive s.conds = false) :
    ppTrace env filename outMax deepest sub (s, done) c.line = .ok ({ s with line := s.line + 1 }, done) := by
  cases c with
  | define h a =>
    rw [Control.line, ppTrace_hash h rfl (ppDirective_define a.head_space), ppRunDirective]
    simp [hs, Except.map]
  | undef h a =>
    rw [Control.line, ppTrace_hash h rfl (ppDirective_undef a.head_space), ppRunDirective]
    simp [hs, Except.map]
  | incl h arg =>
    rw [Control.line]
    by_cases hsp : ppIsSpace (arg.val.headD 0#8) = true
    · rw [ppTrace_hash h rfl (ppDirective_incl hsp), ppRunDirective]
      simp [hs, Except.map]
    · rw [ppTrace_hash h rfl (ppDirective_incl_unspaced (by simpa using hsp)), ppRunDirective]
      simp [hs, Except.map]

variable (env filename outMax deepest sub)

mutual

/-- No line of a group is emitted or executed while a conditional outside is inactive. -/
theorem skip_group (g : PpGroup) (hsp : g.Spaced) (s : PpState) (done : List Nat) (hs : ppActive s.conds = false)
    (hd : g.depth + s.conds.length ≤ 16) :
    g.lines.foldlM (ppTrace env filename outMax deepest sub) (s, done) = .ok ({ s with line := s.line + g.lines.length }, done) := by
  cases g with
  | nil => rfl
  | text line ht rest =>
    rw [PpGroup.lines, List.foldlM_cons, ppTrace_text_inactive ht hs]
    have hrest := skip_group rest hsp { s with line := s.line + 1 } done hs hd
    rw [show s.line + (line :: rest.lines).length = s.line + 1 + rest.lines.length by rw [List.length_cons]; lia]
    exact hrest
  | control c rest =>
    rw [PpGroup.lines, List.foldlM_cons, ppTrace_control_inactive c hs]
    have hrest := skip_group rest hsp { s with line := s.line + 1 } done hs hd
    rw [show s.line + (c.line :: rest.lines).length = s.line + 1 + rest.lines.length by rw [List.length_cons]; lia]
    exact hrest
  | sect head group tail rest =>
    obtain ⟨hhead, hgroup, htail, hrest⟩ := hsp
    rw [PpGroup.depth] at hd
    rw [PpGroup.lines, List.foldlM_cons, ppTrace_head hhead (by lia), hs, Bool.false_and]
    have h₁ := skip_group group hgroup { s with conds := ⟨false, head.value env s.pp⟩ :: s.conds, line := s.line + 1 } done
      (by rw [ppActive_cons, Bool.false_and]) (by rw [List.length_cons]; lia)
    have h₂ := skip_tail tail htail { s with line := s.line + 1 + group.lines.length } done ⟨false, head.value env s.pp⟩ (.inr hs)
      (by dsimp only; lia)
    have h₃ := skip_group rest hrest { s with line := s.line + 1 + group.lines.length + tail.lines.length } done hs
      (by dsimp only; lia)
    change (group.lines ++ (tail.lines ++ rest.lines)).foldlM _ _ = _
    rw [List.foldlM_append, h₁]
    change (tail.lines ++ rest.lines).foldlM _ _ = _
    rw [List.foldlM_append, h₂]
    refine h₃.trans ?_
    rw [List.length_cons, List.length_append, List.length_append]
    congr 3
    dsimp only
    lia

/-- The rest of a section is passed over when a group was taken or a conditional outside is inactive. -/
theorem skip_tail (t : PpTail) (hsp : t.Spaced) (s : PpState) (done : List Nat) (c : PpCond)
    (hc : c.taken = true ∨ ppActive s.conds = false) (hd : t.depth + (s.conds.length + 1) ≤ 16) :
    t.lines.foldlM (ppTrace env filename outMax deepest sub) ({ s with conds := c :: s.conds }, done) =
      .ok ({ s with line := s.line + t.lines.length }, done) := by
  cases t with
  | endif h arg =>
    rw [PpTail.lines, List.foldlM_cons, ppTrace_endif]
    rfl
  | els h arg group h' arg' =>
    rw [PpTail.depth] at hd
    rw [PpTail.lines, List.foldlM_cons, ppTrace_els h arg.val rfl]
    have h₁ := skip_group group hsp { s with conds := c.next (ppActive s.conds) true :: s.conds, line := s.line + 1 } done
      (PpCond.next_off hc true).1 (by rw [List.length_cons]; lia)
    change (group.lines ++ [h'.line "endif" arg'.val]).foldlM _ _ = _
    rw [List.foldlM_append, h₁]
    change List.foldlM (ppTrace env filename outMax deepest sub) _ [h'.line "endif" arg'.val] = _
    rw [List.foldlM_cons, ppTrace_endif, List.length_cons, List.length_append, List.length_singleton]
    change Except.ok _ = _
    congr 3
    dsimp only
    lia
  | elif h arg group tail =>
    obtain ⟨harg, hgroup, htail⟩ := hsp
    rw [PpTail.depth] at hd
    rw [PpTail.lines, List.foldlM_cons, ppTrace_elif h harg rfl]
    obtain ⟨hoff, hnext⟩ := PpCond.next_off hc (env.evalIf s.pp arg.val)
    have h₁ := skip_group group hgroup
      { s with conds := c.next (ppActive s.conds) (env.evalIf s.pp arg.val) :: s.conds, line := s.line + 1 } done
      hoff (by rw [List.length_cons]; lia)
    have h₂ := skip_tail tail htail { s with line := s.line + 1 + group.lines.length } done _ hnext (by dsimp only; lia)
    change (group.lines ++ tail.lines).foldlM _ _ = _
    rw [List.foldlM_append, h₁]
    refine h₂.trans ?_
    rw [List.length_cons, List.length_append]
    congr 3
    dsimp only
    lia

end

variable {env filename outMax deepest sub}

/-! ## C's names and the table -/

/-- What C takes as defined is what the table holds, for names that fit. -/
structure CView.InStep (v : CView) : Prop where
  distinct : v.s.pp.Distinct
  defined : ∀ n : List Byte, n.length ≤ 31 → v.defined n = (ppFindMacro v.s.pp n).isSome

theorem CView.InStep.pass {v : CView} (h : v.InStep) (n : Nat) : (v.pass n).InStep := ⟨h.distinct, h.defined⟩

theorem CView.InStep.emit {v v' : CView} {line : List Byte} (h : v.InStep) (he : v.emit filename outMax line = .ok v') : v'.InStep := by
  unfold CView.emit at he
  cases ht : ppText filename outMax v.s line with
  | error e =>
    rw [ht] at he
    cases he
  | ok s =>
    rw [ht] at he
    cases he
    have hpp := ppText_pp ht
    exact ⟨hpp ▸ h.distinct, fun n hn => by dsimp only; rw [hpp]; exact h.defined n hn⟩

theorem ppReadMacro_name (q : List Byte) : (ppReadMacro q).name = ppReadName q := by
  unfold ppReadMacro
  dsimp only
  split <;> rfl

theorem NameArg.macro_name {a : NameArg} (h : a.id.val.length ≤ 31) : (ppReadMacro (a.id.val ++ a.rest)).name = a.id.val := by
  rw [ppReadMacro_name]
  exact ppReadName_append a.id.property.2 h a.rest_end

/-- A control line that fits keeps them in step. -/
theorem CView.InStep.exec (hsub : KeepsDistinct sub) {v v' : CView} {c : Control} (h : v.InStep) (hfit : c.Fits env v)
    (he : v.exec env filename outMax deepest sub c = .ok v') : v'.InStep := by
  cases c with
  | define hash a =>
    obtain ⟨hlen, hroom⟩ := hfit
    cases he
    refine ⟨h.distinct.define _, fun n hn => Bool.eq_iff_iff.mpr ?_⟩
    dsimp only
    rw [Bool.or_eq_true, decide_eq_true_iff, h.defined n hn, ppFindMacro_isSome_iff, ppFindMacro_isSome_iff, names_ppDefine,
      NameArg.macro_name hlen]
    split
    · rename_i hold
      refine ⟨?_, Or.inr⟩
      rintro (rfl | hmem)
      · rcases hroom with hdef | hlt
        · rw [h.defined _ hlen] at hdef
          exact ppFindMacro_isSome_iff.mp hdef
        · exact hold.resolve_right (by omega)
      · exact hmem
    · rw [List.mem_append, List.mem_singleton, or_comm]
  | undef hash a =>
    cases he
    refine ⟨h.distinct.undef _, fun n hn => Bool.eq_iff_iff.mpr ?_⟩
    dsimp only
    rw [Bool.and_eq_true, decide_eq_true_iff, h.defined n hn, ppFindMacro_isSome_iff, ppFindMacro_isSome_iff, names_ppUndef,
      h.distinct.mem_erase_iff]
  | incl hash arg =>
    rw [CView.exec] at he
    cases hi : ppInclude env filename outMax deepest sub v.s arg.val with
    | error e =>
      rw [hi] at he
      cases he
    | ok s =>
      rw [hi] at he
      cases he
      exact ⟨ppInclude_distinct hsub h.distinct hi, fun n _ => rfl⟩

/-- The condition of a section holds for C when it does for the compiler. -/
theorem CView.InStep.holds {v : CView} {head : CondHead} (h : v.InStep) (hfit : head.Fits) :
    head.holds env v = head.value env v.s.pp := by
  cases head with
  | ifdef hash a =>
    rw [CondHead.holds, CondHead.value, NameArg.readName hfit]
    exact h.defined _ hfit
  | ifndef hash a =>
    rw [CondHead.holds, CondHead.value, NameArg.readName hfit, h.defined _ hfit, Option.not_isSome]
  | cond hash arg => rfl

/-! ## Selected groups -/

/-- C's view as the state of the compiler inside open conditionals. -/
def CView.under (v : CView) (cs : List PpCond) : PpState × List Nat := ({ v.s with conds := cs }, v.done)

theorem ppText_conds (s : PpState) (cs : List PpCond) (line : List Byte) :
    ppText filename outMax { s with conds := cs } line = (ppText filename outMax s line).map fun s => { s with conds := cs } := by
  unfold ppText
  dsimp only
  split
  · rfl
  · split <;> rfl

theorem ppInclude_conds (s : PpState) (cs : List PpCond) (q : List Byte) :
    ppInclude env filename outMax deepest sub { s with conds := cs } q =
      (ppInclude env filename outMax deepest sub s q).map fun s => { s with conds := cs } := by
  unfold ppInclude
  dsimp only
  split
  · rfl
  split
  · rfl
  split
  · rfl
  split
  · rfl
  · rename_i text path _
    cases sub s.pp text path (outMax - s.out.length - 1) <;> rfl

theorem ppTrace_text {line : List Byte} (ht : (ppExprSkip line).head? ≠ some (Char.byte '#')) (v : CView) {cs : List PpCond}
    (hcs : ppActive cs = true) :
    ppTrace env filename outMax deepest sub (v.under cs) line = (v.emit filename outMax line).map fun v => v.under cs := by
  have hline : ppLine env filename outMax deepest sub { v.s with conds := cs } line =
      (ppText filename outMax v.s line).map fun s => { s with conds := cs } := by
    simp only [ppLine, if_neg ht, hcs, if_true]
    exact ppText_conds v.s cs line
  have hperf : ppPerforms env { v.s with conds := cs } line = true := by simp only [ppPerforms, if_neg ht, hcs, Bool.and_true]
  simp only [ppTrace, CView.under, CView.emit, hline, hperf, if_true]
  cases ppText filename outMax v.s line <;> rfl

theorem ppTrace_control {c : Control} {v : CView} (hfit : c.Fits env v) {cs : List PpCond} (hcs : ppActive cs = true) :
    ppTrace env filename outMax deepest sub (v.under cs) c.line =
      (v.exec env filename outMax deepest sub c).map fun v => v.under cs := by
  cases c with
  | define h a =>
    rw [Control.line, CView.under, ppTrace_hash h rfl (ppDirective_define a.head_space), ppRunDirective, hcs, a.skip]
    rfl
  | undef h a =>
    rw [Control.line, CView.under, ppTrace_hash h rfl (ppDirective_undef a.head_space), ppRunDirective, hcs, NameArg.readName hfit]
    rfl
  | incl h arg =>
    obtain ⟨hsp, hacts⟩ := hfit
    rw [Control.line, CView.under, ppTrace_hash h rfl (ppDirective_incl hsp), ppRunDirective, hacts, if_pos hcs, ppInclude_conds,
      hcs, CView.exec]
    cases ppInclude env filename outMax deepest sub v.s arg.val <;> rfl

mutual

/-- Inside open conditionals that are all active, the lines of a group do what C does with the group. -/
theorem run_group (hsub : KeepsDistinct sub) (g : PpGroup) (hsp : g.Spaced) (v : CView) (h : v.InStep)
    (hfit : g.Fits env filename outMax deepest sub v) (cs : List PpCond) (hcs : ppActive cs = true) (hd : g.depth + cs.length ≤ 16) :
    g.lines.foldlM (ppTrace env filename outMax deepest sub) (v.under cs) =
        (g.run env filename outMax deepest sub v).map (fun v => v.under cs) ∧
      ∀ v', g.run env filename outMax deepest sub v = .ok v' → v'.InStep := by
  cases g with
  | nil =>
    refine ⟨rfl, fun v' hv => ?_⟩
    cases hv
    exact h
  | text line ht rest =>
    rw [PpGroup.lines, List.foldlM_cons, ppTrace_text ht v hcs, PpGroup.run]
    cases he : v.emit filename outMax line with
    | error e => exact ⟨rfl, fun v' hv => by cases hv⟩
    | ok w => exact run_group hsub rest hsp w (h.emit he) (hfit w he) cs hcs hd
  | control c rest =>
    obtain ⟨hc, hrest⟩ := hfit
    rw [PpGroup.lines, List.foldlM_cons, ppTrace_control hc hcs, PpGroup.run]
    cases he : v.exec env filename outMax deepest sub c with
    | error e => exact ⟨rfl, fun v' hv => by cases hv⟩
    | ok w => exact run_group hsub rest hsp w (h.exec hsub hc he) (hrest w he) cs hcs hd
  | sect head group tail rest =>
    obtain ⟨hhead, hgroup, htail, hrest⟩ := hsp
    obtain ⟨hfhead, hfit⟩ := hfit
    rw [PpGroup.depth] at hd
    rw [PpGroup.lines, List.foldlM_cons, CView.under, ppTrace_head hhead (by dsimp only; lia), PpGroup.run]
    dsimp only
    rw [hcs, Bool.true_and, ← h.holds hfhead]
    cases hval : head.holds env v with
    | true =>
      rw [hval, if_pos rfl] at hfit
      obtain ⟨hfgroup, hfrest⟩ := hfit
      obtain ⟨h₁, hstep⟩ := run_group hsub group hgroup (v.pass 1) (h.pass 1) hfgroup (⟨true, true⟩ :: cs) hcs
        (by rw [List.length_cons]; lia)
      rw [if_pos rfl]
      change (group.lines ++ (tail.lines ++ rest.lines)).foldlM (ppTrace env filename outMax deepest sub)
        ((v.pass 1).under (⟨true, true⟩ :: cs)) = _ ∧ _
      rw [List.foldlM_append, h₁]
      cases hw : group.run env filename outMax deepest sub (v.pass 1) with
      | error e => exact ⟨rfl, fun v' hv => by cases hv⟩
      | ok w =>
        -- The other groups of the section are passed over.
        have h₂ := skip_tail env filename outMax deepest sub tail htail { w.s with conds := cs } w.done ⟨true, true⟩ (.inl rfl)
          (by dsimp only; lia)
        change (tail.lines ++ rest.lines).foldlM (ppTrace env filename outMax deepest sub) (w.under (⟨true, true⟩ :: cs)) = _ ∧ _
        rw [List.foldlM_append]
        refine (congrArg (fun r => r >>= rest.lines.foldlM (ppTrace env filename outMax deepest sub)) h₂).symm ▸ ?_
        exact run_group hsub rest hrest (w.pass tail.lines.length) ((hstep w hw).pass _) (hfrest w hw) cs hcs (by lia)
    | false =>
      rw [hval, if_neg Bool.false_ne_true] at hfit
      obtain ⟨hftail, hfrest⟩ := hfit
      have h₁ := skip_group env filename outMax deepest sub group hgroup
        { v.s with conds := ⟨false, false⟩ :: cs, line := v.s.line + 1 } v.done rfl (by rw [List.length_cons]; lia)
      obtain ⟨h₂, hstep⟩ := run_tail hsub tail htail (v.pass (1 + group.lines.length)) (h.pass _) hftail cs hcs (by lia)
      rw [if_neg Bool.false_ne_true]
      change (group.lines ++ (tail.lines ++ rest.lines)).foldlM (ppTrace env filename outMax deepest sub)
        ({ v.s with conds := ⟨false, false⟩ :: cs, line := v.s.line + 1 }, v.done) = _ ∧ _
      rw [List.foldlM_append, h₁]
      have hpass : v.s.line + 1 + group.lines.length = v.s.line + (1 + group.lines.length) := Nat.add_assoc _ _ _
      dsimp only
      rw [hpass]
      change (tail.lines ++ rest.lines).foldlM (ppTrace env filename outMax deepest sub)
        ((v.pass (1 + group.lines.length)).under (⟨false, false⟩ :: cs)) = _ ∧ _
      rw [List.foldlM_append, h₂]
      cases hw : tail.run env filename outMax deepest sub (v.pass (1 + group.lines.length)) with
      | error e => exact ⟨rfl, fun v' hv => by cases hv⟩
      | ok w => exact run_group hsub rest hrest w (hstep w hw) (hfrest w hw) cs hcs (by lia)

/-- Behind groups that were not taken, the rest of a section does what C does with it. -/
theorem run_tail (hsub : KeepsDistinct sub) (t : PpTail) (hsp : t.Spaced) (v : CView) (h : v.InStep)
    (hfit : t.Fits env filename outMax deepest sub v) (cs : List PpCond) (hcs : ppActive cs = true)
    (hd : t.depth + (cs.length + 1) ≤ 16) :
    t.lines.foldlM (ppTrace env filename outMax deepest sub) (v.under (⟨false, false⟩ :: cs)) =
        (t.run env filename outMax deepest sub v).map (fun v => v.under cs) ∧
      ∀ v', t.run env filename outMax deepest sub v = .ok v' → v'.InStep := by
  cases t with
  | endif hash arg =>
    rw [PpTail.lines, List.foldlM_cons, CView.under, ppTrace_endif, PpTail.run]
    refine ⟨rfl, fun v' hv => ?_⟩
    cases hv
    exact h.pass 1
  | els hash arg group hash' arg' =>
    rw [PpTail.depth] at hd
    obtain ⟨h₁, hstep⟩ := run_group hsub group hsp (v.pass 1) (h.pass 1) hfit (⟨true, true⟩ :: cs) hcs
      (by rw [List.length_cons]; omega)
    rw [PpTail.lines, List.foldlM_cons, CView.under, ppTrace_els hash arg.val rfl, hcs, PpTail.run]
    change (group.lines ++ [hash'.line "endif" arg'.val]).foldlM (ppTrace env filename outMax deepest sub)
      ((v.pass 1).under (⟨true, true⟩ :: cs)) = _ ∧ _
    rw [List.foldlM_append, h₁]
    cases hw : group.run env filename outMax deepest sub (v.pass 1) with
    | error e => exact ⟨rfl, fun v' hv => by cases hv⟩
    | ok w =>
      refine ⟨?_, fun v' hv => ?_⟩
      · change List.foldlM (ppTrace env filename outMax deepest sub) (w.under (⟨true, true⟩ :: cs)) [hash'.line "endif" arg'.val] = _
        rw [List.foldlM_cons, CView.under, ppTrace_endif]
        rfl
      · cases hv
        exact (hstep w hw).pass 1
  | elif hash arg group tail =>
    obtain ⟨harg, hgroup, htail⟩ := hsp
    rw [PpTail.depth] at hd
    rw [PpTail.lines, List.foldlM_cons, CView.under, ppTrace_elif hash harg rfl, hcs, PpTail.run]
    rw [PpTail.Fits] at hfit
    dsimp only
    cases hval : env.evalIf v.s.pp arg.val with
    | true =>
      rw [hval, if_pos rfl] at hfit
      obtain ⟨h₁, hstep⟩ := run_group hsub group hgroup (v.pass 1) (h.pass 1) hfit (⟨true, true⟩ :: cs) hcs
        (by rw [List.length_cons]; omega)
      rw [if_pos rfl]
      change (group.lines ++ tail.lines).foldlM (ppTrace env filename outMax deepest sub)
        ((v.pass 1).under (⟨true, true⟩ :: cs)) = _ ∧ _
      rw [List.foldlM_append, h₁]
      cases hw : group.run env filename outMax deepest sub (v.pass 1) with
      | error e => exact ⟨rfl, fun v' hv => by cases hv⟩
      | ok w =>
        refine ⟨?_, fun v' hv => ?_⟩
        · exact skip_tail env filename outMax deepest sub tail htail { w.s with conds := cs } w.done ⟨true, true⟩ (.inl rfl)
            (by dsimp only; omega)
        · cases hv
          exact (hstep w hw).pass _
    | false =>
      rw [hval, if_neg Bool.false_ne_true] at hfit
      have h₁ := skip_group env filename outMax deepest sub group hgroup
        { v.s with conds := ⟨false, false⟩ :: cs, line := v.s.line + 1 } v.done rfl (by rw [List.length_cons]; omega)
      have h₂ := run_tail hsub tail htail (v.pass (1 + group.lines.length)) (h.pass _) hfit cs hcs (by omega)
      rw [if_neg Bool.false_ne_true]
      change (group.lines ++ tail.lines).foldlM (ppTrace env filename outMax deepest sub)
        ({ v.s with conds := ⟨false, false⟩ :: cs, line := v.s.line + 1 }, v.done) = _ ∧ _
      rw [List.foldlM_append, h₁]
      have hpass : v.s.line + 1 + group.lines.length = v.s.line + (1 + group.lines.length) := Nat.add_assoc _ _ _
      dsimp only
      rw [hpass]
      exact h₂

end

end

/-! ## A whole source -/

/-- C's view before the first line. -/
def CView.start (pp : Preproc) : CView := ⟨⟨pp, [], [], 1⟩, fun n => (ppFindMacro pp n).isSome, []⟩

/-- `pp_process` one level deeper. -/
def ppSub (env : PpEnv) (levels : Nat) (pp : Preproc) (text path : List Byte) (outMax : Nat) : Except PpFail (Preproc × List Byte) :=
  ppProcess env levels path pp text outMax

/-- What C does with a source that is read `levels` files above the deepest. -/
def cRun (env : PpEnv) (levels : Nat) (filename : List Byte) (pp : Preproc) (outMax : Nat) (g : PpGroup) : Except PpFail CView :=
  g.run env filename outMax (decide (levels = 0)) (ppSub env levels) (CView.start pp)

/-- The lines emitted and executed are those of the groups C selects, one after the other with what they leave, and the text and
the table at the end are C's. -/
structure SelectsGroups (env : PpEnv) (levels : Nat) (filename : List Byte) (pp : Preproc) (outMax : Nat) (g : PpGroup)
    (text : List Byte) : Prop where
  trace : g.lines.foldlM (ppTrace env filename outMax (decide (levels = 0)) (ppSub env levels)) (⟨pp, [], [], 1⟩, []) =
    (cRun env levels filename pp outMax g).map fun v => v.under []
  result : ppProcess env (levels + 1) filename pp text outMax =
    (cRun env levels filename pp outMax g).bind fun v =>
      if v.s.out.length < outMax then .ok (v.s.pp, v.s.out) else .error .outOfRange

/-- A source whose lines are those of a tree, behind the mark of UTF-8 if there is one. -/
def SourceOf (levels : Nat) (text : List Byte) (g : PpGroup) : Prop :=
  LinesOf g.lines (if levels = 8 && byteOrderMark.isPrefixOf text then text.drop 3 else text)

/-- Every line that is reached fits: the lines of the text its buffer, the keywords their arguments, and what is executed the
name, the table and the file. -/
structure GroupsFit (env : PpEnv) (levels : Nat) (filename : List Byte) (pp : Preproc) (outMax : Nat) (g : PpGroup) : Prop where
  lines : ∀ line ∈ g.lines, FitsLine line
  spaced : g.Spaced
  runs : g.Fits env filename outMax (decide (levels = 0)) (ppSub env levels) (CView.start pp)

/-- The record is a record of the run. -/
theorem foldlM_ppTrace {env : PpEnv} {filename : List Byte} {outMax : Nat} {deepest : Bool}
    {sub : Preproc → List Byte → List Byte → Nat → Except PpFail (Preproc × List Byte)} (lines : List (List Byte)) (s : PpState)
    (done : List Nat) :
    (lines.foldlM (ppTrace env filename outMax deepest sub) (s, done)).map Prod.fst =
      lines.foldlM (ppLine env filename outMax deepest sub) s := by
  induction lines generalizing s done with
  | nil => rfl
  | cons line lines ih =>
    rw [List.foldlM_cons, List.foldlM_cons, ppTrace]
    cases ppLine env filename outMax deepest sub s line with
    | error e => rfl
    | ok s' => exact ih s' _

/-- A source of nested groups at most 16 deep is processed as C's conditional inclusion has it, in every run whose lines fit. -/
theorem groups_selected_of_fit (env : PpEnv) (levels : Nat) (filename : List Byte) (pp : Preproc) (hpp : pp.Distinct) (outMax : Nat)
    (g : PpGroup) (hd : g.depth ≤ 16) (text : List Byte) (htext : SourceOf levels text g)
    (hfit : GroupsFit env levels filename pp outMax g) : SelectsGroups env levels filename pp outMax g text := by
  have hsub : KeepsDistinct (ppSub env levels) := ppProcess_distinct env levels
  obtain ⟨htrace, -⟩ := run_group hsub g hfit.spaced (CView.start pp) ⟨hpp, fun n _ => rfl⟩ hfit.runs [] rfl
    (by rw [List.length_nil]; omega)
  refine ⟨htrace, ?_⟩
  -- The run of the code is the record without its numbers.
  have hlines : ppLines env filename outMax (decide (levels = 0)) (ppSub env levels)
      (if levels = 8 && byteOrderMark.isPrefixOf text then text.drop 3 else text).length ⟨pp, [], [], 1⟩
      (if levels = 8 && byteOrderMark.isPrefixOf text then text.drop 3 else text) =
        ((cRun env levels filename pp outMax g).map fun v => v.under []).map Prod.fst := by
    rw [ppLines_eq_foldlM htext hfit.lines le_rfl, ← foldlM_ppTrace g.lines _ []]
    exact congrArg (Except.map Prod.fst) htrace
  rw [ppProcess]
  refine (congrArg (· >>= _) hlines).trans ?_
  cases cRun env levels filename pp outMax g with
  | error e => rfl
  | ok v => rfl

/-! ## Sources -/

/-- A `#` in the first column. -/
def Hash.bare : Hash := ⟨Spaces.none, Spaces.none⟩

/-- `A` behind a space. -/
def argA : NameArg where
  sp := ⟨[Char.byte ' '], by decide⟩
  id := ⟨asciiBytes "A", by decide, by decide⟩
  rest := []
  sp_ne := by decide
  rest_end := rfl

/-- Nothing behind a keyword. -/
def Arg.none : Arg := ⟨[], rfl⟩

/-- A line of text. -/
def textX : List Byte := asciiBytes "x"

/-- A macro, and a section that asks for it. -/
def guarded : PpGroup :=
  .control (.define .bare argA)
    (.sect (.ifdef .bare argA) (.text textX (by decide) .nil) (.els .bare .none (.text textX (by decide) .nil) .bare .none) .nil)

/-- Conditions are evaluated, and there are no files. -/
def noFiles : PpEnv := ⟨fun pp q => (ppEvalIf 20 pp q).getD false, fun _ _ _ => none, false⟩

/-- The section's first group is selected. -/
theorem groups_selected_of_fit_guarded :
    SelectsGroups noFiles 0 [] [] 100 guarded (asciiBytes "#define A\n#ifdef A\nx\n#else\nx\n#endif\n") := by
  refine groups_selected_of_fit noFiles 0 [] [] List.nodup_nil 100 guarded (by decide) _ ?_ ⟨?_, ?_, ?_⟩
  · exact .cons (asciiBytes "#define A") <| .cons (asciiBytes "#ifdef A") <| .cons textX <| .cons (asciiBytes "#else") <|
      .cons textX <| .cons (asciiBytes "#endif") .nil
  · decide
  · exact ⟨trivial, trivial, trivial, trivial⟩
  · have hlen : argA.id.val.length ≤ 31 := by decide
    refine ⟨⟨hlen, .inr (by decide)⟩, fun v hv => ?_⟩
    cases hv
    refine ⟨hlen, ?_⟩
    rw [if_pos (by decide)]
    exact ⟨fun _ _ => trivial, fun _ _ => trivial⟩

/-- A section whose `#if` has no space behind it. -/
def unspaced : PpGroup := .sect (.cond .bare ⟨asciiBytes "(0)", rfl⟩) (.text textX (by decide) .nil) (.endif .bare .none) .nil

/-- Not every source is processed as C has it: behind `#if(0)` the line of text is emitted. -/
theorem groups_selected_false :
    ¬∀ (env : PpEnv) (levels : Nat) (filename : List Byte) (pp : Preproc), pp.Distinct → ∀ (outMax : Nat) (g : PpGroup), g.depth ≤ 16 →
      ∀ text : List Byte, SourceOf levels text g → SelectsGroups env levels filename pp outMax g text := by
  intro h
  have hsel := h noFiles 0 [] [] List.nodup_nil 100 unspaced (by decide) (asciiBytes "#if(0)\nx\n#endif\n")
    (.cons (asciiBytes "#if(0)") <| .cons textX <| .cons (asciiBytes "#endif") .nil)
  have hdone := congrArg (fun r => r.toOption.map Prod.snd) hsel.trace
  revert hdone
  decide

end MiniOs32
