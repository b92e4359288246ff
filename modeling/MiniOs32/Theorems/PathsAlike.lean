import MiniOs32.User.Paths
import MiniOs32.Lib.Segments
import MiniOs32.Lemmas.Names

/-!
# The shell and the programs name the same file

A path is a list of components. The directory a resolver starts in and the components it has read are laid out in its buffer,
each followed by `'/'`; a component that names something is appended, `..` takes the last one away, `.` does nothing. The two
functions that step back over a component keep that layout, so the loop they share does, and the three resolvers end with the
components that the fold of the directory followed by the argument gives.
-/

namespace MiniOs32

/-! ## The fold -/

/-- A component that names something. -/
def NormalComponent (c : List Byte) : Prop := c ≠ [] ∧ slash ∉ c ∧ c ≠ [dot] ∧ c ≠ [dot, dot]

/-- What the next component does to the components before it. -/
def foldComponent (cs : List (List Byte)) (c : List Byte) : List (List Byte) :=
  if c = [dot] then cs else if c = [dot, dot] then cs.dropLast else cs ++ [c]

/-- The components a name stands for in a directory. -/
def components (cwd arg : List Byte) : List (List Byte) :=
  (segments slash (if arg.head? = some slash then arg else cwd ++ arg)).foldl foldComponent []

/-- A working directory of the shell: normal components each followed by `'/'`, 47 characters at most. -/
structure NormalDir (cwd : List Byte) : Prop where
  normal : ∃ cs, (∀ c ∈ cs, NormalComponent c) ∧ cwd = closeAll slash cs
  isName : IsName cwd
  short : cwd.length ≤ 47

/-- Every component finds room for itself, its `'/'` and a NUL. -/
def fits (outsz : Nat) : List (List Byte) → List (List Byte) → Bool
  | _, [] => true
  | cs, c :: ps =>
    (decide (c = [dot]) || decide (c = [dot, dot]) || decide ((closeAll slash cs).length + c.length + 1 < outsz)) &&
      fits outsz (foldComponent cs c) ps

/-- Where the components of a fold come from. -/
theorem mem_foldl_foldComponent {ps : List (List Byte)} : ∀ {cs : List (List Byte)} {c : List Byte},
    c ∈ ps.foldl foldComponent cs → c ∈ cs ∨ c ∈ ps ∧ c ≠ [dot] ∧ c ≠ [dot, dot] := by
  induction ps with
  | nil => intro cs c h; exact Or.inl h
  | cons p ps ih =>
    intro cs c h
    rw [List.foldl_cons] at h
    rcases ih h with h' | ⟨h', hd⟩
    · unfold foldComponent at h'
      split at h'
      · exact Or.inl h'
      · split at h'
        · exact Or.inl (List.dropLast_subset cs h')
        · rename_i h1 h2
          rcases List.mem_append.1 h' with h' | h'
          · exact Or.inl h'
          · rw [List.mem_singleton] at h'
            subst h'
            exact Or.inr ⟨List.mem_cons_self, h1, h2⟩
    · exact Or.inr ⟨List.mem_cons_of_mem p h', hd⟩

/-- Normal components fold to themselves. -/
theorem foldl_foldComponent_normal {ps : List (List Byte)} (h : ∀ c ∈ ps, NormalComponent c) :
    ∀ cs, ps.foldl foldComponent cs = cs ++ ps := by
  induction ps with
  | nil => intro cs; simp
  | cons p ps ih =>
    intro cs
    obtain ⟨-, -, h1, h2⟩ := h p List.mem_cons_self
    rw [List.foldl_cons, foldComponent, if_neg h1, if_neg h2, ih (fun c hc => h c (List.mem_cons_of_mem p hc))]
    simp

/-- The components a resolver starts with. -/
def startComponents (cs : List (List Byte)) (arg : List Byte) : List (List Byte) := if arg.head? = some slash then [] else cs

theorem components_eq {cs : List (List Byte)} (h : ∀ c ∈ cs, NormalComponent c) (arg : List Byte) :
    components (closeAll slash cs) arg = (segments slash arg).foldl foldComponent (startComponents cs arg) := by
  unfold components startComponents
  split
  · rfl
  · rw [segments_closeAll_append (fun c hc => ⟨(h c hc).1, (h c hc).2.1⟩), List.foldl_append, foldl_foldComponent_normal h]
    rfl

/-- The components of a name are normal. -/
theorem normal_components {cs : List (List Byte)} (h : ∀ c ∈ cs, NormalComponent c) (arg : List Byte) :
    ∀ c ∈ (segments slash arg).foldl foldComponent (startComponents cs arg), NormalComponent c := by
  intro c hc
  rcases mem_foldl_foldComponent hc with hc | ⟨hc, hd⟩
  · unfold startComponents at hc
    split at hc
    · simp at hc
    · exact h c hc
  · obtain ⟨hne, hs, -⟩ := mem_segments hc
    exact ⟨hne, hs, hd⟩

/-- The components of a name hold no NUL. -/
theorem isName_components {cs : List (List Byte)} {arg : List Byte} (h : ∀ c ∈ cs, IsName c) (harg : IsName arg) :
    ∀ c ∈ (segments slash arg).foldl foldComponent (startComponents cs arg), IsName c := by
  intro c hc
  rcases mem_foldl_foldComponent hc with hc | ⟨hc, -⟩
  · unfold startComponents at hc
    split at hc
    · simp at hc
    · exact h c hc
  · intro x hx
    exact harg x ((mem_segments hc).2.2 hx)

/-! ## The buffer -/

/-- The buffer holds the components, each closed, up to position `n`, and a NUL behind them if there is one. -/
structure LaidPath (out : List Byte) (n : Nat) (cs : List (List Byte)) : Prop where
  at_end : n = (closeAll slash cs).length
  text : ∃ e rest, out = closeAll slash cs ++ e :: rest ∧ (cs ≠ [] → e = 0#8)

@[simp] theorem bufSet_append (pre : List Byte) (e : Byte) (rest : List Byte) (b : Byte) :
    bufSet (pre ++ e :: rest) pre.length b = some (pre ++ b :: rest) := by
  simp [bufSet]

theorem bufSet_length {out out' : List Byte} {i : Nat} {b : Byte} (h : bufSet out i b = some out') : out'.length = out.length := by
  unfold bufSet at h
  split at h
  · cases h
    simp
  · cases h

/-- Stepping back from the end of a component stops where it starts. -/
theorem backToSlash_append {pre : List Byte} (hpre : pre = [] ∨ pre.getLast? = some slash) (rest : List Byte) :
    ∀ {c : List Byte}, slash ∉ c → backToSlash (pre ++ c ++ rest) (pre.length + c.length) = pre.length := by
  intro c
  induction c using List.reverseRecOn generalizing rest with
  | nil =>
    intro _
    rcases List.eq_nil_or_concat pre with rfl | ⟨p, x, rfl⟩
    · rfl
    · have hx : x = slash := by simpa using hpre
      simp [backToSlash, hx]
  | append_singleton c x ih =>
    intro hc
    have hx : x ≠ slash := fun h => hc (by simp [h])
    have hc' : slash ∉ c := fun h => hc (List.mem_append_left _ h)
    have hget : (pre ++ (c ++ [x]) ++ rest).getD (pre.length + c.length) 0#8 = x := by
      simp [List.getD_eq_getElem?_getD]
    rw [List.length_append, List.length_singleton, ← Nat.add_assoc, backToSlash, hget, if_pos hx,
      show pre ++ (c ++ [x]) ++ rest = pre ++ c ++ ([x] ++ rest) by simp]
    exact ih _ hc'

theorem getLast?_closeAll (cs : List (List Byte)) : closeAll slash cs = [] ∨ (closeAll slash cs).getLast? = some slash := by
  rcases List.eq_nil_or_concat cs with rfl | ⟨ds, c, rfl⟩
  · exact Or.inl rfl
  · right
    rw [List.concat_eq_append, closeAll_concat, List.getLast?_append]
    rfl

theorem endsInSlash_concat (pre rest : List Byte) : endsInSlash (pre ++ [slash] ++ rest) (pre.length + 1) = true := by
  simp [endsInSlash, List.getD_eq_getElem?_getD]

/-- The last component starts where the ones before it end. -/
theorem componentStart_closeAll (cs : List (List Byte)) {c : List Byte} (hc : slash ∉ c) (rest : List Byte) :
    componentStart (closeAll slash (cs ++ [c]) ++ rest) (closeAll slash (cs ++ [c])).length = (closeAll slash cs).length := by
  unfold componentStart
  rw [closeAll_concat, List.length_append, List.length_singleton, endsInSlash_concat, if_pos rfl, Nat.add_sub_cancel,
    List.length_append, List.append_assoc (closeAll slash cs ++ c)]
  exact backToSlash_append (getLast?_closeAll cs) _ hc

/-- A function that steps back over the last component, if there is one. -/
def Pops (pop : List Byte → Nat → Option (List Byte × Nat)) : Prop :=
  ∀ {out n cs}, LaidPath out n cs → (∀ c ∈ cs, slash ∉ c) →
    ∃ out' n', pop out n = some (out', n') ∧ LaidPath out' n' cs.dropLast ∧ out'.length = out.length

theorem pops_pathPop : Pops pathPop := by
  intro out n cs h hcs
  obtain ⟨hn, e, rest, hout, -⟩ := h
  rcases List.eq_nil_or_concat cs with rfl | ⟨ds, c, rfl⟩
  · have hn0 : n = 0 := hn
    have h0 : componentStart out n = 0 := by simp [componentStart, hn0, endsInSlash, backToSlash]
    have hset : bufSet out 0 0#8 = some (0#8 :: rest) := by simp [hout, bufSet]
    refine ⟨0#8 :: rest, 0, ?_, ⟨rfl, 0#8, rest, rfl, fun _ => rfl⟩, bufSet_length hset⟩
    simp [pathPop, h0, hset]
  · simp only [List.concat_eq_append] at hn hout hcs ⊢
    have hc : slash ∉ c := hcs c (by simp)
    have hat : componentStart out n = (closeAll slash ds).length := by
      rw [hn, hout]
      exact componentStart_closeAll ds hc _
    obtain ⟨x, xs, hx⟩ := List.exists_cons_of_ne_nil (l := c ++ [slash] ++ e :: rest) (by simp)
    have hout' : out = closeAll slash ds ++ x :: xs := by
      rw [hout, closeAll_concat, ← hx]
      simp
    have hset : bufSet out (closeAll slash ds).length 0#8 = some (closeAll slash ds ++ 0#8 :: xs) := by
      rw [hout', bufSet_append]
    refine ⟨closeAll slash ds ++ 0#8 :: xs, (closeAll slash ds).length, ?_, ?_, bufSet_length hset⟩
    · simp [pathPop, hat, hset]
    · rw [List.dropLast_concat]
      exact ⟨rfl, 0#8, xs, rfl, fun _ => rfl⟩

/-- Away from the root the shell steps back as the library does. -/
theorem popComponent_eq {out : List Byte} {n : Nat} (h : n ≠ 0) : popComponent out n = pathPop out n := by
  simp [popComponent, pathPop, h]

theorem pops_popComponent : Pops popComponent := by
  intro out n cs h hcs
  by_cases h0 : n = 0
  · have hcs0 : cs = [] := by
      rcases List.eq_nil_or_concat cs with rfl | ⟨ds, c, rfl⟩
      · rfl
      · have := h.at_end
        simp [h0] at this
    subst hcs0
    exact ⟨out, n, by simp [popComponent, h0], h, rfl⟩
  · rw [popComponent_eq h0]
    exact pops_pathPop h hcs

/-- A component that fits is laid out behind the others. -/
theorem pushComponent_spec {out : List Byte} {n : Nat} {cs : List (List Byte)} (h : LaidPath out n cs) {c : List Byte}
    (hroom : n + c.length + 1 < out.length) :
    ∃ out' n', pushComponent out n c = some (out', n') ∧ LaidPath out' n' (cs ++ [c]) ∧ out'.length = out.length := by
  obtain ⟨hn, e, rest, hout, -⟩ := h
  set pre := closeAll slash cs with hpre
  have hdrop : ∃ x y ys, (e :: rest).drop c.length = x :: y :: ys := by
    have hl : 2 ≤ ((e :: rest).drop c.length).length := by
      rw [hout, List.length_append] at hroom
      rw [List.length_drop]
      lia
    match hd : (e :: rest).drop c.length, hl with
    | x :: y :: ys, _ => exact ⟨x, y, ys, rfl⟩
  obtain ⟨x, y, ys, hd⟩ := hdrop
  have hcopy : bufCopy out n c = some (pre ++ c ++ x :: y :: ys) := by
    unfold bufCopy
    rw [if_pos (by lia), hn, hout, List.take_left, List.drop_length_add_append, hd]
  have hset1 : bufSet (pre ++ c ++ x :: y :: ys) (n + c.length) slash = some (pre ++ c ++ slash :: y :: ys) := by
    rw [hn, ← List.length_append, bufSet_append]
  have hset2 : bufSet (pre ++ c ++ slash :: y :: ys) (n + c.length + 1) 0#8 = some (pre ++ c ++ [slash] ++ 0#8 :: ys) := by
    have := bufSet_append (pre ++ c ++ [slash]) y ys 0#8
    rw [List.length_append, List.length_append, List.length_singleton, ← hn] at this
    rw [← this]
    simp
  have hlen : (pre ++ c ++ x :: y :: ys).length = out.length := by
    rw [hout, List.append_assoc, List.length_append, List.length_append, ← hd, ← List.length_append, ← List.length_append]
    have hl : c.length ≤ (e :: rest).length := by
      by_contra hlt
      rw [List.drop_eq_nil_of_le (by lia)] at hd
      cases hd
    simp only [List.length_append, List.length_drop]
    lia
  refine ⟨pre ++ c ++ [slash] ++ 0#8 :: ys, n + c.length + 1, ?_, ?_, ?_⟩
  · simp only [pushComponent, hcopy, hset1, hset2, Option.bind_eq_bind, Option.bind_some, Option.pure_def]
  · refine ⟨?_, 0#8, ys, by rw [closeAll_concat], fun _ => rfl⟩
    rw [closeAll_concat, hn, List.length_append, List.length_append, List.length_singleton]
  · rw [bufSet_length hset2, bufSet_length hset1, hlen]

/-! ## The loop -/

/-- The loop ends with the components of the fold laid out, or stops at a component that does not fit. -/
theorem foldPath_spec {pop : List Byte → Nat → Option (List Byte × Nat)} (hpop : Pops pop) (p : List Byte) :
    ∀ out n cs, LaidPath out n cs → (∀ c ∈ cs, slash ∉ c) →
      if fits out.length cs (segments slash p) then
        ∃ out' n', foldPath pop out.length p out n = .done out' n' ∧ out'.length = out.length ∧
          LaidPath out' n' ((segments slash p).foldl foldComponent cs)
      else ∃ out', foldPath pop out.length p out n = .full out' ∧ out'.length = out.length := by
  induction hl : p.length using Nat.strong_induction_on generalizing p with
  | _ l ih =>
    intro out n cs hlaid hcs
    by_cases h : p.dropWhile (· == slash) = []
    · have hseg : segments slash p = [] := by rw [← segments_dropWhile, h, segments_nil]
      rw [foldPath, dif_pos h, hseg]
      exact ⟨out, n, rfl, rfl, hlaid⟩
    · set start := (p.dropWhile (· == slash)).takeWhile (· != slash) with hstart
      have hhead : (p.dropWhile (· == slash)).head? ≠ some slash := by
        intro hh
        have := List.head?_dropWhile_not (· == slash) p
        rw [hh] at this
        simp at this
      have hseg : segments slash p = start :: segments slash (behindComponent p) := by
        rw [← segments_dropWhile, segments_span h hhead, hstart, behindComponent]
      have hmem : slash ∉ start := (mem_segments (hseg ▸ List.mem_cons_self)).2.1
      have hnext := ih _ (hl ▸ length_behindComponent h) (behindComponent p) rfl
      rw [foldPath, dif_neg h, hseg, List.foldl_cons, fits]
      simp only [← hstart, foldComponent]
      by_cases h1 : start = [dot]
      · simp only [h1, if_true, decide_true, Bool.true_or, Bool.true_and]
        exact hnext _ _ _ hlaid hcs
      by_cases h2 : start = [dot, dot]
      · obtain ⟨out', n', hp, hlaid', hlen⟩ := hpop hlaid hcs
        have hdots : ¬[dot, dot] = [dot] := by decide
        simp only [h2, hdots, if_true, if_false, hp, decide_true, decide_false, Bool.or_true, Bool.true_or, Bool.true_and, ← hlen]
        exact hnext _ _ _ hlaid' (fun c hc => hcs c (List.dropLast_subset cs hc))
      simp only [h1, h2, if_false, decide_false, Bool.false_or, ← hlaid.at_end]
      by_cases h3 : out.length ≤ n + start.length + 1
      · simp only [h3, if_true, show ¬n + start.length + 1 < out.length by omega, decide_false, Bool.false_and, Bool.false_eq_true,
          if_false]
        exact ⟨out, rfl, rfl⟩
      · obtain ⟨out', n', hp, hlaid', hlen⟩ := pushComponent_spec hlaid (c := start) (by omega)
        simp only [h3, if_false, hp, show n + start.length + 1 < out.length by omega, decide_true, Bool.true_and]
        simp only [← hlen]
        refine hnext _ _ _ hlaid' (fun c hc => ?_)
        rcases List.mem_append.1 hc with hc | hc
        · exact hcs c hc
        · rw [List.mem_singleton.1 hc]
          exact hmem

/-! ## The three resolvers -/

/-- The text of the components without the last `'/'`, and a NUL behind it. -/
def PathText (out : List Byte) (cs : List (List Byte)) : Prop := ∃ rest, out = [slash].intercalate cs ++ 0#8 :: rest

/-- The last `'/'` becomes a NUL. -/
theorem dropSlash_spec {out : List Byte} {n : Nat} {cs : List (List Byte)} (h : LaidPath out n cs) (hcs : ∀ c ∈ cs, c ≠ []) :
    ∃ out' n', dropSlash out n = some (out', n') ∧ out'.length = out.length ∧ (0 < n' ↔ cs ≠ []) ∧ (cs ≠ [] → PathText out' cs) := by
  obtain ⟨hn, e, rest, hout, -⟩ := h
  by_cases h0 : cs = []
  · have hn0 : n = 0 := by simpa [h0] using hn
    exact ⟨out, n, by simp [dropSlash, endsInSlash, hn0], rfl, by simp [hn0, h0], fun h => absurd h0 h⟩
  · rw [closeAll_eq_intercalate slash h0] at hn hout
    set s := [slash].intercalate cs with hs
    have hn' : n = s.length + 1 := by rw [hn, List.length_append, List.length_singleton]
    have hends : endsInSlash out n = true := by
      rw [hout, hn']
      exact endsInSlash_concat s (e :: rest)
    have hset : bufSet out (n - 1) 0#8 = some (s ++ 0#8 :: e :: rest) := by
      rw [hn', Nat.add_sub_cancel, hout, List.append_assoc]
      exact bufSet_append s slash (e :: rest) 0#8
    have hpos : 0 < s.length := by
      obtain ⟨c, cs', rfl⟩ := List.exists_cons_of_ne_nil h0
      have hc := List.length_pos_iff.2 (hcs c List.mem_cons_self)
      rw [hs, List.intercalate]
      cases cs' with
      | nil => simpa using hc
      | cons d ds =>
        simp only [List.intersperse_cons_cons, List.flatten_cons, List.length_append]
        omega
    refine ⟨s ++ 0#8 :: e :: rest, n - 1, ?_, bufSet_length hset, ?_, fun _ => ⟨e :: rest, rfl⟩⟩
    · simp [dropSlash, hends, hset]
    · simp only [h0, ne_eq, not_false_eq_true, iff_true]
      omega

/-- What a resolver returns for a name in a directory of components `cs`: it writes inside its buffer only, and it succeeds when
the name is not empty, every component fits and one is left, with the text of the fold in the buffer. -/
def Resolves (r : Option (Int × List Byte)) (outsz : Nat) (cs : List (List Byte)) (arg : List Byte) : Prop :=
  ∃ v out, r = some (v, out) ∧ out.length = outsz ∧
    (v = 1 ↔ arg ≠ [] ∧ fits outsz (startComponents cs arg) (segments slash arg) = true ∧
      (segments slash arg).foldl foldComponent (startComponents cs arg) ≠ []) ∧
    (v = 1 → PathText out ((segments slash arg).foldl foldComponent (startComponents cs arg)))

/-- A directory copied to the start of the buffer. -/
theorem bufCopy_closeAll {out : List Byte} {cs : List (List Byte)} (h : (closeAll slash cs).length < out.length) :
    ∃ x rest, bufCopy out 0 (closeAll slash cs) = some (closeAll slash cs ++ x :: rest) ∧
      (closeAll slash cs ++ x :: rest).length = out.length := by
  obtain ⟨x, rest, hd⟩ := List.exists_cons_of_ne_nil (l := out.drop (closeAll slash cs).length) (by simpa using h)
  refine ⟨x, rest, ?_, ?_⟩
  · unfold bufCopy
    rw [if_pos (by omega), Nat.zero_add, hd]
    simp
  · rw [← hd, List.length_append, List.length_drop]
    omega

/-- The shell's start: the directory with a NUL behind it, or the root with the buffer as it was. -/
theorem buildPath_start {cs : List (List Byte)} {arg out : List Byte} (harg : arg ≠ [])
    (hroom : (closeAll slash cs).length < out.length) (wantDir : Bool) :
    ∃ p out' n, buildPath (closeAll slash cs) arg out out.length wantDir =
        buildPathEnd wantDir (foldPath popComponent out'.length p out' n) ∧
      segments slash p = segments slash arg ∧ out'.length = out.length ∧ LaidPath out' n (startComponents cs arg) := by
  by_cases habs : arg.head? = some slash
  · obtain ⟨a, p, rfl⟩ := List.exists_cons_of_ne_nil harg
    have ha : a = slash := by simpa using habs
    obtain ⟨e, rest, hout⟩ := List.exists_cons_of_ne_nil (l := out) (by rintro rfl; simp at hroom)
    refine ⟨p, out, 0, ?_, ?_, rfl, ?_⟩
    · simp [buildPath, ha]
    · rw [ha, segments_cons_self]
    · rw [startComponents, if_pos habs]
      exact ⟨rfl, e, rest, by simp [hout], fun h => absurd rfl h⟩
  · obtain ⟨x, rest, hcopy, hlen⟩ := bufCopy_closeAll hroom
    have hset := bufSet_append (closeAll slash cs) x rest 0#8
    refine ⟨arg, closeAll slash cs ++ 0#8 :: rest, (closeAll slash cs).length, ?_, rfl, ?_, ?_⟩
    · have hl : (closeAll slash cs ++ 0#8 :: rest).length = out.length := by rw [bufSet_length hset, hlen]
      rw [buildPath, if_neg harg, if_pos habs, if_neg (by omega), hcopy, hl]
      simp only [Option.bind_eq_bind, Option.bind_some, hset]
    · rw [bufSet_length hset, hlen]
    · rw [startComponents, if_neg habs]
      exact ⟨rfl, 0#8, rest, rfl, fun _ => rfl⟩

/-- The library's start: the same, with a NUL at the root too. -/
theorem pathResolve_start {cs : List (List Byte)} {arg out : List Byte} (harg : arg ≠ [])
    (hroom : (closeAll slash cs).length + 1 < out.length) :
    ∃ out' n, pathResolve (closeAll slash cs) arg out out.length = pathResolveEnd (foldPath pathPop out'.length arg out' n) ∧
      out'.length = out.length ∧ LaidPath out' n (startComponents cs arg) := by
  obtain ⟨e, rest, hout⟩ := List.exists_cons_of_ne_nil (l := out) (by rintro rfl; simp at hroom)
  have hset0 : bufSet out 0 0#8 = some (0#8 :: rest) := by simp [hout, bufSet]
  have hlen0 := bufSet_length hset0
  by_cases hjoin : arg.head? ≠ some slash ∧ closeAll slash cs ≠ []
  · obtain ⟨x, rest', hcopy, hlen⟩ := @bufCopy_closeAll (0#8 :: rest) cs (by omega)
    have hset := bufSet_append (closeAll slash cs) x rest' 0#8
    have hlast : (closeAll slash cs ++ x :: rest').getD ((closeAll slash cs).length - 1) 0#8 = slash := by
      rcases getLast?_closeAll cs with h | h
      · exact absurd h hjoin.2
      · have hpos := List.length_pos_iff.2 hjoin.2
        rw [List.getD_append _ _ _ _ (by omega), List.getD_eq_getElem?_getD, ← List.getLast?_eq_getElem?, h]
        rfl
    refine ⟨closeAll slash cs ++ 0#8 :: rest', (closeAll slash cs).length, ?_, ?_, ?_⟩
    · have hl : (closeAll slash cs ++ 0#8 :: rest').length = out.length := by rw [bufSet_length hset, hlen, hlen0]
      rw [pathResolve, if_neg harg, hset0, hl]
      simp only [Option.bind_eq_bind, Option.bind_some]
      rw [if_pos hjoin, if_neg (by omega), hcopy, Option.bind_some, if_neg (by simp only [hlast, ne_eq, not_true, not_false_eq_true]),
        hset, Option.bind_some]
    · rw [bufSet_length hset, hlen, hlen0]
    · rw [startComponents, if_neg hjoin.1]
      exact ⟨rfl, 0#8, rest', rfl, fun _ => rfl⟩
  · have hstart : startComponents cs arg = [] := by
      unfold startComponents
      split
      · rfl
      · rename_i h
        rcases List.eq_nil_or_concat cs with rfl | ⟨ds, c, rfl⟩
        · rfl
        · exact absurd ⟨h, by simp⟩ hjoin
    refine ⟨0#8 :: rest, 0, ?_, hlen0, ?_⟩
    · rw [pathResolve, if_neg harg, hset0, hlen0]
      simp only [Option.bind_eq_bind, Option.bind_some]
      rw [if_neg hjoin]
    · rw [hstart]
      exact ⟨rfl, 0#8, rest, rfl, fun _ => rfl⟩

section

variable {cs : List (List Byte)} {arg out : List Byte}

theorem startComponents_normal (h : ∀ c ∈ cs, NormalComponent c) : ∀ c ∈ startComponents cs arg, slash ∉ c := by
  intro c hc
  unfold startComponents at hc
  split at hc
  · simp at hc
  · exact (h c hc).2.1

/-- A resolver that returns something else than 1 has failed. -/
theorem resolves_failed {v : Int} {o : List Byte} {outsz : Nat} (hv : v ≠ 1) (hlen : o.length = outsz)
    (hno : ¬(arg ≠ [] ∧ fits outsz (startComponents cs arg) (segments slash arg) = true ∧
      (segments slash arg).foldl foldComponent (startComponents cs arg) ≠ [])) : Resolves (some (v, o)) outsz cs arg :=
  ⟨v, o, rfl, hlen, iff_of_false hv hno, fun h => absurd h hv⟩

theorem resolves_buildPath (h : ∀ c ∈ cs, NormalComponent c) (hroom : (closeAll slash cs).length < out.length) :
    Resolves (buildPath (closeAll slash cs) arg out out.length false) out.length cs arg := by
  by_cases harg : arg = []
  · rw [buildPath, if_pos harg]
    exact resolves_failed (by decide) rfl (by simp [harg])
  obtain ⟨p, o, n, hb, hseg, hlen, hlaid⟩ := buildPath_start harg hroom false
  have hloop := foldPath_spec pops_popComponent p o n _ hlaid (startComponents_normal h)
  rw [hb]
  rw [hseg, hlen] at hloop
  split at hloop
  · rename_i hfits
    obtain ⟨o', n', hf, hlen', hlaid'⟩ := hloop
    obtain ⟨o'', n'', hd, hlen'', hpos, htext⟩ := dropSlash_spec hlaid' (fun c hc => (normal_components h arg c hc).1)
    rw [hlen, hf, buildPathEnd]
    simp only [Bool.false_eq_true, if_false, hd, Option.bind_eq_bind, Option.bind_some, Option.pure_def]
    by_cases h0 : n'' = 0
    · rw [if_pos h0]
      exact resolves_failed (by decide) (by lia) (fun hall => absurd (hpos.2 hall.2.2) (by lia))
    · rw [if_neg h0]
      have hsome := hpos.1 (by lia)
      exact ⟨1, o'', rfl, by lia, by simp [harg, hfits, hsome], fun _ => htext hsome⟩
  · rename_i hfits
    obtain ⟨o', hf, hlen'⟩ := hloop
    rw [hlen, hf]
    exact resolves_failed (by decide) (by lia) (fun hall => hfits hall.2.1)

theorem resolves_pathResolve (h : ∀ c ∈ cs, NormalComponent c) (hroom : (closeAll slash cs).length + 1 < out.length) :
    Resolves (pathResolve (closeAll slash cs) arg out out.length) out.length cs arg := by
  by_cases harg : arg = []
  · rw [pathResolve, if_pos harg]
    exact resolves_failed (by decide) rfl (by simp [harg])
  obtain ⟨o, n, hb, hlen, hlaid⟩ := pathResolve_start harg hroom
  have hloop := foldPath_spec pops_pathPop arg o n _ hlaid (startComponents_normal h)
  rw [hb]
  rw [hlen] at hloop
  split at hloop
  · rename_i hfits
    obtain ⟨o', n', hf, hlen', hlaid'⟩ := hloop
    obtain ⟨o'', n'', hd, hlen'', hpos, htext⟩ := dropSlash_spec hlaid' (fun c hc => (normal_components h arg c hc).1)
    rw [hlen, hf, pathResolveEnd]
    simp only [hd, Option.bind_eq_bind, Option.bind_some, Option.pure_def]
    by_cases h0 : 0 < n''
    · rw [if_pos h0]
      exact ⟨1, o'', rfl, by lia, by simp [harg, hfits, hpos.1 h0], fun _ => htext (hpos.1 h0)⟩
    · rw [if_neg h0]
      exact resolves_failed (by decide) (by lia) (fun hall => h0 (hpos.2 hall.2.2))
  · rename_i hfits
    obtain ⟨o', hf, hlen'⟩ := hloop
    rw [hlen, hf]
    exact resolves_failed (by decide) (by lia) (fun hall => hfits hall.2.1)

end

/-! ## The result -/

/-- A path with no empty, `.` or `..` component and no `'/'` at either end. -/
def CleanPath (s : List Byte) : Prop :=
  (∀ c ∈ s.splitOn slash, c ≠ [] ∧ c ≠ [dot] ∧ c ≠ [dot, dot]) ∧ s.head? ≠ some slash ∧ s.getLast? ≠ some slash

theorem cleanPath_intercalate {cs : List (List Byte)} (h : ∀ c ∈ cs, NormalComponent c) (hne : cs ≠ []) :
    CleanPath ([slash].intercalate cs) := by
  set s := [slash].intercalate cs with hs
  have hsplit : s.splitOn slash = cs := List.splitOn_intercalate slash (fun c hc => (h c hc).2.1) hne
  have hpieces : ∀ c ∈ s.splitOn slash, c ≠ [] ∧ c ≠ [dot] ∧ c ≠ [dot, dot] := by
    intro c hc
    rw [hsplit] at hc
    exact ⟨(h c hc).1, (h c hc).2.2⟩
  refine ⟨hpieces, fun hhead => ?_, fun hlast => ?_⟩
  · obtain ⟨t, ht⟩ : ∃ t, s = slash :: t := by
      cases hs' : s with
      | nil => simp [hs'] at hhead
      | cons a t =>
        have : a = slash := by simpa [hs'] using hhead
        exact ⟨t, by rw [this]⟩
    refine (hpieces [] ?_).1 rfl
    rw [ht, List.splitOn_cons_eq_if_modifyHead]
    simp
  · obtain ⟨t, ht⟩ : ∃ t, s = t ++ slash :: [] := by
      obtain ⟨t, ht⟩ := List.getLast?_eq_some_iff.1 hlast
      exact ⟨t, ht⟩
    refine (hpieces [] ?_).1 rfl
    rw [ht, List.splitOn_append_cons_self]
    simp

theorem isName_closeAll {cs : List (List Byte)} (h : ∀ c ∈ cs, IsName c) : IsName (closeAll slash cs) := by
  intro x hx
  obtain ⟨c, hc, hx⟩ := List.mem_flatMap.1 hx
  rcases List.mem_append.1 hx with hx | hx
  · exact h c hc x hx
  · rw [List.mem_singleton.1 hx]
    decide

theorem isName_intercalate {cs : List (List Byte)} (h : ∀ c ∈ cs, IsName c) : IsName ([slash].intercalate cs) := by
  by_cases hne : cs = []
  · intro x hx
    simp [hne] at hx
  · intro x hx
    refine isName_closeAll h x ?_
    rw [closeAll_eq_intercalate slash hne]
    exact List.mem_append_left _ hx

/-- The text in the buffer is a C string. -/
theorem PathText.cstr_eq {out : List Byte} {cs : List (List Byte)} (h : PathText out cs) (hcs : ∀ c ∈ cs, IsName c) :
    cstr out = [slash].intercalate cs ∧ (cstr out).length < out.length := by
  obtain ⟨rest, hout⟩ := h
  have hname := isName_intercalate hcs
  have hc : cstr out = [slash].intercalate cs := by
    rw [hout, cstr, List.takeWhile_append_of_pos (fun c hc => by simpa using hname c hc)]
    simp
  refine ⟨hc, ?_⟩
  rw [hc, hout, List.length_append, List.length_cons]
  omega

/-- In every working directory of the shell and for every argument, the shell and both libraries write inside their buffer only,
succeed on the same arguments, and then hold one and the same path: the fold of the directory followed by the argument. -/
theorem paths_resolve_alike {cwd arg : List Byte} (hcwd : NormalDir cwd) (harg : IsName arg) {o₁ o₂ o₃ : List Byte}
    (h₁ : o₁.length = 64) (h₂ : o₂.length = 64) (h₃ : o₃.length = 64) :
    ∃ v₁ v₂ v₃ p₁ p₂ p₃, buildPath cwd arg o₁ 64 false = some (v₁, p₁) ∧ pathResolve cwd arg o₂ 64 = some (v₂, p₂) ∧
      libPathResolve cwd arg o₃ 64 = some (v₃, p₃) ∧ (p₁.length = 64 ∧ p₂.length = 64 ∧ p₃.length = 64) ∧
      (v₂ = 1 ↔ v₁ = 1) ∧ (v₃ = 1 ↔ v₁ = 1) ∧
      (v₁ = 1 → cstr p₁ = [slash].intercalate (components cwd arg) ∧ cstr p₂ = cstr p₁ ∧ cstr p₃ = cstr p₁ ∧
        CleanPath (cstr p₁) ∧ (cstr p₁).length < 64) := by
  obtain ⟨⟨cs, hcs, rfl⟩, hname, hshort⟩ := hcwd
  have hnames : ∀ c ∈ cs, IsName c := by
    intro c hc x hx
    refine hname x (List.mem_flatMap.2 ⟨c, hc, ?_⟩)
    exact List.mem_append_left _ hx
  obtain ⟨v₁, p₁, e₁, l₁, s₁, t₁⟩ := @resolves_buildPath _ arg o₁ hcs (by lia)
  obtain ⟨v₂, p₂, e₂, l₂, s₂, t₂⟩ := @resolves_pathResolve _ arg o₂ hcs (by lia)
  obtain ⟨v₃, p₃, e₃, l₃, s₃, t₃⟩ := @resolves_pathResolve _ arg o₃ hcs (by lia)
  rw [h₁] at e₁ l₁ s₁
  rw [h₂] at e₂ l₂ s₂
  rw [h₃] at e₃ l₃ s₃
  have h21 : v₂ = 1 ↔ v₁ = 1 := s₂.trans s₁.symm
  have h31 : v₃ = 1 ↔ v₁ = 1 := s₃.trans s₁.symm
  refine ⟨v₁, v₂, v₃, p₁, p₂, p₃, e₁, e₂, e₃, ⟨l₁, l₂, l₃⟩, h21, h31, fun hv => ?_⟩
  have hn := isName_components hnames harg
  obtain ⟨c₁, c₁'⟩ := (t₁ hv).cstr_eq hn
  obtain ⟨c₂, -⟩ := (t₂ (h21.2 hv)).cstr_eq hn
  obtain ⟨c₃, -⟩ := (t₃ (h31.2 hv)).cstr_eq hn
  rw [components_eq hcs, c₂, c₃]
  refine ⟨c₁, c₁.symm, c₁.symm, ?_, by lia⟩
  rw [c₁]
  exact cleanPath_intercalate (normal_components hcs arg) (s₁.1 hv).2.2

/-- `../b` in `a/`, with buffers that hold garbage. -/
theorem paths_resolve_alike_parent :
    ∃ v₁ v₂ v₃ p₁ p₂ p₃, buildPath (asciiBytes "a/") (asciiBytes "../b") (List.replicate 64 170#8) 64 false = some (v₁, p₁) ∧
      pathResolve (asciiBytes "a/") (asciiBytes "../b") (List.replicate 64 170#8) 64 = some (v₂, p₂) ∧
      libPathResolve (asciiBytes "a/") (asciiBytes "../b") (List.replicate 64 170#8) 64 = some (v₃, p₃) ∧
      (p₁.length = 64 ∧ p₂.length = 64 ∧ p₃.length = 64) ∧ (v₂ = 1 ↔ v₁ = 1) ∧ (v₃ = 1 ↔ v₁ = 1) ∧
      (v₁ = 1 → cstr p₁ = [slash].intercalate (components (asciiBytes "a/") (asciiBytes "../b")) ∧ cstr p₂ = cstr p₁ ∧
        cstr p₃ = cstr p₁ ∧ CleanPath (cstr p₁) ∧ (cstr p₁).length < 64) := by
  refine paths_resolve_alike ⟨⟨[asciiBytes "a"], ?_, by decide⟩, ?_, by decide⟩ ?_ (by simp) (by simp) (by simp)
  · intro c hc
    rw [List.mem_singleton.1 hc]
    exact ⟨by decide, by decide, by decide, by decide⟩
  · exact (by decide : ∀ c ∈ asciiBytes "a/", c ≠ 0#8)
  · exact (by decide : ∀ c ∈ asciiBytes "../b", c ≠ 0#8)

/-! ## The working directories -/

theorem normalDir_root : NormalDir [] := ⟨⟨[], by simp, rfl⟩, by simp [IsName], by simp⟩

/-- With `want_dir` set, `build_path` fails or leaves the closed components of the fold. -/
theorem buildPath_dir {cs : List (List Byte)} {arg out : List Byte} (h : ∀ c ∈ cs, NormalComponent c)
    (hroom : (closeAll slash cs).length < out.length) :
    ∃ v out', buildPath (closeAll slash cs) arg out out.length true = some (v, out') ∧
      (0 < v → ∃ rest, out' = closeAll slash ((segments slash arg).foldl foldComponent (startComponents cs arg)) ++ 0#8 :: rest) := by
  by_cases harg : arg = []
  · exact ⟨0, out, by simp [buildPath, harg], by simp⟩
  obtain ⟨p, o, n, hb, hseg, hlen, hlaid⟩ := buildPath_start harg hroom true
  have hloop := foldPath_spec pops_popComponent p o n _ hlaid (startComponents_normal h)
  rw [hb]
  rw [hseg] at hloop
  split at hloop
  · obtain ⟨o', n', hf, -, hn', e, rest, hout', hnul⟩ := hloop
    rw [hf, buildPathEnd]
    set ds := (segments slash arg).foldl foldComponent (startComponents cs arg) with hds
    by_cases hd : ds = []
    · have hn0 : n' = 0 := by simpa [hd] using hn'
      refine ⟨1, 0#8 :: rest, ?_, fun _ => ⟨rest, by simp [hd]⟩⟩
      simp [hn0, hout', hd, bufSet]
    · refine ⟨1, o', ?_, fun _ => ⟨rest, by rw [hout', hnul hd]⟩⟩
      rw [closeAll_eq_intercalate slash hd] at hn' hout'
      have hlast : o'.getD (n' - 1) 0#8 = slash := by
        rw [hout', hn', List.length_append, List.length_singleton, Nat.add_sub_cancel]
        simp [List.getD_eq_getElem?_getD]
      have hn0 : n' ≠ 0 := by rw [hn', List.length_append, List.length_singleton]; omega
      simp only [if_true, if_neg hn0, hlast, ne_eq, not_true, if_false, Option.pure_def]
  · obtain ⟨o', hf, -⟩ := hloop
    rw [hf]
    exact ⟨-1, o', rfl, by simp⟩

/-- `cd` stays inside its buffer and leaves a normal directory. -/
theorem normalDir_cmdCd {cwd arg path : List Byte} (hcwd : NormalDir cwd) (harg : IsName arg) (hpath : path.length = 64)
    (dirExists : List Byte → Bool) : ∃ cwd', cmdCd dirExists path cwd arg = some cwd' ∧ NormalDir cwd' := by
  have hcwd' := hcwd
  obtain ⟨⟨cs, hcs, rfl⟩, hname, hshort⟩ := hcwd
  obtain ⟨v, out, hb, hdir⟩ := @buildPath_dir _ arg path hcs (by omega)
  rw [hpath] at hb
  rw [cmdCd, hb]
  simp only [Option.bind_eq_bind, Option.bind_some, Option.pure_def]
  split
  · exact ⟨_, rfl, hcwd'⟩
  rename_i hv
  split
  · exact ⟨_, rfl, hcwd'⟩
  rename_i hlen
  split
  · exact ⟨_, rfl, normalDir_root⟩
  split
  · exact ⟨_, rfl, hcwd'⟩
  obtain ⟨rest, hout⟩ := hdir (by omega)
  have hnames : ∀ c ∈ cs, IsName c := fun c hc x hx => hname x (List.mem_flatMap.2 ⟨c, hc, List.mem_append_left _ hx⟩)
  have hclosed := isName_closeAll (isName_components hnames harg)
  have hstr : out.takeWhile (· != 0#8) = closeAll slash ((segments slash arg).foldl foldComponent (startComponents cs arg)) := by
    rw [hout, List.takeWhile_append_of_pos (fun c hc => by simpa using hclosed c hc)]
    simp
  rw [hstr] at hlen ⊢
  refine ⟨_, rfl, ⟨⟨_, normal_components hcs arg, rfl⟩, hclosed, ?_⟩⟩
  simpa [nameMax] using hlen

/-- One `cd` command: the directories there are, what the buffer held, and the argument. -/
structure Cd where
  dirExists : List Byte → Bool
  path : List Byte
  arg : List Byte
  path_length : path.length = 64
  arg_isName : IsName arg

/-- The working directory after a list of `cd` commands. -/
def runCds : List Byte → List Cd → Option (List Byte)
  | cwd, [] => some cwd
  | cwd, c :: cds => (cmdCd c.dirExists c.path cwd c.arg).bind fun cwd => runCds cwd cds

/-- Every working directory reached from the root is normal. -/
theorem normalDir_runCds (cds : List Cd) : ∀ {cwd}, NormalDir cwd → ∃ cwd', runCds cwd cds = some cwd' ∧ NormalDir cwd' := by
  induction cds with
  | nil => intro cwd h; exact ⟨cwd, rfl, h⟩
  | cons c cds ih =>
    intro cwd h
    obtain ⟨cwd', hcd, h'⟩ := normalDir_cmdCd h c.arg_isName c.path_length c.dirExists
    obtain ⟨cwd'', hrun, h''⟩ := ih h'
    exact ⟨cwd'', by rw [runCds, hcd, Option.bind_some, hrun], h''⟩

end MiniOs32
