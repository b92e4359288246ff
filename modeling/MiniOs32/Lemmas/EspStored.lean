import MiniOs32.Lemmas.EspBuild

/-!
# A tree that is stored

What a directory looks like when it is entered and when it is built, and that building keeps what is built.
-/

namespace MiniOs32

namespace Fat32

/-! ## A directory that is entered -/

/-- The children of a directory have clusters from one on: the files are there, the subdirectories are empty. -/
inductive Entered (s : Fat32) : Nat → FileTree → List (List Byte) → List Nat → Nat → Prop
  | nil (lo : Nat) : Entered s lo .nil [] [] lo
  | empty {lo hi x rest e es cs} (he : entryFor x 0x20#8 0 0 = some e) (hrest : Entered s lo rest es cs hi) :
    Entered s lo (.file x [] rest) (e :: es) cs hi
  | file {lo hi x blob rest e es cs} (he : entryFor x 0x20#8 lo blob.length = some e) (hne : blob ≠ []) (hat : s.FileAt lo blob)
    (hrest : Entered s (lo + clustersFor blob.length) rest es cs hi) : Entered s lo (.file x blob rest) (e :: es) cs hi
  | dir {lo hi x sub rest e es cs} (he : entryFor x 0x10#8 lo 0 = some e) (hat : s.EmptyAt lo) (hrest : Entered s (lo + 1) rest es cs hi) :
    Entered s lo (.dir x sub rest) (e :: es) (lo :: cs) hi

section Entered

variable {s s' : Fat32} {lo hi : Nat} {t : FileTree} {es : List (List Byte)} {cs : List Nat}

theorem Entered.le (h : s.Entered lo t es cs hi) : lo ≤ hi ∧ ∀ c ∈ cs, lo ≤ c ∧ c < hi := by
  induction h with
  | nil lo => exact ⟨le_rfl, nofun⟩
  | empty he hrest ih => exact ih
  | file he hne hat hrest ih =>
    refine ⟨(Nat.le_add_right _ _).trans ih.1, fun c hc => ?_⟩
    obtain ⟨h1, h2⟩ := ih.2 c hc
    exact ⟨(Nat.le_add_right _ _).trans h1, h2⟩
  | dir he hat hrest ih =>
    refine ⟨by omega, fun c hc => ?_⟩
    rcases List.mem_cons.mp hc with rfl | hc
    · omega
    · have := ih.2 c hc
      omega

theorem Entered.congr (h : s.Entered lo t es cs hi) (hc : s'.clusters = s.clusters) (hsame : ∀ c, lo ≤ c → c < hi → s.SameAt s' c) :
    s'.Entered lo t es cs hi := by
  induction h with
  | nil lo => exact .nil lo
  | empty he hrest ih => exact .empty he (ih hsame)
  | @file lo hi x blob rest e es cs he hne hat hrest ih =>
    have hle := hrest.le.1
    exact .file he hne (hat.congr hc fun d h1 h2 => hsame d h1 (h2.trans_le hle)) (ih fun c h1 h2 => hsame c (by lia) h2)
  | @dir lo hi x sub rest e es cs he hat hrest ih =>
    have hle := hrest.le.1
    exact .dir he (hat.congr hc (hsame lo le_rfl (by lia))) (ih fun c h1 h2 => hsame c (by lia) h2)

/-- The loop over the children of a directory. -/
theorem enterChildren_spec (hs : s.Free) (h : s.enterChildren t = some (es, cs, s')) :
    s.Later s' [] ∧ s'.Entered s.nextFree t es cs s'.nextFree := by
  induction t generalizing s es cs s' with
  | nil =>
    cases h
    exact ⟨.refl hs, .nil _⟩
  | file x blob rest ih =>
    rw [enterChildren] at h
    obtain ⟨⟨c, s₁⟩, h₁, h⟩ := Option.bind_eq_some_iff.mp h
    obtain ⟨e, he, h⟩ := Option.bind_eq_some_iff.mp h
    obtain ⟨⟨es, cs, s₂⟩, h₂, h⟩ := Option.bind_eq_some_iff.mp h
    cases h
    rw [storeFile] at h₁
    split at h₁
    · next hb =>
      subst hb
      cases h₁
      obtain ⟨hlater, hin⟩ := ih hs h₂
      exact ⟨hlater, .empty he hin⟩
    · next hb =>
      obtain ⟨⟨c, s₀⟩, h₀, hs₁⟩ := Option.map_eq_some_iff.mp h₁
      cases hs₁
      obtain ⟨hlater, hat, rfl, hnext⟩ := writeFile hs h₀
      obtain ⟨hlater', hin⟩ := ih hlater.free h₂
      rw [hnext] at hin
      have hlow := hs.low
      refine ⟨hlater.trans hlater' nofun, .file he hb (hat.congr hlater'.clusters fun d h1 h2 => ?_) hin⟩
      exact hlater'.same d (by omega) (by omega) List.not_mem_nil
  | dir x sub rest _ ih =>
    rw [enterChildren] at h
    obtain ⟨⟨c, s₁⟩, h₁, h⟩ := Option.bind_eq_some_iff.mp h
    obtain ⟨e, he, h⟩ := Option.bind_eq_some_iff.mp h
    obtain ⟨⟨es, cs, s₂⟩, h₂, h⟩ := Option.bind_eq_some_iff.mp h
    cases h
    obtain ⟨hlater, hat, rfl, hnext⟩ := allocDir hs h₁
    obtain ⟨hlater', hin⟩ := ih hlater.free h₂
    rw [hnext] at hin
    have hlow := hs.low
    exact ⟨hlater.trans hlater' nofun, .dir he (hat.congr hlater'.clusters (hlater'.same _ hlow (by omega) List.not_mem_nil)) hin⟩

/-- A directory up to its subdirectories. -/
theorem writeDir_spec {dots : List (List Byte)} {self : Nat} (hs : s.Free) (hself : s.EmptyAt self) (hlt : self < s.nextFree)
    (h : s.writeDir dots self t = some (cs, s')) :
    s.Later s' [self] ∧ ∃ es, s'.DirAt self (dots ++ es) ∧ s'.Entered s.nextFree t es cs s'.nextFree := by
  rw [writeDir] at h
  obtain ⟨⟨es, cs, s₁⟩, h₁, h⟩ := Option.bind_eq_some_iff.mp h
  obtain ⟨hlater, hin⟩ := enterChildren_spec hs h₁
  dsimp only at h
  split at h
  · cases h
  · next hroom =>
    cases h
    have hlow := hself.low
    have hempty := hself.congr hlater.clusters (hlater.same self hlow hlt List.not_mem_nil)
    obtain ⟨hlater', hdir⟩ := writeBlock hlater.free hempty (hlt.trans_le hlater.next) (not_lt.mp hroom)
    have hfree := hs.low
    refine ⟨(hlater.mono nofun).trans hlater' fun d hd _ => hd, es, hdir, hin.congr rfl fun c h1 h2 => ?_⟩
    refine hlater'.same c (by omega) h2 fun hc => ?_
    rw [List.mem_singleton] at hc
    omega

end Entered

/-! ## A directory that is built -/

/-- The children of a directory are all there. -/
inductive Stored (s : Fat32) : FileTree → List (List Byte) → Prop
  | nil : Stored s .nil []
  | empty {x rest e es} (he : entryFor x 0x20#8 0 0 = some e) (hrest : Stored s rest es) : Stored s (.file x [] rest) (e :: es)
  | file {x blob rest c e es} (he : entryFor x 0x20#8 c blob.length = some e) (hne : blob ≠ []) (hat : s.FileAt c blob)
    (hrest : Stored s rest es) : Stored s (.file x blob rest) (e :: es)
  | dir {x sub rest c parent dots e es es'} (he : entryFor x 0x10#8 c 0 = some e) (hdots : dotEntries c parent = some dots)
    (hat : s.DirAt c (dots ++ es')) (hsub : Stored s sub es') (hrest : Stored s rest es) : Stored s (.dir x sub rest) (e :: es)

section Stored

variable {s s' : Fat32} {lo hi : Nat} {t : FileTree} {es : List (List Byte)} {cs : List Nat}

/-- Building the subdirectories of a directory writes to their clusters and to new ones. -/
theorem buildSubs_later {self : Nat} (hs : s.Free) (hin : s.Entered lo t es cs hi) (hhi : hi ≤ s.nextFree) (h : s.buildSubs self t cs = some s') :
    s.Later s' cs := by
  induction t generalizing s s' lo hi es cs self with
  | nil =>
    cases hin
    cases h
    exact .refl hs
  | file x blob rest ih =>
    cases hin with
    | empty he hrest => exact ih hs hrest hhi h
    | file he hne hat hrest => exact ih hs hrest hhi h
  | dir x sub rest ihsub ihrest =>
    cases hin with
    | @dir _ _ _ _ _ e es cs he hat hrest =>
      rw [buildSubs] at h
      obtain ⟨dots, hdots, h⟩ := Option.bind_eq_some_iff.mp h
      obtain ⟨⟨cs', s₁⟩, h₁, h⟩ := Option.bind_eq_some_iff.mp h
      obtain ⟨s₂, h₂, h⟩ := Option.bind_eq_some_iff.mp h
      have hle := hrest.le
      have hlow := hat.low
      obtain ⟨hlater₁, es', hdir, hin'⟩ := writeDir_spec hs hat (by omega) h₁
      have hlater₂ := ihsub hlater₁.free hin' le_rfl h₂
      have hcs' := hin'.le.2
      have hlater : s.Later s₂ [lo] := hlater₁.trans hlater₂ fun d hd hlt => by
        have := hcs' d hd
        omega
      have hrest' : s₂.Entered (lo + 1) rest es cs hi := hrest.congr hlater.clusters fun c h1 h2 =>
        hlater.same c (by omega) (by omega) fun hc => by
          rw [List.mem_singleton] at hc
          omega
      have hlater₃ := ihrest hlater.free hrest' (hhi.trans hlater.next) h
      exact (hlater.mono (fun c hc => List.mem_singleton.mp hc ▸ List.mem_cons_self)).trans hlater₃ fun d hd _ => List.mem_cons_of_mem _ hd

/-- Where a directory is entered and its subdirectories are built, its children are there in every state in which the clusters are the
same. -/
theorem buildSubs_stored {self : Nat} {sf : Fat32} (hs : s.Free) (hin : s.Entered lo t es cs hi) (hhi : hi ≤ s.nextFree) (hlo : 2 ≤ lo)
    (h : s.buildSubs self t cs = some s') (hc : sf.clusters = s'.clusters)
    (hsame : ∀ c, lo ≤ c ∧ c < hi ∨ s.nextFree ≤ c ∧ c < s'.nextFree → s'.SameAt sf c) : sf.Stored t es := by
  induction t generalizing s s' lo hi es cs self with
  | nil =>
    cases hin
    exact .nil
  | file x blob rest ih =>
    cases hin with
    | empty he hrest => exact .empty he (ih hs hrest hhi hlo h hc hsame)
    | file he hne hat hrest =>
      have hlater := buildSubs_later hs hrest hhi h
      have hle := hrest.le
      refine .file he hne (hat.congr (hc.trans hlater.clusters) fun d h1 h2 => ?_)
        (ih hs hrest hhi (by lia) h hc fun c hc' => hsame c (by lia))
      refine (hlater.same d (by lia) (by lia) fun hd => ?_).trans (hsame d (by lia))
      have := hle.2 d hd
      lia
  | dir x sub rest ihsub ihrest =>
    cases hin with
    | @dir _ _ _ _ _ e es cs he hat hrest =>
      rw [buildSubs] at h
      obtain ⟨dots, hdots, h⟩ := Option.bind_eq_some_iff.mp h
      obtain ⟨⟨cs', s₁⟩, h₁, h⟩ := Option.bind_eq_some_iff.mp h
      obtain ⟨s₂, h₂, h⟩ := Option.bind_eq_some_iff.mp h
      have hle := hrest.le
      have hfree := hs.low
      obtain ⟨hlater₁, es', hdir, hin'⟩ := writeDir_spec hs hat (by lia) h₁
      have hlater₂ := buildSubs_later hlater₁.free hin' le_rfl h₂
      have hcs' := hin'.le.2
      have hlater : s.Later s₂ [lo] := hlater₁.trans hlater₂ fun d hd hlt => by
        have := hcs' d hd
        lia
      have hrest' : s₂.Entered (lo + 1) rest es cs hi := hrest.congr hlater.clusters fun c h1 h2 =>
        hlater.same c (by lia) (by lia) fun hc => by
          rw [List.mem_singleton] at hc
          lia
      have hlater₃ := buildSubs_later hlater.free hrest' (hhi.trans hlater.next) h
      have hnext₁ := hlater₁.next
      have hnext₂ := hlater₂.next
      have hnext₃ := hlater₃.next
      -- the directory and what is below it are not touched by its siblings
      have hkept : ∀ c, c = lo ∨ s.nextFree ≤ c ∧ c < s₂.nextFree → s₂.SameAt sf c := fun c hc' =>
        (hlater₃.same c (by lia) (by lia) fun hd => by
          have := hle.2 c hd
          lia).trans (hsame c (by lia))
      have hdir' : sf.DirAt lo (dots ++ es') := by
        refine hdir.congr (hc.trans (hlater₃.clusters.trans hlater₂.clusters)) ?_
        refine (hlater₂.same lo hlo (by lia) fun hd => ?_).trans (hkept lo (.inl rfl))
        have := hcs' lo hd
        lia
      refine .dir he hdots hdir' (ihsub hlater₁.free hin' le_rfl hfree h₂ (hc.trans hlater₃.clusters) fun c hc' => hkept c (by lia))
        (ihrest hlater.free hrest' (hhi.trans hlater.next) (by lia) h hc fun c hc' => hsame c (by lia))

/-- The whole tree. -/
theorem buildRoot_stored {root : Nat} (hs : s.Free) (hroot : s.EmptyAt root) (hlt : root < s.nextFree) (h : s.buildRoot root t = some s') :
    s.Later s' [root] ∧ ∃ es, s'.DirAt root es ∧ s'.Stored t es := by
  rw [buildRoot] at h
  obtain ⟨⟨cs, s₁⟩, h₁, h⟩ := Option.bind_eq_some_iff.mp h
  obtain ⟨hlater₁, es, hdir, hin⟩ := writeDir_spec hs hroot hlt h₁
  have hlater₂ := buildSubs_later hlater₁.free hin le_rfl h
  have hcs := hin.le.2
  have hnext := hlater₁.next
  refine ⟨hlater₁.trans hlater₂ fun d hd hd' => ?_, es, hdir.congr hlater₂.clusters (hlater₂.same root hroot.low (by omega) fun hd => ?_),
    buildSubs_stored hlater₁.free hin le_rfl hs.low h rfl fun c _ => .refl _ c⟩
  · have := hcs d hd
    omega
  · have := hcs root hd
    omega

end Stored

end Fat32

end MiniOs32
