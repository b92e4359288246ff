import MiniOs32.Theorems.UserPages

/-!
# Device windows between programs

`SYS_MAP_PHYS` and `SYS_DMA_ALLOC` map pages of two bands of the user window for the program that asks. `exec_user` resets the
two counters and leaves the page tables alone, so whatever was ever mapped in the bands is there when the next program starts.
The bands are empty at that point exactly when no call since boot asked for anything an empty band grants.
-/

namespace MiniOs32

/-- No page of the user MMIO and DMA bands is mapped. -/
def Paging.WindowsClear (s : Paging) : Prop :=
  ∀ x, (userMmioOffset ≤ x ∧ x < userMmioOffset + userMmioSize) ∨ (userDmaOffset ≤ x ∧ x < userDmaOffset + userDmaSize) →
    s.tables.present (userBase + x) = false

/-- What the call asks for is granted while nothing of its band is taken. -/
def MapOp.grantable : MapOp → Bool
  | .mapPhys phys size => decide (size.toNat ≠ 0 ∧ size.toNat ≤ userMmioSize ∧ physSpan phys size ≤ userMmioSize)
  | .dmaAlloc ebx out =>
    decide ((dmaSize ebx).toNat ≠ 0 ∧ (dmaSize ebx).toNat ≤ userDmaSize) && userRangeOk out 8#32
  | .framebuffer _ => false
  | .exec => false

/-- Nothing of the two bands has been handed out since boot. -/
def Paging.Untaken (s : Paging) : Prop := s.mmioTop = 0 ∧ s.dmaTop = 0

/-- The bands are clear exactly when nothing of them has been handed out. -/
theorem PagingInv.windowsClear_iff {s : Paging} (h : PagingInv s) : s.WindowsClear ↔ s.Untaken := by
  obtain ⟨hfb, -⟩ := h.fb
  obtain ⟨hmmio, -⟩ := h.mmio
  obtain ⟨hdma, -⟩ := h.dma
  have habsent : ∀ x < userSpaceSize, (s.tables.present (userBase + x) = false ↔ ¬s.Mapped x) := by
    intro x hx
    rw [← h.tables x hx, Bool.not_eq_true]
  simp only [userSpaceSize_eq, Paging.Mapped] at habsent
  simp only [userFbSize_eq, userMmioSize_eq, userDmaSize_eq] at hfb hmmio hdma
  simp only [Paging.WindowsClear, userMmioOffset_eq, userMmioSize_eq, userDmaOffset_eq, userDmaSize_eq]
  simp only [userFbOffset_eq, userMmioOffset_eq, userDmaOffset_eq] at habsent
  constructor
  · intro hc
    have hm := (habsent 41943040 (by lia)).1 (hc 41943040 (by lia))
    have hd := (habsent 58720256 (by lia)).1 (hc 58720256 (by lia))
    exact ⟨by lia, by lia⟩
  · rintro ⟨hm, hd⟩ x hx
    refine (habsent x (by lia)).2 ?_
    lia

/-- A page span of a call that asks for something is not empty. -/
theorem physSpan_pos (phys : U64) {size : U32} (h : size.toNat ≠ 0) : 0 < physSpan phys size := by
  simp only [physSpan, pagesOf, pageSize_eq]
  omega

/-- From a map whose bands are untaken, a step takes something of them exactly when it asks for something grantable. -/
theorem PagingInv.untaken_step_iff {s : Paging} (h : PagingInv s) (hu : s.Untaken) (op : MapOp) :
    (s.step op).Untaken ↔ op.grantable = false := by
  obtain ⟨hm, hd⟩ := hu
  have hmu : s.mmioUsed = 0 := by have := h.mmio.2.2.1; lia
  have hdu : s.dmaUsed = 0 := by have := h.dma.2.2.1; lia
  cases op with
  | framebuffer m =>
    have hkeep : (s.mapUserFramebuffer m).Untaken := by
      unfold Paging.mapUserFramebuffer
      split <;> exact ⟨hm, hd⟩
    exact ⟨fun _ => rfl, fun _ => hkeep⟩
  | exec => exact ⟨fun _ => rfl, fun _ => ⟨hm, hd⟩⟩
  | mapPhys phys size =>
    simp only [Paging.step, Paging.sysMapPhys, MapOp.grantable, hmu, Nat.sub_zero, decide_eq_false_iff_not]
    by_cases hsize : size.toNat = 0 ∨ userMmioSize < size.toNat
    · rw [if_pos hsize]
      exact ⟨fun _ => by lia, fun _ => ⟨hm, hd⟩⟩
    · rw [if_neg hsize]
      have hpos := physSpan_pos phys (fun h0 => hsize (Or.inl h0))
      by_cases hspan : userMmioSize < physSpan phys size
      · rw [if_pos hspan]
        exact ⟨fun _ => by lia, fun _ => ⟨hm, hd⟩⟩
      · rw [if_neg hspan]
        simp only [Paging.Untaken]
        lia
  | dmaAlloc ebx out =>
    simp only [Paging.step, Paging.sysDmaAlloc, Paging.dmaGranted, MapOp.grantable, hdu, Nat.sub_zero]
    cases hout : userRangeOk out 8#32 with
    | false => simp [Paging.Untaken, hm, hd]
    | true =>
      simp only [Bool.and_true, decide_eq_true_eq, decide_eq_false_iff_not]
      by_cases hsize : (dmaSize ebx).toNat ≠ 0 ∧ (dmaSize ebx).toNat ≤ userDmaSize
      · rw [if_pos ⟨hsize.1, hsize.2, hsize.2⟩]
        simp only [Paging.Untaken]
        lia
      · rw [if_neg (fun hc => hsize ⟨hc.1, hc.2.1⟩)]
        exact ⟨fun _ => hsize, fun _ => ⟨hm, hd⟩⟩

/-- What has been taken of a band is never given back: the tops only grow. -/
theorem Paging.tops_step (s : Paging) (op : MapOp) : s.mmioTop ≤ (s.step op).mmioTop ∧ s.dmaTop ≤ (s.step op).dmaTop := by
  cases op with
  | framebuffer m =>
    simp only [Paging.step, Paging.mapUserFramebuffer]
    split <;> exact ⟨Nat.le_refl _, Nat.le_refl _⟩
  | mapPhys phys size =>
    simp only [Paging.step, Paging.sysMapPhys]
    split
    · exact ⟨Nat.le_refl _, Nat.le_refl _⟩
    · split
      · exact ⟨Nat.le_refl _, Nat.le_refl _⟩
      · exact ⟨Nat.le_max_left _ _, Nat.le_refl _⟩
  | dmaAlloc ebx out =>
    simp only [Paging.step, Paging.sysDmaAlloc]
    split
    · exact ⟨Nat.le_refl _, Nat.le_max_left _ _⟩
    · exact ⟨Nat.le_refl _, Nat.le_refl _⟩
  | exec => exact ⟨Nat.le_refl _, Nat.le_refl _⟩

/-- Something taken stays taken along every run. -/
theorem Paging.taken_runFrom {s : Paging} (h : ¬s.Untaken) (ops : List MapOp) : ¬(runFrom Paging.step s ops).Untaken := by
  refine @inv_runFrom_all _ _ Paging.step (fun s => ¬s.Untaken) (fun s op hs hu => ?_) _ h ops
  obtain ⟨hm, hd⟩ := s.tops_step op
  obtain ⟨hm', hd'⟩ := hu
  exact hs ⟨by lia, by lia⟩

/-- Along every run from untaken bands: they are untaken at its end exactly when nothing grantable was asked for. -/
theorem PagingInv.untaken_run_iff (ops : List MapOp) : ∀ {s : Paging}, PagingInv s → s.Untaken →
    ((runFrom Paging.step s ops).Untaken ↔ ∀ op ∈ ops, op.grantable = false) := by
  induction ops with
  | nil => intro s _ hu; simpa using hu
  | cons op ops ih =>
    intro s h hu
    rw [runFrom_cons, List.forall_mem_cons]
    by_cases hop : op.grantable = false
    · rw [ih (pagingInv_step s op h) ((h.untaken_step_iff hu op).2 hop)]
      exact ⟨fun hops => ⟨hop, hops⟩, fun hops => hops.2⟩
    · have htaken : ¬(s.step op).Untaken := fun hc => hop ((h.untaken_step_iff hu op).1 hc)
      exact ⟨fun hc => absurd hc (Paging.taken_runFrom htaken ops), fun hc => absurd hc.1 hop⟩

/-- Boot hands nothing of the two bands out. -/
theorem Paging.untaken_init (t : PageTables) (mode : FbMode) : (Paging.init t mode).Untaken := by
  unfold Paging.init Paging.mapUserFramebuffer
  split <;> exact ⟨rfl, rfl⟩

/-- After boot in any mode, with any programs, mode changes and driver calls so far: when `exec_user` starts the next program, no
page of the MMIO and DMA bands is mapped exactly when every `SYS_MAP_PHYS` and `SYS_DMA_ALLOC` since boot asked for something
that even an empty band refuses. -/
theorem windows_given_back_iff_noneGrantable (t : PageTables) (mode : FbMode) (ops : List MapOp) :
    (runFrom Paging.step (Paging.init t mode) (ops ++ [MapOp.exec])).WindowsClear ↔ ∀ op ∈ ops, op.grantable = false := by
  have hinv : PagingInv (Paging.init t mode) := pagingInv_run t mode []
  rw [(pagingInv_run t mode (ops ++ [MapOp.exec])).windowsClear_iff, hinv.untaken_run_iff _ (Paging.untaken_init t mode)]
  constructor
  · intro h op hop
    exact h op (List.mem_append_left _ hop)
  · intro h op hop
    rcases List.mem_append.1 hop with hop | hop
    · exact h op hop
    · rw [List.mem_singleton.1 hop]
      rfl

/-- A program maps one page of device registers; the page is still mapped when the next program starts. -/
theorem windows_given_back_false :
    ¬∀ (t : PageTables) (mode : FbMode) (ops : List MapOp),
      (runFrom Paging.step (Paging.init t mode) (ops ++ [MapOp.exec])).WindowsClear := by
  intro h
  have hclear := h (fun _ => none) bootMode [.exec, .mapPhys 0xFEB00000#64 4096#32]
  have huntaken := (pagingInv_run (fun _ => none) bootMode _).windowsClear_iff.1 hclear
  have hinv : PagingInv (Paging.init (fun _ => none) bootMode) := pagingInv_run (fun _ => none) bootMode []
  have hall := (hinv.untaken_run_iff _ (Paging.untaken_init (fun _ => none) bootMode)).1 huntaken
  have hgrant : (MapOp.mapPhys 0xFEB00000#64 4096#32).grantable = true := by decide
  have hrefused := hall (.mapPhys 0xFEB00000#64 4096#32) (by simp)
  rw [hgrant] at hrefused
  cases hrefused

end MiniOs32
