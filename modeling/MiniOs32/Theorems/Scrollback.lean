import MiniOs32.Lib.PhaseRing
import MiniOs32.Lib.Run
import MiniOs32.Lemmas.Console

/-!
# Scrollback

On a framebuffer with at most 320 columns and 100 rows, behind any output and any moves of the view, the ring holds the last lines that
left the top of the grid and the screen shows the lines of history and grid at which the view stands; output goes on as if the view had
never been moved (`scrollback_right`).
-/

namespace MiniOs32

/-- A byte of output, or a move of the view. -/
inductive ViewOp where
  | out (c : Byte)
  | move (delta : Int)

/-- The operation is output. -/
def ViewOp.isOut : ViewOp → Bool
  | .out _ => true
  | .move _ => false

namespace Console

/-- A step of output and viewing. -/
def viewStep (s : Console) : ViewOp → Console
  | .out c => s.vgaPutc c
  | .move delta => s.consoleView delta

/-- The lines the ring holds, the oldest first. -/
def history (s : Console) : List CellLine :=
  (List.range s.histCount).map fun k => cellLine s.histCells ((s.histNext + histRows - s.histCount + k) % histRows)

/-- The rows of the grid. -/
def liveLines (s : Console) : List CellLine := (List.range s.fbRows.toNat).map (cellLine s.fbCells)

/-- The lines a view can show. -/
def stream (s : Console) : List CellLine := s.history ++ s.liveLines

end Console

/-- A framebuffer console with a grid the cells hold, and no history. -/
structure NewConsole (s : Console) : Prop where
  enabled : s.fbEnabled = true
  mapped : s.gfxLfb ≠ 0#32
  bytes : s.fbBytes = 1#32 ∨ s.fbBytes = 4#32
  cols : s.fbCols.toNat ≤ fbCellCols
  rows : s.fbRows.toNat ≤ fbCellRows
  next : s.histNext = 0
  count : s.histCount = 0
  past : s.past = []

/-- The view is within the history, the history is the end of what has left the grid, and a row shown is the line at which the view
stands. -/
structure ScrollsRight (s : Console) : Prop where
  view : s.viewOff ≤ s.histCount ∧ s.histCount ≤ histRows
  history : s.history = s.past.drop (s.past.length - s.histCount)
  full : s.histCount = if s.past.length < histRows then s.past.length else histRows
  shown : ∀ row < s.fbRows.toNat, ∀ col : Fin fbCellCols, col < s.fbCols.toNat → s.Drawn col row →
    ∃ line, s.stream[s.histCount + row - s.viewOff]? = some line ∧ s.screen row col = s.glyphOf (line col)

namespace Console

variable {s s' t : Console} {c : Byte} {col row : Nat}

/-! ## The invariant -/

/-- The ring and the screen are what the code takes them for. -/
structure Scrolled (s : Console) : Prop where
  enabled : s.fbEnabled = true
  mapped : s.gfxLfb ≠ 0#32
  cols : s.fbCols.toNat ≤ fbCellCols
  rows : s.fbRows.toNat ≤ fbCellRows
  view : s.viewOff ≤ s.histCount
  full : s.histCount = if s.past.length < histRows then s.past.length else histRows
  next : s.histNext = s.past.length % histRows
  ring : KeepsLast histRows (cellLine s.histCells) s.past
  shown : ∀ row < s.fbRows.toNat, ∀ col < s.fbCols.toNat, s.Drawn col row → s.screen row col = s.glyphOf (s.viewCell row col)

/-- A saved line is the line that many behind the oldest one saved. -/
theorem Scrolled.saved (h : Scrolled s) {k : Nat} (hk : k < s.histCount) : ∃ hn : s.past.length - s.histCount + k < s.past.length,
    cellLine s.histCells ((s.histNext + histRows - s.histCount + k) % histRows) = s.past[s.past.length - s.histCount + k] := by
  have hfull := h.full
  have hnext := h.next
  unfold histRows at *
  have hle : s.histCount ≤ s.past.length ∧ s.histCount ≤ 512 := by
    split at hfull <;> omega
  have hlast : s.past.length ≤ s.past.length - s.histCount + k + 512 := by
    split at hfull <;> omega
  have hslot : (s.histNext + 512 - s.histCount + k) % 512 = (s.past.length - s.histCount + k) % 512 := by omega
  refine ⟨by omega, ?_⟩
  rw [hslot]
  exact h.ring _ (by omega) hlast

theorem Scrolled.history_eq (h : Scrolled s) : s.history = s.past.drop (s.past.length - s.histCount) := by
  have hle : s.histCount ≤ s.past.length := by
    have hfull := h.full
    split at hfull <;> omega
  apply List.ext_getElem
  · unfold history
    rw [List.length_map, List.length_range, List.length_drop]
    omega
  · intro k hk hk'
    unfold history at hk ⊢
    rw [List.length_map, List.length_range] at hk
    obtain ⟨hn, hline⟩ := h.saved hk
    rw [List.getElem_map, List.getElem_range, List.getElem_drop, hline]

/-- A cell of the view is that of the line at which the view stands. -/
theorem Scrolled.viewCell_eq (h : Scrolled s) (hrow : row < s.fbRows.toNat) (col : Fin fbCellCols) :
    ∃ line, s.stream[s.histCount + row - s.viewOff]? = some line ∧ s.viewCell row col = line col := by
  have hview := h.view
  have hrows := h.rows
  have hlen : s.history.length = s.histCount := by
    unfold history
    rw [List.length_map, List.length_range]
  unfold stream viewCell
  simp only
  by_cases hidx : s.histCount + row - s.viewOff < s.histCount
  · rw [if_pos hidx, List.getElem?_append_left (by rw [hlen]; exact hidx)]
    unfold history
    rw [List.getElem?_map, List.getElem?_range hidx]
    exact ⟨_, rfl, rfl⟩
  · rw [if_neg hidx, List.getElem?_append_right (by rw [hlen]; exact not_lt.mp hidx), hlen]
    have hlive : s.histCount + row - s.viewOff - s.histCount < s.fbRows.toNat := by omega
    unfold liveLines fbCellGet
    rw [List.getElem?_map, List.getElem?_range hlive, if_pos ⟨hlive.trans_le hrows, col.2⟩]
    exact ⟨_, rfl, rfl⟩

theorem Scrolled.right (h : Scrolled s) : ScrollsRight s := by
  refine ⟨⟨h.view, ?_⟩, h.history_eq, h.full, ?_⟩
  · have hfull := h.full
    split at hfull <;> omega
  · intro row hrow col hcol hdrawn
    obtain ⟨line, hline, hcell⟩ := h.viewCell_eq hrow col
    exact ⟨line, hline, by rw [h.shown row hrow col hcol hdrawn, hcell]⟩

/-! ## The live view -/

/-- The live view shows the grid. -/
theorem viewCell_live (h : s.viewOff = 0) (row col : Nat) : s.viewCell row col = s.fbCellGet row col := by
  unfold viewCell
  simp only
  rw [if_neg (by omega)]
  congr 1
  omega

/-- A cell of the live view is shown if that of the grid is. -/
theorem shown_live (h : s.viewOff = 0) (hshown : s.screen row col = s.glyphOf (s.fbCellGet row col)) :
    s.screen row col = s.glyphOf (s.viewCell row col) := by
  rw [viewCell_live h, hshown]

theorem painted_shown (s : Console) (text : Nat → Nat → Byte) (hrow : row < s.fbRows.toNat) (hcol : col < s.fbCols.toNat)
    (hdrawn : s.Drawn col row) : s.painted text row col = s.glyphOf (text row col) := if_pos ⟨hrow, hcol, hdrawn⟩

theorem consoleViewLive_eq (s : Console) : s.consoleViewLive =
    { s with viewOff := 0, screen := if s.viewOff = 0 then s.screen else s.painted s.fbCellGet } := by
  unfold consoleViewLive
  by_cases h : s.viewOff = 0
  · rw [if_pos h, if_pos h, ← h]
  · rw [if_neg h, if_neg h, fbRepaint_eq]
    rfl

theorem Scrolled.live (h : Scrolled s) : Scrolled s.consoleViewLive := by
  rw [consoleViewLive_eq]
  refine ⟨h.enabled, h.mapped, h.cols, h.rows, Nat.zero_le _, h.full, h.next, h.ring, ?_⟩
  intro row hrow col hcol hdrawn
  rw [viewCell_live rfl]
  by_cases hoff : s.viewOff = 0
  · simp only [if_pos hoff]
    rw [h.shown row hrow col hcol hdrawn, viewCell_live hoff]
    rfl
  · simp only [if_neg hoff]
    exact painted_shown s _ hrow hcol hdrawn

theorem viewOff_consoleViewLive (s : Console) : s.consoleViewLive.viewOff = 0 := by rw [consoleViewLive_eq]

theorem consoleViewLive_of_live (h : s.viewOff = 0) : s.consoleViewLive = s := if_pos h

/-! ## Output -/

/-- Moving the cursor touches neither the ring nor the screen. -/
theorem Scrolled.cursor (h : Scrolled s) (x y : Byte) : Scrolled { s with curX := x, curY := y } :=
  ⟨h.enabled, h.mapped, h.cols, h.rows, h.view, h.full, h.next, h.ring, h.shown⟩

/-- The top line saved goes into the next slot. -/
theorem cellLine_saveTop (s : Console) : cellLine s.saveTop.histCells = setSlot (cellLine s.histCells) s.histNext (cellLine s.fbCells 0) := by
  funext slot c
  have hc : c.val < fbCellCols := c.2
  change (if s.histNext * fbCellCols ≤ slot * fbCellCols + c.val ∧ slot * fbCellCols + c.val < s.histNext * fbCellCols + fbCellCols
    then s.fbCells (slot * fbCellCols + c.val - s.histNext * fbCellCols) else s.histCells (slot * fbCellCols + c.val)) =
      (if slot = s.histNext then cellLine s.fbCells 0 else cellLine s.histCells slot) c
  unfold fbCellCols at hc ⊢
  by_cases hslot : slot = s.histNext
  · rw [if_pos (by omega), if_pos hslot, hslot, Nat.add_sub_cancel_left]
    unfold cellLine
    rw [Nat.zero_mul, Nat.zero_add]
  · rw [if_neg (by omega), if_neg hslot]
    rfl

theorem Scrolled.scroll (h : Scrolled s) (hview : s.viewOff = 0) : Scrolled s.vgaScroll := by
  unfold vgaScroll
  rw [if_pos h.enabled]
  split
  · exact h
  · rw [if_neg h.mapped, fbRepaint_eq]
    refine ⟨h.enabled, h.mapped, h.cols, h.rows, ?_, ?_, ?_, ?_, ?_⟩
    · exact hview.le.trans (Nat.zero_le _)
    · have hfull := h.full
      unfold shiftRows saveTop
      simp only [List.length_append, List.length_singleton]
      unfold histRows at *
      split at hfull <;> split_ifs <;> omega
    · have hnext := h.next
      unfold shiftRows saveTop
      simp only [List.length_append, List.length_singleton]
      unfold histRows at *
      omega
    · have hpush := h.ring.push (cellLine s.fbCells 0)
      rw [← h.next, ← cellLine_saveTop] at hpush
      exact hpush
    · intro row hrow col hcol hdrawn
      refine shown_live hview ?_
      exact painted_shown s.saveTop.shiftRows _ hrow hcol hdrawn

theorem Scrolled.nextLine (h : Scrolled s) (hview : s.viewOff = 0) : Scrolled s.nextLine :=
  (h.cursor 0#8 (s.curY + 1#8)).scroll hview

/-- A byte put into a cell of the live grid is stored and drawn there. -/
theorem Scrolled.putCell (h : Scrolled s) (hview : s.viewOff = 0) (c : Byte) : Scrolled (s.putCell c) := by
  have hcells : s.putCell c = { s with
      fbCells := (s.fbCellSet s.curY.toNat s.curX.toNat c).fbCells
      screen := fun i j => if (i = s.curY.toNat ∧ j = s.curX.toNat) ∧ s.Drawn s.curX.toNat s.curY.toNat then s.glyphOf c
        else s.screen i j } := by
    unfold Console.putCell
    rw [fbDrawGlyph_eq]
    unfold fbCellSet
    split <;> rfl
  rw [hcells]
  refine ⟨h.enabled, h.mapped, h.cols, h.rows, h.view, h.full, h.next, h.ring, ?_⟩
  intro row hrow col hcol hdrawn
  have hold := h.shown row hrow col hcol hdrawn
  rw [viewCell_live hview] at hold
  refine shown_live hview ?_
  have hin : row < fbCellRows ∧ col < fbCellCols := ⟨hrow.trans_le h.rows, hcol.trans_le h.cols⟩
  unfold fbCellGet at hold ⊢
  rw [if_pos hin] at hold ⊢
  unfold fbCellSet
  by_cases hat : row = s.curY.toNat ∧ col = s.curX.toNat
  · obtain ⟨rfl, rfl⟩ := hat
    have hdrawn' : s.Drawn s.curX.toNat s.curY.toNat := hdrawn
    simp only [if_pos hin, true_and]
    rw [if_pos hdrawn']
    rfl
  · have hne : ∀ a b : Nat, ¬(row = a ∧ col = b) → b < fbCellCols → row * fbCellCols + col ≠ a * fbCellCols + b := by
      intro a b hab hb heq
      have hcol' := hin.2
      unfold fbCellCols at *
      omega
    simp only [hat, false_and, if_false]
    split
    · rename_i hcell
      simp only [if_neg (hne _ _ hat hcell.2)]
      exact hold
    · exact hold

theorem viewOff_vgaScroll (s : Console) : s.vgaScroll.viewOff = s.viewOff := by
  unfold vgaScroll
  split_ifs
  · rfl
  · rfl
  · simp only [fbRepaint_eq]
    rfl
  · rfl
  · rfl

theorem viewOff_putCell (s : Console) (c : Byte) : (s.putCell c).viewOff = s.viewOff := by
  unfold Console.putCell
  rw [fbDrawGlyph_eq]
  unfold fbCellSet
  split <;> rfl

/-- Output to the live grid keeps the ring and the screen right, and the view live. -/
theorem Scrolled.fbPutc (h : Scrolled s) (hview : s.viewOff = 0) (c : Byte) : Scrolled (s.fbPutc c) ∧ (s.fbPutc c).viewOff = 0 := by
  have hnext : ∀ t : Console, Scrolled t → t.viewOff = 0 → Scrolled t.nextLine ∧ t.nextLine.viewOff = 0 := by
    intro t ht hlive
    exact ⟨ht.nextLine hlive, (viewOff_vgaScroll _).trans hlive⟩
  have hput : ∀ t : Console, ∀ b, Scrolled t → t.viewOff = 0 → Scrolled (t.putCell b) ∧ (t.putCell b).viewOff = 0 := by
    intro t b ht hlive
    exact ⟨ht.putCell hlive b, (viewOff_putCell t b).trans hlive⟩
  unfold Console.fbPutc
  split_ifs
  · exact hnext s h hview
  · exact ⟨h.cursor 0#8 s.curY, hview⟩
  · split
    · exact ⟨h, hview⟩
    · rename_i hback
      unfold stepBack at hback
      split_ifs at hback
      · rw [← Option.some.inj hback]
        exact hput _ blank (h.cursor _ _) hview
      · rw [← Option.some.inj hback]
        exact hput _ blank (h.cursor _ s.curY) hview
  · exact ⟨h, hview⟩
  · obtain ⟨hcell, hlive⟩ := hput s c h hview
    have hadvance : Scrolled (s.putCell c).advance := hcell.cursor _ (s.putCell c).curY
    simp only
    split
    · exact hnext _ hadvance hlive
    · exact ⟨hadvance, hlive⟩

theorem Scrolled.vgaPutc (h : Scrolled s) (c : Byte) : Scrolled (s.vgaPutc c) ∧ (s.vgaPutc c).viewOff = 0 := by
  unfold Console.vgaPutc
  rw [if_pos h.enabled]
  exact h.live.fbPutc (viewOff_consoleViewLive s) c

/-! ## Moves of the view -/

theorem viewTarget_le (h : s.viewOff ≤ s.histCount) (delta : Int) : s.viewTarget delta ≤ s.histCount := by
  unfold viewTarget
  simp only
  split_ifs <;> omega

theorem Scrolled.consoleView_eq (h : Scrolled s) (delta : Int) : s.consoleView delta =
    if s.viewTarget delta = s.viewOff then s
    else { s with
      viewOff := s.viewTarget delta
      screen := s.painted ({ s with viewOff := s.viewTarget delta } : Console).viewCell } := by
  unfold Console.consoleView
  rw [if_neg (not_or.mpr ⟨by simp [h.enabled], h.mapped⟩), fbRepaintView_eq]
  rfl

theorem Scrolled.consoleView (h : Scrolled s) (delta : Int) : Scrolled (s.consoleView delta) := by
  rw [h.consoleView_eq]
  split
  · exact h
  · refine ⟨h.enabled, h.mapped, h.cols, h.rows, viewTarget_le h.view delta, h.full, h.next, h.ring, ?_⟩
    intro row hrow col hcol hdrawn
    exact painted_shown s _ hrow hcol hdrawn

/-- A text painted over another one. -/
theorem painted_painted (s : Console) (text text' : Nat → Nat → Byte) :
    ({ s with screen := s.painted text } : Console).painted text' = s.painted text' := by
  funext i j
  unfold painted
  change (if i < s.fbRows.toNat ∧ j < s.fbCols.toNat ∧ s.Drawn j i then s.glyphOf (text' i j) else
    if i < s.fbRows.toNat ∧ j < s.fbCols.toNat ∧ s.Drawn j i then s.glyphOf (text i j) else s.screen i j) = _
  by_cases hin : i < s.fbRows.toNat ∧ j < s.fbCols.toNat ∧ s.Drawn j i
  · rw [if_pos hin, if_pos hin]
  · rw [if_neg hin, if_neg hin, if_neg hin]

/-- Painting the grid over the live view changes nothing. -/
theorem Scrolled.painted_live (h : Scrolled s) (hview : s.viewOff = 0) : s.painted s.fbCellGet = s.screen := by
  funext i j
  unfold painted
  split
  · rename_i hin
    rw [h.shown i hin.1 j hin.2.1 hin.2.2, viewCell_live hview]
  · rfl

/-- Back at the live view, a move of the view has left nothing behind. -/
theorem Scrolled.live_consoleView (h : Scrolled s) (delta : Int) : (s.consoleView delta).consoleViewLive = s.consoleViewLive := by
  have hgrid : ∀ t : Console, Scrolled t → t.consoleViewLive = { t with viewOff := 0, screen := t.painted t.fbCellGet } := by
    intro t ht
    rw [consoleViewLive_eq]
    by_cases hoff : t.viewOff = 0
    · rw [if_pos hoff, ht.painted_live hoff]
    · rw [if_neg hoff]
  rw [hgrid _ (h.consoleView delta), hgrid _ h, h.consoleView_eq]
  split
  · rfl
  · congr 1
    exact painted_painted s _ s.fbCellGet

/-! ## Runs -/

theorem Scrolled.step (h : Scrolled s) (op : ViewOp) : Scrolled (s.viewStep op) := by
  cases op with
  | out c => exact (h.vgaPutc c).1
  | move delta => exact h.consoleView delta

/-- Output goes to the live view. -/
theorem Scrolled.vgaPutc_live (h : Scrolled s) (c : Byte) : s.vgaPutc c = s.consoleViewLive.vgaPutc c := by
  unfold Console.vgaPutc
  rw [if_pos h.enabled, if_pos h.live.enabled, consoleViewLive_of_live (viewOff_consoleViewLive s)]

/-- Two runs that differ in the moves of the view only have the same live view. -/
theorem Scrolled.live_run (h : Scrolled s) (h' : Scrolled t) (heq : s.consoleViewLive = t.consoleViewLive) (ops : List ViewOp) :
    (runFrom viewStep s ops).consoleViewLive = (runFrom viewStep t (ops.filter ViewOp.isOut)).consoleViewLive := by
  induction ops generalizing s t with
  | nil => exact heq
  | cons op ops ih =>
    cases op with
    | out c =>
      have hsame : s.vgaPutc c = t.vgaPutc c := by rw [h.vgaPutc_live, h'.vgaPutc_live, heq]
      exact ih (h.step (.out c)) (h'.step (.out c)) (congrArg consoleViewLive hsame)
    | move delta => exact ih (h.step (.move delta)) h' ((h.live_consoleView delta).trans heq)

/-- A cleared console. -/
theorem scrolled_vgaCls (h : NewConsole s) : Scrolled s.vgaCls := by
  have hsame := sameMode_vgaCls s
  have hcls : s.vgaCls.histNext = s.histNext ∧ s.vgaCls.histCount = s.histCount ∧ s.vgaCls.past = s.past ∧ s.vgaCls.viewOff = 0 ∧
      (∀ row < fbCellRows, ∀ col < fbCellCols, s.vgaCls.fbCellGet row col = blank) ∧ s.vgaCls.screen = fun _ _ => blank := by
    unfold vgaCls
    rw [if_pos h.enabled]
    refine ⟨rfl, rfl, rfl, rfl, ?_, if_pos ⟨h.mapped, h.bytes⟩⟩
    intro row hrow col hcol
    unfold fbCellGet
    rw [if_pos ⟨hrow, hcol⟩]
    apply if_pos
    unfold fbCellRows fbCellCols at *
    omega
  obtain ⟨hnext, hcount, hpast, hview, hcells, hscreen⟩ := hcls
  refine ⟨?_, ?_, ?_, ?_, ?_, ?_, ?_, ?_, ?_⟩
  · rw [hsame.fbEnabled, h.enabled]
  · rw [hsame.gfxLfb]
    exact h.mapped
  · rw [hsame.fbCols]
    exact h.cols
  · rw [hsame.fbRows]
    exact h.rows
  · rw [hview]
    exact Nat.zero_le _
  · rw [hcount, hpast, h.count, h.past]
    rfl
  · rw [hnext, hpast, h.next, h.past]
    rfl
  · rw [hpast, h.past]
    intro n hn
    exact absurd hn (Nat.not_lt_zero n)
  · intro row hrow col hcol hdrawn
    rw [hsame.fbRows] at hrow
    rw [hsame.fbCols] at hcol
    rw [viewCell_live hview, hcells row (hrow.trans_le h.rows) col (hcol.trans_le h.cols), hscreen]
    unfold glyphOf
    split <;> rfl

end Console

/-- Behind any output and moves of the view, the history and the screen are right; and behind a byte of output the view is live and the
console as if the view had never been moved. -/
theorem scrollback_right {s : Console} (h : NewConsole s) (ops : List ViewOp) :
    ScrollsRight (runFrom Console.viewStep s.vgaCls ops) ∧
    ∀ c, (runFrom Console.viewStep s.vgaCls (ops ++ [ViewOp.out c])).viewOff = 0 ∧
      runFrom Console.viewStep s.vgaCls (ops ++ [ViewOp.out c]) =
        runFrom Console.viewStep s.vgaCls (ops.filter ViewOp.isOut ++ [ViewOp.out c]) := by
  have hstart := Console.scrolled_vgaCls h
  have hrun := inv_runFrom_all Console.Scrolled (fun _ op hs => hs.step op) hstart ops
  have hrun' := inv_runFrom_all Console.Scrolled (fun _ op hs => hs.step op) hstart (ops.filter ViewOp.isOut)
  refine ⟨hrun.right, fun c => ?_⟩
  rw [runFrom_append, runFrom_append]
  refine ⟨(hrun.vgaPutc c).2, ?_⟩
  have hlive := hstart.live_run hstart rfl ops
  exact (hrun.vgaPutc_live c).trans ((congrArg (fun t => Console.vgaPutc t c) hlive).trans (hrun'.vgaPutc_live c).symm)

/-- A screen of 640 by 400 pixels. -/
theorem scrollback_right_first : ScrollsRight (runFrom Console.viewStep
    { Console.initial with fbEnabled := true, hasFont := true, gfx := ⟨640#32, 400#32, 640#32, 8#32, 0xE0000000#64⟩ }.vgaCls []) :=
  (scrollback_right ⟨rfl, by decide, Or.inl rfl, by decide, by decide, rfl, rfl, rfl⟩ []).1

end MiniOs32
