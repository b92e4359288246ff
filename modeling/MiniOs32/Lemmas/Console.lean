import MiniOs32.Kernel.Console

/-!
# Painting the console

The loops that paint the screen draw each cell of the grid once and change nothing else, and `vga_scroll` and `vga_putc` move the
cursor and leave the mode alone.
-/

namespace MiniOs32

namespace Console

variable {s s' s'' : Console} {m : FbMode} {c : Byte} {col row cols rows : Nat}

/-! ## The screen -/

theorem fbDrawGlyph_eq (s : Console) (col row : Nat) (c : Byte) : s.fbDrawGlyph col row c =
    { s with screen := fun i j => if (i = row ∧ j = col) ∧ s.Drawn col row then s.glyphOf c else s.screen i j } := by
  unfold fbDrawGlyph
  by_cases h : s.Drawn col row
  · simp [h]
  · simp [h]

/-- The cells of a row drawn so far. -/
theorem paintRow_eq (row : Nat) (text : Nat → Byte) (cols : Nat) (s : Console) : paintRow row text cols s =
    { s with screen := fun i j => if i = row ∧ j < cols ∧ s.Drawn j i then s.glyphOf (text j) else s.screen i j } := by
  induction cols with
  | zero => simp [paintRow]
  | succ n ih =>
    rw [paintRow, ih, fbDrawGlyph_eq]
    congr 1
    funext i j
    change (if (i = row ∧ j = n) ∧ s.Drawn n row then s.glyphOf (text n) else
      if i = row ∧ j < n ∧ s.Drawn j i then s.glyphOf (text j) else s.screen i j) = _
    by_cases hi : i = row
    · subst hi
      rcases Nat.lt_trichotomy j n with hj | rfl | hj
      · simp [Nat.ne_of_lt hj, hj, Nat.lt_succ_of_lt hj]
      · simp
      · have h1 : ¬j < n := by omega
        have h2 : ¬j < n + 1 := by omega
        have h3 : j ≠ n := by omega
        simp [h1, h2, h3]
    · simp [hi]

/-- The rows drawn so far. -/
theorem paintRows_eq (text : Nat → Nat → Byte) (cols rows : Nat) (s : Console) : paintRows text cols rows s =
    { s with screen := fun i j => if i < rows ∧ j < cols ∧ s.Drawn j i then s.glyphOf (text i j) else s.screen i j } := by
  induction rows with
  | zero => simp [paintRows]
  | succ n ih =>
    rw [paintRows, ih, paintRow_eq]
    congr 1
    funext i j
    change (if i = n ∧ j < cols ∧ s.Drawn j i then s.glyphOf (text n j) else
      if i < n ∧ j < cols ∧ s.Drawn j i then s.glyphOf (text i j) else s.screen i j) = _
    rcases Nat.lt_trichotomy i n with hi | rfl | hi
    · simp [Nat.ne_of_lt hi, hi, Nat.lt_succ_of_lt hi]
    · simp
    · have h1 : ¬i < n := by omega
      have h2 : ¬i < n + 1 := by omega
      have h3 : i ≠ n := by omega
      simp [h1, h2, h3]

/-- The screen with a text painted over the grid. -/
def painted (s : Console) (text : Nat → Nat → Byte) : Nat → Nat → Byte := fun i j =>
  if i < s.fbRows.toNat ∧ j < s.fbCols.toNat ∧ s.Drawn j i then s.glyphOf (text i j) else s.screen i j

theorem fbRepaint_eq (s : Console) : s.fbRepaint = { s with screen := s.painted s.fbCellGet } := paintRows_eq _ _ _ s

theorem fbRepaintView_eq (s : Console) : s.fbRepaintView = { s with screen := s.painted s.viewCell } := paintRows_eq _ _ _ s

/-! ## The mode -/

/-- The globals that say how the console draws, the same in two states. -/
structure SameMode (s s' : Console) : Prop where
  fbEnabled : s'.fbEnabled = s.fbEnabled
  hasFont : s'.hasFont = s.hasFont
  fbFontH : s'.fbFontH = s.fbFontH
  fbBytes : s'.fbBytes = s.fbBytes
  fbCols : s'.fbCols = s.fbCols
  fbRows : s'.fbRows = s.fbRows
  fbScale : s'.fbScale = s.fbScale
  gfx : s'.gfx = s.gfx
  gfxLfb : s'.gfxLfb = s.gfxLfb

theorem SameMode.refl (s : Console) : SameMode s s := ⟨rfl, rfl, rfl, rfl, rfl, rfl, rfl, rfl, rfl⟩

theorem SameMode.trans (h : SameMode s s') (h' : SameMode s' s'') : SameMode s s'' :=
  ⟨h'.fbEnabled.trans h.fbEnabled, h'.hasFont.trans h.hasFont, h'.fbFontH.trans h.fbFontH, h'.fbBytes.trans h.fbBytes,
    h'.fbCols.trans h.fbCols, h'.fbRows.trans h.fbRows, h'.fbScale.trans h.fbScale, h'.gfx.trans h.gfx, h'.gfxLfb.trans h.gfxLfb⟩

/-- Cells are drawn in the same places. -/
theorem SameMode.drawn (h : SameMode s s') (col row : Nat) : s'.Drawn col row ↔ s.Drawn col row := by
  simp only [Drawn, glyphX, glyphY, glyphW, glyphH, h.gfxLfb, h.gfx, h.fbScale, h.fbFontH]

theorem SameMode.glyphOf (h : SameMode s s') (c : Byte) : s'.glyphOf c = s.glyphOf c := by
  simp only [Console.glyphOf, h.hasFont]

theorem sameMode_fbRepaint (s : Console) : SameMode s s.fbRepaint := by
  rw [fbRepaint_eq]
  exact ⟨rfl, rfl, rfl, rfl, rfl, rfl, rfl, rfl, rfl⟩

theorem sameMode_vgaScroll (s : Console) : SameMode s s.vgaScroll := by
  unfold vgaScroll
  split_ifs
  · exact SameMode.refl s
  · exact SameMode.refl s
  · have h := sameMode_fbRepaint s.saveTop.shiftRows
    exact ⟨h.1, h.2, h.3, h.4, h.5, h.6, h.7, h.8, h.9⟩
  · exact SameMode.refl s
  · exact ⟨rfl, rfl, rfl, rfl, rfl, rfl, rfl, rfl, rfl⟩

theorem sameMode_cursor (s : Console) (x y : Byte) : SameMode s { s with curX := x, curY := y } :=
  ⟨rfl, rfl, rfl, rfl, rfl, rfl, rfl, rfl, rfl⟩

theorem sameMode_advance (s : Console) : SameMode s s.advance := sameMode_cursor s (s.curX + 1#8) s.curY

theorem sameMode_nextLine (s : Console) : SameMode s s.nextLine := (sameMode_cursor s _ _).trans (sameMode_vgaScroll _)

theorem sameMode_putCell (s : Console) (c : Byte) : SameMode s (s.putCell c) := by
  unfold putCell
  rw [fbDrawGlyph_eq]
  unfold fbCellSet
  split <;> exact ⟨rfl, rfl, rfl, rfl, rfl, rfl, rfl, rfl, rfl⟩

theorem sameMode_consoleViewLive (s : Console) : SameMode s s.consoleViewLive := by
  unfold consoleViewLive
  split
  · exact SameMode.refl s
  · have hoff : SameMode s { s with viewOff := 0 } := ⟨rfl, rfl, rfl, rfl, rfl, rfl, rfl, rfl, rfl⟩
    exact hoff.trans (sameMode_fbRepaint _)

theorem sameMode_consoleView (s : Console) (delta : Int) : SameMode s (s.consoleView delta) := by
  unfold consoleView
  split_ifs
  · exact SameMode.refl s
  · exact SameMode.refl s
  · rw [fbRepaintView_eq]
    exact ⟨rfl, rfl, rfl, rfl, rfl, rfl, rfl, rfl, rfl⟩

theorem sameMode_stepBack {x : Byte} (h : s.stepBack x = some s') : SameMode s s' := by
  unfold stepBack at h
  split_ifs at h
  all_goals
    rw [← Option.some.inj h]
    exact sameMode_cursor s _ _

theorem sameMode_fbPutc (s : Console) (c : Byte) : SameMode s (s.fbPutc c) := by
  unfold fbPutc
  split_ifs
  · exact sameMode_nextLine s
  · exact sameMode_cursor s _ _
  · split
    · exact SameMode.refl s
    · rename_i hback
      exact (sameMode_stepBack hback).trans (sameMode_putCell _ _)
  · exact SameMode.refl s
  · simp only
    have hput := (sameMode_putCell s c).trans (sameMode_advance _)
    split
    · exact hput.trans (sameMode_nextLine _)
    · exact hput

theorem sameMode_textPutc (s : Console) (c : Byte) : SameMode s (s.textPutc c) := by
  unfold textPutc
  split_ifs
  · exact sameMode_nextLine s
  · exact sameMode_cursor s _ _
  · split
    · exact SameMode.refl s
    · rename_i hback
      exact (sameMode_stepBack hback).trans ⟨rfl, rfl, rfl, rfl, rfl, rfl, rfl, rfl, rfl⟩
  · simp only
    have hput : SameMode s (s.putText (0x07#8 ++ c)).advance := ⟨rfl, rfl, rfl, rfl, rfl, rfl, rfl, rfl, rfl⟩
    split
    · exact hput.trans (sameMode_nextLine _)
    · exact hput

theorem sameMode_vgaPutc (s : Console) (c : Byte) : SameMode s (s.vgaPutc c) := by
  unfold vgaPutc
  split
  · exact (sameMode_consoleViewLive s).trans (sameMode_fbPutc _ c)
  · exact sameMode_textPutc s c

theorem sameMode_vgaCls (s : Console) : SameMode s s.vgaCls := by
  unfold vgaCls
  split <;> exact ⟨rfl, rfl, rfl, rfl, rfl, rfl, rfl, rfl, rfl⟩

theorem sameMode_vgaSetcursor (s : Console) (x y : U32) : SameMode s (s.vgaSetcursor x y) := by
  unfold vgaSetcursor
  split <;> exact ⟨rfl, rfl, rfl, rfl, rfl, rfl, rfl, rfl, rfl⟩

end Console

end MiniOs32
