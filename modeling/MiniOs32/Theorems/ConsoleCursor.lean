import MiniOs32.Lib.Run
import MiniOs32.Lemmas.Console

/-!
# The cursor on the screen

From the start of the kernel, through any sequence of output, `SYS_CLS`, `SYS_SETCURSOR`, `SYS_VMODE` and ends of programs, the cursor
stays on the screen and the grid is that of the mode if and only if every step meets `ConsoleFits` (`console_cursor_iff`): `SYS_VMODE`
resets neither the cursor nor the grid, and with the framebuffer unmapped nothing scrolls. Mode 13 set with the cursor in column 100
leaves it there (`console_cursor_false`).
-/

namespace MiniOs32

/-- A write to the console, a move of its view, a call about it, or the end of a program. -/
inductive ConsoleOp where
  | putc (c : Byte)
  | view (delta : Int)
  | cls
  | setcursor (x y : U32)
  | vmode (mode : U32) (v : VbeReply)
  | exit

namespace Console

/-- A step of the console. -/
def step (s : Console) : ConsoleOp → Console
  | .putc c => s.vgaPutc c
  | .view delta => s.consoleView delta
  | .cls => s.vgaCls
  | .setcursor x y => s.vgaSetcursor x y
  | .vmode mode v => s.sysVmode mode v
  | .exit => s.afterUser

/-- The cursor is in the grid. -/
def InGrid (s : Console) : Prop := s.curX.toNat < s.fbCols.toNat ∧ s.curY.toNat < s.fbRows.toNat

/-- The cursor is in the text buffer. -/
def InText (s : Console) : Prop := s.curX.toNat < 80 ∧ s.curY.toNat < 25

/-- The grid and the bytes per pixel are those of a mode. -/
def OfMode (s : Console) (m : FbMode) : Prop :=
  s.fbCols = s.gridCols m.w ∧ s.fbRows = s.gridRows m.h ∧ s.fbBytes = m.bpp / 8#32

end Console

/-- The cursor is on the screen, and so is everything drawn and stored. -/
structure CursorOnScreen (s : Console) : Prop where
  grid : s.fbEnabled = true → s.InGrid
  mode : s.fbEnabled = true → s.OfMode s.gfx
  text : s.fbEnabled = false → s.InText
  glyph : s.fbEnabled = true → ∀ col < s.fbCols.toNat, ∀ row < s.fbRows.toNat, s.Drawn col row →
    (col + 1) * (8 * s.fbScale.toNat) * s.fbBytes.toNat ≤ s.gfx.pitch.toNat ∧
    (row + 1) * (s.fbFontH.toNat * s.fbScale.toNat) ≤ s.gfx.h.toNat
  cell : ∀ row col c i, fbCellRows * fbCellCols ≤ i → (s.fbCellSet row col c).fbCells i = s.fbCells i
  letter : s.fbEnabled = false → s.curY.toNat * 80 + s.curX.toNat < 80 * 25

/-- A byte ends the line: a line feed, or a character in the last column. -/
def Console.EndsLine (s : Console) (c : Byte) : Prop :=
  c = lineFeed ∨ c ≠ carriageReturn ∧ c ≠ backspace ∧ s.hasFont = true ∧ s.fbCols.toNat ≤ (s.curX + 1#8).toNat

/-- `SYS_VMODE` has the BIOS set a mode. -/
def Console.Switches (s : Console) (mode : U32) (v : VbeReply) : Prop :=
  mode ≠ 0#32 ∧ mode ≠ 13#32 ∧ ¬(s.gfxModeId ≠ 0#32 ∧ s.fbEnabled = true ∧ mode = s.gfxModeId) ∧ v.Sets

/-- The steps that keep the cursor on the screen: with the framebuffer unmapped, no line ends in the last row; mode 13 replaces the
framebuffer only while the cursor is in the first 80 columns and 25 rows; and a mode set by the BIOS has the grid and the bytes per
pixel there are, with the cursor in the grid. -/
def ConsoleFits (s : Console) : ConsoleOp → Prop
  | .putc c => s.fbEnabled = true → s.gfxLfb = 0#32 → s.EndsLine c → (s.curY + 1#8).toNat < s.fbRows.toNat
  | .vmode mode v =>
    (mode = 13#32 → s.fbEnabled = true → s.InText) ∧
    (s.Switches mode v → Console.Windowed v.mode ∨ s.fbEnabled = true → s.OfMode v.mode ∧ s.InGrid)
  | _ => True

/-! ## The sizes of cells and lines -/

namespace Console

variable {s s' : Console} {m : FbMode} {c : Byte} {k : Nat} {u w : U32}

/-- What no step breaks: the cells have a size, and the lines of the mode hold their pixels. -/
structure Wired (s : Console) : Prop where
  font : 0 < s.fbFontH.toNat ∧ s.fbFontH.toNat < 2 ^ 16
  scale : s.fbScale = 1#32 ∨ s.fbScale = 2#32
  pitch : (s.gfx.bpp = 8#32 → s.gfx.w.toNat ≤ s.gfx.pitch.toNat) ∧ (s.gfx.bpp = 32#32 → s.gfx.w.toNat * 4 ≤ s.gfx.pitch.toNat)
  bpp : s.fbEnabled = true → s.gfx.bpp = 8#32 ∨ s.gfx.bpp = 32#32

/-- A cell of a grid that passes the test of `fb_draw_glyph` ends within the screen. -/
theorem cell_end (hk : k < (if w / u = 0#32 then 1#32 else w / u).toNat)
    (hdrawn : BitVec.ofNat 32 k * u + u ≤ w) : (k + 1) * u.toNat ≤ w.toNat := by
  by_cases h : w / u = 0#32
  · rw [if_pos h] at hk
    have hk0 : k = 0 := by simpa using hk
    subst hk0
    rw [show BitVec.ofNat 32 0 * u = 0#32 from BitVec.zero_mul, BitVec.zero_add] at hdrawn
    rw [Nat.zero_add, Nat.one_mul]
    exact hdrawn
  · rw [if_neg h, BitVec.toNat_udiv] at hk
    have hle : (k + 1) * u.toNat ≤ w.toNat / u.toNat * u.toNat := Nat.mul_le_mul_right _ hk
    exact hle.trans (Nat.div_mul_le_self _ _)

theorem Wired.glyph (hw : Wired s) (hfb : s.fbEnabled = true) (hmode : s.OfMode s.gfx) {col row : Nat} (hcol : col < s.fbCols.toNat)
    (hrow : row < s.fbRows.toNat) (hdrawn : s.Drawn col row) :
    (col + 1) * (8 * s.fbScale.toNat) * s.fbBytes.toNat ≤ s.gfx.pitch.toNat ∧
    (row + 1) * (s.fbFontH.toNat * s.fbScale.toNat) ≤ s.gfx.h.toNat := by
  obtain ⟨hcols, hrows, hbytes⟩ := hmode
  obtain ⟨-, hx, hy⟩ := hdrawn
  have hscale : s.fbScale.toNat = 1 ∨ s.fbScale.toNat = 2 := hw.scale.imp (congrArg BitVec.toNat) (congrArg BitVec.toNat)
  have hwidth : (8#32 * s.fbScale).toNat = 8 * s.fbScale.toNat := by
    rw [BitVec.toNat_mul, BitVec.toNat_ofNat]
    omega
  have hheight : (s.fbFontH * s.fbScale).toNat = s.fbFontH.toNat * s.fbScale.toNat := by
    rw [BitVec.toNat_mul]
    apply Nat.mod_eq_of_lt
    have hfont := hw.font.2
    rcases hscale with h | h <;> rw [h] <;> omega
  rw [glyphX, glyphW, BitVec.mul_assoc] at hx
  rw [glyphY, glyphH, BitVec.mul_assoc] at hy
  rw [hcols] at hcol
  rw [hrows] at hrow
  have hright := cell_end hcol hx
  have hbottom := cell_end hrow hy
  rw [hwidth] at hright
  rw [hheight] at hbottom
  refine ⟨?_, hbottom⟩
  rcases hw.bpp hfb with hbpp | hbpp
  · rw [hbytes, hbpp]
    exact (Nat.mul_one _).le.trans (hright.trans (hw.pitch.1 hbpp))
  · rw [hbytes, hbpp]
    exact (Nat.mul_le_mul_right 4 hright).trans (hw.pitch.2 hbpp)

/-- What is on the screen follows from the cursor and the mode. -/
theorem Wired.onScreen_iff (hw : Wired s) : CursorOnScreen s ↔
    (s.fbEnabled = true → s.InGrid ∧ s.OfMode s.gfx) ∧ (s.fbEnabled = false → s.InText) := by
  constructor
  · intro h
    exact ⟨fun hfb => ⟨h.grid hfb, h.mode hfb⟩, h.text⟩
  · intro h
    refine ⟨fun hfb => (h.1 hfb).1, fun hfb => (h.1 hfb).2, h.2, ?_, ?_, ?_⟩
    · intro hfb col hcol row hrow
      exact hw.glyph hfb (h.1 hfb).2 hcol hrow
    · intro row col c i hi
      unfold fbCellSet
      split
      · rename_i hin
        have hne : i ≠ row * fbCellCols + col := by
          unfold fbCellRows fbCellCols at *
          omega
        exact if_neg hne
      · rfl
    · intro hfb
      obtain ⟨hx, hy⟩ := h.2 hfb
      omega

/-- The mode and the cells of the same mode. -/
theorem SameMode.wired (h : SameMode s s') (hw : Wired s) : Wired s' := by
  obtain ⟨hfont, hscale, hpitch, hbpp⟩ := hw
  constructor
  · rwa [h.fbFontH]
  · rwa [h.fbScale]
  · rwa [h.gfx]
  · rwa [h.gfx, h.fbEnabled]

theorem SameMode.ofMode (h : SameMode s s') : s'.OfMode m ↔ s.OfMode m := by
  simp only [OfMode, gridCols, gridRows, h.fbCols, h.fbRows, h.fbBytes, h.fbScale, h.fbFontH]

/-- In the same mode only the cursor matters. -/
theorem SameMode.onScreen_iff (h : SameMode s s') (hw : Wired s) (hon : CursorOnScreen s) :
    CursorOnScreen s' ↔ (s.fbEnabled = true → s'.InGrid) ∧ (s.fbEnabled = false → s'.InText) := by
  rw [(h.wired hw).onScreen_iff, h.fbEnabled, h.gfx, h.ofMode]
  constructor
  · intro hs'
    exact ⟨fun hfb => (hs'.1 hfb).1, hs'.2⟩
  · intro hs'
    exact ⟨fun hfb => ⟨hs'.1 hfb, hon.mode hfb⟩, hs'.2⟩

/-! ## Output -/

/-- The last cell of a line of cells, as the cursor counts. -/
theorem last_lt (h : 0 < w.toNat) : ((w - 1#32).setWidth 8).toNat < w.toNat := by
  have hsub : (w - 1#32).toNat = w.toNat - 1 := by bv_omega
  rw [BitVec.toNat_setWidth, hsub]
  omega

theorem nextLine_curX (s : Console) : s.nextLine.curX = 0#8 := by
  unfold nextLine vgaScroll
  split_ifs
  · rfl
  · rfl
  · simp only [fbRepaint_eq]
    rfl
  · rfl
  · rfl

theorem nextLine_curY_grid (hfb : s.fbEnabled = true) : s.nextLine.curY =
    if (s.curY + 1#8).toNat < s.fbRows.toNat ∨ s.gfxLfb = 0#32 then s.curY + 1#8 else (s.fbRows - 1#32).setWidth 8 := by
  unfold nextLine vgaScroll
  rw [if_pos hfb]
  by_cases hrow : (s.curY + 1#8).toNat < s.fbRows.toNat
  · rw [if_pos hrow, if_pos (Or.inl hrow)]
  · rw [if_neg hrow]
    by_cases hlfb : s.gfxLfb = 0#32
    · rw [if_pos hlfb, if_pos (Or.inr hlfb)]
    · rw [if_neg hlfb, if_neg (not_or.mpr ⟨hrow, hlfb⟩)]

theorem nextLine_curY_text (hfb : s.fbEnabled = false) : s.nextLine.curY = if (s.curY + 1#8).toNat < 25 then s.curY + 1#8 else 24#8 := by
  unfold nextLine vgaScroll
  rw [if_neg (by simp [hfb])]
  split <;> rfl

/-- A new line stays in the grid, unless it cannot scroll. -/
theorem nextLine_inGrid_iff (hfb : s.fbEnabled = true) (hcols : 0 < s.fbCols.toNat) (hrows : 0 < s.fbRows.toNat) :
    s.nextLine.InGrid ↔ (s.gfxLfb = 0#32 → (s.curY + 1#8).toNat < s.fbRows.toNat) := by
  have hsame := sameMode_nextLine s
  unfold InGrid
  rw [nextLine_curX, nextLine_curY_grid hfb, hsame.fbCols, hsame.fbRows]
  by_cases hrow : (s.curY + 1#8).toNat < s.fbRows.toNat
  · rw [if_pos (Or.inl hrow)]
    exact ⟨fun _ _ => hrow, fun _ => ⟨hcols, hrow⟩⟩
  · by_cases hlfb : s.gfxLfb = 0#32
    · rw [if_pos (Or.inr hlfb)]
      exact ⟨fun h _ => h.2, fun h => absurd (h hlfb) hrow⟩
    · rw [if_neg (not_or.mpr ⟨hrow, hlfb⟩)]
      exact ⟨fun _ h => absurd h hlfb, fun _ => ⟨hcols, last_lt hrows⟩⟩

theorem nextLine_inText (hfb : s.fbEnabled = false) : s.nextLine.InText := by
  refine ⟨by rw [nextLine_curX]; decide, ?_⟩
  rw [nextLine_curY_text hfb]
  split
  · assumption
  · decide

theorem putCell_cursor (s : Console) (c : Byte) : (s.putCell c).curX = s.curX ∧ (s.putCell c).curY = s.curY := by
  unfold putCell
  rw [fbDrawGlyph_eq]
  unfold fbCellSet
  split <;> exact ⟨rfl, rfl⟩

/-- The cursor goes back to a cell within the same limits. -/
theorem stepBack_lt {last : Byte} {w h : Nat} (hlast : last.toNat < w) (hx : s.curX.toNat < w) (hy : s.curY.toNat < h)
    (hback : s.stepBack last = some s') : s'.curX.toNat < w ∧ s'.curY.toNat < h := by
  have hpred : ∀ b : Byte, b ≠ 0#8 → (b - 1#8).toNat ≤ b.toNat := by
    intro b hb
    have hpos : b.toNat ≠ 0 := fun h0 => hb (BitVec.eq_of_toNat_eq h0)
    bv_omega
  unfold stepBack at hback
  split_ifs at hback with hx0 hy0
  · rw [← Option.some.inj hback]
    exact ⟨hlast, (hpred s.curY hy0).trans_lt hy⟩
  · rw [← Option.some.inj hback]
    exact ⟨(hpred s.curX hx0).trans_lt hx, hy⟩

theorem fbPutc_inGrid_iff (hfb : s.fbEnabled = true) (hin : s.InGrid) (c : Byte) :
    (s.fbPutc c).InGrid ↔ (s.gfxLfb = 0#32 → s.EndsLine c → (s.curY + 1#8).toNat < s.fbRows.toNat) := by
  have hcols : 0 < s.fbCols.toNat := (Nat.zero_le _).trans_lt hin.1
  have hrows : 0 < s.fbRows.toNat := (Nat.zero_le _).trans_lt hin.2
  unfold fbPutc EndsLine
  by_cases hlf : c = lineFeed
  · rw [if_pos hlf, nextLine_inGrid_iff hfb hcols hrows]
    simp only [hlf, true_or, true_imp_iff]
  · rw [if_neg hlf]
    by_cases hcr : c = carriageReturn
    · rw [if_pos hcr]
      have hend : ¬(c = lineFeed ∨ c ≠ carriageReturn ∧ c ≠ backspace ∧ s.hasFont = true ∧ s.fbCols.toNat ≤ (s.curX + 1#8).toNat) := by
        rintro (h | h)
        · exact hlf h
        · exact h.1 hcr
      exact ⟨fun _ _ h => absurd h hend, fun _ => ⟨hcols, hin.2⟩⟩
    · rw [if_neg hcr]
      by_cases hbs : c = backspace
      · rw [if_pos hbs]
        have hend : ¬(c = lineFeed ∨ c ≠ carriageReturn ∧ c ≠ backspace ∧ s.hasFont = true ∧ s.fbCols.toNat ≤ (s.curX + 1#8).toNat) := by
          rintro (h | h)
          · exact hlf h
          · exact h.2.1 hbs
        refine ⟨fun _ _ h => absurd h hend, fun _ => ?_⟩
        split
        · exact hin
        · rename_i t hback
          have hsame := (sameMode_stepBack hback).trans (sameMode_putCell t blank)
          obtain ⟨hx, hy⟩ := stepBack_lt (last_lt hcols) hin.1 hin.2 hback
          unfold InGrid
          rw [(putCell_cursor t blank).1, (putCell_cursor t blank).2, hsame.fbCols, hsame.fbRows]
          exact ⟨hx, hy⟩
      · rw [if_neg hbs]
        cases hfont : s.hasFont with
        | false => simp [hlf, hin]
        | true =>
          simp only [Bool.true_eq_false, if_false, hlf, hcr, hbs, ne_eq, not_false_eq_true, true_and, false_or]
          have hsame := (sameMode_putCell s c).trans (sameMode_advance _)
          have hx : (s.putCell c).advance.curX = s.curX + 1#8 := congrArg (· + 1#8) (putCell_cursor s c).1
          have hy : (s.putCell c).advance.curY = s.curY := (putCell_cursor s c).2
          generalize (s.putCell c).advance = t at hsame hx hy ⊢
          rw [hsame.fbCols, hx]
          by_cases hlast : s.fbCols.toNat ≤ (s.curX + 1#8).toNat
          · rw [if_pos hlast, nextLine_inGrid_iff (hsame.fbEnabled.trans hfb) (by rwa [hsame.fbCols]) (by rwa [hsame.fbRows]),
              hsame.gfxLfb, hsame.fbRows, hy]
            exact ⟨fun h hlfb _ => h hlfb, fun h hlfb => h hlfb hlast⟩
          · rw [if_neg hlast]
            refine ⟨fun _ _ h => absurd h hlast, fun _ => ?_⟩
            unfold InGrid
            rw [hsame.fbCols, hsame.fbRows, hx, hy]
            exact ⟨not_le.mp hlast, hin.2⟩

theorem textPutc_inText (hfb : s.fbEnabled = false) (hin : s.InText) (c : Byte) : (s.textPutc c).InText := by
  unfold textPutc
  split_ifs
  · exact nextLine_inText hfb
  · exact ⟨Nat.succ_pos 79, hin.2⟩
  · split
    · exact hin
    · rename_i hback
      have hlast : (79#8 : Byte).toNat < 80 := by decide
      have h := stepBack_lt hlast hin.1 hin.2 hback
      exact h
  · simp only
    split
    · exact nextLine_inText hfb
    · rename_i hlast
      exact ⟨not_le.mp hlast, hin.2⟩

theorem vgaPutc_onScreen_iff (hw : Wired s) (hon : CursorOnScreen s) (c : Byte) :
    CursorOnScreen (s.vgaPutc c) ↔ ConsoleFits s (.putc c) := by
  rw [(sameMode_vgaPutc s c).onScreen_iff hw hon]
  unfold vgaPutc ConsoleFits
  cases hfb : s.fbEnabled with
  | true =>
    have hlive := sameMode_consoleViewLive s
    have hcursor : s.consoleViewLive.curX = s.curX ∧ s.consoleViewLive.curY = s.curY := by
      unfold consoleViewLive
      split
      · exact ⟨rfl, rfl⟩
      · rw [fbRepaint_eq]
        exact ⟨rfl, rfl⟩
    have hin : s.consoleViewLive.InGrid := by
      unfold InGrid
      rw [hcursor.1, hcursor.2, hlive.fbCols, hlive.fbRows]
      exact hon.grid hfb
    have h := fbPutc_inGrid_iff (hlive.fbEnabled.trans hfb) hin c
    simp only [EndsLine, hlive.gfxLfb, hlive.fbCols, hlive.fbRows, hlive.hasFont, hcursor.1, hcursor.2] at h
    simp only [if_true, true_imp_iff, Bool.true_eq_false, false_imp_iff, and_true, EndsLine]
    exact h
  | false =>
    simp only [Bool.false_eq_true, if_false, false_imp_iff, true_imp_iff, true_and, iff_true]
    exact textPutc_inText hfb (hon.text hfb) c

/-! ## Calls -/

theorem vgaCls_onScreen (hw : Wired s) (hon : CursorOnScreen s) : CursorOnScreen s.vgaCls := by
  refine ((sameMode_vgaCls s).onScreen_iff hw hon).mpr ⟨?_, ?_⟩
  · intro hfb
    obtain ⟨hx, hy⟩ := hon.grid hfb
    unfold vgaCls
    rw [if_pos hfb]
    exact ⟨(Nat.zero_le _).trans_lt hx, (Nat.zero_le _).trans_lt hy⟩
  · intro hfb
    unfold vgaCls
    rw [if_neg (by simp [hfb])]
    exact ⟨Nat.succ_pos 79, Nat.succ_pos 24⟩

/-- A coordinate cut to the limit. -/
theorem clamp_lt (h : 0 < w.toNat) (x : U32) : ((if w ≤ x then w - 1#32 else x).setWidth 8).toNat < w.toNat := by
  split
  · exact last_lt h
  · rename_i hx
    have hlt : x.toNat < w.toNat := not_le.mp hx
    rw [BitVec.toNat_setWidth]
    exact (Nat.mod_le _ _).trans_lt hlt

theorem vgaSetcursor_onScreen (hw : Wired s) (hon : CursorOnScreen s) (x y : U32) : CursorOnScreen (s.vgaSetcursor x y) := by
  refine ((sameMode_vgaSetcursor s x y).onScreen_iff hw hon).mpr ⟨?_, ?_⟩
  · intro hfb
    obtain ⟨hx, hy⟩ := hon.grid hfb
    unfold vgaSetcursor
    rw [if_pos hfb]
    exact ⟨clamp_lt ((Nat.zero_le _).trans_lt hx) x, clamp_lt ((Nat.zero_le _).trans_lt hy) y⟩
  · intro hfb
    have hcut : ∀ w x : U32, w.toNat < 80 → ((if w < x then w else x).setWidth 8).toNat ≤ w.toNat := by
      intro w x hw
      rw [BitVec.toNat_setWidth]
      refine (Nat.mod_le _ _).trans ?_
      split
      · exact le_rfl
      · rename_i hx
        exact not_lt.mp hx
    unfold vgaSetcursor
    rw [if_neg (by simp [hfb])]
    have hx := hcut 79#32 x (by decide)
    have hy := hcut 24#32 y (by decide)
    exact ⟨Nat.lt_succ_of_le hx, Nat.lt_succ_of_le hy⟩

theorem consoleView_onScreen (hw : Wired s) (hon : CursorOnScreen s) (delta : Int) : CursorOnScreen (s.consoleView delta) := by
  have hsame := sameMode_consoleView s delta
  have hcursor : (s.consoleView delta).curX = s.curX ∧ (s.consoleView delta).curY = s.curY := by
    unfold consoleView
    split_ifs
    · exact ⟨rfl, rfl⟩
    · exact ⟨rfl, rfl⟩
    · rw [fbRepaintView_eq]
      exact ⟨rfl, rfl⟩
  refine (hsame.onScreen_iff hw hon).mpr ⟨?_, ?_⟩
  · intro hfb
    unfold InGrid
    rw [hcursor.1, hcursor.2, hsame.fbCols, hsame.fbRows]
    exact hon.grid hfb
  · intro hfb
    unfold InText
    rw [hcursor.1, hcursor.2]
    exact hon.text hfb

/-- Without the framebuffer only the cursor in the text buffer matters, and the mode may be any with room for its lines. -/
theorem onScreen_text (hw : Wired s) (hfb : s.fbEnabled = false) : CursorOnScreen s ↔ s.InText := by
  rw [hw.onScreen_iff]
  simp [hfb]

/-- The cursor and the mode decide. -/
theorem SameMode.onScreen (h : SameMode s s') (hw : Wired s) (hon : CursorOnScreen s) (hx : s'.curX = s.curX) (hy : s'.curY = s.curY) :
    CursorOnScreen s' := by
  refine (h.onScreen_iff hw hon).mpr ⟨?_, ?_⟩
  · intro hfb
    unfold InGrid
    rw [hx, hy, h.fbCols, h.fbRows]
    exact hon.grid hfb
  · intro hfb
    unfold InText
    rw [hx, hy]
    exact hon.text hfb

/-- The flags for the end of the program are no part of the screen. -/
theorem flags_onScreen (hw : Wired s) (hon : CursorOnScreen s) (clear restore : Bool) :
    CursorOnScreen { s with textClearPending := clear, textRestorePending := restore } :=
  SameMode.onScreen (s := s) ⟨rfl, rfl, rfl, rfl, rfl, rfl, rfl, rfl, rfl⟩ hw hon rfl rfl

theorem flags_wired (hw : Wired s) (clear restore : Bool) :
    Wired { s with textClearPending := clear, textRestorePending := restore } :=
  SameMode.wired (s := s) ⟨rfl, rfl, rfl, rfl, rfl, rfl, rfl, rfl, rfl⟩ hw

theorem vgaSetText_wired (hw : Wired s) : Wired s.vgaSetText := by
  unfold vgaSetText
  split
  · exact (sameMode_vgaCls s).wired hw
  · rename_i hfb
    refine ⟨hw.font, hw.scale, ⟨?_, ?_⟩, fun h => absurd h hfb⟩
    · intro hbpp
      exact absurd hbpp (show (0#32 : U32) ≠ 8#32 by decide)
    · intro hbpp
      exact absurd hbpp (show (0#32 : U32) ≠ 32#32 by decide)

theorem vgaSetText_onScreen (hw : Wired s) (hon : s.fbEnabled = true → CursorOnScreen s) : CursorOnScreen s.vgaSetText := by
  cases hfb : s.fbEnabled with
  | true =>
    unfold vgaSetText
    rw [if_pos hfb]
    exact vgaCls_onScreen hw (hon hfb)
  | false =>
    have htext : s.vgaSetText.fbEnabled = false ∧ s.vgaSetText.InText := by
      unfold vgaSetText
      rw [if_neg (by simp [hfb])]
      exact ⟨hfb, Nat.succ_pos 79, Nat.succ_pos 24⟩
    exact (onScreen_text (vgaSetText_wired hw) htext.1).mpr htext.2

/-! ## Modes -/

theorem saneMode_same (m : FbMode) :
    (saneMode m).w = m.w ∧ (saneMode m).h = m.h ∧ (saneMode m).bpp = m.bpp ∧ (saneMode m).lfbPhys = m.lfbPhys := by
  unfold saneMode
  split_ifs <;> exact ⟨rfl, rfl, rfl, rfl⟩

/-- The lines of a mode hold their pixels. -/
theorem saneMode_pitch (hw : m.w.toNat < 2 ^ 30) :
    ((saneMode m).bpp = 8#32 → (saneMode m).w.toNat ≤ (saneMode m).pitch.toNat) ∧
    ((saneMode m).bpp = 32#32 → (saneMode m).w.toNat * 4 ≤ (saneMode m).pitch.toNat) := by
  have hfour : (m.w * 4#32).toNat = m.w.toNat * 4 := by
    rw [BitVec.toNat_mul, BitVec.toNat_ofNat]
    omega
  obtain ⟨hwidth, -, hbpp, -⟩ := saneMode_same m
  rw [hbpp, hwidth]
  unfold saneMode
  by_cases h8 : m.bpp = 8#32
  · rw [if_pos h8]
    refine ⟨fun _ => ?_, fun h => absurd (h8.symm.trans h) (by decide)⟩
    split
    · exact le_rfl
    · rename_i hpitch
      exact not_lt.mp (not_or.mp hpitch).1
  · rw [if_neg h8]
    refine ⟨fun h => absurd h h8, fun h32 => ?_⟩
    rw [if_pos h32]
    split
    · exact hfour.ge
    · rename_i hpitch
      have hle : (m.w * 4#32).toNat ≤ m.pitch.toNat := not_lt.mp (not_or.mp hpitch).1
      exact hfour.ge.trans hle

/-- The window of the framebuffer is not at zero. -/
theorem window_ne_zero (phys : U64) : BitVec.ofNat 32 fbVirtBase + (phys &&& 0xFFF#64).setWidth 32 ≠ 0#32 := by
  have hlow : (phys &&& 0xFFF#64).toNat ≤ 0xFFF := by
    rw [BitVec.toNat_and]
    exact Nat.and_le_right
  generalize phys &&& 0xFFF#64 = low at hlow
  intro h
  have hnat := congrArg BitVec.toNat h
  rw [BitVec.toNat_add, BitVec.toNat_setWidth, BitVec.toNat_ofNat] at hnat
  unfold fbVirtBase at hnat
  simp only [BitVec.toNat_ofNat] at hnat
  omega

theorem gfxMapLfb_eq_zero_iff (s : Console) : s.gfxMapLfb.gfxLfb = 0#32 ↔ ¬Windowed s.gfx := by
  unfold gfxMapLfb
  by_cases h : Windowed s.gfx
  · simp only [h, if_true, not_true_eq_false, iff_false]
    exact window_ne_zero _
  · simp [h]

theorem setFbMode_wired (hw : Wired s) (mode : U32) (v : VbeReply) : Wired (s.setFbMode mode v) := by
  unfold setFbMode
  split
  · rename_i hsets
    have hnew : ∀ b id, Wired { ({ s with gfx := v.mode } : Console).gfxMapLfb with fbEnabled := b, gfxModeId := id } := by
      intro b id
      refine ⟨hw.font, hw.scale, saneMode_pitch ?_, fun _ => ?_⟩
      · rw [BitVec.toNat_setWidth]
        omega
      · have hbpp : v.mode.bpp = v.bpp.setWidth 32 := (saneMode_same _).2.2.1
        change v.mode.bpp = 8#32 ∨ v.mode.bpp = 32#32
        rw [hbpp]
        rcases hsets.2.2.1 with h | h <;> rw [h]
        · exact Or.inl rfl
        · exact Or.inr rfl
    simp only
    split
    · exact hnew s.fbEnabled s.gfxModeId
    · exact hnew true mode
  · exact hw

theorem setFbMode_onScreen_iff (hw : Wired s) (hon : CursorOnScreen s) {v : VbeReply} (hsets : v.Sets) (mode : U32) :
    CursorOnScreen (s.setFbMode mode v) ↔ (Windowed v.mode ∨ s.fbEnabled = true → s.OfMode v.mode ∧ s.InGrid) := by
  have hwired := setFbMode_wired hw mode v
  rw [hwired.onScreen_iff]
  unfold setFbMode
  rw [if_pos hsets]
  simp only [gfxMapLfb_eq_zero_iff]
  by_cases hwin : Windowed v.mode
  · rw [if_neg (not_not.mpr hwin)]
    exact ⟨fun h _ => (h.1 rfl).symm, fun h => ⟨fun _ => (h (Or.inl hwin)).symm, fun h => absurd h.symm Bool.false_ne_true⟩⟩
  · rw [if_pos hwin]
    constructor
    · intro h hfb
      exact (h.1 (hfb.resolve_left hwin)).symm
    · intro h
      exact ⟨fun hfb => (h (Or.inr hfb)).symm, hon.text⟩

theorem sysVmode_wired (hw : Wired s) (mode : U32) (v : VbeReply) : Wired (s.sysVmode mode v) := by
  unfold sysVmode
  split_ifs
  · exact flags_wired ((sameMode_vgaCls s).wired hw) s.vgaCls.textClearPending false
  · have hset := vgaSetText_wired hw
    simp only
    split
    · exact flags_wired ((sameMode_vgaCls _).wired hset) false false
    · exact flags_wired hset s.vgaSetText.textClearPending false
  · have hbpp : (8#32 : U32) ≠ 32#32 := by decide
    exact ⟨hw.font, hw.scale, ⟨fun _ => le_refl 320, fun h => absurd h hbpp⟩, fun h => absurd h Bool.false_ne_true⟩
  · exact hw
  · exact setFbMode_wired hw mode v

theorem sysVmode_onScreen_iff (hw : Wired s) (hon : CursorOnScreen s) (mode : U32) (v : VbeReply) :
    CursorOnScreen (s.sysVmode mode v) ↔ ConsoleFits s (.vmode mode v) := by
  have hwired := sysVmode_wired hw mode v
  unfold ConsoleFits Switches
  by_cases h0 : mode = 0#32
  · have hfits : CursorOnScreen (s.sysVmode mode v) := by
      unfold sysVmode
      rw [if_pos h0]
      have hset := vgaSetText_wired hw
      have hset' := vgaSetText_onScreen hw (fun _ => hon)
      split
      · exact flags_onScreen ((sameMode_vgaCls s).wired hw) (vgaCls_onScreen hw hon) s.vgaCls.textClearPending false
      · simp only
        split
        · exact flags_onScreen ((sameMode_vgaCls _).wired hset) (vgaCls_onScreen hset hset') false false
        · exact flags_onScreen hset hset' s.vgaSetText.textClearPending false
    refine ⟨fun _ => ⟨fun h => absurd (h0.symm.trans h) (by decide), fun h => absurd h0 h.1⟩, fun _ => hfits⟩
  · by_cases h13 : mode = 13#32
    · have heq : (s.sysVmode mode v).fbEnabled = false ∧ ((s.sysVmode mode v).InText ↔ s.InText) := by
        unfold sysVmode
        rw [if_neg h0, if_pos h13]
        exact ⟨rfl, Iff.rfl⟩
      rw [onScreen_text hwired heq.1, heq.2]
      constructor
      · intro h
        exact ⟨fun _ _ => h, fun hsw => absurd h13 hsw.2.1⟩
      · intro h
        cases hfb : s.fbEnabled with
        | true => exact h.1 h13 hfb
        | false => exact hon.text hfb
    · simp only [ne_eq, h0, h13, not_false_eq_true, true_and, false_imp_iff]
      by_cases hsame : ¬s.gfxModeId = 0#32 ∧ s.fbEnabled = true ∧ mode = s.gfxModeId
      · have heq : s.sysVmode mode v = s := by
          unfold sysVmode
          rw [if_neg h0, if_neg h13, if_pos hsame]
        rw [heq]
        exact ⟨fun _ h => absurd hsame h.1, fun _ => hon⟩
      · have heq : s.sysVmode mode v = s.setFbMode mode v := by
          unfold sysVmode
          rw [if_neg h0, if_neg h13, if_neg hsame]
        rw [heq]
        by_cases hsets : v.Sets
        · rw [setFbMode_onScreen_iff hw hon hsets]
          exact ⟨fun h _ => h, fun h => h ⟨hsame, hsets⟩⟩
        · have hstay : s.setFbMode mode v = s := if_neg hsets
          rw [hstay]
          exact ⟨fun _ h => absurd h.2 hsets, fun _ => hon⟩

theorem afterUser_wired (hw : Wired s) : Wired s.afterUser := by
  unfold afterUser
  split
  · have hset := vgaSetText_wired hw
    simp only
    split
    · exact flags_wired ((sameMode_vgaCls _).wired hset) false false
    · exact flags_wired hset false false
  · exact hw

theorem afterUser_onScreen (hw : Wired s) (hon : CursorOnScreen s) : CursorOnScreen s.afterUser := by
  have hset := vgaSetText_wired hw
  have hset' := vgaSetText_onScreen hw (fun _ => hon)
  unfold afterUser
  split
  · simp only
    split
    · exact flags_onScreen ((sameMode_vgaCls _).wired hset) (vgaCls_onScreen hset hset') false false
    · exact flags_onScreen hset hset' false false
  · exact hon

/-! ## Steps and runs -/

theorem step_wired (hw : Wired s) (op : ConsoleOp) : Wired (s.step op) := by
  cases op with
  | putc c => exact (sameMode_vgaPutc s c).wired hw
  | view delta => exact (sameMode_consoleView s delta).wired hw
  | cls => exact (sameMode_vgaCls s).wired hw
  | setcursor x y => exact (sameMode_vgaSetcursor s x y).wired hw
  | vmode mode v => exact sysVmode_wired hw mode v
  | exit => exact afterUser_wired hw

/-- A step keeps the cursor on the screen exactly if it meets the condition. -/
theorem step_onScreen_iff (hw : Wired s) (hon : CursorOnScreen s) (op : ConsoleOp) :
    CursorOnScreen (s.step op) ↔ ConsoleFits s op := by
  cases op with
  | putc c => exact vgaPutc_onScreen_iff hw hon c
  | view delta => exact iff_of_true (consoleView_onScreen hw hon delta) trivial
  | cls => exact iff_of_true (vgaCls_onScreen hw hon) trivial
  | setcursor x y => exact iff_of_true (vgaSetcursor_onScreen hw hon x y) trivial
  | vmode mode v => exact sysVmode_onScreen_iff hw hon mode v
  | exit => exact iff_of_true (afterUser_onScreen hw hon) trivial

/-! ## Start -/

theorem initial_wired (mode : U32) : Wired { initial with gfxModeId := mode } :=
  ⟨⟨Nat.succ_pos 15, show 16 < 2 ^ 16 by decide⟩, Or.inl rfl,
    ⟨fun _ => le_refl 320, fun h => absurd h (show (8#32 : U32) ≠ 32#32 by decide)⟩, fun h => absurd h Bool.false_ne_true⟩

theorem bootFontH_bounds (b : BootVideo) : 0 < (bootFontH b).toNat ∧ (bootFontH b).toNat < 2 ^ 16 := by
  unfold bootFontH
  split
  · rename_i hgiven
    have hne : (b.fontH &&& 0xFFFF#32).toNat ≠ 0 := fun h0 => hgiven.2 (BitVec.eq_of_toNat_eq h0)
    have hle : (b.fontH &&& 0xFFFF#32).toNat ≤ 0xFFFF := by
      rw [BitVec.toNat_and]
      exact Nat.and_le_right
    omega
  · decide

/-- A grid has a cell. -/
theorem cells_pos (n : U32) : 0 < (if n = 0#32 then 1#32 else n).toNat := by
  split
  · decide
  · rename_i hn
    exact Nat.pos_of_ne_zero fun h0 => hn (BitVec.eq_of_toNat_eq h0)

/-- Behind `fb_update_dims` and `vga_cls` the grid is that of the mode, with the cursor in its first cell. -/
theorem updateDims_ok (hw : Wired s) (hfb : s.fbEnabled = true) (hbytes : s.fbBytes = s.gfx.bpp / 8#32) :
    Wired s.fbUpdateDims.vgaCls ∧ s.fbUpdateDims.vgaCls.InGrid ∧ s.fbUpdateDims.vgaCls.OfMode s.fbUpdateDims.vgaCls.gfx := by
  have hfont : (if s.fbFontH = 0#32 then (16#32 : U32) else s.fbFontH) = s.fbFontH := by
    refine if_neg fun h0 => ?_
    have hpos := hw.font.1
    rw [h0] at hpos
    exact absurd hpos (by decide)
  have hdims : s.fbUpdateDims = { s with fbCols := s.gridCols s.gfx.w, fbRows := s.gridRows s.gfx.h } := by
    unfold fbUpdateDims
    simp only [hfont, gridCols, gridRows]
  have hwired : Wired s.fbUpdateDims := by
    rw [hdims]
    exact ⟨hw.font, hw.scale, hw.pitch, hw.bpp⟩
  have hsame := sameMode_vgaCls s.fbUpdateDims
  refine ⟨hsame.wired hwired, ?_, ?_⟩
  · unfold vgaCls
    rw [hdims, if_pos hfb]
    exact ⟨cells_pos _, cells_pos _⟩
  · rw [hsame.ofMode, hsame.gfx, hdims]
    exact ⟨rfl, rfl, hbytes⟩

theorem bootinfoInit_ok (b : BootVideo) : Wired (bootinfoInit b) ∧
    ((bootinfoInit b).fbEnabled = true → (bootinfoInit b).InGrid ∧ (bootinfoInit b).OfMode (bootinfoInit b).gfx) := by
  unfold bootinfoInit
  split
  · exact ⟨initial_wired b.mode, fun h => absurd h Bool.false_ne_true⟩
  · rename_i hbpp
    have hbpp' : b.bpp = 8#32 ∨ b.bpp = 32#32 := by
      rcases not_and_or.mp (not_or.mp hbpp).2 with h | h
      · exact Or.inl (not_not.mp h)
      · exact Or.inr (not_not.mp h)
    have hmode : (bootMode b).bpp = b.bpp := (saneMode_same _).2.2.1
    have h := updateDims_ok (s := { initial with
      gfxModeId := b.mode
      fbEnabled := true
      gfx := bootMode b
      gfxLfb := if b.lfbHigh ≠ 0#32 then 0#32 else b.lfb
      fbBytes := b.bpp / 8#32
      hasFont := true
      fbFontH := bootFontH b
      fbScale := if 1024#32 ≤ b.width ∨ 768#32 ≤ b.height then 2#32 else 1#32 }) ?_ rfl ?_
    · exact ⟨h.1, fun _ => h.2⟩
    · refine ⟨bootFontH_bounds b, ?_, saneMode_pitch b.short, fun _ => ?_⟩
      · simp only
        split
        · exact Or.inr rfl
        · exact Or.inl rfl
      · simp only [hmode]
        exact hbpp'
    · simp only [hmode]

/-- The kernel starts with the cursor on the screen. -/
theorem boot_ok (b : Option BootVideo) : Wired (boot b) ∧ CursorOnScreen (boot b) := by
  have hstart : ∀ s : Console, Wired s → (s.fbEnabled = true → s.InGrid ∧ s.OfMode s.gfx) →
      Wired s.pagingVideo ∧ (s.pagingVideo.fbEnabled = true → s.pagingVideo.InGrid ∧ s.pagingVideo.OfMode s.pagingVideo.gfx) := by
    intro s hw hon
    unfold pagingVideo
    simp only
    split
    · split
      · exact ⟨⟨hw.font, hw.scale, hw.pitch, fun h => absurd h Bool.false_ne_true⟩, fun h => absurd h Bool.false_ne_true⟩
      · exact ⟨⟨hw.font, hw.scale, hw.pitch, hw.bpp⟩, hon⟩
    · exact ⟨hw, hon⟩
  have hmapped : ∃ s : Console, boot b = (if s.fbEnabled then s else s.vgaSetText) ∧ Wired s ∧
      (s.fbEnabled = true → s.InGrid ∧ s.OfMode s.gfx) := by
    cases b with
    | none => exact ⟨_, rfl, hstart initial (initial_wired 0#32) fun h => absurd h Bool.false_ne_true⟩
    | some b => exact ⟨_, rfl, hstart (bootinfoInit b) (bootinfoInit_ok b).1 (bootinfoInit_ok b).2⟩
  obtain ⟨s, hboot, hw, hon⟩ := hmapped
  rw [hboot]
  cases hfb : s.fbEnabled with
  | true =>
    rw [if_pos rfl]
    refine ⟨hw, hw.onScreen_iff.mpr ⟨hon, fun h => ?_⟩⟩
    rw [hfb] at h
    exact absurd h.symm Bool.false_ne_true
  | false =>
    rw [if_neg Bool.false_ne_true]
    refine ⟨vgaSetText_wired hw, vgaSetText_onScreen hw fun h => ?_⟩
    rw [hfb] at h
    exact absurd h Bool.false_ne_true

end Console

/-- In a run of the console every state has the cursor on the screen exactly if every step meets the condition. -/
theorem console_cursor_iff (b : Option BootVideo) (ops : List ConsoleOp) :
    (∀ n, CursorOnScreen (runFrom Console.step (Console.boot b) (ops.take n))) ↔ Meets Console.step ConsoleFits (Console.boot b) ops :=
  always_iff_meets Console.Wired (fun _ op hw => Console.step_wired hw op) (fun _ op hw hon => Console.step_onScreen_iff hw hon op)
    (Console.boot_ok b).1 (Console.boot_ok b).2 ops

/-- A screen of 1920 by 1080 pixels, and the cursor in column 100 when mode 13 is set: it stays there. -/
theorem console_cursor_false : ¬∀ (b : Option BootVideo) (ops : List ConsoleOp),
    CursorOnScreen (runFrom Console.step (Console.boot b) ops) := by
  intro h
  have h' := h (some ⟨0xE0000000#32, 0#32, 1920#32, 1080#32, 7680#32, 32#32, false, 0#32, 0#32, by decide⟩)
    [.setcursor 100#32 30#32, .vmode 13#32 ⟨false, 0#16, 0#16, 0#16, 0#16, 0#8, 0#32, false⟩]
  have htext := h'.text (by decide)
  exact absurd htext.1 (by decide)

end MiniOs32
