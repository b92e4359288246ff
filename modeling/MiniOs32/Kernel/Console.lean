import MiniOs32.Kernel.Frames

/-!
# The console

Text goes to the VGA text buffer or, on a framebuffer, to a grid of character cells from which the screen is painted. A line that
scrolls off the top of the grid goes into a ring of saved lines, and `console_view` moves a view over them and the grid. `SYS_VMODE`
changes the mode under the cursor and the grid. The reply of the BIOS to a change of mode is a parameter.
-/

namespace MiniOs32

/-- `FB_CELL_COLS`. -/
def fbCellCols : Nat := 320
/-- `FB_CELL_ROWS`. -/
def fbCellRows : Nat := 100
/-- `HIST_ROWS`. -/
def histRows : Nat := 512

/-- The byte of a space. -/
def blank : Byte := 0x20#8

/-- The line feed, the carriage return and the backspace. -/
def lineFeed : Byte := 10#8
def carriageReturn : Byte := 13#8
def backspace : Byte := 8#8

/-- A line of saved cells. -/
abbrev CellLine : Type := Fin fbCellCols → Byte

/-- The globals of the console. The byte last drawn into each cell of the screen stands for the pixels of the framebuffer. -/
structure Console where
  curX : Byte
  curY : Byte
  fbEnabled : Bool
  hasFont : Bool
  fbFontH : U32
  fbBytes : U32
  fbCols : U32
  fbRows : U32
  fbScale : U32
  gfx : FbMode
  gfxLfb : U32
  gfxModeId : U32
  textClearPending : Bool
  textRestorePending : Bool
  vga : Nat → BitVec 16
  fbCells : Nat → Byte
  histCells : Nat → Byte
  histNext : Nat
  histCount : Nat
  viewOff : Nat
  screen : Nat → Nat → Byte
  /-- Every line that has left the top of the grid, the oldest first. No code reads it. -/
  past : List CellLine

namespace Console

/-! ## Cells and glyphs -/

/-- A row of cells. -/
def cellLine (cells : Nat → Byte) (row : Nat) : CellLine := fun c => cells (row * fbCellCols + c)

/-- `fb_cell_set`. -/
def fbCellSet (s : Console) (row col : Nat) (c : Byte) : Console :=
  if row < fbCellRows ∧ col < fbCellCols then
    { s with fbCells := fun i => if i = row * fbCellCols + col then c else s.fbCells i }
  else s

/-- `fb_cell_get`. -/
def fbCellGet (s : Console) (row col : Nat) : Byte :=
  if row < fbCellRows ∧ col < fbCellCols then s.fbCells (row * fbCellCols + col) else blank

/-- The left edge of a column of cells and the width of a cell, in pixels. -/
def glyphX (s : Console) (col : Nat) : U32 := BitVec.ofNat 32 col * 8#32 * s.fbScale
def glyphW (s : Console) : U32 := 8#32 * s.fbScale

/-- The upper edge of a row of cells and the height of a cell, in pixels. -/
def glyphY (s : Console) (row : Nat) : U32 := BitVec.ofNat 32 row * s.fbFontH * s.fbScale
def glyphH (s : Console) : U32 := s.fbFontH * s.fbScale

/-- `fb_draw_glyph` draws the cell: the framebuffer is mapped, and the cell passes the test against the size of the mode. -/
def Drawn (s : Console) (col row : Nat) : Prop :=
  s.gfxLfb ≠ 0#32 ∧ s.glyphX col + s.glyphW ≤ s.gfx.w ∧ s.glyphY row + s.glyphH ≤ s.gfx.h

instance (s : Console) (col row : Nat) : Decidable (s.Drawn col row) := inferInstanceAs (Decidable (_ ∧ _ ∧ _))

/-- What is seen of a byte: nothing where it is zero or there is no font. -/
def glyphOf (s : Console) (c : Byte) : Byte := if s.hasFont = false ∨ c = 0#8 then blank else c

/-- `fb_draw_glyph`. -/
def fbDrawGlyph (s : Console) (col row : Nat) (c : Byte) : Console :=
  if s.Drawn col row then
    { s with screen := fun r k => if r = row ∧ k = col then s.glyphOf c else s.screen r k }
  else s

/-- The columns of a row drawn, and the rows of the grid. -/
def paintRow (row : Nat) (text : Nat → Byte) : Nat → Console → Console
  | 0, s => s
  | col + 1, s => (paintRow row text col s).fbDrawGlyph col row (text col)

def paintRows (text : Nat → Nat → Byte) (cols : Nat) : Nat → Console → Console
  | 0, s => s
  | row + 1, s => paintRow row (text row) cols (paintRows text cols row s)

/-- `fb_repaint`. -/
def fbRepaint (s : Console) : Console := paintRows s.fbCellGet s.fbCols.toNat s.fbRows.toNat s

/-- The byte `fb_repaint_view` draws into a cell. -/
def viewCell (s : Console) (row col : Nat) : Byte :=
  let idx := s.histCount + row - s.viewOff
  if idx < s.histCount then s.histCells ((s.histNext + histRows - s.histCount + idx) % histRows * fbCellCols + col)
  else s.fbCellGet (idx - s.histCount) col

/-- `fb_repaint_view`. -/
def fbRepaintView (s : Console) : Console := paintRows s.viewCell s.fbCols.toNat s.fbRows.toNat s

/-- The lines `console_view` scrolls back to. -/
def viewTarget (s : Console) (delta : Int) : Nat :=
  if 0 < delta then
    let nv := (s.viewOff + delta.toNat) % 2 ^ 32
    if s.histCount < nv then s.histCount else nv
  else
    let d := (-delta).toNat % 2 ^ 32
    if s.viewOff ≤ d then 0 else s.viewOff - d

/-- `console_view`. -/
def consoleView (s : Console) (delta : Int) : Console :=
  if s.fbEnabled = false ∨ s.gfxLfb = 0#32 then s
  else if s.viewTarget delta = s.viewOff then s
  else { s with viewOff := s.viewTarget delta }.fbRepaintView

/-- `console_view_live`. -/
def consoleViewLive (s : Console) : Console := if s.viewOff = 0 then s else { s with viewOff := 0 }.fbRepaint

/-! ## Output -/

/-- The line at the top of the grid saved into the ring. -/
def saveTop (s : Console) : Console :=
  { s with
    histCells := fun i =>
      if s.histNext * fbCellCols ≤ i ∧ i < s.histNext * fbCellCols + fbCellCols then s.fbCells (i - s.histNext * fbCellCols)
      else s.histCells i
    histNext := (s.histNext + 1) % histRows
    histCount := if s.histCount < histRows then s.histCount + 1 else s.histCount
    past := s.past ++ [cellLine s.fbCells 0] }

/-- The rows of the grid moved up by one, and the last one cleared. -/
def shiftRows (s : Console) : Console :=
  let last := if s.fbRows.toNat < fbCellRows then s.fbRows.toNat else fbCellRows
  { s with
    fbCells := fun i =>
      if i < (last - 1) * fbCellCols then s.fbCells (i + fbCellCols)
      else if i < last * fbCellCols then blank
      else s.fbCells i }

/-- The rows of the text buffer moved up by one, and the last one cleared. -/
def shiftText (s : Console) : Console :=
  { s with vga := fun i => if i < 24 * 80 then s.vga (i + 80) else if i < 25 * 80 then 0x0720#16 else s.vga i }

/-- `vga_scroll`. -/
def vgaScroll (s : Console) : Console :=
  if s.fbEnabled then
    if s.curY.toNat < s.fbRows.toNat then s
    else if s.gfxLfb = 0#32 then s
    else { s.saveTop.shiftRows.fbRepaint with curY := (s.fbRows - 1#32).setWidth 8 }
  else if s.curY.toNat < 25 then s
  else { s.shiftText with curY := 24#8 }

/-- The cursor goes to the start of the next line. -/
def nextLine (s : Console) : Console := { s with curX := 0#8, curY := s.curY + 1#8 }.vgaScroll

/-- The cursor goes to the next cell. -/
def advance (s : Console) : Console := { s with curX := s.curX + 1#8 }

/-- The cursor goes back by one cell, to the end of the line above from the start of a line; not from the first cell. -/
def stepBack (s : Console) (lastCol : Byte) : Option Console :=
  if s.curX = 0#8 then
    if s.curY = 0#8 then none else some { s with curX := lastCol, curY := s.curY - 1#8 }
  else some { s with curX := s.curX - 1#8 }

/-- A byte put into the cell at the cursor, and drawn. -/
def putCell (s : Console) (c : Byte) : Console :=
  (s.fbCellSet s.curY.toNat s.curX.toNat c).fbDrawGlyph s.curX.toNat s.curY.toNat c

/-- A character put into the text buffer at the cursor. -/
def putText (s : Console) (v : BitVec 16) : Console :=
  { s with vga := fun i => if i = s.curY.toNat * 80 + s.curX.toNat then v else s.vga i }

/-- The branch of `vga_putc` for the framebuffer, behind the return to the live grid. -/
def fbPutc (s : Console) (c : Byte) : Console :=
  if c = lineFeed then s.nextLine
  else if c = carriageReturn then { s with curX := 0#8 }
  else if c = backspace then
    match s.stepBack ((s.fbCols - 1#32).setWidth 8) with
    | none => s
    | some s => s.putCell blank
  else if s.hasFont = false then s
  else
    let s := (s.putCell c).advance
    if s.fbCols.toNat ≤ s.curX.toNat then s.nextLine else s

/-- The branch of `vga_putc` for the text buffer. -/
def textPutc (s : Console) (c : Byte) : Console :=
  if c = lineFeed then s.nextLine
  else if c = carriageReturn then { s with curX := 0#8 }
  else if c = backspace then
    match s.stepBack 79#8 with
    | none => s
    | some s => s.putText 0x0720#16
  else
    let s := (s.putText (0x07#8 ++ c)).advance
    if 80 ≤ s.curX.toNat then s.nextLine else s

/-- `vga_putc`. -/
def vgaPutc (s : Console) (c : Byte) : Console := if s.fbEnabled then s.consoleViewLive.fbPutc c else s.textPutc c

/-- `vga_cls`. -/
def vgaCls (s : Console) : Console :=
  if s.fbEnabled then
    { s with
      viewOff := 0
      fbCells := fun i => if i < fbCellRows * fbCellCols then blank else s.fbCells i
      screen := if s.gfxLfb ≠ 0#32 ∧ (s.fbBytes = 1#32 ∨ s.fbBytes = 4#32) then fun _ _ => blank else s.screen
      curX := 0#8
      curY := 0#8 }
  else { s with vga := fun i => if i < 25 * 80 then 0x0720#16 else s.vga i, curX := 0#8, curY := 0#8 }

/-- `vga_setcursor`. -/
def vgaSetcursor (s : Console) (x y : U32) : Console :=
  if s.fbEnabled then
    { s with
      curX := (if s.fbCols ≤ x then s.fbCols - 1#32 else x).setWidth 8
      curY := (if s.fbRows ≤ y then s.fbRows - 1#32 else y).setWidth 8 }
  else
    { s with
      curX := (if 79#32 < x then 79#32 else x).setWidth 8
      curY := (if 24#32 < y then 24#32 else y).setWidth 8 }

/-! ## Modes -/

/-- `vga_set_mode13`. -/
def vgaSetMode13 (s : Console) : Console := { s with gfx := ⟨320#32, 200#32, 320#32, 8#32, 0xA0000#64⟩, gfxLfb := 0xA0000#32 }

/-- `vga_set_text`. -/
def vgaSetText (s : Console) : Console :=
  if s.fbEnabled then s.vgaCls
  else { s with gfx := ⟨80#32, 25#32, 160#32, 0#32, 0xB8000#64⟩, gfxLfb := 0xB8000#32, curX := 0#8, curY := 0#8 }

/-- The columns and rows `fb_update_dims` makes of a mode. -/
def gridCols (s : Console) (w : U32) : U32 := if w / (8#32 * s.fbScale) = 0#32 then 1#32 else w / (8#32 * s.fbScale)
def gridRows (s : Console) (h : U32) : U32 :=
  if h / (s.fbFontH * s.fbScale) = 0#32 then 1#32 else h / (s.fbFontH * s.fbScale)

/-- `fb_update_dims`. -/
def fbUpdateDims (s : Console) : Console :=
  let s := { s with fbFontH := if s.fbFontH = 0#32 then 16#32 else s.fbFontH }
  { s with fbCols := s.gridCols s.gfx.w, fbRows := s.gridRows s.gfx.h }

/-- The pitch of a mode, replaced where it is less than a line or more than two. -/
def saneMode (m : FbMode) : FbMode :=
  if m.bpp = 8#32 then
    if m.pitch < m.w ∨ m.w * 2#32 < m.pitch then { m with pitch := m.w } else m
  else if m.bpp = 32#32 then
    if m.pitch < m.w * 4#32 ∨ m.w * 4#32 * 2#32 < m.pitch then { m with pitch := m.w * 4#32 } else m
  else m

/-- `gfx_map_lfb` maps the framebuffer of the mode. -/
def Windowed (m : FbMode) : Prop := m.lfbPhys ≠ 0#64 ∧ m.bytes ≠ 0#32 ∧ m.bytes.toNat ≤ fbVirtSize

instance (m : FbMode) : Decidable (Windowed m) := inferInstanceAs (Decidable (_ ∧ _ ∧ _))

/-- `gfx_map_lfb`, as far as the console sees it. -/
def gfxMapLfb (s : Console) : Console :=
  { s with gfxLfb := if Windowed s.gfx then BitVec.ofNat 32 fbVirtBase + (s.gfx.lfbPhys &&& 0xFFF#64).setWidth 32 else 0#32 }

end Console

/-- What the BIOS answers about a mode and to the request to set it. -/
structure VbeReply where
  infoOk : Bool
  attributes : BitVec 16
  pitch : BitVec 16
  xres : BitVec 16
  yres : BitVec 16
  bpp : Byte
  physBase : U32
  setOk : Bool

/-- The checks of `vbe_set_mode` pass, and the BIOS sets the mode. -/
def VbeReply.Sets (v : VbeReply) : Prop :=
  v.infoOk = true ∧ v.attributes &&& 0x90#16 = 0x90#16 ∧ (v.bpp = 8#8 ∨ v.bpp = 32#8) ∧ v.setOk = true

instance (v : VbeReply) : Decidable v.Sets := inferInstanceAs (Decidable (_ ∧ _ ∧ _ ∧ _))

/-- The mode `vbe_set_mode` records. -/
def VbeReply.mode (v : VbeReply) : FbMode :=
  Console.saneMode ⟨v.xres.setWidth 32, v.yres.setWidth 32, v.pitch.setWidth 32, v.bpp.setWidth 32, v.physBase.setWidth 64⟩

namespace Console

/-- `set_fb_mode`. -/
def setFbMode (s : Console) (mode : U32) (v : VbeReply) : Console :=
  if v.Sets then
    let s := { s with gfx := v.mode }.gfxMapLfb
    if s.gfxLfb = 0#32 then s else { s with fbEnabled := true, gfxModeId := mode }
  else s

/-- `SYS_VMODE`. -/
def sysVmode (s : Console) (mode : U32) (v : VbeReply) : Console :=
  if mode = 0#32 then
    if s.fbEnabled then { s.vgaCls with textRestorePending := false }
    else
      let s := s.vgaSetText
      let s := if s.textClearPending then { s.vgaCls with textClearPending := false } else s
      { s with textRestorePending := false }
  else if mode = 13#32 then { { s with fbEnabled := false }.vgaSetMode13 with textClearPending := true, textRestorePending := true }
  else if s.gfxModeId ≠ 0#32 ∧ s.fbEnabled ∧ mode = s.gfxModeId then s
  else s.setFbMode mode v

/-- The part of `after_user` that is about the console. -/
def afterUser (s : Console) : Console :=
  if s.textRestorePending then
    let s := s.vgaSetText
    let s := if s.textClearPending then s.vgaCls else s
    { s with textRestorePending := false, textClearPending := false }
  else s

end Console

/-! ## Start -/

/-- The framebuffer the boot loader hands over. A line of a real one is shorter than 4 GiB. -/
structure BootVideo where
  lfb : U32
  lfbHigh : U32
  width : U32
  height : U32
  pitch : U32
  bpp : U32
  hasFont : Bool
  fontH : U32
  mode : U32
  short : width.toNat < 2 ^ 30

namespace Console

/-- The globals when the kernel starts. -/
def initial : Console where
  curX := 0#8
  curY := 0#8
  fbEnabled := false
  hasFont := false
  fbFontH := 16#32
  fbBytes := 1#32
  fbCols := 80#32
  fbRows := 25#32
  fbScale := 1#32
  gfx := ⟨320#32, 200#32, 320#32, 8#32, 0xA0000#64⟩
  gfxLfb := 0xA0000#32
  gfxModeId := 0#32
  textClearPending := false
  textRestorePending := false
  vga := fun _ => 0#16
  fbCells := fun _ => 0#8
  histCells := fun _ => 0#8
  histNext := 0
  histCount := 0
  viewOff := 0
  screen := fun _ _ => blank
  past := []

/-- The height of the font: the low half of the word handed over, or that of `font8x16`. -/
def bootFontH (b : BootVideo) : U32 := if b.hasFont ∧ b.fontH &&& 0xFFFF#32 ≠ 0#32 then b.fontH &&& 0xFFFF#32 else 16#32

/-- The mode `bootinfo_init` records. -/
def bootMode (b : BootVideo) : FbMode := saneMode ⟨b.width, b.height, b.pitch, b.bpp, b.lfbHigh ++ b.lfb⟩

/-- `bootinfo_init`, up to the pattern it draws over the cleared screen. -/
def bootinfoInit (b : BootVideo) : Console :=
  if b.lfb = 0#32 ∨ b.bpp ≠ 8#32 ∧ b.bpp ≠ 32#32 then { initial with gfxModeId := b.mode }
  else
    { initial with
      gfxModeId := b.mode
      fbEnabled := true
      gfx := bootMode b
      gfxLfb := if b.lfbHigh ≠ 0#32 then 0#32 else b.lfb
      fbBytes := b.bpp / 8#32
      hasFont := true
      fbFontH := bootFontH b
      fbScale := if 1024#32 ≤ b.width ∨ 768#32 ≤ b.height then 2#32 else 1#32 : Console }.fbUpdateDims.vgaCls

/-- The part of `paging_init` that is about the console. -/
def pagingVideo (s : Console) : Console :=
  if s.fbEnabled ∧ s.gfx.lfbPhys ≠ 0#64 then
    let s := s.gfxMapLfb
    if s.gfxLfb = 0#32 then { s with fbEnabled := false } else s
  else s

/-- The console when `kmain` first writes to it. -/
def boot (b : Option BootVideo) : Console :=
  let s := (match b with
    | none => initial
    | some b => bootinfoInit b).pagingVideo
  if s.fbEnabled then s else s.vgaSetText

end Console

end MiniOs32
