import MiniOs32.Kernel.Calls
import MiniOs32.User.Paths
import MiniOs32.User.Strings

/-!
# The editor of the shell

`cmd_edit` loads a file into the static `buf`, and then takes keys one by one: they move the cursor, change the text in place,
save it or leave. What is left out is the screen: the first row shown, the redrawing, the blinking cursor and the status line are
computed from the text and never change it.

The variables of the C code are `int`s. None of them comes near the limits of one, so they are integers here.
-/

namespace MiniOs32

/-- `sizeof(buf)`. -/
def editSize : Nat := 131072
/-- The columns of the screen. -/
def editCols : Nat := 80
/-- `'\n'`. -/
def newline : Byte := 10#8

/-- `KEY_UP`. -/
def keyUp : Int := 0x100
/-- `KEY_DOWN`. -/
def keyDown : Int := 0x101
/-- `KEY_LEFT`. -/
def keyLeft : Int := 0x102
/-- `KEY_RIGHT`. -/
def keyRight : Int := 0x103
/-- `KEY_DEL`. -/
def keyDel : Int := 0x104

/-- Where the shell keeps `buf` and, on its stack, `path`. -/
structure EditFrame where
  bufOff : U32
  pathOff : U32
  bufOk : userRangeOk bufOff (BitVec.ofNat 32 editSize) = true
  pathOk : pathOff.toNat + 64 ≤ userFbOffset
  apart : pathOff.toNat + 64 ≤ bufOff.toNat ∨ bufOff.toNat + editSize ≤ pathOff.toNat

/-- `buf[i]`, for the text that starts at `buf`. -/
def EditFrame.text (f : EditFrame) (um : UserMem) : Nat → Byte := fun i => um (f.bufOff.toNat + i)

/-- The address `buf + i`. -/
def EditFrame.at (f : EditFrame) (i : Int) : Nat := (f.bufOff.toNat + i).toNat

/-- The loop of `row_col_of_index` at index `i`, with `n` turns left. -/
def rowColLoop (buf : Nat → Byte) (r c i : Nat) : Nat → Nat × Nat
  | 0 => (r, c)
  | n + 1 =>
    if buf i = newline then rowColLoop buf (r + 1) 0 (i + 1) n
    else if editCols ≤ c + 1 then rowColLoop buf (r + 1) 0 (i + 1) n
    else rowColLoop buf r (c + 1) (i + 1) n

/-- `row_col_of_index`. -/
def rowColOfIndex (buf : Nat → Byte) (len idx : Int) : Nat × Nat := rowColLoop buf 0 0 0 (min idx len).toNat

/-- The loop of `index_of_row_col` at index `i`, with `n` turns left; behind the last turn `i` is `len`. -/
def indexOfRowColLoop (buf : Nat → Byte) (targetRow targetCol : Int) (r c i : Nat) : Nat → Nat
  | 0 => i
  | n + 1 =>
    if (r : Int) = targetRow ∧ (c : Int) = targetCol then i
    else if buf i = newline then
      if (r : Int) = targetRow then i else indexOfRowColLoop buf targetRow targetCol (r + 1) 0 (i + 1) n
    else if editCols ≤ c + 1 then
      if (r : Int) = targetRow then i + 1 else indexOfRowColLoop buf targetRow targetCol (r + 1) 0 (i + 1) n
    else indexOfRowColLoop buf targetRow targetCol r (c + 1) (i + 1) n

/-- `index_of_row_col`. -/
def indexOfRowCol (buf : Nat → Byte) (len targetRow targetCol : Int) : Int :=
  if targetRow ≤ 0 ∧ targetCol ≤ 0 then 0 else indexOfRowColLoop buf targetRow targetCol 0 0 0 len.toNat

/-- `move_cursor_rows`. -/
def moveCursorRows (buf : Nat → Byte) (len cursor delta : Int) : Int :=
  let (row, col) := rowColOfIndex buf len cursor
  let row := (row : Int) + delta
  let row := if row < 0 then 0 else row
  indexOfRowCol buf len row col

/-- The variables of `cmd_edit` that outlive a key, the memory of the shell and the kernel behind its system calls. -/
structure Editor where
  kernel : Kernel
  um : UserMem
  len : Int
  cursor : Int
  dirty : Bool
  quitPending : Bool
  running : Bool

/-- Bytes of the memory. -/
def UserMem.bytes (um : UserMem) (a n : Nat) : List Byte := (List.range n).map fun i => um (a + i)

/-- Bytes put into the memory. -/
def UserMem.put (um : UserMem) (a : Nat) (l : List Byte) : UserMem := fun x =>
  if a ≤ x ∧ x < a + l.length then l.getD (x - a) 0#8 else um x

/-- `cmd_edit` up to its loop; none where it refuses the name. -/
def editOpen (f : EditFrame) (k : Kernel) (um : UserMem) (cwd name : List Byte) : Option Editor := do
  let (ok, path) ← buildPath cwd name (um.bytes f.pathOff.toNat 64) 64 false
  if ok ≤ 0 ∨ nameMax < (path.takeWhile (· != 0#8)).length then none
  let um := um.put f.pathOff.toNat path
  let (k, um, n) := k.sysLoad um f.pathOff f.bufOff (BitVec.ofNat 32 editSize)
  return { kernel := k, um, len := if 0 < n.toInt then n.toInt else 0, cursor := 0, dirty := false, quitPending := false, running := true }

namespace Editor

variable (f : EditFrame) (s : Editor)

/-- `memmove(buf + d, buf + src, n)`. -/
def move (d src n : Int) : UserMem := UserLibc.memmove s.um (f.at d) (f.at src) n.toNat

/-- Ctrl+S: `sys_save`, and `sys_sync` if it returns 0; `status` is what `nvme_write` returns. -/
def save (status : U32) : Editor :=
  let (k, r) := s.kernel.sysSave s.um f.pathOff f.bufOff (BitVec.ofInt 32 s.len)
  if r ≠ 0#32 then { s with kernel := k }
  else { s with kernel := (k.sysSync status).1, dirty := false }

/-- Enter, or a character: there is room for it as long as a byte of `buf` stays free behind it. -/
def insert (c : Byte) : Editor :=
  if s.len + 1 < editSize then
    let um := s.move f (s.cursor + 1) s.cursor (s.len - s.cursor)
    { s with um := um.set (f.at s.cursor) c, cursor := s.cursor + 1, len := s.len + 1, dirty := true }
  else s

/-- Delete. -/
def delete : Editor :=
  if s.cursor < s.len then
    { s with um := s.move f s.cursor (s.cursor + 1) (s.len - s.cursor - 1), len := s.len - 1, dirty := true }
  else s

/-- Backspace. -/
def backspace : Editor :=
  if 0 < s.cursor then
    { s with
      um := s.move f (s.cursor - 1) s.cursor (s.len - s.cursor), cursor := s.cursor - 1, len := s.len - 1, dirty := true }
  else s

/-- The up key. -/
def up : Editor :=
  let (row, col) := rowColOfIndex (f.text s.um) s.len s.cursor
  if 0 < row then { s with cursor := indexOfRowCol (f.text s.um) s.len (row - 1) col } else s

/-- The down key. -/
def down : Editor :=
  let (row, col) := rowColOfIndex (f.text s.um) s.len s.cursor
  { s with cursor := indexOfRowCol (f.text s.um) s.len (row + 1) col }

/-- The keys that are no commands. -/
def typeKey (key : Int) : Editor :=
  if key = keyLeft then { s with cursor := if 0 < s.cursor then s.cursor - 1 else s.cursor }
  else if key = keyRight then { s with cursor := if s.cursor < s.len then s.cursor + 1 else s.cursor }
  else if key = keyUp then s.up f
  else if key = keyDown then s.down f
  else if key = keyDel then s.delete f
  else if key = 8 then s.backspace f
  else if key = 13 ∨ key = 10 then s.insert f newline
  else if 32 ≤ key ∧ key < 127 then s.insert f (BitVec.ofInt 8 key)
  else s

end Editor

/-- What `sys_getkey_nb` returns in one turn of the loop, 0 while no key is down, and what `nvme_write` returns if the key saves. -/
structure EditKey where
  key : Int
  status : U32

/-- One turn of the loop of `cmd_edit`. -/
def editKey (f : EditFrame) (s : Editor) (k : EditKey) : Editor :=
  if !s.running then s
  else if k.key = 0 then s
  else if k.key = 17 then
    if s.dirty && !s.quitPending then { s with quitPending := true } else { s with running := false }
  else if k.key = 19 then s.save f k.status
  else if k.key = 21 then { s with cursor := moveCursorRows (f.text s.um) s.len s.cursor (-23) }
  else if k.key = 4 then { s with cursor := moveCursorRows (f.text s.um) s.len s.cursor 23 }
  else Editor.typeKey f { s with quitPending := false } k.key

end MiniOs32
