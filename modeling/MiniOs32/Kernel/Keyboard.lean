import MiniOs32.Lib.Words

/-!
# The keyboard

The controller sends a scancode for each press of a key and the same code with the top bit set for its release; the codes of some
keys follow an `E0`. `kbd_handle_scancode` turns them into characters for `kbd_buf`, keeps the two modifier flags and records for
each scancode whether its key is held. Scrolling the console and ending the program are left to the caller, as a `KbdAct`.
-/

namespace MiniOs32

/-- `KBD_BUF_SIZE`. -/
def kbdBufSize : Nat := 64

/-- `KEY_UP`, `KEY_DOWN`, `KEY_LEFT`, `KEY_RIGHT` and `KEY_DEL`, by the scancode behind the `E0`. -/
def extKeys : List (BitVec 7 × BitVec 16) :=
  [(0x48#7, 0x100#16), (0x50#7, 0x101#16), (0x4B#7, 0x102#16), (0x4D#7, 0x103#16), (0x53#7, 0x104#16)]

/-- `keymap`. -/
def keymap : List Byte :=
  [0#8, 27#8] ++ asciiBytes "1234567890-=" ++ [8#8, 9#8] ++ asciiBytes "qwertyuiop[]" ++ [10#8, 0#8] ++ asciiBytes "asdfghjkl;" ++
    [39#8, 96#8, 0#8, 92#8] ++ asciiBytes "zxcvbnm,./" ++ [0#8] ++ asciiBytes "*" ++ [0#8] ++ asciiBytes " " ++
    List.replicate 21 0#8 ++ asciiBytes "789-456+1230."

/-- `keymap_shift`. -/
def keymapShift : List Byte :=
  [0#8, 27#8] ++ asciiBytes "!@#$%^&*()_+" ++ [8#8, 9#8] ++ asciiBytes "QWERTYUIOP" ++ [123#8, 125#8, 10#8, 0#8] ++
    asciiBytes "ASDFGHJKL:" ++ [34#8, 126#8, 0#8, 124#8] ++ asciiBytes "ZXCVBNM<>?" ++ [0#8] ++ asciiBytes "*" ++ [0#8] ++
    asciiBytes " " ++ List.replicate 21 0#8 ++ asciiBytes "789-456+1230."

/-- The state of the keyboard: `kbd_shift`, `kbd_ctrl` and `kbd_ext`, `key_down` and `ext_key_down`, and the ring of characters. -/
structure Kbd where
  shift : Bool
  ctrl : Bool
  ext : Bool
  keyDown : BitVec 7 → Bool
  extKeyDown : BitVec 7 → Bool
  buf : Nat → BitVec 16
  head : Nat
  tail : Nat

/-- The globals when the kernel starts. -/
def Kbd.initial : Kbd := ⟨false, false, false, fun _ => false, fun _ => false, fun _ => 0#16, 0, 0⟩

/-- What is left to the caller of `kbd_handle_scancode`: nothing, a page of the console up or down, or `kill_program`. -/
inductive KbdAct where
  | none
  | viewUp
  | viewDown
  | kill
  deriving DecidableEq

/-- `kbd_push`. -/
def Kbd.push (k : Kbd) (v : BitVec 16) : Kbd :=
  if (k.head + 1) % kbdBufSize = k.tail then k
  else { k with buf := fun i => if i = k.head then v else k.buf i, head := (k.head + 1) % kbdBufSize }

/-- The character of a key, with the controls Ctrl makes of the letters. -/
def Kbd.charOf (k : Kbd) (base : BitVec 7) : Byte :=
  let c := (if k.shift then keymapShift else keymap).getD base.toNat 0#8
  if k.ctrl ∧ Char.byte 'A' ≤ c ∧ c ≤ Char.byte 'Z' then c - Char.byte 'A' + 1#8
  else if k.ctrl ∧ Char.byte 'a' ≤ c ∧ c ≤ Char.byte 'z' then c - Char.byte 'a' + 1#8
  else c

/-- The press of a key whose code follows an `E0`. -/
def Kbd.pressExt (k : Kbd) (base : BitVec 7) : Kbd × KbdAct :=
  let k := { k with extKeyDown := fun i => if i = base then true else k.extKeyDown i, ext := false }
  match extKeys.find? (fun e => e.1 = base) with
  | some e => (k.push e.2, .none)
  | none =>
    if base = 0x49#7 ∧ k.shift then (k, .viewUp)
    else if base = 0x51#7 ∧ k.shift then (k, .viewDown)
    else (k, .none)

/-- The press of a key. -/
def Kbd.pressPlain (k : Kbd) (base : BitVec 7) : Kbd × KbdAct :=
  let k := { k with keyDown := fun i => if i = base then true else k.keyDown i }
  let c := k.charOf base
  if k.ctrl ∧ c = 3#8 then (k, .kill)
  else if c ≠ 0#8 then (k.push (c.setWidth 16), .none)
  else (k, .none)

/-- `kbd_handle_scancode`. -/
def Kbd.handleScancode (k : Kbd) (sc : Byte) : Kbd × KbdAct :=
  if sc = 0xE0#8 then ({ k with ext := true }, .none)
  else if sc = 0x2A#8 ∨ sc = 0x36#8 then ({ k with shift := true, ext := false }, .none)
  else if sc = 0xAA#8 ∨ sc = 0xB6#8 then ({ k with shift := false, ext := false }, .none)
  else if sc = 0x1D#8 then ({ k with ctrl := true, ext := false }, .none)
  else if sc = 0x9D#8 then ({ k with ctrl := false, ext := false }, .none)
  else
    let base := sc.setWidth 7
    if sc &&& 0x80#8 ≠ 0#8 then
      -- the break code of a key
      if k.ext then ({ k with extKeyDown := fun i => if i = base then false else k.extKeyDown i, ext := false }, .none)
      else ({ k with keyDown := fun i => if i = base then false else k.keyDown i }, .none)
    else if k.ext then k.pressExt base
    else k.pressPlain base

/-- The state after some scancodes. -/
def Kbd.after (k : Kbd) (scs : List Byte) : Kbd := scs.foldl (fun k sc => (k.handleScancode sc).1) k

/-- `SYS_KEYSTATE`. -/
def Kbd.keystate (k : Kbd) (key : U32) : U32 :=
  let at? (down : BitVec 7 → Bool) (base : BitVec 7) : U32 := if down base then 1#32 else 0#32
  if key.toNat < 128 then at? k.keyDown (key.setWidth 7)
  else match extKeys.find? (fun e => e.2.setWidth 32 = key) with
    | some e => at? k.extKeyDown e.1
    | none => 0#32

end MiniOs32
