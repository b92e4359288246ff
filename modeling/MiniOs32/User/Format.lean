import MiniOs32.Lib.Memory
import MiniOs32.User.Numbers

/-!
# Formatted output in the two C libraries

`vformat_ap` of `fs/lib/stdio.c`, which `printf`, `snprintf` and `vsnprintf` share, and `printf` of `user/libc.c`. A format is the list
of its characters before the NUL. What the call finds behind it is given: the words of the argument list, the text behind a pointer,
and the text of a floating-point value, which is a word of the list for `cc` and two for `gcc`. A format or a text that the output
overwrites while it is read is not described.
-/

namespace MiniOs32

/-- What a formatter reads besides the format. -/
structure FormatArgs where
  word : Nat → U32
  str : U32 → List Byte
  /-- `out_float_f`, or `out_float_g`, of a value with a precision. -/
  floatText : Bool → U32 → U32 → List Byte
  doubleText : Bool → U64 → U32 → List Byte

/-- The text of `%s`. -/
def FormatArgs.strText (a : FormatArgs) (s : U32) : List Byte := if s = 0#32 then asciiBytes "(null)" else a.str s

/-- The optional `.N` behind a `%`: the precision, and the format behind it. -/
def scanPrec (fmt : List Byte) : U32 × List Byte :=
  if charAt fmt = Char.byte '.' then
    let (prec, fmt) := readDec 0#32 fmt.tail
    (if 17 < prec.toInt then 17#32 else prec, fmt)
  else (-1#32, fmt)

/-- `prec < 0 ? 6 : prec`. -/
def floatPrec (prec : U32) : U32 := if prec.toInt < 0 then 6#32 else prec

namespace FsLib

/-- `Out`, with the memory behind `buf` and what `putc` has written. -/
structure Out where
  mem : Mem
  console : List Byte
  buf : U32
  max : U32
  len : U32

/-- `out_ch`. -/
def Out.ch (o : Out) (c : Byte) : Out :=
  let o := if o.buf ≠ 0#32 then
      if (o.len + 1#32).toInt < o.max.toInt then { o with mem := o.mem.write (o.buf + o.len) [c] } else o
    else { o with console := o.console ++ [c] }
  { o with len := o.len + 1#32 }

/-- Characters passed to `out_ch` one by one, as `out_str` and the printers of numbers do. -/
def Out.text (o : Out) (l : List Byte) : Out := l.foldl Out.ch o

/-- One turn of the loop of `vformat_ap` at a character: the output, the format left and the argument that comes next. -/
def formatTurn (a : FormatArgs) (o : Out) (c : Byte) (fmt : List Byte) (ap : Nat) : Out × List Byte × Nat :=
  if c ≠ Char.byte '%' then (o.ch c, fmt, ap)
  else if charAt fmt = Char.byte '%' then (o.ch (Char.byte '%'), fmt.tail, ap)
  else
    let (prec, fmt) := scanPrec fmt
    match fmt with
    | [] => (o.ch (Char.byte '%'), [], ap)
    | c :: fmt =>
      if c = Char.byte 'f' ∨ c = Char.byte 'F' then (o.text (a.floatText false (a.word ap) (floatPrec prec)), fmt, ap + 1)
      else if c = Char.byte 'g' ∨ c = Char.byte 'G' then (o.text (a.floatText true (a.word ap) (floatPrec prec)), fmt, ap + 1)
      else if c = Char.byte 'd' then (o.text (outInt (a.word ap)), fmt, ap + 1)
      else if c = Char.byte 'u' then (o.text (outUint (a.word ap)), fmt, ap + 1)
      else if c = Char.byte 'x' then (o.text (outHex (a.word ap) false), fmt, ap + 1)
      else if c = Char.byte 'X' then (o.text (outHex (a.word ap) true), fmt, ap + 1)
      else if c = Char.byte 'c' then (o.ch ((a.word ap).setWidth 8), fmt, ap + 1)
      else if c = Char.byte 's' then (o.text (a.strText (a.word ap)), fmt, ap + 1)
      else ((o.ch (Char.byte '%')).ch c, fmt, ap)

/-- The loop of `vformat_ap`; every turn takes a character of the format at least. -/
def formatLoop (a : FormatArgs) : Nat → Out → List Byte → Nat → Out
  | 0, o, _, _ => o
  | _ + 1, o, [], _ => o
  | n + 1, o, c :: fmt, ap =>
    let (o, fmt, ap) := formatTurn a o c fmt ap
    formatLoop a n o fmt ap

/-- `vformat_ap`. -/
def vformatAp (a : FormatArgs) (o : Out) (fmt : List Byte) : Out := formatLoop a fmt.length o fmt 0

/-- `vsnprintf`: the memory, what is on the console, and the result. -/
def vsnprintf (m : Mem) (buf max : U32) (fmt : List Byte) (a : FormatArgs) : Mem × List Byte × U32 :=
  let o := vformatAp a ⟨m, [], buf, max, 0#32⟩ fmt
  let mem :=
    if o.buf ≠ 0#32 ∧ 0 < o.max.toInt then
      let n := o.len
      let n := if (o.max - 1#32).toInt < n.toInt then o.max - 1#32 else n
      let n := if n.toInt < 0 then 0#32 else n
      o.mem.write (o.buf + n) [0#8]
    else o.mem
  (mem, o.console, o.len)

/-- `snprintf`: the same statements, with the arguments behind `fmt`. -/
def snprintf (m : Mem) (buf max : U32) (fmt : List Byte) (a : FormatArgs) : Mem × List Byte × U32 := vsnprintf m buf max fmt a

/-- `printf`: what it writes, and the result. -/
def printf (m : Mem) (fmt : List Byte) (a : FormatArgs) : List Byte × U32 :=
  let o := vformatAp a ⟨m, [], 0#32, 0#32, 0#32⟩ fmt
  (o.console, o.len)

end FsLib

namespace UserLibc

/-- What `printf` has written with `putc`, and its `count`. -/
structure Printed where
  console : List Byte
  count : U32

/-- Characters written and not counted. -/
def Printed.text (o : Printed) (l : List Byte) : Printed := { o with console := o.console ++ l }

/-- Characters written and counted. -/
def Printed.counted (o : Printed) (l : List Byte) : Printed := ⟨o.console ++ l, o.count + BitVec.ofNat 32 l.length⟩

/-- One turn of the loop of `printf` at a character. -/
def printfTurn (a : FormatArgs) (o : Printed) (c : Byte) (fmt : List Byte) (ap : Nat) : Printed × List Byte × Nat :=
  if c ≠ Char.byte '%' then (o.counted [c], fmt, ap)
  else if charAt fmt = Char.byte '%' then (o.counted [Char.byte '%'], fmt.tail, ap)
  else
    let (prec, fmt) := scanPrec fmt
    match fmt with
    | [] => (o.counted [Char.byte '%', Char.byte '%'], [], ap)
    | c :: fmt =>
      let double : U64 := a.word (ap + 1) ++ a.word ap
      if c = Char.byte 'f' ∨ c = Char.byte 'F' then (o.text (a.doubleText false double (floatPrec prec)), fmt, ap + 2)
      else if c = Char.byte 'g' ∨ c = Char.byte 'G' then (o.text (a.doubleText true double (floatPrec prec)), fmt, ap + 2)
      else if c = Char.byte 'd' then (o.text (outInt (a.word ap)), fmt, ap + 1)
      else if c = Char.byte 'u' then (o.text (outUint (a.word ap)), fmt, ap + 1)
      else if c = Char.byte 'x' ∨ c = Char.byte 'X' then (o.text (outHex (a.word ap)), fmt, ap + 1)
      else if c = Char.byte 'c' then (o.counted [(a.word ap).setWidth 8], fmt, ap + 1)
      else if c = Char.byte 's' then (o.counted (a.strText (a.word ap)), fmt, ap + 1)
      else (o.counted [Char.byte '%', c], fmt, ap)

/-- The loop of `printf`. -/
def printfLoop (a : FormatArgs) : Nat → Printed → List Byte → Nat → Printed
  | 0, o, _, _ => o
  | _ + 1, o, [], _ => o
  | n + 1, o, c :: fmt, ap =>
    let (o, fmt, ap) := printfTurn a o c fmt ap
    printfLoop a n o fmt ap

/-- `printf`: what it writes, and the result. -/
def printf (fmt : List Byte) (a : FormatArgs) : List Byte × U32 :=
  let o := printfLoop a fmt.length ⟨[], 0#32⟩ fmt 0
  (o.console, o.count)

end UserLibc

end MiniOs32
