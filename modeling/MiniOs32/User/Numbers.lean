import MiniOs32.Lib.Numerals
import MiniOs32.User.Strings

/-!
# Numbers and text in the two C libraries

The printers of `fs/lib/stdio.c` and `user/libc.c`, as the characters they pass to `putc` or `out_ch`, in order; the parsers of both,
and `strtol` of `fs/lib/stdlib.c`. A text is the list of its characters before the NUL, so a pointer into it is what is left of the
list, and the character at its end is the NUL. A `char` is signed and an `int` wraps.
-/

namespace MiniOs32

/-- `*p`. -/
def charAt (p : List Byte) : Byte := p.headD 0#8

/-- `is_space`, alike in all three files. -/
def isSpace (c : Byte) : Bool := c == 32#8 || c == 9#8 || c == 10#8 || c == 13#8 || c == 11#8 || c == 12#8

/-- `lo <= c && c <= hi`. -/
def charIn (lo hi : Char) (c : Byte) : Bool :=
  decide ((charInt (Char.byte lo)).toInt ≤ (charInt c).toInt ∧ (charInt c).toInt ≤ (charInt (Char.byte hi)).toInt)

/-- `is_digit`. -/
def isDigit (c : Byte) : Bool := charIn '0' '9' c

/-- `hex_val`. -/
def hexVal (c : Byte) : U32 :=
  if charIn '0' '9' c then charInt c - charInt (Char.byte '0')
  else if charIn 'a' 'f' c then charInt c - charInt (Char.byte 'a') + 10#32
  else if charIn 'A' 'F' c then charInt c - charInt (Char.byte 'A') + 10#32
  else -1#32

/-- `skip_ws`. -/
def skipSpace (p : List Byte) : List Byte := p.dropWhile isSpace

/-! ## Printers -/

/-- `(char)('0' + d)`. -/
def decChar (d : U32) : Byte := (charInt (Char.byte '0') + d).setWidth 8

/-- `d < 10 ? '0' + d : 'a' + (d - 10)`, or from `'A'` on. -/
def hexChar (upper : Bool) (d : U32) : Byte :=
  if d.toInt < 10 then decChar d else (charInt (if upper then (Char.byte 'A') else (Char.byte 'a')) + (d - 10#32)).setWidth 8

/-- A printer of a word: the sign of a signed one, and a loop while there is something left. -/
def printWord (signed more : U32 → Bool) (digit : U32 → Byte) (next : U32 → U32) (v : U32) : List Byte :=
  if v = 0#32 then [(Char.byte '0')]
  else
    let sign := if signed v then [(Char.byte '-')] else []
    let v := if signed v then -v else v
    sign ++ Numerals.printLoop more digit next v.toNat v []

/-- `v < 0` of an `int`. -/
def intNeg (v : U32) : Bool := decide (v.toInt < 0)
/-- `v > 0` of an `int`. -/
def intPos (v : U32) : Bool := decide (0 < v.toInt)
/-- `v > 0` of an `unsigned int`. -/
def uintPos (v : U32) : Bool := decide (0 < v.toNat)

namespace FsLib

/-- `print_int`. -/
def printInt (v : U32) : List Byte :=
  printWord intNeg intPos (fun v => decChar (v - v.sdiv 10#32 * 10#32)) (fun v => v.sdiv 10#32) v

/-- `print_uint`, of an `int`. -/
def printUint (v : U32) : List Byte :=
  printWord (fun _ => false) intPos (fun v => decChar (v - v.sdiv 10#32 * 10#32)) (fun v => v.sdiv 10#32) v

/-- `print_hex`, of an `int`. -/
def printHex (v : U32) : List Byte :=
  printWord (fun _ => false) intPos (fun v => hexChar false (v - v.sdiv 16#32 * 16#32)) (fun v => v.sdiv 16#32) v

/-- `out_int`. -/
def outInt (v : U32) : List Byte :=
  printWord intNeg intPos (fun v => decChar (v - v.sdiv 10#32 * 10#32)) (fun v => v.sdiv 10#32) v

/-- `out_uint`. -/
def outUint (v : U32) : List Byte :=
  printWord (fun _ => false) uintPos (fun v => decChar (v - v / 10#32 * 10#32)) (fun v => v / 10#32) v

/-- `out_hex`. -/
def outHex (v : U32) (upper : Bool) : List Byte :=
  printWord (fun _ => false) uintPos (fun v => hexChar upper (v - v / 16#32 * 16#32)) (fun v => v / 16#32) v

end FsLib

namespace UserLibc

/-- `out_int`. -/
def outInt (v : U32) : List Byte := printWord intNeg intPos (fun v => decChar (v.srem 10#32)) (fun v => v.sdiv 10#32) v

/-- `out_uint`. -/
def outUint (v : U32) : List Byte := printWord (fun _ => false) uintPos (fun v => decChar (v % 10#32)) (fun v => v / 10#32) v

/-- `out_hex`. -/
def outHex (v : U32) : List Byte := printWord (fun _ => false) uintPos (fun v => hexChar false (v &&& 0xF#32)) (fun v => v >>> 4) v

end UserLibc

/-! ## Parsers -/

/-- `while (is_digit(*p)) { v = v * 10 + (*p - '0'); p = p + 1; }` -/
def readDec : U32 → List Byte → U32 × List Byte
  | v, [] => (v, [])
  | v, c :: p => if isDigit c then readDec (v * 10#32 + (charInt c - charInt (Char.byte '0'))) p else (v, c :: p)

/-- `while ((hv = hex_val(*p)) >= 0) { ...; p = p + 1; }` -/
def readHex (step : U32 → U32 → U32) : U32 → List Byte → U32 × List Byte
  | v, [] => (v, [])
  | v, c :: p => if 0 ≤ (hexVal c).toInt then readHex step (step v (hexVal c)) p else (v, c :: p)

/-- `parse_int` of both libraries: the value and the text left; none where it returns 0. -/
def parseInt (p : List Byte) : Option (U32 × List Byte) :=
  let p := skipSpace p
  let neg := charAt p == (Char.byte '-')
  let p := if charAt p = (Char.byte '+') ∨ charAt p = (Char.byte '-') then p.tail else p
  if isDigit (charAt p) then
    let (v, p) := readDec 0#32 p
    some (if neg then -v else v, p)
  else none

/-- `parse_uint` of both libraries. -/
def parseUint (p : List Byte) : Option (U32 × List Byte) :=
  let p := skipSpace p
  if isDigit (charAt p) then some (readDec 0#32 p) else none

/-- `parse_hex`, with the way a library adds a digit. -/
def parseHexWith (step : U32 → U32 → U32) (p : List Byte) : Option (U32 × List Byte) :=
  let p := skipSpace p
  let p := if charAt p = (Char.byte '0') ∧ (charAt p.tail = (Char.byte 'x') ∨ charAt p.tail = (Char.byte 'X')) then p.tail.tail else p
  if (hexVal (charAt p)).toInt < 0 then none else some (readHex step 0#32 p)

/-- `parse_hex` of `fs/lib/stdio.c`. -/
def FsLib.parseHex (p : List Byte) : Option (U32 × List Byte) := parseHexWith (fun v hv => v * 16#32 + hv) p

/-- `parse_hex` of `user/libc.c`. -/
def UserLibc.parseHex (p : List Byte) : Option (U32 × List Byte) := parseHexWith (fun v hv => v <<< 4 ||| hv) p

/-! ## `strtol` -/

/-- `digit_val`. -/
def digitVal (c : Byte) : U32 :=
  if charIn '0' '9' c then charInt c - charInt (Char.byte '0')
  else if charIn 'a' 'z' c then charInt c - charInt (Char.byte 'a') + 10#32
  else if charIn 'A' 'Z' c then charInt c - charInt (Char.byte 'A') + 10#32
  else -1#32

/-- The loop of `strtol` over the digits. -/
def strtolDigits (base : Int) : U32 → Bool → List Byte → U32 × Bool × List Byte
  | v, any, [] => (v, any, [])
  | v, any, c :: p =>
    let d := digitVal c
    if d.toInt < 0 ∨ base ≤ d.toInt then (v, any, c :: p) else strtolDigits base (v * BitVec.ofInt 32 base + d) true p

/-- `p[0] == '0' && (p[1] == 'x' || p[1] == 'X')`. -/
def hexPrefix (p : List Byte) : Bool := charAt p == (Char.byte '0') && (charAt p.tail == (Char.byte 'x') || charAt p.tail == (Char.byte 'X'))

/-- The base and the text behind the prefix. -/
def strtolPrefix (base : Int) (p : List Byte) : Int × List Byte :=
  if base = 0 then
    if hexPrefix p then (16, p.tail.tail)
    else if charAt p = (Char.byte '0') then (8, p.tail)
    else (10, p)
  else if base = 16 then (base, if hexPrefix p then p.tail.tail else p)
  else (base, p)

/-- What `strtol` returns, the offset it stores at `endptr` if that is not null, and whether it sets `errno` to `EINVAL`. -/
structure StrtolResult where
  value : U32
  stop : Option Nat
  einval : Bool

/-- `strtol`. -/
def strtol (s : List Byte) (endptr : Bool) (base : Int) : StrtolResult :=
  let store (n : Nat) : Option Nat := if endptr then some n else none
  if base ≠ 0 ∧ (base < 2 ∨ 36 < base) then ⟨0#32, store 0, true⟩
  else
    let p := s.dropWhile isSpace
    let neg := charAt p == (Char.byte '-')
    let p := if charAt p = (Char.byte '+') ∨ charAt p = (Char.byte '-') then p.tail else p
    let (base, p) := strtolPrefix base p
    let (v, any, p) := strtolDigits base 0#32 false p
    if !any then ⟨0#32, store 0, true⟩
    else ⟨if neg then -v else v, store (s.length - p.length), false⟩

/-- `atoi`. -/
def atoi (s : List Byte) : U32 := (strtol s false 10).value

end MiniOs32
