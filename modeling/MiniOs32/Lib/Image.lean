import MiniOs32.Lib.Words

/-!
# Images

Bytes at offsets from 0 on, written over one another piece by piece, and numbers in them, least significant byte first. A piece is found
again where nothing was written over it.
-/

namespace MiniOs32

/-! ## Numbers -/

/-- So many bytes of a number. -/
def bytesLE : Nat → Nat → List Byte
  | 0, _ => []
  | n + 1, v => BitVec.ofNat 8 v :: bytesLE n (v / 256)

/-- The number that bytes stand for. -/
def valueLE : List Byte → Nat
  | [] => 0
  | b :: bs => b.toNat + 256 * valueLE bs

theorem valueLE_bytesLE (n v : Nat) : valueLE (bytesLE n v) = v % 256 ^ n := by
  induction n generalizing v with
  | zero => rw [bytesLE, valueLE, Nat.pow_zero, Nat.mod_one]
  | succ n ih =>
    have hpow : 256 ^ (n + 1) = 256 * 256 ^ n := Nat.pow_succ'
    rw [bytesLE, valueLE, ih, BitVec.toNat_ofNat, hpow, Nat.mod_mul]

/-- A number that fits its bytes. -/
theorem valueLE_of_lt {n v : Nat} (h : v < 256 ^ n) : valueLE (bytesLE n v) = v := by
  rw [valueLE_bytesLE, Nat.mod_eq_of_lt h]

/-! ## Bytes at offsets -/

/-- Bytes by their offsets. -/
abbrev Image : Type := Nat → Byte

namespace Image

/-- Zeros. -/
def zeros : Image := fun _ => 0#8

/-- The bytes of a list, zeros behind them. -/
def ofList (bs : List Byte) : Image := fun p => bs.getD p 0#8

/-- The first bytes of an image, written over another from an offset on. -/
def overlay (m : Image) (off n : Nat) (b : Image) : Image := fun p => if off ≤ p ∧ p < off + n then b (p - off) else m p

/-- A list of bytes, written from an offset on. -/
def place (m : Image) (off : Nat) (bs : List Byte) : Image := m.overlay off bs.length (ofList bs)

/-- So many bytes from an offset on. -/
def slice (m : Image) (off n : Nat) : List Byte := (List.range n).map fun i => m (off + i)

/-- The number in so many bytes. -/
def number (m : Image) (off n : Nat) : Nat := valueLE (m.slice off n)

variable {m m' b : Image} {off n p : Nat} {bs cs : List Byte}

theorem overlay_in (h : p < n) : m.overlay off n b (off + p) = b p := by
  rw [overlay, if_pos (by omega), Nat.add_sub_cancel_left]

theorem overlay_out (h : p < off ∨ off + n ≤ p) : m.overlay off n b p = m p := if_neg (by omega)

@[simp] theorem length_slice (m : Image) (off n : Nat) : (m.slice off n).length = n := by
  rw [slice, List.length_map, List.length_range]

theorem slice_congr {off' : Nat} (h : ∀ i < n, m (off + i) = m' (off' + i)) : m.slice off n = m'.slice off' n :=
  List.map_congr_left fun i hi => h i (List.mem_range.mp hi)

theorem slice_ofList (bs : List Byte) : (ofList bs).slice 0 bs.length = bs := by
  refine List.ext_getElem (length_slice _ _ _) fun i _ h => ?_
  simp [slice, ofList, h]

/-- Bytes of a list, with zeros behind them. -/
theorem slice_eq_append_zeros (hle : bs.length ≤ n) (hin : ∀ i < bs.length, m (off + i) = ofList bs i)
    (hout : ∀ i, bs.length ≤ i → i < n → m (off + i) = 0#8) : m.slice off n = bs ++ List.replicate (n - bs.length) 0#8 := by
  refine List.ext_getElem (by simp [hle]) fun i hi _ => ?_
  rw [length_slice] at hi
  simp only [slice, List.getElem_map, List.getElem_range, List.getElem_append]
  split
  · next h => rw [hin i h, ofList, List.getD_eq_getElem _ _ h]
  · next h => rw [List.getElem_replicate, hout i (by omega) hi]

/-- The bytes of two lists one behind the other. -/
theorem slice_add (m : Image) (off n k : Nat) : m.slice off (n + k) = m.slice off n ++ m.slice (off + n) k := by
  rw [slice, slice, slice, List.range_add, List.map_append, List.map_map]
  refine congrArg _ (List.map_congr_left fun i _ => ?_)
  rw [Function.comp_apply, Nat.add_assoc]

theorem take_slice {k : Nat} (h : k ≤ n) : (m.slice off n).take k = m.slice off k := by
  rw [slice, slice, ← List.map_take, List.take_range, Nat.min_eq_left h]

/-- A number that is written as it is. -/
theorem number_of_bytes {v : Nat} (h : m.slice off n = bytesLE n v) (hv : v < 256 ^ n) : m.number off n = v := by
  rw [number, h, valueLE_of_lt hv]

end Image

end MiniOs32
