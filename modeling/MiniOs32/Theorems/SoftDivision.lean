import MiniOs32.Kernel.Clock

/-!
# Division of 64-bit words by 32-bit words

For a divisor of at most 2^31 every turn of `div_u64_u32` keeps its remainder below the divisor, so the shift loses no bit, and the
quotient is exact (`soft_division_exact`); so it is in `SYS_TICKS` and in `tsc_calibrate`.
-/

namespace MiniOs32

/-! ## A turn -/

/-- The bit that a turn takes of the dividend. -/
theorem toNat_dividendBit (n : U64) (i : Nat) : ((n >>> i &&& 1#64).setWidth 32).toNat = n.toNat / 2 ^ i % 2 := by
  rw [BitVec.toNat_setWidth, BitVec.toNat_and, BitVec.toNat_ushiftRight, Nat.shiftRight_eq_div_pow,
    show (1#64 : U64).toNat = 1 from rfl, Nat.and_one_is_mod]
  lia

/-- A remainder below 2^31 keeps all its bits as it is shifted. -/
theorem toNat_shiftIn {rem b : U32} (hrem : rem.toNat < 2 ^ 31) (hb : b.toNat < 2) : (rem <<< 1 ||| b).toNat = 2 * rem.toNat + b.toNat := by
  have hmod : rem.toNat <<< 1 % 2 ^ 32 = rem.toNat <<< 1 := by
    rw [Nat.shiftLeft_eq]
    exact Nat.mod_eq_of_lt (by omega)
  rw [BitVec.toNat_or, BitVec.toNat_shiftLeft, hmod, ← Nat.shiftLeft_add_eq_or_of_lt (by omega), Nat.shiftLeft_eq]
  omega

/-- A bit set below a multiple of its double. -/
theorem toNat_setBit {q : U64} {i m : Nat} (hi : i < 64) (hq : q.toNat = m * 2 ^ (i + 1)) : (q ||| 1#64 <<< i).toNat = (2 * m + 1) * 2 ^ i := by
  have hpow : 2 ^ i < 2 ^ 64 := Nat.pow_lt_pow_right (by decide) hi
  have hbit : (1#64 <<< i).toNat = 2 ^ i := by
    rw [BitVec.toNat_shiftLeft, show (1#64 : U64).toNat = 1 from rfl, Nat.shiftLeft_eq, Nat.one_mul, Nat.mod_eq_of_lt hpow]
  rw [BitVec.toNat_or, hbit, hq, ← Nat.shiftLeft_eq, ← Nat.shiftLeft_add_eq_or_of_lt (Nat.pow_lt_pow_right (by decide) (Nat.lt_succ_self i)),
    Nat.shiftLeft_eq, pow_succ]
  ring

/-- What the loop knows when it has read the dividend down to a bit: the quotient and the remainder of what it has read. -/
structure Divided (n : U64) (d : U32) (i : Nat) (s : Quotient) : Prop where
  rem : s.rem.toNat = n.toNat / 2 ^ i % d.toNat
  quot : s.q.toNat = n.toNat / 2 ^ i / d.toNat * 2 ^ i

section Turn

variable {n : U64} {d : U32} {i : Nat} {s : Quotient}

/-- What is shifted in, as a number. -/
theorem Divided.shifted (h : Divided n d (i + 1) s) (hd : 0 < d.toNat) (hd' : d.toNat ≤ 2 ^ 31) :
    s.rem.toNat < 2 ^ 31 ∧
      (s.rem <<< 1 ||| (n >>> i &&& 1#64).setWidth 32).toNat = 2 * (n.toNat / 2 ^ (i + 1) % d.toNat) + n.toNat / 2 ^ i % 2 := by
  have hlt : n.toNat / 2 ^ (i + 1) % d.toNat < d.toNat := Nat.mod_lt _ hd
  have hrem : s.rem.toNat < 2 ^ 31 := by
    rw [h.rem]
    lia
  have hb := toNat_dividendBit n i
  refine ⟨hrem, ?_⟩
  rw [toNat_shiftIn hrem (by lia), hb, h.rem]

/-- A turn of the loop. -/
theorem Divided.turn (h : Divided n d (i + 1) s) (hi : i < 64) (hd : 0 < d.toNat) (hd' : d.toNat ≤ 2 ^ 31) : Divided n d i (s.turn n d i) := by
  obtain ⟨-, hshift⟩ := h.shifted hd hd'
  -- one bit more of the dividend
  have hread : n.toNat / 2 ^ i = 2 * (n.toNat / 2 ^ (i + 1)) + n.toNat / 2 ^ i % 2 := by
    rw [pow_succ, ← Nat.div_div_eq_div_mul]
    lia
  have hquot := h.quot
  have hb := Nat.mod_lt (n.toNat / 2 ^ i) (show 2 > 0 by decide)
  generalize n.toNat / 2 ^ i % 2 = b at hshift hread hb
  generalize n.toNat / 2 ^ (i + 1) = m at hshift hread hquot
  have hsplit := Nat.div_add_mod m d.toNat
  have hlt := Nat.mod_lt m hd
  rw [Quotient.turn]
  by_cases hle : d ≤ s.rem <<< 1 ||| (n >>> i &&& 1#64).setWidth 32
  · have hle' := BitVec.le_def.mp hle
    rw [hshift] at hle'
    have hsum : n.toNat / 2 ^ i = d.toNat * (2 * (m / d.toNat) + 1) + (2 * (m % d.toNat) + b - d.toNat) := by
      rw [hread, Nat.mul_add, Nat.mul_left_comm]
      lia
    have hrest : 2 * (m % d.toNat) + b - d.toNat < d.toNat := by lia
    rw [if_pos hle]
    refine ⟨?_, ?_⟩
    · rw [BitVec.toNat_sub_of_le hle, hshift, hsum, Nat.mul_add_mod, Nat.mod_eq_of_lt hrest]
    · rw [toNat_setBit hi hquot, hsum, Nat.mul_add_div hd, Nat.div_eq_of_lt hrest, Nat.add_zero]
  · have hle' : 2 * (m % d.toNat) + b < d.toNat := by
      rw [← hshift]
      exact BitVec.lt_def.mp (BitVec.not_le.mp hle)
    have hsum : n.toNat / 2 ^ i = d.toNat * (2 * (m / d.toNat)) + (2 * (m % d.toNat) + b) := by
      rw [hread, Nat.mul_left_comm]
      lia
    rw [if_neg hle]
    refine ⟨?_, ?_⟩
    · rw [hshift, hsum, Nat.mul_add_mod, Nat.mod_eq_of_lt hle']
    · rw [hquot, hsum, Nat.mul_add_div hd, Nat.div_eq_of_lt hle', Nat.add_zero, pow_succ]
      ring

/-- The turns of the loop. -/
theorem divided_divTurns (n : U64) (hd : 0 < d.toNat) (hd' : d.toNat ≤ 2 ^ 31) :
    ∀ {k : Nat}, k ≤ 64 → Divided n d (64 - k) (divTurns n d k) := by
  intro k
  induction k with
  | zero =>
    intro _
    have h0 : n.toNat / 2 ^ (64 - 0) = 0 := Nat.div_eq_of_lt n.isLt
    exact ⟨by rw [h0, Nat.zero_mod]; rfl, by rw [h0, Nat.zero_div, Nat.zero_mul]; rfl⟩
  | succ k ih =>
    intro hk
    have hprev := ih (by lia)
    rw [show 64 - k = 63 - k + 1 by lia] at hprev
    rw [show 64 - (k + 1) = 63 - k by lia, divTurns]
    exact hprev.turn (by lia) hd hd'

end Turn

/-! ## The quotient -/

theorem divU64U32_exact (n : U64) {d : U32} (hd : 0 < d.toNat) (hd' : d.toNat ≤ 2 ^ 31) : (divU64U32 n d).toNat = n.toNat / d.toNat := by
  have hne : d ≠ 0#32 := by
    rintro rfl
    exact absurd hd (by decide)
  have hall := (divided_divTurns n hd hd' (Nat.le_refl 64)).quot
  rw [Nat.sub_self, pow_zero, Nat.div_one, Nat.mul_one] at hall
  rw [divU64U32, if_neg hne]
  exact hall

/-- A rate that was found is below the limit that `tsc_calibrate` sets. -/
theorem Calibrated.lt {khz : U32} (h : Calibrated khz) : khz.toNat < 20000000 := by
  induction h with
  | none => decide
  | found c r h ih =>
    unfold Clock.tscCalibrate
    split
    · exact ih
    split
    · exact ih
    dsimp only
    split
    · rename_i hrange
      have hlt := BitVec.lt_def.mp hrange.2
      rw [show (20000000#64 : U64).toNat = 20000000 from rfl] at hlt
      dsimp only
      rw [BitVec.toNat_setWidth]
      omega
    · exact ih

/-- A product of words that is at most 2^31 does not wrap. -/
theorem toNat_mul_of_le {a b : U32} (h : a.toNat * b.toNat ≤ 2 ^ 31) : (a * b).toNat = a.toNat * b.toNat := by
  rw [BitVec.toNat_mul]
  exact Nat.mod_eq_of_lt (by omega)

theorem Clock.sysTicks_exact {c : Clock} (hc : Calibrated c.tscKhz) (halive : c.timerAlive = false) (hkhz : c.tscKhz ≠ 0#32) (tsc : U64) :
    c.sysTicks tsc = BitVec.ofNat 32 (tsc.toNat / (c.tscKhz.toNat * 10)) := by
  have hlt := hc.lt
  have hmul : (c.tscKhz * 10#32).toNat = c.tscKhz.toNat * 10 :=
    toNat_mul_of_le (by rw [show (10#32 : U32).toNat = 10 from rfl]; lia)
  have hpos : c.tscKhz.toNat ≠ 0 := fun h => hkhz (BitVec.eq_of_toNat_eq h)
  have hdiv := divU64U32_exact tsc (d := c.tscKhz * 10#32) (by lia) (by lia)
  rw [hmul] at hdiv
  rw [Clock.sysTicks, if_pos (by simp [halive, hkhz])]
  apply BitVec.eq_of_toNat_eq
  rw [BitVec.toNat_setWidth, BitVec.toNat_ofNat, hdiv]

/-- What `tsc_calibrate` finds, from a quotient. -/
def Clock.ratedAt (c : Clock) (khz : Nat) : Clock := if 100000 < khz ∧ khz < 20000000 then { c with tscKhz := BitVec.ofNat 32 khz } else c

theorem Clock.tscCalibrate_exact {c : Clock} (hport : c.pmTmrPort ≠ 0#32) (r : TimeReads) (helapsed : want ≤ c.elapsed r)
    (hle : (c.elapsed r).toNat * 1000 ≤ 2 ^ 31) :
    c.tscCalibrate r = c.ratedAt (((r.tsc 1 - r.tsc 0) * 3579545#64).toNat / ((c.elapsed r).toNat * 1000)) := by
  have hmul : (c.elapsed r * 1000#32).toNat = (c.elapsed r).toNat * 1000 := toNat_mul_of_le hle
  have hwant := BitVec.le_def.mp helapsed
  rw [show (want : U32).toNat = 35795 from rfl] at hwant
  have hdiv := divU64U32_exact ((r.tsc 1 - r.tsc 0) * 3579545#64) (d := c.elapsed r * 1000#32) (by omega) (by omega)
  rw [hmul] at hdiv
  rw [Clock.tscCalibrate, if_neg hport, if_neg (BitVec.not_lt.mpr helapsed), Clock.ratedAt, ← hdiv]
  dsimp only
  refine if_congr ?_ ?_ rfl
  · rw [BitVec.lt_def, BitVec.lt_def]
    rfl
  · rw [BitVec.ofNat_toNat]

/-- The quotient is exact for every divisor from 1 to 2^31, and no turn shifts a bit out of the remainder; `SYS_TICKS` divides exactly
by every rate that can have been found, and `tsc_calibrate` wherever 1000 times the ticks it waited for is at most 2^31. -/
theorem soft_division_exact :
    (∀ (n : U64) (d : U32), 1 ≤ d.toNat → d.toNat ≤ 2 ^ 31 →
      (divU64U32 n d).toNat = n.toNat / d.toNat ∧ ∀ k < 64, 2 * (divTurns n d k).rem.toNat < 2 ^ 32) ∧
    (∀ (c : Clock) (tsc : U64), Calibrated c.tscKhz → c.timerAlive = false → c.tscKhz ≠ 0#32 →
      c.sysTicks tsc = BitVec.ofNat 32 (tsc.toNat / (c.tscKhz.toNat * 10))) ∧
    (∀ (c : Clock) (r : TimeReads), c.pmTmrPort ≠ 0#32 → Clock.want ≤ c.elapsed r → (c.elapsed r).toNat * 1000 ≤ 2 ^ 31 →
      c.tscCalibrate r = c.ratedAt (((r.tsc 1 - r.tsc 0) * 3579545#64).toNat / ((c.elapsed r).toNat * 1000))) := by
  refine ⟨fun n d hd hd' => ⟨divU64U32_exact n hd hd', fun k hk => ?_⟩, fun c tsc hc halive hkhz => c.sysTicks_exact hc halive hkhz tsc,
    fun c r hport helapsed hle => c.tscCalibrate_exact hport r helapsed hle⟩
  have hprev := divided_divTurns n hd hd' (Nat.le_of_lt hk)
  rw [show 64 - k = 63 - k + 1 by lia] at hprev
  have hlt := (hprev.shifted hd hd').1
  lia

/-- A PM timer that has ticked 35795 times at its second read, over ten million cycles. -/
def tenMillionCycles : TimeReads := ⟨fun i => if i = 0 then 0#32 else 35795#32, fun i => if i = 0 then 0#64 else 10000000#64⟩

/-- A kernel with a PM timer and no timer interrupt. -/
def untimed : Clock := ⟨0x408#32, true, 0#32, false, 0#32⟩

/-- At 1000012 kHz, a second after the counter started. -/
theorem soft_division_at_1ghz :
    (divU64U32 0xFFFFFFFFFFFFFFFF#64 0x80000000#32).toNat = 0xFFFFFFFFFFFFFFFF / 0x80000000 ∧
      untimed.tscCalibrate tenMillionCycles = untimed.ratedAt (10000000 * 3579545 / (35795 * 1000)) ∧
      (untimed.tscCalibrate tenMillionCycles).sysTicks 1000012000#64 = BitVec.ofNat 32 (1000012000 / (1000012 * 10)) := by
  have helapsed : untimed.elapsed tenMillionCycles = 35795#32 := by rfl
  have hrate : untimed.tscCalibrate tenMillionCycles = untimed.ratedAt (10000000 * 3579545 / (35795 * 1000)) :=
    soft_division_exact.2.2 untimed tenMillionCycles (by decide) (by rw [helapsed]; decide) (by rw [helapsed]; decide)
  have hkhz : (untimed.tscCalibrate tenMillionCycles).tscKhz = 1000012#32 := by
    rw [hrate]
    rfl
  refine ⟨(soft_division_exact.1 _ _ (by decide) (by decide)).1, hrate, ?_⟩
  have hticks := soft_division_exact.2.1 (untimed.tscCalibrate tenMillionCycles) 1000012000#64 (.found _ _ .none) (by rw [hrate]; rfl)
    (by rw [hkhz]; decide)
  rw [hkhz] at hticks
  exact hticks

end MiniOs32
