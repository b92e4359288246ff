import MiniOs32.Lib.Words

/-!
# The clock of the kernel

`div_u64_u32` divides by shifting and subtracting, with a remainder of 32 bits. `tsc_calibrate` finds how fast the time-stamp counter
runs from the ACPI PM timer, and `SYS_TICKS` reads time off it where no timer interrupt arrives. What the hardware answers, one read
after the other, is a parameter.
-/

namespace MiniOs32

/-! ## Division -/

/-- `q` and `rem`. -/
structure Quotient where
  q : U64
  rem : U32
  deriving DecidableEq

/-- A turn of the loop. -/
def Quotient.turn (n : U64) (d : U32) (s : Quotient) (i : Nat) : Quotient :=
  let rem := s.rem <<< 1 ||| (n >>> i &&& 1#64).setWidth 32
  if d ≤ rem then ⟨s.q ||| 1#64 <<< i, rem - d⟩ else ⟨s.q, rem⟩

/-- The first turns of the loop, from bit 63 on. -/
def divTurns (n : U64) (d : U32) : Nat → Quotient
  | 0 => ⟨0#64, 0#32⟩
  | k + 1 => (divTurns n d k).turn n d (63 - k)

/-- `div_u64_u32`. -/
def divU64U32 (n : U64) (d : U32) : U64 := if d = 0#32 then 0#64 else (divTurns n d 64).q

/-! ## Timekeeping -/

/-- What the kernel knows of its time sources. -/
structure Clock where
  pmTmrPort : U32
  pmTmr32bit : Bool
  tscKhz : U32
  timerAlive : Bool
  timerTicks : U32
  deriving DecidableEq

/-- What the PM timer's port and `rdtsc` answer, read by read. -/
structure TimeReads where
  port : Nat → U32
  tsc : Nat → U64

namespace Clock

/-- The bits of the PM timer that count. -/
def pmMask (c : Clock) : U32 := if c.pmTmr32bit then 0xFFFFFFFF#32 else 0x00FFFFFF#32

/-- `pm_tmr_read`. -/
def pmTmrRead (c : Clock) (r : TimeReads) (i : Nat) : U32 := if c.pmTmr32bit then r.port i else r.port i &&& 0x00FFFFFF#32

/-- About 10 ms worth of PM ticks: `want`. -/
def want : U32 := 3579545#32 / 100#32

/-- The loop of `tsc_calibrate`, from the read with a number on: `elapsed`. -/
def elapsedLoop (c : Clock) (r : TimeReads) (t0 : U32) : Nat → Nat → U32 → U32
  | 0, _, elapsed => elapsed
  | guard + 1, i, elapsed => if elapsed < want then elapsedLoop c r t0 guard (i + 1) ((c.pmTmrRead r i - t0) &&& c.pmMask) else elapsed

/-- The PM ticks that `tsc_calibrate` waits for. -/
def elapsed (c : Clock) (r : TimeReads) : U32 := elapsedLoop c r (c.pmTmrRead r 0) 200000000 1 0#32

/-- `tsc_calibrate`. -/
def tscCalibrate (c : Clock) (r : TimeReads) : Clock :=
  if c.pmTmrPort = 0#32 then c
  else if c.elapsed r < want then c
  else
    let dt := r.tsc 1 - r.tsc 0
    let khz := divU64U32 (dt * 3579545#64) (c.elapsed r * 1000#32)
    if 100000#64 < khz ∧ khz < 20000000#64 then { c with tscKhz := khz.setWidth 32 } else c

/-- `SYS_TICKS`, with what `rdtsc` answers. -/
def sysTicks (c : Clock) (tsc : U64) : U32 :=
  if !c.timerAlive && c.tscKhz != 0#32 then (divU64U32 tsc (c.tscKhz * 10#32)).setWidth 32 else c.timerTicks

end Clock

/-- A rate that `tsc_calibrate` can have found, beginning from the zero that stands for none. -/
inductive Calibrated : U32 → Prop where
  | none : Calibrated 0#32
  | found (c : Clock) (r : TimeReads) (h : Calibrated c.tscKhz) : Calibrated (c.tscCalibrate r).tscKhz

end MiniOs32
