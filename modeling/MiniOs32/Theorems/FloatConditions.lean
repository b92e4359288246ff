import MiniOs32.Lemmas.Cpu

/-!
# Floats as conditions

A float used as a condition is to count as false if and only if it is zero. The test pops the float with an addition to `esp`
after it has set the flags, and the jump or `setcc` behind it reads those of the addition: what is tested is the stack pointer
(`float_conditions_false`). The outcome is right if and only if the value is zero exactly where the addition to `esp` gives zero
(`float_conditions_iff`), the same at all four places that compute the truth of a float.
-/

namespace MiniOs32

/-- A place where the truth of a float is computed: `gen_cond`, `gen_logical`, `!` and `emit_boolify`. -/
inductive TruthSite where
  | cond
  | operand
  | not
  | bool
  deriving DecidableEq

/-- The instructions that compute it: a condition and an operand of `&&` and `||` jump behind them where the condition `e` holds. -/
def TruthSite.code : TruthSite → List Insn
  | .cond | .operand => testZero .float
  | .not => unaryCode .not .float
  | .bool => boolify .float

section Sites

variable {F : Type} {w : World F} {s : Cpu F} {T T' : CodeEnv} {e : Node} {c : Code}

/-- Whether the float on top of the stack is taken for true: whether the jump to the false path is not taken, or `!` yields zero, or
the conversion to `bool` one. -/
def TruthSite.truth (site : TruthSite) (w : World F) (s : Cpu F) : Option Bool :=
  ((machine w).execs site.code s).map fun s' =>
    match site with
    | .cond | .operand => !(machine w).test .e s'
    | .not => decide (s'.top = 0#32)
    | .bool => decide (s'.top ≠ 0#32)

/-- The code of each place follows the code of the float. -/
theorem genCond_float (no : Nat) (he : e.isLogical = false) (h : gen T .value e = some (.float, c, T')) :
    genCond T no e = some (c ++ (ops TruthSite.cond.code).append [.branch .e no], T') := by
  simp [genCond, he, h, condJump, TruthSite.code]

theorem logicalJump_float (yes no : Nat) (he : e.isLogical = false) :
    logicalJump e .float c yes no = c ++ (ops TruthSite.operand.code).append [.branch .e no] ++ jumpTo yes := by
  simp [logicalJump, he, condJump, TruthSite.code]

theorem gen_not_float (h : gen T .value e = some (.float, c, T')) :
    gen T .value (.unary .not e) = some (.int false, c ++ ops TruthSite.not.code, T') := by
  simp [gen, h, genUnary, GenMode.isValue, TruthSite.code]

theorem gen_bool_float (h : gen T .value e = some (.float, c, T')) :
    gen T .value (.cast .bool e) = some (.bool, c ++ ops TruthSite.bool.code, T') ∧ convStored .float .bool = TruthSite.bool.code := by
  refine ⟨?_, rfl⟩
  simp [gen, h, GenMode.isValue, castCode, TruthSite.code]

/-- The zero flag at the end of a test is that of the addition to `esp`. -/
theorem addFlags_zf (a : U32) : (addFlags a 4#32).zf = decide (a + 4#32 = 0#32) := rfl

/-- A float is taken for true where the addition to `esp` does not give zero. -/
theorem truth_eq (site : TruthSite) (w : World F) (s : Cpu F) : site.truth w s = some (decide (s.regs .esp + 4#32 ≠ 0#32)) := by
  obtain ⟨s₁, h₁, hf, -⟩ := execs_testFloat w s
  have hz : s₁.flags.zf = decide (s.regs .esp + 4#32 = 0#32) := by rw [hf, addFlags_zf]
  cases site with
  | cond | operand =>
    have hc : (machine w).execs (testZero .float) s = some s₁ := h₁
    have ht : (machine w).test .e s₁ = s₁.flags.zf := rfl
    simp only [TruthSite.truth, TruthSite.code, hc, Option.map_some, ht, hz]
    simp
  | not =>
    obtain ⟨s₂, h₂, ht, -⟩ := execs_pushSet (w := w) s₁ .e
    have hc : (machine w).execs (unaryCode .not .float) s = some s₂ := by
      have : unaryCode .not .float = testFloat ++ pushSet .e := rfl
      rw [this, TextMachine.execs_append, h₁, Option.bind_some, h₂]
    simp only [TruthSite.truth, TruthSite.code, hc, Option.map_some, ht, Cond.holds, hz]
    by_cases h0 : s.regs .esp + 4#32 = 0#32 <;> simp [h0]
  | bool =>
    obtain ⟨s₂, h₂, ht, -⟩ := execs_pushSet (w := w) s₁ .ne
    have hc : (machine w).execs (boolify .float) s = some s₂ := by
      have : boolify .float = testFloat ++ pushSet .ne := rfl
      rw [this, TextMachine.execs_append, h₁, Option.bind_some, h₂]
    simp only [TruthSite.truth, TruthSite.code, hc, Option.map_some, ht, Cond.holds, hz]
    by_cases h0 : s.regs .esp + 4#32 = 0#32 <;> simp [h0]

end Sites

/-- The float on top of the stack is taken for false if and only if it is zero, exactly where it is zero if and only if the addition
of four to `esp` gives zero. -/
theorem float_conditions_iff {F : Type} (site : TruthSite) (w : World F) (s : Cpu F) :
    site.truth w s = some (!w.float.isZero (w.float.ofBits s.top)) ↔
      (w.float.isZero (w.float.ofBits s.top) = true ↔ s.regs .esp + 4#32 = 0#32) := by
  rw [truth_eq]
  cases hz : w.float.isZero (w.float.ofBits s.top) <;> by_cases h0 : s.regs .esp + 4#32 = 0#32 <;> simp [h0]

/-- Floats by their bits, of which only the two zeros matter. -/
def bitFloats : FloatOps U32 where
  ofBits := id
  toBits := id
  ofInt := id
  toInt _ := id
  neg := id
  arith _ x _ := x
  isNaN _ := false
  isZero x := decide (x = 0#32 ∨ x = 0x80000000#32)
  below _ _ := false
  indefinite := 0xFFC00000#32

/-- A processor with zero on top of a stack at address 4096. -/
def zeroOnTop : Cpu U32 where
  regs r := if r = .esp then 4096#32 else 0#32
  flags := ⟨false, false, false, false⟩
  fpu := []
  codes := ⟨false, false, false⟩
  cw := 0x37F#16
  mem _ := 0#8

/-- The condition `0.0f` is taken for true. -/
theorem float_conditions_false :
    ¬∀ (site : TruthSite) (w : World U32) (s : Cpu U32), w.float.isNaN (w.float.ofBits s.top) = false →
      site.truth w s = some (!w.float.isZero (w.float.ofBits s.top)) := by
  intro h
  have hc := h .cond ⟨bitFloats, fun _ => 0#32, fun _ _ => none, fun _ => none⟩ zeroOnTop rfl
  rw [truth_eq] at hc
  exact absurd hc (by decide)

end MiniOs32
