import MiniOs32.Cc.Code

/-!
# What short sequences of instructions do

One statement for each sequence that the code of expressions is made of: what it leaves on the stack, and where the stack pointer
is.
-/

namespace MiniOs32

variable {F : Type} {w : World F} {s : Cpu F} {v : U32} {c : Cond} {t : CType}

/-- A world without floats, in which nothing can be called. -/
def bareWorld : World Unit where
  float := ⟨fun _ => (), fun _ => 0#32, fun _ => (), fun _ _ => 0#32, id, fun _ x _ => x, fun _ => false, fun _ => false,
    fun _ _ => false, ()⟩
  addr _ := 0#32
  call _ _ := none
  syscall _ := none

/-- A processor with nothing in it. -/
def Cpu.blank (F : Type) : Cpu F := ⟨fun _ => 0#32, ⟨false, false, false, false⟩, [], ⟨false, false, false⟩, 0x37F#16, fun _ => 0#8⟩

namespace Cpu

@[simp] theorem push_esp (s : Cpu F) (v : U32) : (s.push v).regs .esp = s.regs .esp - 4#32 := by simp [push]

@[simp] theorem push_reg {r : Reg} (h : r ≠ .esp) (s : Cpu F) (v : U32) : (s.push v).regs r = s.regs r := by simp [push, h]

@[simp] theorem push_mem (s : Cpu F) (v : U32) : (s.push v).mem = s.mem.write32 (s.regs .esp - 4#32) v := rfl

@[simp] theorem push_flags (s : Cpu F) (v : U32) : (s.push v).flags = s.flags := rfl

@[simp] theorem push_fpu (s : Cpu F) (v : U32) : (s.push v).fpu = s.fpu := rfl

@[simp] theorem top_push (s : Cpu F) (v : U32) : (s.push v).top = v := by simp [top]

/-- The word under a pushed one is the former top. -/
@[simp] theorem second_push (s : Cpu F) (v : U32) : (s.push v).second = s.top := by
  simp only [second, push_mem, push_esp, BitVec.sub_add_cancel]
  exact Mem.read32_write32_of_le (by bv_omega) (by bv_omega)

@[simp] theorem set_reg (s : Cpu F) (r : Reg) (v : U32) : (s.set r v).regs r = v := by simp [set]

@[simp] theorem set_other {r r' : Reg} (h : r' ≠ r) (s : Cpu F) (v : U32) : (s.set r v).regs r' = s.regs r' := by simp [set, h]

@[simp] theorem set_mem (s : Cpu F) (r : Reg) (v : U32) : (s.set r v).mem = s.mem := rfl

@[simp] theorem set_flags (s : Cpu F) (r : Reg) (v : U32) : (s.set r v).flags = s.flags := rfl

@[simp] theorem set_fpu (s : Cpu F) (r : Reg) (v : U32) : (s.set r v).fpu = s.fpu := rfl

@[simp] theorem pop_reg {r : Reg} (s : Cpu F) : (s.pop r).regs r = s.top := by simp [pop]

@[simp] theorem pop_esp {r : Reg} (h : r ≠ .esp) (s : Cpu F) : (s.pop r).regs .esp = s.regs .esp + 4#32 := by
  simp [pop, Ne.symm h]

@[simp] theorem pop_other {r r' : Reg} (h : r' ≠ r) (he : r' ≠ .esp) (s : Cpu F) : (s.pop r).regs r' = s.regs r' := by
  simp [pop, h, he]

@[simp] theorem pop_mem (s : Cpu F) (r : Reg) : (s.pop r).mem = s.mem := rfl

@[simp] theorem pop_flags (s : Cpu F) (r : Reg) : (s.pop r).flags = s.flags := rfl

@[simp] theorem pop_fpu (s : Cpu F) (r : Reg) : (s.pop r).fpu = s.fpu := rfl

/-- The word under the top is on top once the top is popped. -/
@[simp] theorem top_pop {r : Reg} (h : r ≠ .esp) (s : Cpu F) : (s.pop r).top = s.second := by
  simp [top, second, pop_esp h]

end Cpu

/-- Memory is as before, but for the word on top of the stack. -/
def Cpu.OnlyTop (s s' : Cpu F) : Prop := ∀ x, 4 ≤ (x - s'.regs .esp).toNat → s'.mem x = s.mem x

theorem Cpu.OnlyTop.of_write {s s' : Cpu F} {v : U32} (h : s'.mem = s.mem.write32 (s'.regs .esp) v) : s.OnlyTop s' := by
  intro x hx
  rw [h]
  exact Mem.write_of_le (by simpa using hx)

theorem Cpu.OnlyTop.of_eq {s s' : Cpu F} (h : s'.mem = s.mem) : s.OnlyTop s' := fun x _ => by rw [h]

@[simp] theorem TextMachine.execs_nil {ι κ σ : Type} (m : TextMachine ι κ σ) (s : σ) : m.execs [] s = some s := rfl

theorem TextMachine.execs_cons {ι κ σ : Type} {m : TextMachine ι κ σ} {i : ι} {is : List ι} {s s' : σ} (h : m.exec i s = some s') :
    m.execs (i :: is) s = m.execs is s' := by
  rw [TextMachine.execs, h, Option.bind_some]

/-- A byte is all that is left of a word it is extended from. -/
theorem Width.extend_set (x : U32) (b : Bool) :
    Width.extend .byte true (x.extractLsb' 8 24 ++ if b then 1#8 else 0#8) = if b then 1#32 else 0#32 := by
  have h : ∀ y : BitVec 8, ((x.extractLsb' 8 24 ++ y).setWidth 8).setWidth 32 = y.setWidth 32 := by
    intro y
    rw [BitVec.setWidth_append_eq_right]
  cases b <;> simp [Width.extend, h]

/-- The truth of a condition is pushed. -/
theorem execs_pushSet (s : Cpu F) (c : Cond) : ∃ s', (machine w).execs (pushSet c) s = some s' ∧
    s'.top = (if c.holds s.flags then 1#32 else 0#32) ∧ s'.regs .esp = s.regs .esp - 4#32 ∧ s'.fpu = s.fpu ∧ s.OnlyTop s' := by
  refine ⟨_, rfl, ?_, ?_, ?_, ?_⟩
  · simp [Width.extend_set]
  · simp
  · simp
  · exact .of_write rfl

/-- The test of a float ends with the flags of the addition to `esp`. -/
theorem execs_testFloat (w : World F) (s : Cpu F) : ∃ s', (machine w).execs testFloat s = some s' ∧
    s'.flags = addFlags (s.regs .esp) 4#32 ∧ s'.regs .esp = s.regs .esp + 4#32 := by
  refine ⟨_, rfl, ?_, ?_⟩
  · simp only [Cpu.set, Cpu.fpush]
    split <;> simp
  · simp only [Cpu.set, Cpu.fpush]
    split <;> simp

/-- The test of a word compares it with zero. -/
theorem execs_testInt (w : World F) (s : Cpu F) : ∃ s', (machine w).execs testInt s = some s' ∧
    s'.flags = subFlags s.top 0#32 ∧ s'.regs .esp = s.regs .esp + 4#32 ∧ s'.mem = s.mem := by
  refine ⟨_, rfl, ?_, ?_, ?_⟩ <;> simp

/-- The word on top of the stack becomes its truth. -/
theorem execs_boolify (w : World F) (s : Cpu F) (ht : t.isFloat = false) :
    ∃ s', (machine w).execs (boolify t) s = some s' ∧ s'.top = (if s.top = 0#32 then 0#32 else 1#32) ∧
      s'.regs .esp = s.regs .esp ∧ s.OnlyTop s' := by
  obtain ⟨s₁, h₁, hf, he, hm⟩ := execs_testInt w s
  obtain ⟨s₂, h₂, ht₂, he₂, -, hm₂⟩ := execs_pushSet (w := w) s₁ .ne
  refine ⟨s₂, ?_, ?_, by rw [he₂, he, BitVec.add_sub_cancel], ?_⟩
  · rw [boolify, testZero, ht, if_neg (by decide), TextMachine.execs_append, h₁, Option.bind_some, h₂]
  · rw [ht₂, hf]
    by_cases h0 : s.top = 0#32 <;> simp [Cond.holds, subFlags, h0]
  · intro x hx
    rw [hm₂ x hx, hm]

end MiniOs32
