import MiniOs32.Cc.Integers
import MiniOs32.Lemmas.Cpu

/-!
# Values converted to narrow types

Wherever C converts a value to `bool`, `char` or `short`, the word used afterwards is to be the converted value. An assignment
leaves the value it stored, not what it stored it as, and a function returns its `int` as it is; a `bool` parameter is read as
the low byte of the argument (`conversions_false`). At each of the three places the word is right if and only if the value
survives what that place does to it (`conversions_iff`).
-/

namespace MiniOs32

/-- A place where a value is converted: an assignment, of which compound assignment and prefix `++` and `--` are the same code; the
return from a function and the call that takes its value; and a parameter that the function called reads. -/
inductive ConvSite where
  | assigned
  | returned
  | param
  deriving DecidableEq

/-- `gen_return` behind the value. -/
def returnOps (ret t : CType) : List Insn :=
  if ret.isFloat then (if t.isFloat then [] else convStackToFloat 0#32).append [.fld 0#32, .addImm .esp 4#32]
  else (if ret = .bool then boolify t else if t.isFloat then convStackToInt 0#32 else []) ++ popEax

/-- The word a place leaves on the stack for a source value: an assignment with the value of any type but `float` on top of the
stack; a return of such a value through `leave` and `ret` to the code behind the call; and the load of a parameter, whose slot
holds the value and does not lie under the stack pointer. -/
def ConvSite.Leaves {F : Type} (w : World F) (site : ConvSite) (t : CType) (v x : U32) : Prop :=
  match site with
  | .assigned => ∀ (T : CodeEnv) (rt : CType) (s : Cpu F), rt.isFloat = false → s.top = v →
      ∃ s', (machine w).execs (assignCode T t rt) s = some s' ∧ s'.top = x
  | .returned => ∀ (rt : CType) (n : U32) (s : Cpu F), rt.isFloat = false → s.top = v →
      ∃ s', (machine w).execs (returnOps t rt ++ [Insn.leave, .ret] ++ dropBytes n ++ pushEax) s = some s' ∧ s'.top = x
  | .param => ∀ (y : List Byte) (off : U32) (s : Cpu F), s.mem.read32 (s.regs .ebp + off) = v →
      4 ≤ (s.regs .ebp + off - (s.regs .esp - 4#32)).toNat → 4 ≤ (s.regs .esp - 4#32 - (s.regs .ebp + off)).toNat →
      ∃ s', (machine w).execs (loadAddr ⟨y, t, .frame off⟩ ++ loadFromAddr t) s = some s' ∧ s'.top = x

/-- The condition on a source value: an assignment and a return need a value of the type, unless it is `bool`; a parameter needs
nothing, unless it is `bool`: then the low byte of the value is one, or the value zero. -/
def ConvSite.Fits (site : ConvSite) (t : CType) (v : U32) : Prop :=
  match site with
  | .assigned | .returned => t = .bool ∨ t.inRange v
  | .param => t = .bool → v = 0#32 ∨ v.setWidth 8 = 1#8

section Places

variable {F : Type} {w : World F} {s : Cpu F} {t rt : CType} {v x y : U32}

/-- A store leaves the value that was on top. -/
theorem execs_storeToAddr (w : World F) (s : Cpu F) (t : CType) :
    ∃ s', (machine w).execs (storeToAddr t) s = some s' ∧ s'.top = s.top := by
  unfold storeToAddr
  cases t.width with
  | some wd => exact ⟨_, rfl, by simp⟩
  | none => exact ⟨_, rfl, by simp⟩

/-- What neither side is a `float` of is stored as it is, unless it becomes a `bool`. -/
theorem assignCode_of_not_bool (T : CodeEnv) (hrec : t.isRecord = false) (ht : t.isFloat = false) (hr : rt.isFloat = false)
    (hb : t ≠ .bool) : assignCode T t rt = storeToAddr t := by
  have hc : convStored rt t = [] := by
    have : convStored rt t = convStack rt t 0#32 := by cases t <;> first | rfl | exact absurd rfl hb
    rw [this, convStack, ht, hr]
    rfl
  rw [assignCode, hrec, hc]
  rfl

/-- The word an assignment leaves. -/
theorem execs_assignCode (w : World F) (T : CodeEnv) (ht : t.isNarrow = true) (hr : rt.isFloat = false) (s : Cpu F) :
    ∃ s', (machine w).execs (assignCode T t rt) s = some s' ∧ s'.top = if t = .bool then t.convert s.top else s.top := by
  cases t with
  | bool =>
    obtain ⟨s₁, h₁, ht₁, -⟩ := execs_boolify w s hr
    obtain ⟨s₂, h₂, ht₂⟩ := execs_storeToAddr w s₁ .bool
    refine ⟨s₂, ?_, ?_⟩
    · have : assignCode T .bool rt = boolify rt ++ storeToAddr .bool := rfl
      rw [this, TextMachine.execs_append, h₁, Option.bind_some, h₂]
    · rw [ht₂, ht₁, if_pos rfl]
      rfl
  | char u | short u =>
    obtain ⟨s₂, h₂, ht₂⟩ := execs_storeToAddr w s _
    refine ⟨s₂, ?_, ?_⟩
    · rw [assignCode_of_not_bool T rfl rfl hr (by simp)]
      exact h₂
    · rw [ht₂, if_neg (by simp)]
  | _ => cases ht

/-- The end of a function and of the call leave `eax`. -/
theorem execs_toCaller (w : World F) (n : U32) (s : Cpu F) :
    ∃ s', (machine w).execs ([Insn.leave, .ret] ++ dropBytes n ++ pushEax) s = some s' ∧ s'.top = s.regs .eax := by
  unfold dropBytes
  split <;> exact ⟨_, rfl, by simp [Cpu.set, Cpu.pop, Cpu.top, Cpu.push]⟩

/-- The word a call leaves. -/
theorem execs_returned (w : World F) (n : U32) (ht : t.isNarrow = true) (hr : rt.isFloat = false) (s : Cpu F) :
    ∃ s', (machine w).execs (returnOps t rt ++ [Insn.leave, .ret] ++ dropBytes n ++ pushEax) s = some s' ∧
      s'.top = if t = .bool then t.convert s.top else s.top := by
  have hcall : returnOps t rt ++ [Insn.leave, .ret] ++ dropBytes n ++ pushEax =
      returnOps t rt ++ ([Insn.leave, .ret] ++ dropBytes n ++ pushEax) := by simp
  rw [hcall, TextMachine.execs_append]
  cases t with
  | bool =>
    obtain ⟨s₁, h₁, ht₁, -⟩ := execs_boolify w s hr
    obtain ⟨s₂, h₂, ht₂⟩ := execs_toCaller w n (s₁.pop .eax)
    have hret : (machine w).execs (returnOps .bool rt) s = some (s₁.pop .eax) := by
      have : returnOps .bool rt = boolify rt ++ popEax := rfl
      rw [this, TextMachine.execs_append, h₁, Option.bind_some]
      rfl
    refine ⟨s₂, ?_, ?_⟩
    · rw [hret, Option.bind_some, h₂]
    · rw [ht₂, Cpu.pop_reg, ht₁, if_pos rfl]
      rfl
  | char u | short u =>
    obtain ⟨s₂, h₂, ht₂⟩ := execs_toCaller w n (s.pop .eax)
    refine ⟨s₂, ?_, ?_⟩
    · have hret : ∀ r : CType, r.isFloat = false → r ≠ .bool → returnOps r rt = popEax := by
        intro r hf hb
        simp [returnOps, hf, hb, hr]
      rw [hret _ rfl (by simp)]
      exact h₂
    · rw [ht₂, Cpu.pop_reg, if_neg (by simp)]
  | _ => cases ht

/-- The word the load of a parameter leaves. -/
theorem execs_param (w : World F) (ht : t.isNarrow = true) {off : U32} (hs : s.mem.read32 (s.regs .ebp + off) = v)
    (h₁ : 4 ≤ (s.regs .ebp + off - (s.regs .esp - 4#32)).toNat) (h₂ : 4 ≤ (s.regs .esp - 4#32 - (s.regs .ebp + off)).toNat)
    (y : List Byte) :
    ∃ s', (machine w).execs (loadAddr ⟨y, t, .frame off⟩ ++ loadFromAddr t) s = some s' ∧
      s'.top = if t = .bool then Width.byte.extend true v else t.convert v := by
  have hslot : (s.mem.write32 (s.regs .esp - 4#32) (s.regs .ebp + off)).read32 (s.regs .ebp + off) = v := by
    rw [Mem.read32_write32_of_le h₁ h₂, hs]
  cases t with
  | bool | char u | short u => exact ⟨_, rfl, by simp [hslot, CType.isUnsigned, CType.convert]⟩
  | _ => cases ht

/-- The low byte of a word is its truth where it is one or the word is zero. -/
theorem extend_byte_eq_bool (v : U32) : Width.byte.extend true v = CType.bool.convert v ↔ v = 0#32 ∨ v.setWidth 8 = 1#8 := by
  have h8 : (v.setWidth 8).setWidth 32 = 1#32 ↔ v.setWidth 8 = 1#8 := by
    constructor <;> intro h
    · have := congrArg (BitVec.setWidth 8) h
      simpa using this
    · rw [h]
      rfl
  by_cases h0 : v = 0#32
  · subst h0
    simp [Width.extend, CType.convert]
  · simp [Width.extend, CType.convert, h0, h8]

end Places

/-- Runs of the same instructions from the same state end alike. -/
theorem top_of_execs {F : Type} {w : World F} {is : List Insn} {s s₁ s₂ : Cpu F} (h₁ : (machine w).execs is s = some s₁)
    (h₂ : (machine w).execs is s = some s₂) : s₁.top = s₂.top :=
  congrArg Cpu.top (Option.some.inj (h₁.symm.trans h₂))

/-- A state with a value on top of the stack, and in the slot of a parameter eight bytes above `ebp`. -/
def holding (F : Type) (v : U32) : Cpu F where
  regs r := if r = .esp then 4096#32 else if r = .ebp then 4104#32 else 0#32
  flags := ⟨false, false, false, false⟩
  fpu := []
  codes := ⟨false, false, false⟩
  cw := 0x37F#16
  mem := Mem.write32 (Mem.write32 (fun _ => 0#8) 4096#32 v) 4112#32 v

/-- What a place makes of a value of any narrow type. -/
def ConvSite.word (site : ConvSite) (t : CType) (v : U32) : U32 :=
  match site with
  | .assigned | .returned => if t = .bool then t.convert v else v
  | .param => if t = .bool then Width.byte.extend true v else t.convert v

/-- The word a place leaves is the one it makes of the value, and no other. -/
theorem ConvSite.leaves_iff {F : Type} (w : World F) (site : ConvSite) {t : CType} (ht : t.isNarrow = true) (v x : U32) :
    site.Leaves w t v x ↔ x = site.word t v := by
  have htop : (holding F v).top = v := by
    simp only [Cpu.top, holding]
    exact (Mem.read32_write32_of_le (by decide) (by decide)).trans (Mem.read32_write32 _ _ _)
  cases site with
  | assigned =>
    constructor
    · intro h
      obtain ⟨s₁, h₁, hx⟩ := h ⟨[], [], [], [], 0, 0⟩ (.int false) (holding F v) rfl htop
      obtain ⟨s₂, h₂, hw⟩ := execs_assignCode w ⟨[], [], [], [], 0, 0⟩ ht (show (CType.int false).isFloat = false from rfl) (holding F v)
      rw [← hx, top_of_execs h₁ h₂, hw, htop]
      rfl
    · rintro rfl T rt s hr rfl
      exact execs_assignCode w T ht hr s
  | returned =>
    constructor
    · intro h
      obtain ⟨s₁, h₁, hx⟩ := h (.int false) 0#32 (holding F v) rfl htop
      obtain ⟨s₂, h₂, hw⟩ := execs_returned w 0#32 ht (show (CType.int false).isFloat = false from rfl) (holding F v)
      rw [← hx, top_of_execs h₁ h₂, hw, htop]
      rfl
    · rintro rfl rt n s hr rfl
      exact execs_returned w n ht hr s
  | param =>
    constructor
    · intro h
      have hs : (holding F v).mem.read32 ((holding F v).regs .ebp + 8#32) = v := Mem.read32_write32 _ _ _
      have hd₁ : 4 ≤ ((holding F v).regs .ebp + 8#32 - ((holding F v).regs .esp - 4#32)).toNat := by simp [holding]
      have hd₂ : 4 ≤ ((holding F v).regs .esp - 4#32 - ((holding F v).regs .ebp + 8#32)).toNat := by simp [holding]
      obtain ⟨s₁, h₁, hx⟩ := h [] 8#32 (holding F v) hs hd₁ hd₂
      obtain ⟨s₂, h₂, hw⟩ := execs_param w ht hs hd₁ hd₂ []
      rw [← hx, top_of_execs h₁ h₂, hw]
      rfl
    · rintro rfl y off s hs hd₁ hd₂
      exact execs_param w ht hs hd₁ hd₂ y

/-- The word a place leaves is the value converted if and only if the value fits the place. -/
theorem conversions_iff {F : Type} (w : World F) (site : ConvSite) (t : CType) (ht : t.isNarrow = true) (v : U32) :
    site.Leaves w t v (t.convert v) ↔ site.Fits t v := by
  rw [site.leaves_iff w ht]
  cases site with
  | assigned | returned =>
    simp only [ConvSite.word, ConvSite.Fits]
    by_cases hb : t = .bool
    · simp [hb]
    · simp [hb, convert_eq_iff ht]
  | param =>
    simp only [ConvSite.word, ConvSite.Fits]
    by_cases hb : t = .bool
    · subst hb
      rw [if_pos rfl, eq_comm, extend_byte_eq_bool]
      simp
    · simp [hb]

theorem conversions_iff_char :
    CType.isNarrow (.char false) = true ∧
      (ConvSite.Leaves bareWorld .assigned (.char false) 44#32 (CType.convert (.char false) 44#32) ↔
        ConvSite.Fits .assigned (.char false) 44#32) :=
  ⟨rfl, conversions_iff bareWorld .assigned (.char false) rfl 44#32⟩

/-- The value of `c = 300` for a `char` is 300. -/
theorem conversions_false :
    ¬∀ (site : ConvSite) (t : CType) (v : U32), t.isNarrow = true → site.Leaves bareWorld t v (t.convert v) := by
  intro h
  have hw := (ConvSite.leaves_iff bareWorld .assigned rfl 300#32 _).mp (h .assigned (.char false) 300#32 rfl)
  exact absurd hw (by decide)

end MiniOs32
