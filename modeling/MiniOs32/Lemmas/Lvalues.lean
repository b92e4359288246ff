import MiniOs32.Cc.Lvalues
import MiniOs32.Lemmas.ConstCode
import MiniOs32.Lemmas.FrameKept

/-!
# The code of an lvalue

`gen_addr` leaves the address of the object that an lvalue denotes, and writes nothing but stack words below. `LvalCode` says so for
one piece of code, in any text and from any state whose objects lie outside the free part of the stack; it is built up from the
sequences that end each kind of lvalue.
-/

namespace MiniOs32

variable {F : Type} {w : World F}

/-! ## Tables that look alike -/

section Alike

variable {T T₁ : CodeEnv} {ebp : U32} {m m' : Mem} {P : U32 → Prop} {a : LVal} {p : U32}

theorem CodeEnv.Alike.findSym (h : T.Alike T₁) (x : List Byte) : T₁.findSym x = T.findSym x := by
  simp only [CodeEnv.findSym, h.locals, h.globals]

theorem CodeEnv.Alike.findField (h : T.Alike T₁) (t : CType) (x : List Byte) : T₁.findField t x = T.findField t x := by
  simp only [CodeEnv.findField, h.records]

theorem CodeEnv.Alike.sized (h : T.Alike T₁) (t : CType) : T₁.sized t = T.sized t := by simp only [CodeEnv.sized, h.size]

theorem CodeEnv.Alike.type (h : T.Alike T₁) (a : LVal) : a.type T₁ = a.type T := by
  induction a with
  | var x => simp only [LVal.type, h.findSym]
  | dot a x ih | arrow a x ih => simp only [LVal.type, ih, h.findField]
  | deref a ih => simp only [LVal.type, ih]
  | elem a i ih => simp only [LVal.type, ih, h.sized]
  | index a i iha ihi => simp only [LVal.type, iha, ihi, h.sized]

/-- An lvalue denotes the same object later on in the same expression. -/
theorem Denotes.alike (hT : T.Alike T₁) (h : Denotes T w ebp m P a p) : Denotes T₁ w ebp m P a p := by
  induction h with
  | var hs => exact .var (by rw [hT.findSym, hs])
  | dot ha ht hf ih => exact .dot ih (by rw [hT.type, ht]) (by rw [hT.findField, hf])
  | arrow ha ht hb hf hr ih => exact .arrow ih (by rw [hT.type, ht]) hb (by rw [hT.findField, hf]) hr
  | deref ha ht hr ih => exact .deref ih (by rw [hT.type, ht]) hr
  | elem ha ht hb hr hi ih =>
    rw [← hT.size]
    exact .elem ih (by rw [hT.type, ht]) hb hr hi
  | index ha ht hb hr hi hit hir iha ihi =>
    rw [← hT.size]
    exact .index iha (by rw [hT.type, ht]) hb hr ihi (by rw [hT.type, hit]) hir

theorem Covers.mono {n k : Nat} (h : Covers P p n) (hk : k ≤ n) : Covers P p k := fun i hi => h i (by omega)

/-- A word is read from its four cells. -/
theorem read32_covers (hm : ∀ x, P x → m' x = m x) (h : Covers P p 4) : m'.read32 p = m.read32 p := by
  have h0 := hm _ (h 0 (by decide))
  rw [BitVec.add_zero] at h0
  simp only [Mem.read32, h0, hm _ (h 1 (by decide)), hm _ (h 2 (by decide)), hm _ (h 3 (by decide))]

theorem pointer_covers (hm : ∀ x, P x → m' x = m x) {t : CType} (h : t.isArray = true ∨ Covers P p 4) :
    t.pointer m' p = t.pointer m p := by
  unfold CType.pointer
  rcases h with h | h
  · rw [if_pos h, if_pos h]
  · rw [read32_covers hm h]

/-- The low bytes of a word. -/
theorem setWidth_word32 (a b c d : Byte) : (word32 a b c d).setWidth 8 = a ∧ (word32 a b c d).setWidth 16 = b ++ a := by
  have h16 : (word32 a b c d).setWidth 16 = b ++ a := by
    apply BitVec.eq_of_getLsbD_eq
    intro i hi
    simp only [word32, BitVec.getLsbD_setWidth, BitVec.getLsbD_append, hi, decide_true, Bool.true_and]
    by_cases h8 : i < 8
    · simp [h8]
    · simp [h8, show i - 8 < 8 by omega]
  refine ⟨?_, h16⟩
  have h8 : (word32 a b c d).setWidth 8 = ((word32 a b c d).setWidth 16).setWidth 8 := by simp
  rw [h8, h16, BitVec.setWidth_append_eq_right]

/-- The value of a scalar is read from its cells. -/
theorem load_covers (hm : ∀ x, P x → m' x = m x) {t : CType} (h : Covers P p t.bytes) : t.load m' p = t.load m p := by
  unfold CType.load
  unfold CType.bytes at h
  cases hw : t.width with
  | none =>
    rw [hw] at h
    exact read32_covers hm h
  | some wd =>
    rw [hw] at h
    have h0 := hm _ (h 0 (by cases wd <;> decide))
    rw [BitVec.add_zero] at h0
    cases wd with
    | byte => cases t.isUnsigned <;> simp [Width.extend, Mem.read32, setWidth_word32, h0]
    | word =>
      have h1 := hm _ (h 1 (by decide))
      cases t.isUnsigned <;> simp [Width.extend, Mem.read32, setWidth_word32, h0, h1]

/-- What an lvalue denotes depends on the cells it reads alone. -/
theorem Denotes.congr (hm : ∀ x, P x → m' x = m x) (h : Denotes T w ebp m P a p) : Denotes T w ebp m' P a p := by
  induction h with
  | var hs => exact .var hs
  | dot ha ht hf ih => exact .dot ih ht hf
  | arrow ha ht hb hf hr ih =>
    rw [← pointer_covers hm hr]
    exact .arrow ih ht hb hf hr
  | deref ha ht hr ih =>
    rw [← pointer_covers hm hr]
    exact .deref ih ht hr
  | elem ha ht hb hr hi ih =>
    rw [← pointer_covers hm hr]
    exact .elem ih ht hb hr hi
  | index ha ht hb hr hi hit hir iha ihi =>
    rw [← pointer_covers hm hr, ← load_covers hm hir]
    exact .index iha ht hb hr ihi hit hir

end Alike

/-! ## Sequences -/

section Sequences

variable (s : Cpu F)

theorem execs_loadFromAddr (t : CType) : ∃ s', (machine w).execs (loadFromAddr t) s = some s' ∧ s'.top = t.load s.mem s.top ∧
    s'.regs .esp = s.regs .esp ∧ s.OnlyTop s' := by
  unfold loadFromAddr CType.load
  cases t.width with
  | none => exact ⟨_, rfl, by simp, by simp, .of_write rfl⟩
  | some wd => exact ⟨_, rfl, by simp, by simp, .of_write rfl⟩

theorem execs_fieldAddr (off : U32) : ∃ s', (machine w).execs (fieldAddr off) s = some s' ∧ s'.top = s.top + off ∧
    s'.regs .esp = s.regs .esp ∧ s.OnlyTop s' := by
  unfold fieldAddr
  by_cases h : off = 0#32
  · rw [if_pos h, h]
    exact ⟨_, rfl, by simp, by simp, .of_write rfl⟩
  · rw [if_neg h]
    exact ⟨_, rfl, by simp, by simp, .of_write rfl⟩

theorem execs_scaleTop (sz : U32) : ∃ s', (machine w).execs (scaleTop sz) s = some s' ∧
    s'.top = (if (1#32).slt sz then s.top * sz else s.top) ∧ s'.regs .esp = s.regs .esp ∧ s.OnlyTop s' := by
  unfold scaleTop scale
  by_cases h1 : (1#32).slt sz = true
  · rw [if_pos h1, if_pos h1, if_pos h1]
    exact ⟨_, rfl, by simp, by simp, .of_write rfl⟩
  · rw [if_neg h1, if_neg h1]
    exact ⟨s, rfl, rfl, rfl, .of_eq rfl⟩

/-- A size that is not more than one is one, if it is any. -/
theorem eq_one_of_slt {sz : U32} (h : (0#32).slt sz = true) (h1 : ¬(1#32).slt sz = true) : sz = 1#32 := by
  simp only [BitVec.slt, decide_eq_true_eq] at h h1
  apply BitVec.eq_of_toInt_eq
  simp at h h1 ⊢
  omega

/-- A size that is one is left out. -/
theorem scaled_of_sized {sz : U32} (h : (0#32).slt sz = true) (v : U32) : (if (1#32).slt sz then v * sz else v) = v * sz := by
  by_cases h1 : (1#32).slt sz = true
  · rw [if_pos h1]
  · rw [if_neg h1, eq_one_of_slt h h1, BitVec.mul_one]

theorem execs_indexAddr : ∃ s', (machine w).execs indexAddr s = some s' ∧ s'.top = s.second + s.top ∧
    s'.regs .esp = s.regs .esp + 4#32 ∧ s.OnlyTop s' := by
  refine ⟨_, rfl, ?_, ?_, .of_write rfl⟩
  · simp
  · simp

end Sequences

/-! ## Clear of the stack -/

/-- No cell of `P` is among some words under the stack pointer. -/
def Cpu.Clear (P : U32 → Prop) (n : Nat) (s : Cpu F) : Prop := ∀ x, P x → 4 * n ≤ (s.regs .esp - 1#32 - x).toNat

section Clear

variable {P : U32 → Prop} {n m : Nat} {s s' : Cpu F} {v : U32}

theorem Cpu.Clear.mono (h : s.Clear P n) (hm : m ≤ n) : s.Clear P m := fun x hx => by
  have := h x hx
  omega

theorem Cpu.Clear.kept (h : s.Clear P n) (hk : s.Kept n s') : ∀ x, P x → s'.mem x = s.mem x := fun x hx => hk x (h x hx)

/-- One word down, there is room for one word less. -/
theorem Cpu.Clear.left (h : s.Clear P (n + 1)) (hl : s.Left m s' v) : s'.Clear P n := by
  intro x hx
  have := h x hx
  rw [hl.esp]
  bv_omega

end Clear

/-! ## Code of lvalues -/

/-- Code of the address of an lvalue. -/
structure LvalCode (w : World F) (P : U32 → Prop) (a : LVal) (T : CodeEnv) (t : CType) (c : Code) (T' : CodeEnv) : Prop where
  gen : gen T .addr a.node = some (t, c, T')
  labels : Drawn T.labels T'.labels (labelsOf c)
  runs : ∀ (text pre k : Code) (s : Cpu F) (p : U32), text = pre ++ c ++ k → (labelsOf text).Nodup → KeepsFrame text →
    Denotes T w (s.regs .ebp) s.mem P a p → s.Clear P a.node.count →
    ∃ s', (machine w).Runs text (c ++ k, s) (k, s') ∧ s.Left a.node.count s' p

/-- Code of a value at an lvalue, by its address. -/
structure ValueCode (w : World F) (P : U32 → Prop) (a : LVal) (T : CodeEnv) (t : CType) (val : Mem → U32 → U32)
    (reads : U32 → Prop) (c : Code) (T' : CodeEnv) : Prop where
  gen : gen T .value a.node = some (t, c, T')
  labels : Drawn T.labels T'.labels (labelsOf c)
  runs : ∀ (text pre k : Code) (s : Cpu F) (p : U32), text = pre ++ c ++ k → (labelsOf text).Nodup → KeepsFrame text →
    Denotes T w (s.regs .ebp) s.mem P a p → reads p → s.Clear P a.node.count →
    ∃ s', (machine w).Runs text (c ++ k, s) (k, s') ∧ s.Left a.node.count s' (val s.mem p)

section Codes

variable {P : U32 → Prop} {a i : LVal} {T T₁ T' : CodeEnv} {t b : CType} {c : Code}

theorem LvalCode.alike (h : LvalCode w P a T t c T') : T.Alike T' :=
  (@gen_emits (fun _ => True) (fun _ => trivial) T .addr a.node _ h.gen).alike

theorem ValueCode.alike {val : Mem → U32 → U32} {reads : U32 → Prop} (h : ValueCode w P a T t val reads c T') : T.Alike T' :=
  (@gen_emits (fun _ => True) (fun _ => trivial) T .value a.node _ h.gen).alike

/-- The value of an object is loaded from its address, but an array or a record stays there. -/
def LoadedValue (t vt : CType) (c c' : Code) : Prop :=
  vt.decay = t.decay.promote ∧ (t.isArray = false → t.isRecord = false → vt = t.promote) ∧
    c' = if t.isRecord || t.isArray then c else c ++ ops (loadFromAddr t)

theorem loaded_finish (t : CType) (c : Code) : LoadedValue t (GenMode.value.finish t c).1 c (GenMode.value.finish t c).2 := by
  cases t with
  | array b n => exact ⟨rfl, nofun, rfl⟩
  | _ => exact ⟨rfl, fun _ _ => rfl, rfl⟩

theorem loaded_finishDeref (t : CType) (c : Code) :
    LoadedValue t (GenMode.value.finishDeref t c).1 c (GenMode.value.finishDeref t c).2 := by
  cases t with
  | array b n => exact ⟨rfl, nofun, rfl⟩
  | _ => exact ⟨rfl, fun _ _ => rfl, rfl⟩

theorem gen_value_of_addr (ht : a.type T = some t) (h : gen T .addr a.node = some (t, c, T')) :
    ∃ vt c', LoadedValue t vt c c' ∧ gen T .value a.node = some (vt, c', T') := by
  cases a with
  | var x =>
    obtain ⟨s, hs, rfl⟩ := Option.map_eq_some_iff.mp ht
    simp only [LVal.node, gen, hs, GenMode.finish, Option.some.injEq, Prod.mk.injEq] at h
    obtain ⟨-, rfl, rfl⟩ := h
    exact ⟨_, _, loaded_finish s.type _, by simp only [LVal.node, gen, hs]⟩
  | dot a x =>
    simp only [LVal.node, gen, GenMode.finish, Option.bind_eq_bind, Option.bind_eq_some_iff, Option.pure_def, Option.some.injEq,
      Prod.mk.injEq, Prod.exists] at h
    obtain ⟨bt, ca, T₁, ha, f, hf, rfl, rfl, rfl⟩ := h
    exact ⟨_, _, loaded_finish f.type _, by simp [LVal.node, gen, ha, hf]⟩
  | arrow a x =>
    simp only [LVal.node, gen, GenMode.finish, Option.bind_eq_bind, Option.bind_eq_some_iff, Option.pure_def, Option.some.injEq,
      Prod.mk.injEq, Prod.exists] at h
    obtain ⟨pt, ca, T₁, ha, bt, hb, f, hf, rfl, rfl, rfl⟩ := h
    exact ⟨_, _, loaded_finish f.type _, by simp [LVal.node, gen, ha, hb, hf]⟩
  | deref a =>
    simp only [LVal.node, gen, GenMode.finishDeref, Option.bind_eq_bind, Option.bind_eq_some_iff, Option.pure_def, Option.some.injEq,
      Prod.mk.injEq, Prod.exists] at h
    obtain ⟨pt, ca, T₁, ha, b, hb, rfl, rfl, rfl⟩ := h
    exact ⟨_, _, loaded_finishDeref b _, by simp [LVal.node, gen, ha, hb]⟩
  | elem a i =>
    simp only [LVal.node, gen, GenMode.finish, Option.bind_eq_bind, Option.bind_eq_some_iff, Option.pure_def, Option.some.injEq,
      Prod.mk.injEq, Prod.exists] at h
    obtain ⟨bt, ca, T₁, ha, b, hb, it, ci, T₂, hi, rfl, rfl, rfl⟩ := h
    exact ⟨_, _, loaded_finish b _, by simp [LVal.node, gen, ha, hb, hi]⟩
  | index a i =>
    simp only [LVal.node, gen, GenMode.finish, Option.bind_eq_bind, Option.bind_eq_some_iff, Option.pure_def, Option.some.injEq,
      Prod.mk.injEq, Prod.exists] at h
    obtain ⟨bt, ca, T₁, ha, b, hb, it, ci, T₂, hi, rfl, rfl, rfl⟩ := h
    exact ⟨_, _, loaded_finish b _, by simp [LVal.node, gen, ha, hb, hi]⟩

/-- Behind the address, the load of a scalar. -/
theorem LvalCode.scalar (h : LvalCode w P a T t c T') (ht : a.type T = some t) (ha : t.isArray = false) (hr : t.isRecord = false) :
    ValueCode w P a T t.promote t.load (fun p => Covers P p t.bytes) (c ++ ops (loadFromAddr t)) T' := by
  obtain ⟨vt, c', ⟨-, hvt, hc⟩, hgen⟩ := gen_value_of_addr ht h.gen
  rw [hr, ha] at hc
  rw [hvt ha hr, hc] at hgen
  refine ⟨hgen, by simpa using h.labels, fun text pre k s p htext hn hk hden hreads hclear => ?_⟩
  obtain ⟨s₁, h₁, hl₁⟩ := h.runs text pre (ops (loadFromAddr t) ++ k) s p (by simp [htext]) hn hk hden hclear
  obtain ⟨s₂, h₂, ht₂, he₂, hm₂⟩ := execs_loadFromAddr (w := w) s₁ t
  rw [hl₁.top, load_covers (hclear.kept hl₁.kept) hreads] at ht₂
  refine ⟨s₂, ?_, hl₁.replace ht₂ he₂ hm₂ (count_pos _)⟩
  rw [List.append_assoc]
  exact h₁.trans (TextMachine.Runs.ops h₂)

/-- Behind the address, what a pointer holds or an array is. -/
theorem LvalCode.pointer (h : LvalCode w P a T t c T') (ht : a.type T = some t) (hb : t.decay.ptrBase = some b) :
    ∃ vt c', vt.decay.ptrBase = some b ∧
      ValueCode w P a T vt t.pointer (fun p => t.isArray = true ∨ Covers P p 4) c' T' := by
  cases t with
  | ptr b' =>
    cases hb
    refine ⟨.ptr b, _, rfl, (h.scalar ht rfl rfl).gen, (h.scalar ht rfl rfl).labels, ?_⟩
    intro text pre k s p htext hn hk hden hreads hclear
    exact (h.scalar ht rfl rfl).runs text pre k s p htext hn hk hden (hreads.resolve_left Bool.false_ne_true) hclear
  | array b' n =>
    cases hb
    obtain ⟨vt, c', ⟨hvt, -, hc⟩, hgen⟩ := gen_value_of_addr ht h.gen
    cases hc
    refine ⟨vt, c, by rw [hvt]; rfl, hgen, h.labels, ?_⟩
    intro text pre k s p htext hn hk hden hreads hclear
    exact h.runs text pre k s p htext hn hk hden hclear
  | _ => cases hb

/-- Behind a piece of code, another that replaces the word it leaves. -/
theorem runs_replaced {text k : Code} {is : List Insn} {n : Nat} {s : Cpu F} {v : U32} {f : U32 → U32}
    (his : ∀ s : Cpu F, ∃ s', (machine w).execs is s = some s' ∧ s'.top = f s.top ∧ s'.regs .esp = s.regs .esp ∧ s.OnlyTop s')
    (hn : 1 ≤ n) (h : ∃ s₁, (machine w).Runs text (c ++ (ops is ++ k), s) (ops is ++ k, s₁) ∧ s.Left n s₁ v) :
    ∃ s', (machine w).Runs text (c ++ ops is ++ k, s) (k, s') ∧ s.Left (1 + n) s' (f v) := by
  obtain ⟨s₁, h₁, hl₁⟩ := h
  obtain ⟨s₂, h₂, ht₂, he₂, hm₂⟩ := his s₁
  rw [hl₁.top] at ht₂
  refine ⟨s₂, ?_, (hl₁.replace ht₂ he₂ hm₂ hn).mono (by omega)⟩
  rw [List.append_assoc]
  exact h₁.trans (TextMachine.Runs.ops h₂)

/-- Behind the base and the index of an array, the address of the element. -/
theorem runs_indexed {text k c₁ c₂ : Code} {n m : Nat} {s s₁ : Cpu F} {sz base v : U32} (hsz : (0#32).slt sz = true)
    (hm : 1 ≤ m) (hmax : m ≤ maxNode)
    (h₁ : (machine w).Runs text (c₁ ++ (c₂ ++ (ops (scaleTop sz ++ indexAddr) ++ k)), s) (c₂ ++ (ops (scaleTop sz ++ indexAddr) ++ k), s₁))
    (hl₁ : s.Left n s₁ base)
    (h₂ : ∃ s₂, (machine w).Runs text (c₂ ++ (ops (scaleTop sz ++ indexAddr) ++ k), s₁) (ops (scaleTop sz ++ indexAddr) ++ k, s₂) ∧
      s₁.Left m s₂ v) :
    ∃ s', (machine w).Runs text (c₁ ++ c₂ ++ ops (scaleTop sz ++ indexAddr) ++ k, s) (k, s') ∧
      s.Left (1 + n + m) s' (base + v * sz) := by
  obtain ⟨s₂, h₂, hl₂⟩ := h₂
  obtain ⟨s₃, h₃, ht₃, he₃, hm₃⟩ := execs_scaleTop (w := w) s₂ sz
  rw [hl₂.top, scaled_of_sized hsz] at ht₃
  have hl₃ := hl₂.replace ht₃ he₃ hm₃ hm
  obtain ⟨s₄, h₄, ht₄, he₄, hm₄⟩ := execs_indexAddr (w := w) s₃
  rw [hl₁.second hl₃ hmax, hl₃.top] at ht₄
  refine ⟨s₄, ?_, hl₁.combine hl₃ ht₄ he₄ hm₄⟩
  have h₃₄ : (machine w).execs (scaleTop sz ++ indexAddr) s₂ = some s₄ := by
    rw [TextMachine.execs_append, h₃, Option.bind_some, h₄]
  simp only [List.append_assoc]
  exact h₁.trans (h₂.trans (TextMachine.Runs.ops h₃₄))

/-- `gen_addr` leaves the address of the object an lvalue denotes. -/
theorem lvalCode (w : World F) (P : U32 → Prop) (a : LVal) {T : CodeEnv} {t : CType} (ht : a.type T = some t)
    (hc : a.node.count ≤ maxNode) : ∃ c T', LvalCode w P a T t c T' := by
  induction a generalizing T t with
  | var x =>
    obtain ⟨sym, hs, rfl⟩ := Option.map_eq_some_iff.mp ht
    refine ⟨ops (loadAddr sym), T, by simp only [LVal.node, gen, hs, GenMode.finish], by simpa using Drawn.nil _, ?_⟩
    intro text pre k s p htext hn hk hden hclear
    cases hden with
    | var hs' =>
      cases hs.symm.trans hs'
      have hex : (machine w).execs (loadAddr sym) s = some ((s.set .eax (sym.place.addr w (s.regs .ebp))).push (sym.place.addr w (s.regs .ebp))) := by
        unfold loadAddr
        cases hp : sym.place with
        | frame off => simp [TextMachine.execs, machine, Insn.exec, Place.addr]
        | global g => simp [TextMachine.execs, machine, Insn.exec, Place.addr]
      exact ⟨_, TextMachine.Runs.ops hex, .push s _ le_rfl rfl rfl⟩
  | dot a x ih =>
    simp only [LVal.type, Option.bind_eq_bind, Option.bind_eq_some_iff, Option.pure_def, Option.some.injEq] at ht
    obtain ⟨bt, ha, f, hf, rfl⟩ := ht
    simp only [LVal.node, Node.count] at hc
    obtain ⟨c, T', h⟩ := ih ha (by omega)
    refine ⟨c ++ ops (fieldAddr f.offset), T', ?_, by simpa using h.labels, ?_⟩
    · have hf' : T'.findField bt x = some f := by rw [h.alike.findField, hf]
      simp [LVal.node, gen, h.gen, hf', GenMode.finish]
    intro text pre k s p htext hn hk hden hclear
    cases hden with
    | dot hda hta hfa =>
      cases ha.symm.trans hta
      cases hf.symm.trans hfa
      exact runs_replaced (f := fun v => v + f.offset) (fun s => execs_fieldAddr s f.offset) (count_pos _)
        (h.runs text pre _ s _ (by simp [htext]) hn hk hda (hclear.mono (by simp only [LVal.node, Node.count]; omega)))
  | arrow a x ih =>
    simp only [LVal.type, Option.bind_eq_bind, Option.bind_eq_some_iff, Option.pure_def, Option.some.injEq] at ht
    obtain ⟨pt, ha, b, hb, f, hf, rfl⟩ := ht
    simp only [LVal.node, Node.count] at hc
    obtain ⟨c₀, T', h₀⟩ := ih ha (by omega)
    obtain ⟨vt, c, hvt, h⟩ := h₀.pointer ha hb
    refine ⟨c ++ ops (fieldAddr f.offset), T', ?_, by simpa using h.labels, ?_⟩
    · have hf' : T'.findField b x = some f := by rw [h.alike.findField, hf]
      simp [LVal.node, gen, h.gen, hvt, hf', GenMode.finish]
    intro text pre k s p htext hn hk hden hclear
    cases hden with
    | arrow hda hta hba hfa hr =>
      cases ha.symm.trans hta
      cases hb.symm.trans hba
      cases hf.symm.trans hfa
      exact runs_replaced (f := fun v => v + f.offset) (fun s => execs_fieldAddr s f.offset) (count_pos _)
        (h.runs text pre _ s _ (by simp [htext]) hn hk hda hr (hclear.mono (by simp only [LVal.node, Node.count]; omega)))
  | deref a ih =>
    simp only [LVal.type, Option.bind_eq_bind, Option.bind_eq_some_iff] at ht
    obtain ⟨pt, ha, hb⟩ := ht
    simp only [LVal.node, Node.count] at hc
    obtain ⟨c₀, T', h₀⟩ := ih ha (by omega)
    obtain ⟨vt, c, hvt, h⟩ := h₀.pointer ha hb
    refine ⟨c, T', by simp [LVal.node, gen, h.gen, hvt, GenMode.finishDeref], h.labels, ?_⟩
    intro text pre k s p htext hn hk hden hclear
    cases hden with
    | deref hda hta hr =>
      cases ha.symm.trans hta
      have hcount : a.node.count ≤ (LVal.deref a).node.count := by simp only [LVal.node, Node.count]; omega
      obtain ⟨s', hr', hl⟩ := h.runs text pre k s _ htext hn hk hda hr (hclear.mono hcount)
      exact ⟨s', hr', hl.mono hcount⟩
  | elem a i ih =>
    simp only [LVal.type, Option.bind_eq_bind, Option.bind_eq_some_iff, Option.ite_none_right_eq_some, Bool.and_eq_true,
      Option.some.injEq] at ht
    obtain ⟨pt, ha, b, hb, ⟨hsz, hi⟩, rfl⟩ := ht
    simp only [LVal.node, Node.count] at hc
    obtain ⟨c₀, T₁, h₀⟩ := ih ha (by omega)
    obtain ⟨vt, c, hvt, h⟩ := h₀.pointer ha hb
    obtain ⟨ci, T₂, hcode⟩ := (constCode w i hi (by omega)).1 T₁
    have hT₂ : T₁.Alike T₂ := (@gen_emits (fun _ => True) (fun _ => trivial) T₁ .value i _ hcode.gen).alike
    have hsize : T₂.size b = T.size b := by rw [hT₂.size, h.alike.size]
    have hfl := (CType.isInteger_not (constType_isInteger hi)).1
    refine ⟨c ++ ci ++ ops (scaleTop (T.size b) ++ indexAddr), T₂, ?_, by simpa using h.labels.append hcode.labels, ?_⟩
    · simp [LVal.node, gen, h.gen, hvt, hcode.gen, hfl, hsize, GenMode.finish]
    intro text pre k s p htext hn hk hden hclear
    cases hden with
    | elem hda hta hba hr hw =>
      cases ha.symm.trans hta
      cases hb.symm.trans hba
      obtain ⟨s₁, h₁, hl₁⟩ := h.runs text pre (ci ++ (ops (scaleTop (T.size b) ++ indexAddr) ++ k)) s _ (by simp [htext]) hn hk hda hr
        (hclear.mono (by simp only [LVal.node, Node.count]; omega))
      have h₂ := hcode.runs text (pre ++ c) (ops (scaleTop (T.size b) ++ indexAddr) ++ k) s₁ _ (by simp [htext]) hn hw
      exact runs_indexed hsz (count_pos _) (by omega) h₁ hl₁ h₂
  | index a i iha ihi =>
    simp only [LVal.type, Option.bind_eq_bind, Option.bind_eq_some_iff, Option.ite_none_right_eq_some, Bool.and_eq_true,
      Option.some.injEq] at ht
    obtain ⟨pt, ha, b, hb, it, hit, ⟨hsz, hint⟩, rfl⟩ := ht
    simp only [LVal.node, Node.count] at hc
    obtain ⟨c₀, T₁, h₀⟩ := iha ha (by omega)
    obtain ⟨vt, c, hvt, h⟩ := h₀.pointer ha hb
    have hit₁ : i.type T₁ = some it := by rw [h.alike.type, hit]
    obtain ⟨ci₀, T₂, hi₀⟩ := ihi hit₁ (by omega)
    obtain ⟨hfl, -, hrec, harr⟩ := CType.isInteger_not hint
    have hi := hi₀.scalar hit₁ harr hrec
    have hsize : T₂.size b = T.size b := by rw [hi.alike.size, h.alike.size]
    have hfl' : it.promote.isFloat = false := by cases it <;> first | rfl | cases hint
    refine ⟨c ++ (ci₀ ++ ops (loadFromAddr it)) ++ ops (scaleTop (T.size b) ++ indexAddr), T₂, ?_,
      by simpa using h.labels.append hi.labels, ?_⟩
    · simp [LVal.node, gen, h.gen, hvt, hi.gen, hfl', hsize, GenMode.finish]
    intro text pre k s p htext hn hk hden hclear
    cases hden with
    | @index _ _ _ _ _ _ ip hda hta hba hr hdi hti hir =>
      cases ha.symm.trans hta
      cases hb.symm.trans hba
      cases hit.symm.trans hti
      have hclear' : s.Clear P (1 + a.node.count + i.node.count) := hclear
      obtain ⟨s₁, h₁, hl₁⟩ := h.runs text pre (ci₀ ++ ops (loadFromAddr it) ++ (ops (scaleTop (T.size b) ++ indexAddr) ++ k)) s _
        (by simp [htext]) hn hk hda hr (hclear'.mono (by omega))
      have hmem := (hclear'.mono (show a.node.count ≤ 1 + a.node.count + i.node.count by omega)).kept hl₁.kept
      have hebp : s₁.regs .ebp = s.regs .ebp := runs_keepsFrame hk ⟨pre, by simp [htext]⟩ h₁
      have hdi₁ : Denotes T₁ w (s₁.regs .ebp) s₁.mem P i ip := by
        rw [hebp]
        exact (hdi.congr hmem).alike h.alike
      have h₂ := hi.runs text (pre ++ c) (ops (scaleTop (T.size b) ++ indexAddr) ++ k) s₁ _ (by simp [htext]) hn hk hdi₁ hir
        ((hclear'.mono (show i.node.count + 1 ≤ 1 + a.node.count + i.node.count by have := count_pos a.node; omega)).left hl₁)
      rw [load_covers hmem hir] at h₂
      exact runs_indexed hsz (count_pos _) (by omega) h₁ hl₁ h₂

end Codes

end MiniOs32
