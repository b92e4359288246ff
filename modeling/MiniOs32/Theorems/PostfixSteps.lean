import MiniOs32.Cc.Typing
import MiniOs32.Lemmas.Lvalues

/-!
# Postfix steps and the old value

`x++` is compiled as `(x = x + 1) - 1`. The assignment leaves the sum as it was computed, not as it was stored, so the difference
is the old value of every type whose conversion is left to the store. A `bool` is converted before that, and an `unsigned short`
computes as `unsigned`; a pointer is stepped by one byte where its element has no size.
-/

namespace MiniOs32

/-! ## Sequences -/

section Sequences

variable {F : Type} {w : World F} {T : CodeEnv} {t lt rt : CType} {a b : Node} {T₁ T₂ : CodeEnv} {ca cb : Code}

theorem gen_assign (ha : gen T .addr a = some (lt, ca, T₁)) (hb : gen T₁ .value b = some (rt, cb, T₂)) (hr : lt.isRecord = false)
    (harr : lt.isArray = false) :
    gen T .value (.assign a b) = some (lt.promote, ca ++ cb ++ ops (assignCode T₂ lt rt), T₂) := by
  simp [gen, ha, hb, hr, harr, GenMode.isValue]

/-- The store of a scalar, whose value stays on the stack. -/
theorem execs_storeScalar (t : CType) (s : Cpu F) : ∃ s', (machine w).execs (storeToAddr t) s = some s' ∧ s'.top = s.top ∧
    s'.regs .esp = s.regs .esp + 4#32 ∧
    s'.mem = (s.mem.write s.second ((le32 s.top).take t.bytes)).write32 (s.regs .esp + 4#32) s.top := by
  unfold storeToAddr CType.bytes
  cases t.width with
  | none =>
    refine ⟨_, rfl, by simp, by simp, ?_⟩
    simp [List.take_of_length_le (show (le32 s.top).length ≤ 4 by simp)]
    rfl
  | some wd => exact ⟨_, rfl, by simp, by simp, by simp⟩

/-- The low byte and the low half of a word that was written. -/
theorem read32_write_take (m : Mem) (p v : U32) :
    ((m.write p ((le32 v).take 1)).read32 p).setWidth 8 = v.setWidth 8 ∧
      ((m.write p ((le32 v).take 2)).read32 p).setWidth 16 = v.setWidth 16 := by
  obtain ⟨h8, h16⟩ := setWidth_word32 (v.extractLsb' 0 8) (v.extractLsb' 8 8) (v.extractLsb' 16 8) (v.extractLsb' 24 8)
  rw [word32_le32] at h8 h16
  refine ⟨?_, ?_⟩
  · rw [Mem.read32, (setWidth_word32 _ _ _ _).1, h8, Mem.write_apply, BitVec.sub_self]
    rfl
  · have h0 : (m.write p ((le32 v).take 2)) p = v.extractLsb' 0 8 := by
      rw [Mem.write_apply, BitVec.sub_self]
      rfl
    have h1 : (m.write p ((le32 v).take 2)) (p + 1#32) = v.extractLsb' 8 8 := by
      rw [Mem.write_apply, BitVec.add_comm p, BitVec.add_sub_cancel]
      rfl
    rw [Mem.read32, (setWidth_word32 _ _ _ _).2, h16, h0, h1]

/-- A stored integer, or pointer, is loaded as it was converted. -/
theorem load_write (ht : t.isInteger = true ∨ t.isPtr = true) (m : Mem) (p v : U32) (hb : t = .bool → v = 0#32 ∨ v = 1#32) :
    t.load (m.write p ((le32 v).take t.bytes)) p = t.convert v := by
  have hbyte : ∀ u : Bool, Width.byte.extend u ((m.write p ((le32 v).take 1)).read32 p) = Width.byte.extend u v := by
    intro u
    cases u <;> simp only [Width.extend, (read32_write_take m p v).1]
  have hword : ∀ u : Bool, Width.word.extend u ((m.write p ((le32 v).take 2)).read32 p) = Width.word.extend u v := by
    intro u
    cases u <;> simp only [Width.extend, (read32_write_take m p v).2]
  cases t with
  | int u | ptr b =>
    have htake : (le32 v).take 4 = le32 v := List.take_of_length_le (by simp)
    exact (congrArg (fun bs => (m.write p bs).read32 p) htake).trans (Mem.read32_write32 m p v)
  | char u => exact hbyte u
  | short u => exact hword u
  | bool =>
    refine (hbyte true).trans ?_
    rcases hb rfl with rfl | rfl <;> rfl
  | _ => simp [CType.isInteger, CType.isPtr] at ht

/-- How far a step goes in the code. -/
def CodeEnv.hop (T : CodeEnv) (t : CType) : U32 :=
  match t with
  | .ptr b => if (1#32).slt (T.size b) then T.size b else 1#32
  | _ => 1#32

/-- The operators of a step. -/
def hopOp (inc : Bool) : BinOp := if inc then .add else .sub

/-- What they compute. -/
def hopped (inc : Bool) (v d : U32) : U32 := if inc then v + d else v - d

/-- The type of a step's sum. -/
def CType.sum (t : CType) : CType :=
  match t with
  | .ptr b => .ptr b
  | t => .int t.promote.isUnsigned

theorem genBin_hop (inc : Bool) (ht : t.isInteger = true ∨ t.isPtr = true) :
    genBin (hopOp inc) t.promote.decay.promote (CType.int false).decay.promote (Node.num 1#32).isZero = some t.sum := by
  cases t with
  | int u | short u | char u => cases u <;> cases inc <;> rfl
  | bool | ptr b => cases inc <;> rfl
  | _ => simp [CType.isInteger, CType.isPtr] at ht

/-- The end of a step of a pointer. -/
theorem execs_popStep (inc : Bool) (s : Cpu F) : ∃ s', (machine w).execs (popBoth ++ intOp (hopOp inc) true ++ pushEax) s = some s' ∧
    s'.top = hopped inc s.second s.top ∧ s'.regs .esp = s.regs .esp + 4#32 ∧ s.OnlyTop s' := by
  cases inc with
  | false => exact ⟨_, rfl, by simp [hopped], by simp, .of_write rfl⟩
  | true => exact ⟨_, rfl, by simp [hopped], by simp, .of_write rfl⟩

/-- One is pushed, and added to or taken from the word on the stack. -/
theorem execs_hop (T : CodeEnv) (inc : Bool) (ht : t.isInteger = true ∨ t.isPtr = true) {s s₁ : Cpu F} {n : Nat} {v : U32}
    (h : s.Left n s₁ v) :
    ∃ s', (machine w).execs (.pushImm 1#32 :: binCode T (hopOp inc) t.promote.decay.promote (CType.int false).decay.promote) s₁ = some s' ∧
      s.Left (n + 2) s' (hopped inc v (T.hop t)) := by
  have hpush : s₁.Left 1 (s₁.push 1#32) 1#32 := .push s₁ _ le_rfl rfl rfl
  have hcons : ∀ is, (machine w).execs (.pushImm 1#32 :: is) s₁ = (machine w).execs is (s₁.push 1#32) := fun _ => rfl
  rw [hcons]
  rcases ht with ht | ht
  · have hpt := (promote_of_isInteger ht).2
    have hword : (hopOp inc).word (isUnsignedPair t.promote (.int false)) (s₁.push 1#32).second (s₁.push 1#32).top =
        some (hopped inc v (T.hop t)) := by
      have hhop : T.hop t = 1#32 := by cases t <;> first | rfl | cases ht
      rw [Cpu.second_push, Cpu.top_push, h.top, hhop]
      cases inc <;> rfl
    obtain ⟨s₂, h₂, ht₂, he₂, hm₂⟩ := execs_binCode (w := w) T (s₁.push 1#32) hpt rfl hword
    exact ⟨s₂, h₂, (h.combine hpush ht₂ he₂ hm₂).mono (by omega)⟩
  · cases t with
    | ptr b =>
      have hc : binCode T (hopOp inc) (CType.ptr b).promote.decay.promote (CType.int false).decay.promote =
          scaleTop (T.size b) ++ (popBoth ++ intOp (hopOp inc) true ++ pushEax) := by
        cases inc <;> simp [binCode, hopOp, BinOp.isBit, BinOp.isCmp, CType.promote, CType.decay, CType.isPtr, CType.isNumeric,
          CType.isFloat, CType.ptrBase]
      obtain ⟨s₂, h₂, ht₂, he₂, hm₂⟩ := execs_scaleTop (w := w) (s₁.push 1#32) (T.size b)
      have hhop : s₂.top = T.hop (.ptr b) := by
        rw [ht₂, Cpu.top_push, BitVec.one_mul]
        rfl
      have hl₂ := hpush.replace hhop he₂ hm₂ le_rfl
      obtain ⟨s₃, h₃, ht₃, he₃, hm₃⟩ := execs_popStep (w := w) inc s₂
      rw [h.second hl₂ (by decide), hhop] at ht₃
      refine ⟨s₃, ?_, (h.combine hl₂ ht₃ he₃ hm₃).mono (by omega)⟩
      rw [hc, TextMachine.execs_append, h₂, Option.bind_some, h₃]
    | _ => cases ht

/-- What the assignment of a step leaves on the stack: the sum, which only a `bool` is converted to before it is stored. -/
def CodeEnv.summed (T : CodeEnv) (t : CType) (inc : Bool) (old : U32) : U32 :=
  match t with
  | .bool => CType.bool.convert (hopped inc old 1#32)
  | t => hopped inc old (T.hop t)

/-- The conversion before a sum is stored. -/
theorem execs_convSum (ht : t.isInteger = true ∨ t.isPtr = true) (inc : Bool) (old : U32) {s s₁ : Cpu F} {n : Nat}
    (h : s.Left n s₁ (hopped inc old (T.hop t))) (hn : 1 ≤ n) :
    ∃ s', (machine w).execs (convStored t.sum t) s₁ = some s' ∧ s.Left n s' (T.summed t inc old) := by
  cases t with
  | bool =>
    obtain ⟨s₂, h₂, ht₂, he₂, hm₂⟩ := execs_boolify (t := CType.bool.sum) w s₁ rfl
    rw [h.top] at ht₂
    exact ⟨s₂, h₂, h.replace ht₂ he₂ hm₂ hn⟩
  | int u | short u | char u | ptr b => exact ⟨s₁, rfl, h⟩
  | _ => simp [CType.isInteger, CType.isPtr] at ht

/-- A cell below a slot of the stack is not in it, and is as far below the words under it. -/
theorem below_slot {e x : U32} {n k : Nat} (h : 4 * (1 + n + k) ≤ (e - 1#32 - x).toNat) :
    4 ≤ (x - (e - 4#32)).toNat ∧ 4 * k ≤ (e - 4#32 - 1#32 - x).toNat ∧ 4 * n ≤ (e - 1#32 - x).toNat := by
  bv_omega

/-- The state with a scalar stored. -/
def Cpu.stored (s : Cpu F) (p : U32) (t : CType) (v : U32) : Cpu F := { s with mem := s.mem.write p ((le32 v).take t.bytes) }

/-- The end of the assignment. -/
theorem execs_assignSum (T : CodeEnv) (ht : t.isInteger = true ∨ t.isPtr = true) (inc : Bool) (old p : U32) {s s₁ s₂ : Cpu F} {n m : Nat}
    (h₁ : s.Left n s₁ p) (h₂ : s₁.Left m s₂ (hopped inc old (T.hop t))) (hm : 1 ≤ m) (hmax : m ≤ maxNode) :
    ∃ s', (machine w).execs (assignCode T t t.sum) s₂ = some s' ∧
      (s.stored p t (T.summed t inc old)).Left (1 + n + m) s' (T.summed t inc old) := by
  have hc : assignCode T t t.sum = convStored t.sum t ++ storeToAddr t := by
    have hr : t.isRecord = false := by
      cases t with
      | struct i | union i => simp [CType.isInteger, CType.isPtr] at ht
      | _ => rfl
    rw [assignCode, hr, if_neg Bool.false_ne_true]
  obtain ⟨s₃, h₃, hl₃⟩ := execs_convSum (w := w) ht inc old h₂ hm
  obtain ⟨s₄, h₄, ht₄, he₄, hm₄⟩ := execs_storeScalar (w := w) t s₃
  rw [h₁.second hl₃ hmax, hl₃.top] at hm₄
  rw [hl₃.esp, BitVec.sub_add_cancel, h₁.esp] at he₄ hm₄
  refine ⟨s₄, by rw [hc, TextMachine.execs_append, h₃, Option.bind_some, h₄], he₄, by rw [ht₄, hl₃.top], fun x hx => ?_⟩
  change 4 * (1 + n + m) ≤ (s.regs .esp - 1#32 - x).toNat at hx
  obtain ⟨hslot, hm', hn'⟩ := below_slot hx
  have hold : s₃.mem x = s.mem x := by
    rw [hl₃.kept x (by rw [h₁.esp]; exact hm'), h₁.kept x hn']
  change s₄.mem x = (s.mem.write p ((le32 (T.summed t inc old)).take t.bytes)) x
  rw [hm₄, Mem.write32, Mem.write_of_le (by rw [le32_length]; exact hslot), Mem.write_apply, Mem.write_apply, hold]

end Sequences

/-! ## The step -/

/-- The code of a postfix step yields the value the object held, with its promoted type, leaves in the object what C leaves there,
and changes no other object. -/
def YieldsOld {F : Type} (w : World F) (T : CodeEnv) (lv : LVal) (t : CType) (inc : Bool) (s : Cpu F) (P : U32 → Prop) (p : U32) : Prop :=
  ∃ c T', gen T .value (postfixStep inc lv.node) = some (t.promoted, c, T') ∧
    ∃ s', (machine w).Runs c (c, s) ([], s') ∧ s'.regs .esp = s.regs .esp - 4#32 ∧ s'.top = t.load s.mem p ∧
      t.load s'.mem p = T.stepped t inc (t.load s.mem p) ∧ ∀ x, P x → t.bytes ≤ (x - p).toNat → s'.mem x = s.mem x

/-- When it does. -/
def CodeEnv.KeepsOld (T : CodeEnv) (t : CType) (inc : Bool) (old : U32) : Prop :=
  t ≠ .short true ∧ (t = .bool → if inc then old = 0#32 else old = 1#32 ∨ old = 2#32) ∧ ∀ b, t = .ptr b → T.sized b = true

section Step

variable {F : Type} {w : World F} {T : CodeEnv} {t : CType} {lv : LVal} {s : Cpu F} {P : U32 → Prop} {p : U32}

theorem callFree_of_isConst {e : Node} (h : e.isConst = true) : e.callFree = true := by
  induction e using Node.isConst.induct with
  | case1 v => rfl
  | case2 ty a ih => exact ih (Bool.and_eq_true_iff.mp h).2
  | case3 op a ih => exact ih h
  | case4 c a b ihc iha ihb =>
    obtain ⟨hca, hb⟩ := Bool.and_eq_true_iff.mp h
    obtain ⟨hc, ha⟩ := Bool.and_eq_true_iff.mp hca
    exact Bool.and_eq_true_iff.mpr ⟨Bool.and_eq_true_iff.mpr ⟨ihc hc, iha ha⟩, ihb hb⟩
  | case5 or a b iha ihb =>
    obtain ⟨ha, hb⟩ := Bool.and_eq_true_iff.mp h
    exact Bool.and_eq_true_iff.mpr ⟨iha ha, ihb hb⟩
  | case6 op a b iha ihb =>
    obtain ⟨hab, -⟩ := Bool.and_eq_true_iff.mp h
    obtain ⟨ha, hb⟩ := Bool.and_eq_true_iff.mp hab
    exact Bool.and_eq_true_iff.mpr ⟨iha ha, ihb hb⟩
  | case7 e => simp [Node.isConst] at h

/-- An lvalue that C accepts has no calls. -/
theorem LVal.callFree (ht : lv.type T = some t) : lv.node.callFree = true := by
  induction lv generalizing t with
  | var x => rfl
  | dot a x ih | arrow a x ih | deref a ih =>
    simp only [LVal.type, Option.bind_eq_bind, Option.bind_eq_some_iff] at ht
    obtain ⟨bt, ha, -⟩ := ht
    exact ih ha
  | elem a i ih =>
    simp only [LVal.type, Option.bind_eq_bind, Option.bind_eq_some_iff, Option.ite_none_right_eq_some, Bool.and_eq_true] at ht
    obtain ⟨bt, ha, b, -, ⟨-, hi⟩, -⟩ := ht
    exact Bool.and_eq_true_iff.mpr ⟨ih ha, callFree_of_isConst hi⟩
  | index a i iha ihi =>
    simp only [LVal.type, Option.bind_eq_bind, Option.bind_eq_some_iff] at ht
    obtain ⟨bt, ha, b, -, it, hi, -⟩ := ht
    exact Bool.and_eq_true_iff.mpr ⟨iha ha, ihi hi⟩

/-- What the code of a postfix step does. -/
theorem runs_postfix (ht : lv.type T = some t) (hs : t.isInteger = true ∨ t.isPtr = true) (hc : lv.node.count + 5 ≤ maxNode) (inc : Bool)
    (hden : Denotes T w (s.regs .ebp) s.mem P lv p) (hx : Covers P p t.bytes) (hclear : s.Clear P (2 * lv.node.count + 6)) :
    ∃ c T', gen T .value (postfixStep inc lv.node) = some (t.sum, c, T') ∧ ∃ s', (machine w).Runs c (c, s) ([], s') ∧
      (s.stored p t (T.summed t inc (t.load s.mem p))).Left (2 * lv.node.count + 6) s'
        (hopped (!inc) (T.summed t inc (t.load s.mem p)) (T.hop t)) := by
  have harr : t.isArray = false := by
    cases t with
    | array b n => simp [CType.isInteger, CType.isPtr] at hs
    | _ => rfl
  have hrec : t.isRecord = false := by
    cases t with
    | struct i | union i => simp [CType.isInteger, CType.isPtr] at hs
    | _ => rfl
  -- The address, the value, and the two sums.
  obtain ⟨c₁, T₁, haddr⟩ := lvalCode w P lv ht (by omega)
  have ht₁ : lv.type T₁ = some t := by rw [haddr.alike.type, ht]
  obtain ⟨c₀, T₂, haddr'⟩ := lvalCode w P lv ht₁ (by omega)
  have hval := haddr'.scalar ht₁ harr hrec
  have hsize : T₂.hop t = T.hop t := by
    cases t with
    | ptr b => simp only [CodeEnv.hop, hval.alike.size, haddr.alike.size]
    | _ => rfl
  have hsummed : ∀ old, T₂.summed t inc old = T.summed t inc old := by
    intro old
    cases t with
    | bool => rfl
    | _ => exact congrArg (hopped inc old) hsize
  have hone : gen T₂ .value (nodeInt 1#32) = some (.int false, ops [.pushImm 1#32], T₂) := rfl
  have hrhs := @gen_bin _ _ _ _ _ _ _ _ _ _ (hopOp inc) hval.gen hone (genBin_hop inc hs)
  have hstep := gen_assign haddr.gen hrhs hrec harr
  have hall := @gen_bin _ _ _ _ _ _ _ _ _ _ (hopOp !inc) hstep hone (genBin_hop (!inc) hs)
  have hnode : postfixStep inc lv.node =
      .bin (hopOp !inc) (.assign lv.node (.bin (hopOp inc) lv.node (nodeInt 1#32))) (nodeInt 1#32) := by cases inc <;> rfl
  rw [hnode]
  refine ⟨_, _, hall, ?_⟩
  have hkeeps := gen_keepsFrame (by simp [Node.callFree, nodeInt, LVal.callFree ht]) hall
  dsimp only at hkeeps
  set text := c₁ ++ (c₀ ++ ops (loadFromAddr t) ++ ops [.pushImm 1#32] ++
      ops (binCode T₂ (hopOp inc) t.promote.decay.promote (CType.int false).decay.promote)) ++ ops (assignCode T₂ t t.sum) ++
    ops [.pushImm 1#32] ++ ops (binCode T₂ (hopOp !inc) t.promote.decay.promote (CType.int false).decay.promote) with htext
  have hnodup : (labelsOf text).Nodup := by
    have := (haddr.labels.append hval.labels).2.2
    simpa [htext] using this
  -- The end of the code, behind the address and the value.
  set rest : List Insn := (.pushImm 1#32 :: binCode T₂ (hopOp inc) t.promote.decay.promote (CType.int false).decay.promote) ++
    (assignCode T₂ t t.sum ++
      (.pushImm 1#32 :: binCode T₂ (hopOp !inc) t.promote.decay.promote (CType.int false).decay.promote)) with hrest
  have hsplit : text = c₁ ++ (c₀ ++ ops (loadFromAddr t) ++ (ops rest ++ [])) := by simp [htext, hrest, ops]
  obtain ⟨s₁, h₁, hl₁⟩ := haddr.runs text [] (c₀ ++ ops (loadFromAddr t) ++ (ops rest ++ [])) s p hsplit hnodup hkeeps hden
    (hclear.mono (by omega))
  have hmem := (hclear.mono (show lv.node.count ≤ 2 * lv.node.count + 6 by omega)).kept hl₁.kept
  have hebp : s₁.regs .ebp = s.regs .ebp := runs_keepsFrame hkeeps ⟨[], hsplit.symm⟩ h₁
  have hden₁ : Denotes T₁ w (s₁.regs .ebp) s₁.mem P lv p := by
    rw [hebp]
    exact (hden.congr hmem).alike haddr.alike
  obtain ⟨s₂, h₂, hl₂⟩ := hval.runs text c₁ (ops rest ++ []) s₁ p (by simp [hsplit]) hnodup hkeeps hden₁ hx
    ((hclear.mono (show lv.node.count + 1 ≤ 2 * lv.node.count + 6 by omega)).left hl₁)
  rw [load_covers hmem hx] at hl₂
  obtain ⟨s₃, h₃, hl₃⟩ := execs_hop (w := w) T₂ inc hs hl₂
  obtain ⟨s₄, h₄, hl₄⟩ := execs_assignSum (w := w) T₂ hs inc (t.load s.mem p) p hl₁ hl₃ (by omega) (by omega)
  obtain ⟨s₅, h₅, hl₅⟩ := execs_hop (w := w) T₂ (!inc) hs hl₄
  have htail : (machine w).execs rest s₂ = some s₅ := by
    rw [hrest, TextMachine.execs_append, h₃, Option.bind_some, TextMachine.execs_append, h₄, Option.bind_some, h₅]
  refine ⟨s₅, ?_, ?_⟩
  · have hruns := h₁.trans (h₂.trans (TextMachine.Runs.ops htail))
    rwa [← hsplit] at hruns
  · rw [hsummed, hsize] at hl₅
    exact hl₅.mono (by omega)

/-- The type of a step's sum is the promoted one, but for `unsigned short`. -/
theorem sum_eq_promoted_iff (hs : t.isInteger = true ∨ t.isPtr = true) : t.sum = t.promoted ↔ t ≠ .short true := by
  cases t with
  | short u => cases u <;> simp [CType.sum, CType.promoted, CType.promote, CType.isUnsigned]
  | int u | char u | bool | ptr b => simp [CType.sum, CType.promoted, CType.promote, CType.isUnsigned]
  | _ => simp [CType.isInteger, CType.isPtr] at hs

theorem hopped_hopped (inc : Bool) (v d : U32) : hopped (!inc) (hopped inc v d) d = v := by
  cases inc
  · exact BitVec.sub_add_cancel v d
  · exact BitVec.add_sub_cancel v d

/-- A `bool` is loaded from one byte. -/
theorem load_bool_lt (m : Mem) (p : U32) : (CType.bool.load m p).toNat < 256 := by
  have : CType.bool.load m p = ((m.read32 p).setWidth 8).setWidth 32 := rfl
  rw [this, BitVec.toNat_setWidth]
  omega

/-- The value behind a step is the old one, but for a `bool` that the sum was converted to. -/
theorem back_eq_old_iff (hs : t.isInteger = true ∨ t.isPtr = true) (inc : Bool) {old : U32} (hold : t = .bool → old.toNat < 256) :
    hopped (!inc) (T.summed t inc old) (T.hop t) = old ↔ (t = .bool → if inc then old = 0#32 else old = 1#32 ∨ old = 2#32) := by
  cases t with
  | bool =>
    have hlt := hold rfl
    cases inc with
    | true =>
      simp only [CodeEnv.summed, CodeEnv.hop, hopped, CType.convert, forall_const, if_true, Bool.not_true, Bool.false_eq_true, if_false]
      have hne : old + 1#32 ≠ 0#32 := by bv_omega
      rw [if_neg hne, BitVec.sub_self, eq_comm]
    | false =>
      simp only [CodeEnv.summed, CodeEnv.hop, hopped, CType.convert, forall_const, if_true, Bool.not_false, Bool.false_eq_true, if_false]
      by_cases h1 : old = 1#32
      · subst h1
        decide
      · have hne : old - 1#32 ≠ 0#32 := by bv_omega
        rw [if_neg hne]
        constructor
        · intro h
          exact .inr h.symm
        · rintro (h | rfl)
          · exact absurd h h1
          · rfl
  | int u | short u | char u | ptr b =>
    refine ⟨fun _ h => (by cases h), fun _ => ?_⟩
    exact hopped_hopped inc old _
  | _ => simp [CType.isInteger, CType.isPtr] at hs

/-- What is stored is what C leaves, but for a pointer to what has no size. -/
theorem stored_eq_stepped_iff (hs : t.isInteger = true ∨ t.isPtr = true) (inc : Bool) (old : U32) :
    t.convert (T.summed t inc old) = T.stepped t inc old ↔ ∀ b, t = .ptr b → T.sized b = true := by
  cases t with
  | bool =>
    refine ⟨fun _ => nofun, fun _ => ?_⟩
    have hidem : ∀ v, CType.bool.convert (CType.bool.convert v) = CType.bool.convert v := by
      intro v
      unfold CType.convert
      by_cases h : v = 0#32 <;> simp [h]
    exact hidem _
  | int u | short u | char u => exact ⟨fun _ => nofun, fun _ => rfl⟩
  | ptr b =>
    have hiff : hopped inc old (T.hop (.ptr b)) = hopped inc old (T.size b) ↔ T.hop (.ptr b) = T.size b := by
      cases inc <;> simp [hopped]
    have hsized : T.hop (.ptr b) = T.size b ↔ T.sized b = true := by
      simp only [CodeEnv.hop, CodeEnv.sized]
      by_cases h1 : (1#32).slt (T.size b) = true
      · rw [if_pos h1]
        simp only [true_iff]
        simp only [BitVec.slt, decide_eq_true_eq] at h1 ⊢
        simp at h1 ⊢
        omega
      · rw [if_neg h1]
        refine ⟨fun h => ?_, fun h => (eq_one_of_slt h h1).symm⟩
        rw [← h]
        rfl
    refine (hiff.trans hsized).trans ⟨fun h c hc => ?_, fun h => h b rfl⟩
    cases hc
    exact h
  | _ => simp [CType.isInteger, CType.isPtr] at hs

end Step

/-- A postfix step of an lvalue without side effects yields the old value with its promoted type and leaves what C leaves, if and
only if the object is no `unsigned short`, a `bool` holds what the converted sum can be taken back to, and a pointer points to
what has a size. -/
theorem postfix_yields_old_iff {F : Type} (w : World F) (T : CodeEnv) (lv : LVal) (t : CType) (ht : lv.type T = some t)
    (hs : t.isInteger = true ∨ t.isPtr = true) (hc : lv.node.count + 5 ≤ maxNode) (inc : Bool) (s : Cpu F) (P : U32 → Prop) (p : U32)
    (hden : Denotes T w (s.regs .ebp) s.mem P lv p) (hx : Covers P p t.bytes) (hclear : s.Clear P (2 * lv.node.count + 6)) :
    YieldsOld w T lv t inc s P p ↔ T.KeepsOld t inc (t.load s.mem p) := by
  obtain ⟨c, T', hgen, s', hruns, hl⟩ := runs_postfix ht hs hc inc hden hx hclear
  have hmem : ∀ x, P x → s'.mem x = (s.mem.write p ((le32 (T.summed t inc (t.load s.mem p))).take t.bytes)) x :=
    fun x hx => hl.kept x (hclear x hx)
  have hload : t.load s'.mem p = t.convert (T.summed t inc (t.load s.mem p)) := by
    rw [load_covers hmem hx]
    refine load_write hs _ _ _ fun hb => ?_
    subst hb
    unfold CodeEnv.summed CType.convert
    dsimp only
    split
    · exact .inl rfl
    · exact .inr rfl
  have hold : t = .bool → (t.load s.mem p).toNat < 256 := by
    rintro rfl
    exact load_bool_lt s.mem p
  unfold CodeEnv.KeepsOld
  rw [← sum_eq_promoted_iff hs, ← back_eq_old_iff hs inc hold, ← stored_eq_stepped_iff hs inc (t.load s.mem p), ← hload]
  constructor
  · rintro ⟨c₁, T₁, hgen₁, s₁, hruns₁, -, htop, hstored, -⟩
    have heq := Option.some.inj (hgen.symm.trans hgen₁)
    have htype : t.sum = t.promoted := congrArg (fun r => r.1) heq
    obtain rfl : c = c₁ := congrArg (fun r => r.2.1) heq
    cases hruns.det hruns₁
    exact ⟨htype, by rw [← hl.top, htop], hstored⟩
  · rintro ⟨htype, hback, hstepped⟩
    rw [htype] at hgen
    refine ⟨c, T', hgen, s', hruns, hl.esp, by rw [hl.top, hback], hstepped, fun x hxP hfar => ?_⟩
    rw [hmem x hxP, Mem.write_of_le]
    rw [List.length_take, le32_length]
    omega

/-- One variable, at the frame pointer. -/
def oneVar (t : CType) : CodeEnv := ⟨[], [⟨asciiBytes "x", t, .frame 0#32⟩], [], [], 0, 0⟩

/-- Its name. -/
def varX : LVal := .var (asciiBytes "x")

/-- The first four cells. -/
def FirstCells (x : U32) : Prop := x.toNat < 4

theorem covers_firstCells {n : Nat} (h : n ≤ 4) : Covers FirstCells 0#32 n := by
  intro i hi
  unfold FirstCells
  rw [BitVec.zero_add, BitVec.toNat_ofNat]
  omega

/-- A processor whose stack ends at the first cell, in which the first byte is set. -/
def byteSet (b : Byte) : Cpu Unit := { Cpu.blank Unit with mem := fun x => if x = 0#32 then b else 0#8 }

theorem clear_byteSet (b : Byte) : (byteSet b).Clear FirstCells (2 * varX.node.count + 6) := by
  intro x hx
  have hcount : varX.node.count = 1 := rfl
  have hesp : (byteSet b).regs .esp = 0#32 := rfl
  unfold FirstCells at hx
  rw [hcount, hesp]
  bv_omega

theorem denotes_varX (t : CType) (b : Byte) :
    Denotes (oneVar t) bareWorld ((byteSet b).regs .ebp) (byteSet b).mem FirstCells varX 0#32 := by
  have hs : (oneVar t).findSym (asciiBytes "x") = some ⟨asciiBytes "x", t, .frame 0#32⟩ := rfl
  exact Denotes.var hs

/-- An `int` is stepped. -/
theorem postfix_yields_old_iff_int : YieldsOld bareWorld (oneVar (.int false)) varX (.int false) true (byteSet 7#8) FirstCells 0#32 :=
  (postfix_yields_old_iff bareWorld (oneVar (.int false)) varX (.int false) rfl (.inl rfl) (by decide) true (byteSet 7#8) FirstCells 0#32
    (denotes_varX _ _) (covers_firstCells le_rfl) (clear_byteSet _)).mpr ⟨nofun, nofun, nofun⟩

/-- Not every step yields the old value: `x++` of a `bool` that holds 1 is 0. -/
theorem postfix_yields_old_false :
    ¬∀ (T : CodeEnv) (lv : LVal) (t : CType), lv.type T = some t → t.isInteger = true ∨ t.isPtr = true →
      lv.node.count + 5 ≤ maxNode → ∀ (inc : Bool) (s : Cpu Unit) (P : U32 → Prop) (p : U32),
        Denotes T bareWorld (s.regs .ebp) s.mem P lv p → Covers P p t.bytes → s.Clear P (2 * lv.node.count + 6) →
          YieldsOld bareWorld T lv t inc s P p := by
  intro h
  have hden := denotes_varX .bool 1#8
  obtain ⟨c, T', hgen, s', hruns, -, htop, -⟩ := h (oneVar .bool) varX .bool rfl (.inl rfl) (by decide) true (byteSet 1#8) FirstCells
    0#32 hden (covers_firstCells (by decide)) (clear_byteSet _)
  obtain ⟨c₁, T₁, hgen₁, s₁, hruns₁, hl⟩ := runs_postfix (t := CType.bool) (w := bareWorld) rfl (.inl rfl) (by decide) true hden
    (covers_firstCells (by decide)) (clear_byteSet _)
  obtain rfl : c = c₁ := congrArg (fun r => r.2.1) (Option.some.inj (hgen.symm.trans hgen₁))
  cases hruns.det hruns₁
  have hback := hl.top.symm.trans htop
  revert hback
  decide

end MiniOs32
