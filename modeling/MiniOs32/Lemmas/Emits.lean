import MiniOs32.Cc.Emits

/-!
# Generated code is emitted rule by rule

`gen` and its rules agree: what `gen` generates is emitted, by the rule of the node, and what the rules emit for a tree is what
`gen` generates.
-/

namespace MiniOs32

variable {ok : Use → Prop} {T : CodeEnv} {m : GenMode} {e : Node} {t : CType} {n : U32} {c : Code} {T' : CodeEnv}

/-- The bytes a tree leaves on the stack: none where its code jumps. -/
def GenMode.left : GenMode → Node → U32
  | .jumps _ _, .logical _ _ _ => 0#32
  | _, _ => 4#32

theorem GenMode.left_eq (m : GenMode) (h : e.isLogical = false) : m.left e = 4#32 := by
  cases m <;> cases e <;> first | rfl | cases h

theorem GenMode.left_jumps {yes no : Nat} (h : e.isLogical = true) : (GenMode.jumps yes no).left e = 0#32 := by
  cases e <;> first | rfl | cases h

@[simp] theorem GenMode.left_value (e : Node) : GenMode.value.left e = 4#32 := rfl

@[simp] theorem GenMode.left_addr (e : Node) : GenMode.addr.left e = 4#32 := rfl

@[simp] theorem GenMode.isValue_value {α : Type} (r : α) : GenMode.value.isValue r = some r := rfl

/-- Only a value is asked for what has only a value. -/
theorem GenMode.isValue_eq_some {α : Type} {r r' : α} : m.isValue r = some r' ↔ m = .value ∧ r = r' := by
  cases m <;> simp [GenMode.isValue]

/-- The operand of a logical operator. -/
theorem Emits.operand_of {yes no : Nat} (hok : ∀ u, ok u)
    (h : Emits ok T (.tree (if e.isLogical then .jumps yes no else .value) e) t
      ((if e.isLogical then GenMode.jumps yes no else .value).left e) c T') :
    Emits ok T (.operand yes no e) .void 0#32 (logicalJump e t c yes no) T' := by
  cases hl : e.isLogical with
  | true =>
    simp only [hl, if_true, GenMode.left_jumps hl] at h
    simpa [logicalJump, hl] using Emits.operandJumps hl h
  | false =>
    simp only [hl, Bool.false_eq_true, if_false, GenMode.left_value] at h
    have hv : Emits ok T (.operand yes no e) .void 0#32 _ T' := Emits.operandValue hl h (hok _)
    simpa [logicalJump, hl] using hv

/-- What is generated is emitted. -/
theorem gen_emits (hok : ∀ u, ok u) (T : CodeEnv) (m : GenMode) (e : Node) :
    ∀ r, gen T m e = some r → Emits ok T (.tree m e) r.1 (m.left e) r.2.1 r.2.2 := by
  induction T, m, e using gen.induct
    (motive_2 := fun T ps as => ∀ r, genArgsCode T ps as = some r → Emits ok T (.args ps as) .void r.2.1 r.1 r.2.2) with
  | case1 T m v =>
    intro r h
    obtain ⟨rfl, rfl⟩ := GenMode.isValue_eq_some.mp (by simpa only [gen] using h)
    exact .num v
  | case2 T m v =>
    intro r h
    obtain ⟨rfl, rfl⟩ := GenMode.isValue_eq_some.mp (by simpa only [gen] using h)
    exact .fnum v
  | case3 T m text =>
    intro r h
    obtain ⟨rfl, rfl⟩ := GenMode.isValue_eq_some.mp (by simpa only [gen] using h)
    exact .str text
  | case4 T m x s hs t c hf =>
    intro r h
    rw [m.left_eq rfl]
    simp only [gen, hs] at h
    cases h
    exact .var m hs
  | case5 T m x hs =>
    intro r h
    rw [m.left_eq rfl]
    simp only [gen, hs] at h
    obtain ⟨f, hf, h⟩ := Option.bind_eq_some_iff.mp h
    cases h
    exact .func m hs hf
  | case6 T m e ih =>
    intro r h
    rw [m.left_eq rfl]
    simp only [gen] at h
    obtain ⟨r₁, h₁, h⟩ := Option.bind_eq_some_iff.mp h
    obtain ⟨b, hb, h⟩ := Option.bind_eq_some_iff.mp h
    cases h
    exact .deref m (ih r₁ h₁) hb
  | case7 T m e i ihe ihi =>
    intro r h
    rw [m.left_eq rfl]
    simp only [gen] at h
    obtain ⟨r₁, h₁, h⟩ := Option.bind_eq_some_iff.mp h
    obtain ⟨b, hb, h⟩ := Option.bind_eq_some_iff.mp h
    obtain ⟨r₂, h₂, h⟩ := Option.bind_eq_some_iff.mp h
    cases h
    exact .index m (ihe r₁ h₁) hb (ihi r₁.2.2 r₂ h₂)
  | case8 T m e x ih =>
    intro r h
    rw [m.left_eq rfl]
    simp only [gen] at h
    obtain ⟨r₁, h₁, h⟩ := Option.bind_eq_some_iff.mp h
    obtain ⟨f, hf, h⟩ := Option.bind_eq_some_iff.mp h
    cases h
    exact .dot m (ih r₁ h₁) hf
  | case9 T m e x ih =>
    intro r h
    rw [m.left_eq rfl]
    simp only [gen] at h
    obtain ⟨r₁, h₁, h⟩ := Option.bind_eq_some_iff.mp h
    obtain ⟨b, hb, h⟩ := Option.bind_eq_some_iff.mp h
    obtain ⟨f, hf, h⟩ := Option.bind_eq_some_iff.mp h
    cases h
    exact .arrow m (ih r₁ h₁) hb hf
  | case10 T m e ih =>
    intro r h
    simp only [gen] at h
    obtain ⟨r₁, h₁, h⟩ := Option.bind_eq_some_iff.mp h
    obtain ⟨rfl, rfl⟩ := GenMode.isValue_eq_some.mp h
    exact .addr (ih r₁ h₁)
  | case11 T m a b iha ihb =>
    intro r h
    simp only [gen] at h
    obtain ⟨r₁, h₁, h⟩ := Option.bind_eq_some_iff.mp h
    obtain ⟨r₂, h₂, h⟩ := Option.bind_eq_some_iff.mp h
    have ha := iha r₁ h₁
    have hb := ihb r₁.2.2 r₂ h₂
    cases hr : r₁.1.isRecord with
    | true =>
      rw [if_pos hr] at h
      split at h
      · rename_i hs
        simp only [Bool.and_eq_true, decide_eq_true_eq] at hs
        obtain ⟨rfl, rfl⟩ := GenMode.isValue_eq_some.mp h
        have hl : r₁.1.isArray = false := by
          cases ht : r₁.1 <;> first | rfl | (rw [ht] at hr; cases hr)
        have hemit := Emits.assign ha hb hl (fun _ => hs) fun _ => hok (.test r₂.1)
        rw [if_pos hr] at hemit
        exact hemit
      · cases h
    | false =>
      rw [if_neg (by simp [hr])] at h
      split at h
      · cases h
      · rename_i hl
        obtain ⟨rfl, rfl⟩ := GenMode.isValue_eq_some.mp h
        have hemit := Emits.assign ha hb (by simpa using hl) (by simp [hr]) fun _ => hok (.test r₂.1)
        rw [if_neg (by simp [hr])] at hemit
        exact hemit
  | case12 T m c a b ihc iha ihb =>
    intro r h
    simp only [gen] at h
    obtain ⟨ta, hta, h⟩ := Option.bind_eq_some_iff.mp h
    obtain ⟨tb, htb, h⟩ := Option.bind_eq_some_iff.mp h
    split at h
    · cases h
    · rename_i hr
      obtain ⟨r₁, h₁, h⟩ := Option.bind_eq_some_iff.mp h
      obtain ⟨r₂, h₂, h⟩ := Option.bind_eq_some_iff.mp h
      obtain ⟨r₃, h₃, h⟩ := Option.bind_eq_some_iff.mp h
      obtain ⟨rfl, rfl⟩ := GenMode.isValue_eq_some.mp h
      have hcond := ihc _ _ _ _ h₁
      cases hl : c.isLogical with
      | true =>
        simp only [hl, if_true, GenMode.left_jumps hl] at hcond
        simpa [hl, CodeEnv.newLabel] using
          Emits.tern hta htb (by simpa using hr) (.condJumps hl hcond) (iha _ r₂ h₂) (ihb _ r₃ h₃)
      | false =>
        simp only [hl, Bool.false_eq_true, if_false, GenMode.left_value] at hcond
        simpa [hl, CodeEnv.newLabel] using
          Emits.tern hta htb (by simpa using hr) (.condValue hl hcond (hok _)) (iha _ r₂ h₂) (ihb _ r₃ h₃)
  | case13 T m ty x ht =>
    intro r h
    simp only [gen, ht, if_true] at h
    cases h
  | case14 T m ty x ht =>
    intro r h
    simp only [gen, if_neg ht] at h
    obtain ⟨s, hs, h⟩ := Option.bind_eq_some_iff.mp h
    obtain ⟨rfl, rfl⟩ := GenMode.isValue_eq_some.mp h
    exact .vaArg (by simpa using ht) hs
  | case15 T m e ty he =>
    intro r h
    cases e with
    | var x => exact absurd rfl (he x)
    | _ => simp only [gen] at h; cases h
  | case16 T m callee x hx ap last =>
    intro r h
    have hx' : callee.name = asciiBytes "va_start" := hx
    simp only [gen, hx', if_true] at h
    obtain ⟨s₁, hs₁, h⟩ := Option.bind_eq_some_iff.mp h
    obtain ⟨s₂, hs₂, h⟩ := Option.bind_eq_some_iff.mp h
    obtain ⟨rfl, rfl⟩ := GenMode.isValue_eq_some.mp h
    exact .vaStart hx hs₁ hs₂
  | case17 T m callee args x hx ha =>
    intro r h
    have hx' : callee.name = asciiBytes "va_start" := hx
    unfold gen at h
    simp only [hx', if_true] at h
    cases h
  | case18 T m callee args x hx hy =>
    intro r h
    unfold gen at h
    simp only [if_neg (show ¬callee.name = _ from hx), if_pos (show callee.name = _ from hy)] at h
    obtain ⟨rfl, rfl⟩ := GenMode.isValue_eq_some.mp h
    exact .vaEnd args hy
  | case19 T m callee args x hx hy hsys hn ih =>
    intro r h
    unfold gen at h
    simp only [if_neg (show ¬callee.name = _ from hx), if_neg (show ¬callee.name = _ from hy),
      if_pos (show isSyscall callee.name = true from hsys), if_pos (show syscallArgcOk callee.name _ = true from hn)] at h
    obtain ⟨r₁, h₁, h⟩ := Option.bind_eq_some_iff.mp h
    obtain ⟨rfl, rfl⟩ := GenMode.isValue_eq_some.mp h
    exact .syscall hsys hn (ih r₁ h₁)
  | case20 T m callee args x hx hy hsys hn =>
    intro r h
    unfold gen at h
    simp only [if_neg (show ¬callee.name = _ from hx), if_neg (show ¬callee.name = _ from hy),
      if_pos (show isSyscall callee.name = true from hsys), if_neg (show ¬syscallArgcOk callee.name _ = true from hn)] at h
    cases h
  | case21 T m callee args x hx hy hsys hi iha ihc =>
    intro r h
    unfold gen at h
    simp only [if_neg (show ¬callee.name = _ from hx), if_neg (show ¬callee.name = _ from hy),
      if_neg (show ¬isSyscall callee.name = true from hsys), if_pos hi] at h
    obtain ⟨r₁, h₁, h⟩ := Option.bind_eq_some_iff.mp h
    obtain ⟨r₂, h₂, h⟩ := Option.bind_eq_some_iff.mp h
    obtain ⟨rfl, rfl⟩ := GenMode.isValue_eq_some.mp h
    exact .indirect ⟨hx, hy⟩ (by simpa using hsys) hi (iha r₁ h₁) (ihc _ r₂ h₂) (hok _)
  | case22 T m callee args x hx hy hsys hi f hf hn ih =>
    intro r h
    unfold gen at h
    simp only [if_neg (show ¬callee.name = _ from hx), if_neg (show ¬callee.name = _ from hy),
      if_neg (show ¬isSyscall callee.name = true from hsys), if_neg hi, show T.findFunc callee.name = some f from hf] at h
    rw [if_pos hn] at h
    obtain ⟨r₁, h₁, h⟩ := Option.bind_eq_some_iff.mp h
    obtain ⟨rfl, rfl⟩ := GenMode.isValue_eq_some.mp h
    refine .direct ⟨hx, hy⟩ (by simpa using hsys) (by simpa using hi) hf (fun hd => ?_) (ih r₁ h₁) (hok _)
    simp only [hd, Bool.not_true, Bool.false_or] at hn
    split at hn <;> rename_i hva <;> simpa [hva] using hn
  | case23 T m callee args x hx hy hsys hi f hf hn =>
    intro r h
    unfold gen at h
    simp only [if_neg (show ¬callee.name = _ from hx), if_neg (show ¬callee.name = _ from hy),
      if_neg (show ¬isSyscall callee.name = true from hsys), if_neg hi, show T.findFunc callee.name = some f from hf] at h
    rw [if_neg hn] at h
    cases h
  | case24 T m callee args x hx hy hsys hi hf ih =>
    intro r h
    unfold gen at h
    simp only [if_neg (show ¬callee.name = _ from hx), if_neg (show ¬callee.name = _ from hy),
      if_neg (show ¬isSyscall callee.name = true from hsys), if_neg hi, show T.findFunc callee.name = none from hf] at h
    obtain ⟨r₁, h₁, h⟩ := Option.bind_eq_some_iff.mp h
    obtain ⟨rfl, rfl⟩ := GenMode.isValue_eq_some.mp h
    exact .undeclared ⟨hx, hy⟩ (by simpa using hsys) (by simpa using hi) hf (ih r₁ h₁) (hok _)
  | case25 T m ty e ih =>
    intro r h
    simp only [gen] at h
    obtain ⟨r₁, h₁, h⟩ := Option.bind_eq_some_iff.mp h
    obtain ⟨rfl, rfl⟩ := GenMode.isValue_eq_some.mp h
    exact .cast ty (ih r₁ h₁) fun _ => hok _
  | case26 T m op e ih =>
    intro r h
    simp only [gen] at h
    obtain ⟨r₁, h₁, h⟩ := Option.bind_eq_some_iff.mp h
    obtain ⟨ty, hty, h⟩ := Option.bind_eq_some_iff.mp h
    obtain ⟨rfl, rfl⟩ := GenMode.isValue_eq_some.mp h
    exact .unary (ih r₁ h₁) hty fun _ => hok _
  | case27 T m or a b iha ihb =>
    intro r h
    obtain ⟨yes, no, T₀, ta, ca, T₁, tb, cb, T₂, hT, h₁, h₂, rfl⟩ := gen_logical_inv h
    have hjumps : ∀ T' : CodeEnv, T'.newLabel.2 = T₀.newLabel.2 → T'.labels = T₀.labels →
        Emits ok T' (.tree (.jumps yes no) (.logical or a b)) (.int false) 0#32
          (logicalJump a ta ca (if or then yes else T₀.labels) (if or then T₀.labels else no) ++ labelAt T₀.labels ++
            logicalJump b tb cb yes no) T₂ := by
      intro T' hn hl
      rw [← hn] at h₁
      rw [← hl] at h₁ ⊢
      exact .logical yes no or (.operand_of hok (iha _ _ _ _ h₁)) (.operand_of hok (ihb _ _ _ _ h₂))
    cases m with
    | addr => cases hT
    | jumps y n =>
      cases hT
      exact hjumps T rfl rfl
    | value =>
      cases hT
      simpa [GenMode.finishLogical, logicalEnd, CodeEnv.newLabel] using Emits.logicalValue (hjumps _ rfl rfl)
  | case28 T m op a b iha ihb =>
    intro r h
    simp only [gen] at h
    obtain ⟨r₁, h₁, h⟩ := Option.bind_eq_some_iff.mp h
    obtain ⟨r₂, h₂, h⟩ := Option.bind_eq_some_iff.mp h
    obtain ⟨ty, hty, h⟩ := Option.bind_eq_some_iff.mp h
    obtain ⟨rfl, rfl⟩ := GenMode.isValue_eq_some.mp h
    exact .bin (iha r₁ h₁) (ihb _ r₂ h₂) hty
  | case29 T ps r h =>
    simp only [genArgsCode] at h
    cases h
    exact .argsNil ps
  | case30 T ps a as ihs iha r h =>
    simp only [genArgsCode] at h
    obtain ⟨r₁, h₁, h⟩ := Option.bind_eq_some_iff.mp h
    obtain ⟨r₂, h₂, h⟩ := Option.bind_eq_some_iff.mp h
    split at h
    · rename_i ht
      cases h
      exact .argsCons (ihs r₁ h₁) (iha _ r₂ h₂) ht
    · cases h

/-- What the compiler generates for a job. -/
def Generated (T : CodeEnv) (t : CType) (n : U32) (c : Code) (T' : CodeEnv) : Job → Prop
  | .tree m e => gen T m e = some (t, c, T')
  | .cond no e => genCond T no e = some (c, T')
  | .operand yes no e => ∃ t' c', gen T (if e.isLogical then .jumps yes no else .value) e = some (t', c', T') ∧
      c = logicalJump e t' c' yes no
  | .args ps as => genArgsCode T ps as = some (c, n, T')

/-- What is emitted is generated. -/
theorem Emits.generated {j : Job} (h : Emits ok T j t n c T') : Generated T t n c T' j := by
  induction h with
  | num v => simp [Generated, gen]
  | fnum v => simp [Generated, gen]
  | str text => simp [Generated, gen]
  | var m hs => simp [Generated, gen, hs]
  | func m hs hf => simp [Generated, gen, hs, hf]
  | deref m he hb ih => simp [Generated, gen, show gen _ _ _ = some _ from ih, hb]
  | index m he hb hi ihe ihi =>
    simp [Generated, gen, show gen _ _ _ = some _ from ihe, show gen _ _ _ = some _ from ihi, hb, indexCode]
  | dot m he hf ih => simp [Generated, gen, show gen _ _ _ = some _ from ih, hf]
  | arrow m he hb hf ih => simp [Generated, gen, show gen _ _ _ = some _ from ih, hb, hf]
  | addr he ih => simp [Generated, gen, show gen _ _ _ = some _ from ih]
  | @assign T T₁ T₂ a b lt rt ca cb ha hb hl hr ht iha ihb =>
    cases h : lt.isRecord with
    | true => simp [Generated, gen, show gen _ _ _ = some _ from iha, show gen _ _ _ = some _ from ihb, h, hr h]
    | false => simp [Generated, gen, show gen _ _ _ = some _ from iha, show gen _ _ _ = some _ from ihb, h, hl]
  | condJumps hl he ih =>
    have ih : gen _ _ _ = some _ := ih
    simp only [CodeEnv.newLabel] at ih
    simp [Generated, genCond, hl, CodeEnv.newLabel, ih]
  | condValue hl he ht ih => simp [Generated, genCond, hl, show gen _ _ _ = some _ from ih]
  | tern hta htb hr hc ha hb ihc iha ihb => exact gen_tern hta htb hr ihc iha ihb
  | operandJumps hl he ih =>
    exact ⟨_, _, by simpa [hl] using show gen _ _ _ = some _ from ih, by simp [logicalJump, hl]⟩
  | operandValue hl he ht ih =>
    exact ⟨_, _, by simpa [hl] using show gen _ _ _ = some _ from ih, by simp [logicalJump, hl]⟩
  | logical yes no or ha hb iha ihb =>
    obtain ⟨ta, ca, hga, rfl⟩ := iha
    obtain ⟨tb, cb, hgb, rfl⟩ := ihb
    exact gen_logical rfl hga hgb
  | logicalValue he ih =>
    obtain ⟨yes, no, T₀, ta, ca, T₁, tb, cb, T₂, hT, h₁, h₂, hr⟩ := gen_logical_inv ih
    cases hT
    cases hr
    rw [Generated, gen_logical rfl h₁ h₂]
    simp [GenMode.finishLogical, logicalEnd, CodeEnv.newLabel]
  | vaArg ht hs => simp [Generated, gen, ht, hs]
  | vaStart hx ha hl => simp [Generated, gen, hx, ha, hl]
  | vaEnd args hx =>
    have : asciiBytes "va_end" ≠ asciiBytes "va_start" := by decide
    simp [Generated, gen, hx, this]
  | @syscall T T₁ callee args n c hx hn ha ih =>
    have hs : callee.name ≠ asciiBytes "va_start" := fun h => by rw [h] at hx; revert hx; decide
    have he : callee.name ≠ asciiBytes "va_end" := fun h => by rw [h] at hx; revert hx; decide
    simp [Generated, gen, hs, he, hx, hn, show genArgsCode _ _ _ = some _ from ih]
  | indirect hv hx hi ha hc hu iha ihc =>
    simp [Generated, gen, hv.1, hv.2, hx, hi, show genArgsCode _ _ _ = some _ from iha, show gen _ _ _ = some _ from ihc]
  | @direct T T₁ callee args f n c hv hx hi hf hn ha hu ih =>
    have hn' : (!f.declared || (if f.isVarargs then decide (f.params.length ≤ args.length)
        else decide (args.length = f.params.length))) = true := by
      cases hd : f.declared with
      | false => rfl
      | true =>
        have := hn hd
        split at this <;> rename_i hva <;> simpa [hva] using this
    simp only [Generated, gen, if_neg hv.1, if_neg hv.2, hx, hi, hf, Bool.false_eq_true, if_false]
    rw [if_pos hn']
    simp [show genArgsCode _ _ _ = some _ from ih]
  | undeclared hv hx hi hf ha hu ih =>
    simp [Generated, gen, hv.1, hv.2, hx, hi, hf, show genArgsCode _ _ _ = some _ from ih]
  | cast ty he ht ih => exact gen_cast ty ih
  | unary he hu ht ih => exact gen_unary ih hu
  | bin ha hb ht iha ihb => exact gen_bin iha ihb ht
  | argsNil ps => simp [Generated, genArgsCode]
  | argsCons hs ha ht ihs iha =>
    simp [Generated, genArgsCode, show genArgsCode _ _ _ = some _ from ihs, show gen _ _ _ = some _ from iha, ht]

/-- Tables with the same records and variables. -/
structure CodeEnv.Alike (T T' : CodeEnv) : Prop where
  records : T'.records = T.records
  locals : T'.locals = T.locals
  globals : T'.globals = T.globals

theorem CodeEnv.Alike.refl (T : CodeEnv) : T.Alike T := ⟨rfl, rfl, rfl⟩

theorem CodeEnv.Alike.trans {T T₁ T₂ : CodeEnv} (h : T.Alike T₁) (h' : T₁.Alike T₂) : T.Alike T₂ :=
  ⟨h'.records.trans h.records, h'.locals.trans h.locals, h'.globals.trans h.globals⟩

theorem CodeEnv.alike_newLabel (T : CodeEnv) : T.Alike T.newLabel.2 := ⟨rfl, rfl, rfl⟩

theorem CodeEnv.alike_addFunc (T : CodeEnv) (x : List Byte) : T.Alike (T.addFunc x) := ⟨rfl, rfl, rfl⟩

/-- Sizes are read from the records alone. -/
theorem CodeEnv.Alike.size {T T₁ : CodeEnv} (h : T.Alike T₁) (t : CType) : T₁.size t = T.size t := by
  induction t with
  | array b n ih => simp only [CodeEnv.size, ih]
  | struct s | union s => simp only [CodeEnv.size, h.records]
  | _ => rfl

theorem CodeEnv.Alike.argSlotBytes {T T₁ : CodeEnv} (h : T.Alike T₁) (t : CType) : T₁.argSlotBytes t = T.argSlotBytes t := by
  simp only [CodeEnv.argSlotBytes, h.size]

/-- Code leaves the records and the variables as they are. -/
theorem Emits.alike {j : Job} (h : Emits ok T j t n c T') : T.Alike T' := by
  induction h with
  | num | fnum | var | func | vaArg | vaStart | vaEnd | argsNil => exact .refl _
  | str => exact ⟨rfl, rfl, rfl⟩
  | deref m he hb ih => exact ih
  | index m he hb hi ihe ihi => exact ihe.trans ihi
  | dot m he hf ih => exact ih
  | arrow m he hb hf ih => exact ih
  | addr he ih => exact ih
  | assign ha hb hl hr ht iha ihb => exact iha.trans ihb
  | condJumps hl he ih => exact (CodeEnv.alike_newLabel _).trans ih
  | condValue hl he ht ih => exact ih
  | tern hta htb hr hc ha hb ihc iha ihb =>
    exact (CodeEnv.alike_newLabel _).trans ((CodeEnv.alike_newLabel _).trans (ihc.trans (iha.trans ihb)))
  | operandJumps hl he ih => exact ih
  | operandValue hl he ht ih => exact ih
  | logical yes no or ha hb iha ihb => exact (CodeEnv.alike_newLabel _).trans (iha.trans ihb)
  | logicalValue he ih =>
    exact (CodeEnv.alike_newLabel _).trans ((CodeEnv.alike_newLabel _).trans (ih.trans (CodeEnv.alike_newLabel _)))
  | syscall hx hn ha ih => exact ih
  | indirect hv hx hi ha hc hu iha ihc => exact iha.trans ihc
  | direct hv hx hi hf hn ha hu ih => exact ih
  | undeclared hv hx hi hf ha hu ih => exact (CodeEnv.alike_addFunc _ _).trans ih
  | cast ty he ht ih => exact ih
  | unary he hu ht ih => exact ih
  | bin ha hb ht iha ihb => exact iha.trans ihb
  | argsCons hs ha ht ihs iha => exact ihs.trans iha

end MiniOs32
