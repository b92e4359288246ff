import MiniOs32.Lemmas.ExprTypes

/-!
# Inferred and generated types

`infer_type` and `gen_expr` are to give one expression one type, up to integer promotion and array decay. They do not:
`1.0f + 2.0f` is generated as a `float` and inferred as an `int` (`types_agree_false`), because `infer_type` looks at the left operand
of an operator and asks only whether it is unsigned. They agree on an expression and all its operands exactly if every node
meets the condition `Env.Inferable`, which speaks of the declared types alone (`types_agree_iff`).
-/

namespace MiniOs32

variable {env : Env}

/-- If every node meets its condition, the type rules describe both passes. -/
theorem Env.sound_of_inferable : ∀ n : Node, (∀ m, n.Contains m → env.Inferable m) → env.Sound n := by
  intro n
  induction n using Node.operand_induction with
  | h n ih =>
  intro hi
  have hs : ∀ c ∈ n.operands, env.Sound c := fun c hc => ih c hc fun m hm => hi m (.operand hc hm)
  have hn := hi n (.self n)
  exact ⟨converts_step hn, value_step hs, object_step hs, infers_step hs hn, names_step hs hn⟩

/-- If the passes agree on an expression and its operands, every node meets its condition. -/
theorem Env.inferable_of_agrees : ∀ n : Node, (env.Accepts n ∨ ∃ x, n = .var x) →
    (∀ m, n.Contains m → ∀ e, env.Later e → e.InferAgrees m) → ∀ m, n.Contains m → env.Inferable m := by
  intro n
  induction n using Node.operand_induction with
  | h n ih =>
  intro hacc hag
  rcases hacc with ⟨e, t, e', hl, h⟩ | ⟨x, rfl⟩
  · have hops : ∀ c ∈ n.operands, ∀ m, c.Contains m → env.Inferable m := by
      intro c hc
      refine ih c hc ?_ fun m hm => hag m (.operand hc hm)
      exact ((genExpr_operands n h).2 c hc).imp_left (·.of_later hl)
    have hs : ∀ c ∈ n.operands, env.Sound c := fun c hc => Env.sound_of_inferable c (hops c hc)
    intro m hm
    cases hm with
    | self =>
      obtain ⟨s, hi, hc⟩ := hag n (.self n) e hl t e' h
      exact inferable_step hs hl h hi hc
    | operand hc hm => exact hops _ hc m hm
  · intro m hm
    cases hm with
    | self => exact trivial
    | operand hc => cases hc

/-- On an expression that code is generated for, and on all its operands, `infer_type` gives the type of the generated value,
up to integer promotion and array decay, exactly if every one of these nodes meets its condition. The operands are read off in
the tables as they are then: with the functions that calls have declared meanwhile. -/
theorem types_agree_iff {n : Node} {t : CType} {env' : Env} (h : genExpr env n = some (t, env')) :
    (∀ m, n.Contains m → ∀ e, env.Later e → e.InferAgrees m) ↔ ∀ m, n.Contains m → env.Inferable m := by
  constructor
  · exact Env.inferable_of_agrees n (.inl ⟨env, t, env', .here, h⟩)
  · intro hi m hm e hl s e' hg
    have hs : env.Sound m := Env.sound_of_inferable m fun k hk => hi k (hm.trans hk)
    obtain ⟨r, hr, hal⟩ := hs.infers hl hg
    refine ⟨r, hr, ?_⟩
    rw [hal.converted_eq, hs.value hl hg, hs.converts]

/-- An element of an array of characters, compared with a number: `p[1] == 2`. -/
theorem types_agree_iff_element :
    (genExpr ⟨[], [⟨asciiBytes "p", .array (.char false) 4⟩], [], []⟩
      (.bin .eq (.index (.var (asciiBytes "p")) (.num 1#32)) (.num 2#32))).isSome = true ∧
    ∀ m, (Node.bin .eq (.index (.var (asciiBytes "p")) (.num 1#32)) (.num 2#32)).Contains m → ∀ e,
      Env.Later ⟨[], [⟨asciiBytes "p", .array (.char false) 4⟩], [], []⟩ e → e.InferAgrees m := by
  refine ⟨by decide, (types_agree_iff rfl).mpr ?_⟩
  rintro m (_ | ⟨⟨⟩ | ⟨_, ⟨⟩ | ⟨_, ⟨⟩⟩⟩, _ | ⟨⟨⟩ | ⟨_, ⟨⟩ | ⟨_, ⟨⟩⟩⟩, _ | ⟨⟨⟩, _⟩⟩⟩)
  · exact (by decide : CType.int false = .int false)
  all_goals exact trivial

/-- The sum of two floats is generated as a `float` and inferred as an `int`. -/
theorem types_agree_false : ¬∀ (env : Env) (n : Node), env.InferAgrees n := by
  intro h
  obtain ⟨s, hs, hc⟩ := h ⟨[], [], [], []⟩ (.bin .add (.fnum 0#32) (.fnum 0#32)) .float ⟨[], [], [], []⟩ rfl
  cases hs
  cases hc

end MiniOs32
