import Mathlib
import MiniOs32.Lib.Words

/-!
# Numerals

Reading a numeral digit by digit, most significant first, and writing one from its last digit on. Reading is Horner's rule, in the
natural numbers or in words; writing divides by the base until nothing is left. `Nat.toDigits` is the numeral without leading zeros.
-/

namespace MiniOs32

namespace Numerals

variable {α : Type*}

/-- Horner's rule, from a value on. -/
def horner (b : Nat) (val : α → Nat) (v : Nat) (l : List α) : Nat := l.foldl (fun v c => v * b + val c) v

theorem horner_append (b : Nat) (val : α → Nat) (v : Nat) (l : List α) (c : α) :
    horner b val v (l ++ [c]) = horner b val v l * b + val c := List.foldl_append

/-- Horner's rule gives every digit its place. -/
theorem horner_eq_ofDigits (b : Nat) (val : α → Nat) (l : List α) : horner b val 0 l = Nat.ofDigits b (l.map val).reverse := by
  induction l using List.reverseRecOn with
  | nil => rfl
  | append_singleton l c ih =>
    rw [horner_append, ih, List.map_append, List.reverse_append, List.map_singleton, List.reverse_singleton, List.singleton_append,
      Nat.ofDigits_cons, Nat.mul_comm, Nat.add_comm]

/-- Horner's rule in words is Horner's rule modulo `2 ^ w`. -/
theorem foldl_word {w b : Nat} (val : α → Nat) (step : BitVec w → α → BitVec w) {l : List α}
    (h : ∀ v, ∀ c ∈ l, step v c = v * BitVec.ofNat w b + BitVec.ofNat w (val c)) : ∀ v : Nat,
    l.foldl step (BitVec.ofNat w v) = BitVec.ofNat w (horner b val v l) := by
  induction l with
  | nil => intro v; rfl
  | cons c l ih =>
    intro v
    rw [List.foldl_cons, h _ c List.mem_cons_self, ← BitVec.ofNat_mul, ← BitVec.ofNat_add,
      ih (fun v c hc => h v c (List.mem_cons_of_mem _ hc))]
    rfl

/-- Reading the numeral of a number gives the number back. -/
theorem horner_toDigits {b : Nat} (hb : 1 < b) {val : Char → Nat} (h : ∀ d < b, val (Nat.digitChar d) = d) (n : Nat) :
    horner b val 0 (Nat.toDigits b n) = n := by
  induction n using Nat.strongRecOn with
  | ind n ih =>
    rw [Nat.toDigits_eq_if hb]
    split
    · rename_i hlt
      simp [horner, h n hlt]
    · rename_i hge
      have hdiv : n / b < n := Nat.div_lt_self (by omega) hb
      rw [horner_append, ih _ hdiv, h _ (Nat.mod_lt n (by omega)), Nat.mul_comm, Nat.div_add_mod]

/-- The digits of a numeral. -/
theorem mem_toDigits {b : Nat} (hb : 1 < b) {n : Nat} {c : Char} (hc : c ∈ Nat.toDigits b n) : ∃ d < b, c = Nat.digitChar d := by
  induction n using Nat.strongRecOn with
  | ind n ih =>
    rw [Nat.toDigits_eq_if hb] at hc
    split at hc
    · rename_i hlt
      exact ⟨n, hlt, List.mem_singleton.mp hc⟩
    · rename_i hge
      rcases List.mem_append.mp hc with hc | hc
      · exact ih _ (Nat.div_lt_self (by omega) hb) hc
      · exact ⟨n % b, Nat.mod_lt n (by omega), List.mem_singleton.mp hc⟩

/-- A numeral starts with a zero only if it is the zero. -/
theorem head_toDigits {b : Nat} (hb : 1 < b) {n : Nat} (hn : 0 < n) :
    ∃ d, 0 < d ∧ d < b ∧ (Nat.toDigits b n).head? = some (Nat.digitChar d) := by
  induction n using Nat.strongRecOn with
  | ind n ih =>
    rw [Nat.toDigits_eq_if hb]
    split
    · rename_i hlt
      exact ⟨n, hn, hlt, rfl⟩
    · rename_i hge
      obtain ⟨d, h0, hd, hhead⟩ := ih _ (Nat.div_lt_self (by omega) hb) (Nat.div_pos (by omega) (by omega))
      refine ⟨d, h0, hd, ?_⟩
      rw [List.head?_append, hhead]
      rfl

/-- The loop of a printer, with as many turns as there can be: the last digit comes first, and each goes in front of those behind
it. -/
def printLoop {σ : Type*} (more : σ → Bool) (digit : σ → α) (next : σ → σ) : Nat → σ → List α → List α
  | 0, _, l => l
  | n + 1, s, l => if more s then printLoop more digit next n (next s) (digit s :: l) else l

/-- A loop whose state stands for a number, ends at zero and divides by the base, prints the numeral. -/
theorem printLoop_eq {σ : Type*} {more : σ → Bool} {digit : σ → α} {next : σ → σ} {b : Nat} (hb : 1 < b) {char : Char → α}
    {value : σ → Nat} {ok : σ → Prop} (hmore : ∀ s, ok s → (more s = true ↔ 0 < value s)) (hok : ∀ s, ok s → ok (next s))
    (hdigit : ∀ s, ok s → digit s = char (Nat.digitChar (value s % b))) (hnext : ∀ s, ok s → value (next s) = value s / b) :
    ∀ {n : Nat} {s : σ} (l : List α), ok s → value s ≤ n →
      printLoop more digit next n s l = if value s = 0 then l else (Nat.toDigits b (value s)).map char ++ l := by
  intro n
  induction n with
  | zero =>
    intro s l _ hn
    rw [if_pos (by omega)]
    rfl
  | succ n ih =>
    intro s l hs hn
    rw [printLoop]
    by_cases h0 : value s = 0
    · have hno : ¬more s = true := by rw [hmore s hs]; omega
      rw [if_neg hno, if_pos h0]
    · have hdiv : value s / b < value s := Nat.div_lt_self (by omega) hb
      rw [if_pos ((hmore s hs).mpr (by omega)), if_neg h0, ih _ (hok s hs) (by rw [hnext s hs]; omega), hnext s hs, hdigit s hs,
        Nat.toDigits_eq_if hb (n := value s)]
      by_cases hlt : value s < b
      · rw [if_pos (Nat.div_eq_of_lt hlt), if_pos hlt, Nat.mod_eq_of_lt hlt]
        rfl
      · have hpos : value s / b ≠ 0 := by
          have := Nat.div_pos (Nat.not_lt.mp hlt) (by omega)
          omega
        rw [if_neg hpos, if_neg hlt]
        simp

end Numerals

end MiniOs32
