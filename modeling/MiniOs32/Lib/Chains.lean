import MiniOs32.Lib.Memory

/-!
# Linked lists in memory

Nodes in a memory, each with the address of the next at a fixed offset, and a variable outside the memory with the address of the first;
zero ends the list. A program walks such a list with a pointer to the link it came by, so that it can take a node out of it.
-/

namespace MiniOs32

/-- Two words that do not overlap. -/
def WordsApart (a b : U32) : Prop := 4 ≤ (a - b).toNat ∧ 4 ≤ (b - a).toNat

theorem WordsApart.symm {a b : U32} (h : WordsApart a b) : WordsApart b a := ⟨h.2, h.1⟩

/-- Words that do not overlap, by their addresses. -/
theorem wordsApart_of_le {a b : U32} (ha : a.toNat + 4 ≤ 2 ^ 32) (hb : b.toNat + 4 ≤ 2 ^ 32)
    (h : a.toNat + 4 ≤ b.toNat ∨ b.toNat + 4 ≤ a.toNat) : WordsApart a b := by
  rw [WordsApart, BitVec.toNat_sub, BitVec.toNat_sub]
  omega

/-- There are no more addresses than words. -/
theorem length_le_of_nodup {l : List U32} (h : l.Nodup) : l.length ≤ 2 ^ 32 := by
  have hinj : (l.map BitVec.toFin).Nodup := h.map fun _ _ => BitVec.eq_of_toFin_eq
  have hle := hinj.length_le_card
  rwa [List.length_map, Fintype.card_fin] at hle

/-- A memory, and the variable with the address of the first node. -/
structure ListMem where
  mem : Mem
  head : U32

/-- What a walk along a list comes to: the place of the link to a node, or the end, or neither. -/
inductive Walk where
  | found (place : Option U32)
  | absent
  | endless

namespace ListMem

variable {off : U32} {fits : U32 → Bool} {s : ListMem} {place : Option U32} {m m' : Mem} {a b v x : U32} {l l₁ l₂ : List U32} {n : Nat}

/-- The link at a place: in the variable, or at an address. -/
def load (s : ListMem) : Option U32 → U32
  | none => s.head
  | some a => s.mem.read32 a

/-- A link stored at a place. -/
def store (s : ListMem) (place : Option U32) (v : U32) : ListMem :=
  match place with
  | none => { s with head := v }
  | some a => { s with mem := s.mem.write32 a v }

/-- `while (*pp) { if (fits(*pp)) ...; pp = &(*pp)->next; }`, with a number of turns. -/
def walk (off : U32) (fits : U32 → Bool) (s : ListMem) : Nat → Option U32 → Walk
  | 0, _ => .endless
  | n + 1, place =>
    if s.load place = 0#32 then .absent
    else if fits (s.load place) then .found place
    else walk off fits s n (some (s.load place + off))

/-- The nodes from an address on. -/
def Chain (off : U32) (m : Mem) : U32 → List U32 → Prop
  | b, [] => b = 0#32
  | b, x :: l => b = x ∧ x ≠ 0#32 ∧ Chain off m (m.read32 (x + off)) l

/-- The place of the link behind nodes that were passed. -/
def lastPlace (off : U32) (place : Option U32) (l : List U32) : Option U32 := l.foldl (fun _ x => some (x + off)) place

/-- A list depends on the links of its nodes. -/
theorem Chain.congr (h : Chain off m b l) (hm : ∀ x ∈ l, m'.read32 (x + off) = m.read32 (x + off)) : Chain off m' b l := by
  induction l generalizing b with
  | nil => exact h
  | cons x l ih =>
    obtain ⟨rfl, h0, hrest⟩ := h
    refine ⟨rfl, h0, ?_⟩
    rw [hm b List.mem_cons_self]
    exact ih hrest fun y hy => hm y (List.mem_cons_of_mem _ hy)

/-- A node more in front. -/
theorem Chain.push (h : Chain off m b l) (hx : x ≠ 0#32) (hlink : m'.read32 (x + off) = b)
    (hm : ∀ y ∈ l, m'.read32 (y + off) = m.read32 (y + off)) : Chain off m' x (x :: l) :=
  ⟨rfl, hx, hlink ▸ h.congr hm⟩

/-- A walk with turns enough comes to the first node that fits, or to the end. -/
theorem walk_eq (fits : U32 → Bool) (h : Chain off s.mem (s.load place) l) (hn : l.length < n) :
    (∀ x ∈ l, fits x = false) ∧ walk off fits s n place = .absent ∨
      ∃ l₁ b l₂, l = l₁ ++ b :: l₂ ∧ fits b = true ∧ walk off fits s n place = .found (lastPlace off place l₁) := by
  induction l generalizing n place with
  | nil =>
    obtain ⟨n, rfl⟩ : ∃ k, n = k + 1 := ⟨n - 1, by omega⟩
    refine .inl ⟨fun x hx => absurd hx List.not_mem_nil, ?_⟩
    rw [walk]
    exact if_pos h
  | cons x l ih =>
    rw [List.length_cons] at hn
    obtain ⟨n, rfl⟩ : ∃ k, n = k + 1 := ⟨n - 1, by omega⟩
    obtain ⟨hx, h0, hrest⟩ := h
    rw [walk, hx, if_neg h0]
    cases hf : fits x with
    | true =>
      refine .inr ⟨[], x, l, rfl, hf, ?_⟩
      rw [if_pos rfl]
      rfl
    | false =>
      rw [if_neg Bool.false_ne_true]
      have hrest' : Chain off s.mem (s.load (some (x + off))) l := hrest
      rcases ih (n := n) hrest' (by omega) with ⟨hall, hwalk⟩ | ⟨l₁, b, l₂, rfl, hb, hwalk⟩
      · exact .inl ⟨List.forall_mem_cons.mpr ⟨hf, hall⟩, hwalk⟩
      · exact .inr ⟨x :: l₁, b, l₂, rfl, hb, hwalk⟩

/-- The link behind the nodes that were passed. -/
theorem load_lastPlace (h : Chain off s.mem (s.load place) (l₁ ++ b :: l₂)) : s.load (lastPlace off place l₁) = b := by
  induction l₁ generalizing place with
  | nil => exact h.1
  | cons x l₁ ih => exact ih h.2.2

/-- The place of the last link is the place that the walk started from, or in a node that was passed. -/
theorem lastPlace_cases (off : U32) (place : Option U32) (l : List U32) :
    l = [] ∧ lastPlace off place l = place ∨ ∃ x ∈ l, lastPlace off place l = some (x + off) := by
  induction l generalizing place with
  | nil => exact .inl ⟨rfl, rfl⟩
  | cons x l ih =>
    rcases ih (some (x + off)) with ⟨-, heq⟩ | ⟨y, hy, heq⟩
    · exact .inr ⟨x, List.mem_cons_self, heq⟩
    · exact .inr ⟨y, List.mem_cons_of_mem _ hy, heq⟩

@[simp] theorem load_store_self (s : ListMem) (place : Option U32) (v : U32) : (s.store place v).load place = v := by
  cases place with
  | none => rfl
  | some a => exact Mem.read32_write32 s.mem a v

/-- A word apart from the place of a store. -/
theorem read32_store (h : ∀ b, place = some b → WordsApart a b) : (s.store place v).mem.read32 a = s.mem.read32 a := by
  cases place with
  | none => rfl
  | some b => exact Mem.read32_write32_of_le (h b rfl).1 (h b rfl).2

/-- Taking a node out of a list, by a store of its link where the link to it is. -/
theorem Chain.unlink (h : Chain off s.mem (s.load place) (l₁ ++ b :: l₂)) (hnodup : (l₁ ++ b :: l₂).Nodup)
    (hapart : ∀ x ∈ l₁ ++ b :: l₂, ∀ y ∈ l₁ ++ b :: l₂, x ≠ y → WordsApart (x + off) (y + off))
    (hplace : ∀ a, place = some a → ∀ x ∈ l₁ ++ b :: l₂, WordsApart a (x + off)) :
    Chain off (s.store (lastPlace off place l₁) (s.mem.read32 (b + off))).mem
      ((s.store (lastPlace off place l₁) (s.mem.read32 (b + off))).load place) (l₁ ++ l₂) := by
  induction l₁ generalizing place with
  | nil =>
    obtain ⟨-, -, hrest⟩ := h
    change Chain off (s.store place _).mem ((s.store place _).load place) l₂
    rw [load_store_self]
    refine hrest.congr fun x hx => read32_store fun a ha => ?_
    exact (hplace a ha x (List.mem_cons_of_mem _ hx)).symm
  | cons x l₁ ih =>
    obtain ⟨hx, h0, hrest⟩ := h
    rw [List.cons_append] at hnodup hapart hplace
    obtain ⟨hfresh, hnodup⟩ := List.nodup_cons.mp hnodup
    have hlink : Chain off s.mem (s.load (some (x + off))) (l₁ ++ b :: l₂) := hrest
    have hrest' := ih hlink hnodup
      (fun y hy z hz => hapart y (List.mem_cons_of_mem _ hy) z (List.mem_cons_of_mem _ hz)) (fun a ha y hy => by
        cases ha
        exact hapart x List.mem_cons_self y (List.mem_cons_of_mem _ hy) fun heq => hfresh (heq ▸ hy))
    -- the link to the first node stays: the store is in a node that was passed
    have hkeep : ∀ y ∈ x :: (l₁ ++ b :: l₂), ∀ v, (s.store (some (y + off)) v).load place = x := by
      intro y hy v
      cases place with
      | none => exact hx
      | some a => exact (read32_store fun c hc => by cases hc; exact hplace a rfl y hy).trans hx
    rcases lastPlace_cases off place (x :: l₁) with ⟨hnil, -⟩ | ⟨y, hy, hlast⟩
    · exact absurd hnil (List.cons_ne_nil _ _)
    · refine ⟨?_, h0, hrest'⟩
      rw [hlast]
      exact hkeep y (by rw [← List.cons_append]; exact List.mem_append_left _ hy) _

/-- The store that takes a node out changes the link of a node before it, or no memory at all. -/
theorem mem_unlink (h : ∀ x ∈ l₁, 4 ≤ (a - (x + off)).toNat) : (s.store (lastPlace off none l₁) v).mem a = s.mem a := by
  rcases lastPlace_cases off none l₁ with ⟨-, hlast⟩ | ⟨x, hx, hlast⟩
  · rw [hlast]
    rfl
  · rw [hlast]
    exact Mem.write_of_le (h x hx)

end ListMem

end MiniOs32
