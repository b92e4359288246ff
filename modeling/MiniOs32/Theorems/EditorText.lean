import MiniOs32.Lib.Run
import MiniOs32.Lib.Wrapped
import MiniOs32.Theorems.StringFunctions
import MiniOs32.User.Editor

/-!
# The editor edits a list

The text is the first `len` bytes of `buf`. A key that edits it is one insertion or one removal at the cursor, made in place by
`memmove`; every other key leaves it alone. Rows and columns are those of a text wrapped at 80 columns: the two loops that go from
an index to its place and back scan the same places.
-/

namespace MiniOs32

/-- A text and a cursor in it. -/
@[ext] structure TextCursor where
  text : List Byte
  cursor : Nat

namespace TextCursor

/-- A character goes in front of the cursor, unless the text is full: one byte of the buffer stays free. -/
def insert (t : TextCursor) (c : Byte) : TextCursor :=
  if t.text.length + 1 < editSize then ⟨t.text.insertIdx t.cursor c, t.cursor + 1⟩ else t

/-- What a key does to a text: delete, backspace, enter and the printable characters change it. -/
def edit (t : TextCursor) (key : Int) : TextCursor :=
  if key = keyDel then { t with text := t.text.eraseIdx t.cursor }
  else if key = 8 then
    if 0 < t.cursor then ⟨t.text.eraseIdx (t.cursor - 1), t.cursor - 1⟩ else t
  else if key = 13 ∨ key = 10 then t.insert newline
  else if 32 ≤ key ∧ key < 127 then t.insert (BitVec.ofInt 8 key)
  else t

end TextCursor

/-- The keys that edit. -/
def IsEdit (key : Int) : Prop := key = keyDel ∨ key = 8 ∨ key = 13 ∨ key = 10 ∨ 32 ≤ key ∧ key < 127

/-- Where an index of the text stands on the screen. -/
def screenPlace (buf : Nat → Byte) (i : Nat) : Nat × Nat := Wrapped.place (· = newline) editCols buf i

namespace Editor

/-- The text in the buffer. -/
def text (f : EditFrame) (s : Editor) : List Byte := (List.range s.len.toNat).map (f.text s.um)

/-- The text with the cursor. -/
def view (f : EditFrame) (s : Editor) : TextCursor := ⟨s.text f, s.cursor.toNat⟩

/-- The cursor is in the text, and the text in the buffer. -/
structure Bounded (s : Editor) : Prop where
  nonneg : 0 ≤ s.cursor
  inText : s.cursor ≤ s.len
  inBuf : s.len ≤ editSize

/-- What `row_col_of_index` says of an index. -/
def rowCol (f : EditFrame) (s : Editor) (i : Int) : Nat × Nat := rowColOfIndex (f.text s.um) s.len i

/-- The cursor goes to a row, and to its old column if the row has it. -/
structure MovesTo (f : EditFrame) (s s' : Editor) (r : Nat) : Prop where
  row : (s.rowCol f s'.cursor).1 = r
  col : ∀ i, 0 ≤ i → i ≤ s.len → s.rowCol f i = (r, (s.rowCol f s.cursor).2) → s'.cursor = i

/-- What a key is to do: edits are those of a list and nothing else changes the text, places lead back to their indices, and up and
down go to the row before and behind if there is one. -/
structure Right (f : EditFrame) (s : Editor) (k : EditKey) : Prop where
  edits : s.running = true → IsEdit k.key → (editKey f s k).view f = (s.view f).edit k.key
  keeps : ¬(s.running = true ∧ IsEdit k.key) → (editKey f s k).text f = s.text f
  places : ∀ i, 0 ≤ i → i ≤ s.len → indexOfRowCol (f.text s.um) s.len (s.rowCol f i).1 (s.rowCol f i).2 = i
  up : s.running = true → k.key = keyUp → 0 < (s.rowCol f s.cursor).1 →
    MovesTo f s (editKey f s k) ((s.rowCol f s.cursor).1 - 1)
  down : s.running = true → k.key = keyDown →
    (∃ i, 0 ≤ i ∧ i ≤ s.len ∧ (s.rowCol f i).1 = (s.rowCol f s.cursor).1 + 1) →
    MovesTo f s (editKey f s k) ((s.rowCol f s.cursor).1 + 1)

end Editor

/-! ## Places on the screen -/

section Places

variable (buf : Nat → Byte)

theorem screenPlace_succ (i : Nat) : screenPlace buf (i + 1) =
    if buf i = newline then ((screenPlace buf i).1 + 1, 0)
    else if editCols ≤ (screenPlace buf i).2 + 1 then ((screenPlace buf i).1 + 1, 0)
    else ((screenPlace buf i).1, (screenPlace buf i).2 + 1) := rfl

theorem rowColLoop_eq (i n : Nat) :
    rowColLoop buf (screenPlace buf i).1 (screenPlace buf i).2 i n = screenPlace buf (i + n) := by
  induction n generalizing i with
  | zero => rfl
  | succ n ih =>
    rw [rowColLoop, ← Nat.add_assoc, Nat.add_right_comm, ← ih (i + 1), screenPlace_succ]
    split
    · rfl
    · split <;> rfl

/-- `row_col_of_index` gives the place of an index of the text. -/
theorem rowColOfIndex_eq {len idx : Int} (h : idx ≤ len) : rowColOfIndex buf len idx = screenPlace buf idx.toNat := by
  rw [rowColOfIndex, min_eq_left h]
  exact (rowColLoop_eq buf 0 idx.toNat).trans (by rw [Nat.zero_add])

theorem indexOfRowColLoop_le (tr tc : Int) (r c i n : Nat) :
    i ≤ indexOfRowColLoop buf tr tc r c i n ∧ indexOfRowColLoop buf tr tc r c i n ≤ i + n := by
  induction n generalizing r c i with
  | zero => exact ⟨le_rfl, le_rfl⟩
  | succ n ih =>
    have hrec (r c : Nat) := ih r c (i + 1)
    rw [indexOfRowColLoop]
    split
    · exact ⟨le_rfl, by lia⟩
    · split
      · split
        · exact ⟨le_rfl, by lia⟩
        · have := hrec (r + 1) 0
          lia
      · split
        · split
          · lia
          · have := hrec (r + 1) 0
            lia
        · have := hrec r (c + 1)
          lia

/-- The scan of `index_of_row_col` for a column of the screen, on a row that is still ahead. The columns of that row it has passed
are all further left, so it does not leave the row at its end. -/
theorem indexOfRowColLoop_spec {tr tc : Nat} (htc : tc < editCols) {i n : Nat} (hrow : (screenPlace buf i).1 ≤ tr)
    (hcol : (screenPlace buf i).1 = tr → (screenPlace buf i).2 ≤ tc)
    (hex : ∃ k, i ≤ k ∧ k ≤ i + n ∧ (screenPlace buf k).1 = tr) :
    (screenPlace buf (indexOfRowColLoop buf tr tc (screenPlace buf i).1 (screenPlace buf i).2 i n)).1 = tr ∧
      ∀ k, i ≤ k → k ≤ i + n → screenPlace buf k = (tr, tc) →
        indexOfRowColLoop buf tr tc (screenPlace buf i).1 (screenPlace buf i).2 i n = k := by
  induction n generalizing i with
  | zero =>
    obtain ⟨k, hk, hk', hkr⟩ := hex
    obtain rfl : k = i := by lia
    exact ⟨hkr, fun j hj hj' _ => by rw [indexOfRowColLoop]; lia⟩
  | succ n ih =>
    obtain ⟨k, hk, hk', hkr⟩ := hex
    have hnext := screenPlace_succ buf i
    -- the scan goes on behind `i`, which is not the place looked for
    have hgo {p : Nat × Nat} (hp : screenPlace buf (i + 1) = p) (hne : screenPlace buf i ≠ (tr, tc)) (hrow' : p.1 ≤ tr)
        (hcol' : p.1 = tr → p.2 ≤ tc) (hki : k ≠ i) :
        (screenPlace buf (indexOfRowColLoop buf tr tc p.1 p.2 (i + 1) n)).1 = tr ∧
          ∀ k, i ≤ k → k ≤ i + (n + 1) → screenPlace buf k = (tr, tc) → indexOfRowColLoop buf tr tc p.1 p.2 (i + 1) n = k := by
      subst hp
      obtain ⟨h₁, h₂⟩ := ih (i := i + 1) hrow' hcol' ⟨k, by lia, by lia, hkr⟩
      refine ⟨h₁, fun j hj hj' he => h₂ j ?_ (by lia) he⟩
      rcases Nat.lt_or_eq_of_le hj with hlt | rfl
      · exact hlt
      · exact absurd he hne
    -- it stops at `i`, on the row, and every place behind is on a later row
    have hstop (hr : (screenPlace buf i).1 = tr) (hrow' : (screenPlace buf (i + 1)).1 = tr + 1)
        (hne : screenPlace buf i ≠ (tr, tc)) : (screenPlace buf i).1 = tr ∧
          ∀ k, i ≤ k → k ≤ i + (n + 1) → screenPlace buf k = (tr, tc) → i = k := by
      refine ⟨hr, fun j hj _ he => ?_⟩
      rcases Nat.lt_or_eq_of_le hj with hlt | rfl
      · have hle := Wrapped.place_row_le (· = newline) editCols buf (show i + 1 ≤ j from hlt)
        change (screenPlace buf (i + 1)).1 ≤ (screenPlace buf j).1 at hle
        rw [hrow', he] at hle
        lia
      · exact absurd he hne
    rw [indexOfRowColLoop]
    by_cases hhit : ((screenPlace buf i).1 : Int) = tr ∧ ((screenPlace buf i).2 : Int) = tc
    · rw [if_pos hhit]
      have he : screenPlace buf i = (tr, tc) := Prod.ext (by lia) (by lia)
      refine ⟨by lia, fun j _ _ hj => ?_⟩
      exact Wrapped.place_injective (he.trans hj.symm)
    · rw [if_neg hhit]
      have hne : screenPlace buf i ≠ (tr, tc) := by
        intro he
        rw [he] at hhit
        exact hhit ⟨rfl, rfl⟩
      by_cases hbrk : buf i = newline
      · rw [if_pos hbrk] at hnext ⊢
        by_cases hr : ((screenPlace buf i).1 : Int) = tr
        · rw [if_pos hr]
          have hr' : (screenPlace buf i).1 = tr := by lia
          exact hstop hr' (by rw [hnext, hr']) hne
        · rw [if_neg hr]
          refine hgo hnext hne (by dsimp only; lia) (fun _ => Nat.zero_le _) ?_
          rintro rfl
          lia
      · rw [if_neg hbrk] at hnext ⊢
        by_cases hwrap : editCols ≤ (screenPlace buf i).2 + 1
        · rw [if_pos hwrap] at hnext ⊢
          by_cases hr : ((screenPlace buf i).1 : Int) = tr
          · -- the last column of the row looked for: the column would have been met
            have := hcol (by lia)
            exact absurd ⟨hr, by lia⟩ hhit
          · rw [if_neg hr]
            refine hgo hnext hne (by dsimp only; lia) (fun _ => Nat.zero_le _) ?_
            rintro rfl
            lia
        · rw [if_neg hwrap] at hnext ⊢
          have hcol' : (screenPlace buf i).1 = tr → (screenPlace buf i).2 + 1 ≤ tc := by
            intro hr
            have := hcol hr
            lia
          by_cases hki : k = i
          · -- `i` is on the row, and so is `i + 1`
            subst hki
            obtain ⟨h₁, h₂⟩ := ih (i := k + 1) (by rw [hnext]; exact hrow) (by rw [hnext]; exact hcol')
              ⟨k + 1, le_rfl, by lia, by rw [hnext]; exact hkr⟩
            rw [hnext] at h₁ h₂
            refine ⟨h₁, fun j hj hj' he => h₂ j ?_ (by lia) he⟩
            rcases Nat.lt_or_eq_of_le hj with hlt | rfl
            · exact hlt
            · exact absurd he hne
          · exact hgo hnext hne hrow hcol' hki

/-- `index_of_row_col` stays in the text. -/
theorem indexOfRowCol_bounds {len : Int} (h : 0 ≤ len) (tr tc : Int) :
    0 ≤ indexOfRowCol buf len tr tc ∧ indexOfRowCol buf len tr tc ≤ len := by
  rw [indexOfRowCol]
  split
  · exact ⟨le_rfl, h⟩
  · have := (indexOfRowColLoop_le buf tr tc 0 0 0 len.toNat).2
    omega

/-- `index_of_row_col` finds the row it is asked for, if the text has it, and the column, if the row has it. -/
theorem indexOfRowCol_spec {len : Int} {tr tc : Nat} (htc : tc < editCols) (hex : ∃ k, k ≤ len.toNat ∧ (screenPlace buf k).1 = tr) :
    (screenPlace buf (indexOfRowCol buf len tr tc).toNat).1 = tr ∧
      ∀ k, k ≤ len.toNat → screenPlace buf k = (tr, tc) → indexOfRowCol buf len tr tc = k := by
  obtain ⟨k, hk, hkr⟩ := hex
  rw [indexOfRowCol]
  by_cases h0 : (tr : Int) ≤ 0 ∧ (tc : Int) ≤ 0
  · rw [if_pos h0]
    obtain rfl : tr = 0 := by lia
    obtain rfl : tc = 0 := by lia
    refine ⟨rfl, fun j _ he => ?_⟩
    have hj : j = 0 := Wrapped.place_injective (he.trans rfl)
    rw [hj]
    rfl
  · rw [if_neg h0]
    obtain ⟨h₁, h₂⟩ := indexOfRowColLoop_spec buf htc (i := 0) (n := len.toNat) (Nat.zero_le _) (fun _ => Nat.zero_le _)
      ⟨k, Nat.zero_le _, by lia, hkr⟩
    refine ⟨h₁, fun j hj he => ?_⟩
    exact congrArg Nat.cast (h₂ j (Nat.zero_le _) (by lia) he)

end Places

/-! ## Edits -/

namespace Editor

variable {f : EditFrame} {s : Editor}

@[simp] theorem text_length : (s.text f).length = s.len.toNat := by simp [text]

theorem text_getElem? (i : Nat) : (s.text f)[i]? = if i < s.len.toNat then some (f.text s.um i) else none := by
  rw [text, List.getElem?_map]
  split
  · rename_i h
    rw [List.getElem?_range h, Option.map_some]
  · rename_i h
    rw [List.getElem?_eq_none (by simpa using h), Option.map_none]

/-- The buffer after a move inside it. -/
theorem text_move {d src n : Int} (hd : 0 ≤ d) (hsrc : 0 ≤ src) (i : Nat) : f.text (s.move f d src n) i =
    if d.toNat ≤ i ∧ i < d.toNat + n.toNat then f.text s.um (src.toNat + (i - d.toNat)) else f.text s.um i := by
  have hd' : f.at d = f.bufOff.toNat + d.toNat := by rw [EditFrame.at]; lia
  have hsrc' : f.at src = f.bufOff.toNat + src.toNat := by rw [EditFrame.at]; lia
  rw [EditFrame.text, move, memmove_alike, memmove_apply, hd', hsrc']
  by_cases h : d.toNat ≤ i ∧ i < d.toNat + n.toNat
  · rw [if_pos h, if_pos (by lia), EditFrame.text]
    congr 1
    lia
  · rw [if_neg h, if_neg (by lia), EditFrame.text]

theorem text_set {um : UserMem} {j : Int} (hj : 0 ≤ j) (c : Byte) (i : Nat) :
    f.text (um.set (f.at j) c) i = if i = j.toNat then c else f.text um i := by
  rw [EditFrame.text, UserMem.set, EditFrame.at, EditFrame.text]
  exact if_congr (by lia) rfl rfl

/-- Enter and the characters insert in front of the cursor. -/
theorem view_insert (hb : s.Bounded) (c : Byte) : (s.insert f c).view f = (s.view f).insert c := by
  obtain ⟨h0, hin, hbuf⟩ := hb
  rw [Editor.insert, TextCursor.insert]
  by_cases hroom : s.len + 1 < editSize
  · rw [if_pos hroom, if_pos (by rw [view, text_length]; lia)]
    refine TextCursor.ext (List.ext_getElem? fun i => ?_) (by simp only [view]; lia)
    simp only [view]
    rw [text_getElem?, List.getElem?_insertIdx, text_getElem?, text_getElem?, text_length]
    dsimp only
    rw [text_set h0, text_move (by lia) h0]
    rcases lt_trichotomy i s.cursor.toNat with hlt | heq | hgt
    · rw [if_pos (by lia), if_neg (by lia), if_neg (by lia), if_pos hlt, if_pos (by lia)]
    · rw [if_pos (by lia), if_pos heq, if_neg (by lia), if_pos heq, if_pos (by lia)]
    · rw [if_neg (show ¬i < s.cursor.toNat by lia), if_neg (show ¬i = s.cursor.toNat by lia),
        if_neg (show ¬i = s.cursor.toNat by lia)]
      by_cases hi : i < (s.len + 1).toNat
      · rw [if_pos hi, if_pos (by lia), if_pos (by lia)]
        congr 2
        lia
      · rw [if_neg hi, if_neg (by lia)]
  · rw [if_neg hroom, if_neg (by rw [view, text_length]; lia)]

/-- Moving what is behind an index down by one removes the item there. -/
theorem text_erase {j : Int} (hj : 0 ≤ j) (hlt : j < s.len) :
    text f { s with um := s.move f j (j + 1) (s.len - j - 1), len := s.len - 1 } = (s.text f).eraseIdx j.toNat := by
  refine List.ext_getElem? fun i => ?_
  rw [text_getElem?, List.getElem?_eraseIdx, text_getElem?, text_getElem?]
  dsimp only
  rw [text_move hj (by omega)]
  by_cases hi : i < j.toNat
  · rw [if_pos (by omega), if_neg (by omega), if_pos hi, if_pos (by omega)]
  · rw [if_neg hi]
    by_cases hi' : i < (s.len - 1).toNat
    · rw [if_pos hi', if_pos (by omega), if_pos (by omega)]
      congr 2
      omega
    · rw [if_neg hi', if_neg (by omega)]

/-- Delete removes the character at the cursor. -/
theorem view_delete (hb : s.Bounded) : (s.delete f).view f = { s.view f with text := (s.text f).eraseIdx s.cursor.toNat } := by
  obtain ⟨h0, hin, hbuf⟩ := hb
  rw [Editor.delete]
  split
  · rename_i hlt
    exact TextCursor.ext (text_erase h0 hlt) rfl
  · rename_i hge
    rw [List.eraseIdx_of_length_le (by rw [text_length]; omega)]
    rfl

/-- Backspace removes the character in front of the cursor. -/
theorem view_backspace (hb : s.Bounded) : (s.backspace f).view f =
    if 0 < (s.view f).cursor then ⟨(s.text f).eraseIdx (s.cursor.toNat - 1), s.cursor.toNat - 1⟩ else s.view f := by
  obtain ⟨h0, hin, hbuf⟩ := hb
  rw [Editor.backspace]
  by_cases hpos : 0 < s.cursor
  · rw [if_pos hpos, if_pos (by simp only [view]; lia)]
    have herase := text_erase (f := f) (s := s) (j := s.cursor - 1) (by lia) (by lia)
    have hend : s.len - (s.cursor - 1) - 1 = s.len - s.cursor := by lia
    rw [Int.sub_add_cancel, hend, show (s.cursor - 1).toNat = s.cursor.toNat - 1 by lia] at herase
    refine TextCursor.ext herase ?_
    simp only [view]
    lia
  · rw [if_neg hpos, if_neg (by simp only [view]; lia)]

/-! ## One key -/

theorem bounded_insert (hb : s.Bounded) (c : Byte) : (s.insert f c).Bounded := by
  obtain ⟨h0, hin, hbuf⟩ := hb
  rw [Editor.insert]
  split
  · exact ⟨by dsimp only; omega, by dsimp only; omega, by dsimp only; omega⟩
  · exact ⟨h0, hin, hbuf⟩

theorem bounded_delete (hb : s.Bounded) : (s.delete f).Bounded := by
  obtain ⟨h0, hin, hbuf⟩ := hb
  rw [Editor.delete]
  split
  · exact ⟨h0, by dsimp only; omega, by dsimp only; omega⟩
  · exact ⟨h0, hin, hbuf⟩

theorem bounded_backspace (hb : s.Bounded) : (s.backspace f).Bounded := by
  obtain ⟨h0, hin, hbuf⟩ := hb
  rw [Editor.backspace]
  split
  · exact ⟨by dsimp only; omega, by dsimp only; omega, by dsimp only; omega⟩
  · exact ⟨h0, hin, hbuf⟩

/-- A cursor that `index_of_row_col` computes is in the text. -/
theorem bounded_moved (hb : s.Bounded) (tr tc : Int) : Bounded { s with cursor := indexOfRowCol (f.text s.um) s.len tr tc } := by
  obtain ⟨h0, hin, hbuf⟩ := hb
  obtain ⟨h₁, h₂⟩ := indexOfRowCol_bounds (f.text s.um) (by omega : 0 ≤ s.len) tr tc
  exact ⟨h₁, h₂, hbuf⟩

theorem bounded_typeKey (hb : s.Bounded) (key : Int) : (s.typeKey f key).Bounded := by
  have h0 := hb.nonneg
  have hin := hb.inText
  rw [typeKey]
  split
  · exact ⟨by dsimp only; split <;> omega, by dsimp only; split <;> omega, hb.inBuf⟩
  split
  · exact ⟨by dsimp only; split <;> omega, by dsimp only; split <;> omega, hb.inBuf⟩
  split
  · rw [up]
    dsimp only
    split
    · exact bounded_moved hb _ _
    · exact hb
  split
  · exact bounded_moved hb _ _
  split
  · exact bounded_delete hb
  split
  · exact bounded_backspace hb
  split
  · exact bounded_insert hb _
  split
  · exact bounded_insert hb _
  · exact hb

/-- A save leaves the text and the cursor alone. -/
theorem save_same (status : U32) : (s.save f status).um = s.um ∧ (s.save f status).len = s.len ∧
    (s.save f status).cursor = s.cursor := by
  rw [save]
  dsimp only
  split <;> exact ⟨rfl, rfl, rfl⟩

theorem bounded_key (hb : s.Bounded) (k : EditKey) : (editKey f s k).Bounded := by
  rw [editKey]
  split
  · exact hb
  split
  · exact hb
  split
  · split <;> exact ⟨hb.nonneg, hb.inText, hb.inBuf⟩
  split
  · obtain ⟨-, hlen, hcur⟩ := save_same (f := f) (s := s) k.status
    exact ⟨hcur ▸ hb.nonneg, by rw [hlen, hcur]; exact hb.inText, hlen ▸ hb.inBuf⟩
  split
  · exact bounded_moved hb _ _
  split
  · exact bounded_moved hb _ _
  · exact bounded_typeKey (s := { s with quitPending := false }) ⟨hb.nonneg, hb.inText, hb.inBuf⟩ k.key

/-- A key that edits is no command and no arrow. -/
theorem editKey_edit {k : EditKey} (hr : s.running = true) (h : IsEdit k.key) :
    editKey f s k = if k.key = keyDel then Editor.delete f { s with quitPending := false }
      else if k.key = 8 then Editor.backspace f { s with quitPending := false }
      else if k.key = 13 ∨ k.key = 10 then Editor.insert f { s with quitPending := false } newline
      else Editor.insert f { s with quitPending := false } (BitVec.ofInt 8 k.key) := by
  have hdel : keyDel = 260 := rfl
  rw [IsEdit] at h
  rw [editKey, hr, if_neg (by simp), if_neg (by lia), if_neg (by lia), if_neg (by lia), if_neg (by lia), if_neg (by lia),
    typeKey, if_neg (by rw [keyLeft]; lia), if_neg (by rw [keyRight]; lia), if_neg (by rw [keyUp]; lia),
    if_neg (by rw [keyDown]; lia)]
  by_cases h₁ : k.key = keyDel
  · rw [if_pos h₁, if_pos h₁]
  rw [if_neg h₁, if_neg h₁]
  by_cases h₂ : k.key = 8
  · rw [if_pos h₂, if_pos h₂]
  rw [if_neg h₂, if_neg h₂]
  by_cases h₃ : k.key = 13 ∨ k.key = 10
  · rw [if_pos h₃, if_pos h₃]
  rw [if_neg h₃, if_neg h₃, if_pos (by lia)]

/-- The keys that edit do it as on a list. -/
theorem view_edit (hb : s.Bounded) {k : EditKey} (hr : s.running = true) (h : IsEdit k.key) :
    (editKey f s k).view f = (s.view f).edit k.key := by
  have hb' : Bounded { s with quitPending := false } := ⟨hb.nonneg, hb.inText, hb.inBuf⟩
  have hdel : keyDel = 260 := rfl
  rw [editKey_edit hr h, TextCursor.edit]
  rw [IsEdit] at h
  split
  · exact view_delete hb'
  split
  · exact view_backspace hb'
  split
  · exact view_insert hb' _
  · rw [if_pos (by lia)]
    exact view_insert hb' _

/-- Every other key leaves the text alone. -/
theorem text_kept {k : EditKey} (h : ¬(s.running = true ∧ IsEdit k.key)) : (editKey f s k).text f = s.text f := by
  rw [editKey]
  by_cases hr : s.running = true
  · rw [hr, Bool.not_true, if_neg (by simp)]
    replace h := fun he => h ⟨hr, he⟩
    rw [IsEdit] at h
    by_cases hnone : k.key = 0
    · rw [if_pos hnone]
    rw [if_neg hnone]
    by_cases hquit : k.key = 17
    · rw [if_pos hquit]
      split <;> rfl
    rw [if_neg hquit]
    by_cases hsave : k.key = 19
    · rw [if_pos hsave]
      obtain ⟨hum, hlen, -⟩ := save_same (f := f) (s := s) k.status
      rw [text, text, hum, hlen]
    rw [if_neg hsave]
    by_cases hback : k.key = 21
    · rw [if_pos hback]
      rfl
    rw [if_neg hback]
    by_cases hpage : k.key = 4
    · rw [if_pos hpage]
      rfl
    rw [if_neg hpage, typeKey]
    by_cases hleft : k.key = keyLeft
    · rw [if_pos hleft]
      rfl
    rw [if_neg hleft]
    by_cases hright : k.key = keyRight
    · rw [if_pos hright]
      rfl
    rw [if_neg hright]
    by_cases hup : k.key = keyUp
    · rw [if_pos hup, up]
      dsimp only
      split <;> rfl
    rw [if_neg hup]
    by_cases hdown : k.key = keyDown
    · rw [if_pos hdown]
      rfl
    rw [if_neg hdown, if_neg (fun he => h (.inl he)), if_neg (fun he => h (.inr (.inl he))), if_neg (fun he => h (.inr (.inr (he.imp_right .inl)))),
      if_neg (fun he => h (.inr (.inr (.inr (.inr he)))))]
    rfl
  · rw [if_pos (by simpa using hr)]

theorem rowCol_eq {i : Int} (hi : i ≤ s.len) : s.rowCol f i = screenPlace (f.text s.um) i.toNat :=
  rowColOfIndex_eq _ hi

theorem rowCol_col_lt {i : Int} (hi : i ≤ s.len) : (s.rowCol f i).2 < editCols := by
  rw [rowCol, rowColOfIndex_eq _ hi]
  exact Wrapped.place_col_lt _ _ _ (by decide) _

/-- Going to a row that the text has. -/
theorem movesTo_row (hb : s.Bounded) {row : Nat} (hex : ∃ k, k ≤ s.len.toNat ∧ (screenPlace (f.text s.um) k).1 = row) {s' : Editor}
    (hs' : s'.cursor = indexOfRowCol (f.text s.um) s.len row (s.rowCol f s.cursor).2) : MovesTo f s s' row := by
  have hbounds := indexOfRowCol_bounds (f.text s.um) (hb.nonneg.trans hb.inText) row (s.rowCol f s.cursor).2
  obtain ⟨hrow, hcol⟩ := indexOfRowCol_spec (f.text s.um) (rowCol_col_lt hb.inText) hex
  refine ⟨?_, fun i h0 hi he => ?_⟩
  · rw [rowCol_eq (hs' ▸ hbounds.2), hs', hrow]
  · rw [rowCol_eq hi] at he
    rw [hs', hcol i.toNat (by omega) he]
    omega

/-- Up goes to the row before. -/
theorem up_movesTo (hb : s.Bounded) {k : EditKey} (hr : s.running = true) (h : k.key = keyUp)
    (hrow : 0 < (s.rowCol f s.cursor).1) : MovesTo f s (editKey f s k) ((s.rowCol f s.cursor).1 - 1) := by
  have hkey : keyUp = 256 := rfl
  refine movesTo_row hb ?_ ?_
  · have hle : (s.rowCol f s.cursor).1 - 1 ≤ (Wrapped.place (· = newline) editCols (f.text s.um) s.cursor.toNat).1 := by
      rw [rowCol_eq hb.inText, screenPlace]
      lia
    obtain ⟨i, hi, he⟩ := Wrapped.exists_row hle
    have := hb.inText
    exact ⟨i, by lia, he⟩
  · rw [editKey, hr, if_neg (by simp), if_neg (by lia), if_neg (by lia), if_neg (by lia), if_neg (by lia), if_neg (by lia),
      typeKey, if_neg (by rw [keyLeft]; lia), if_neg (by rw [keyRight]; lia), if_pos h, Editor.up]
    dsimp only
    rw [rowCol] at hrow
    rw [if_pos hrow, rowCol]
    dsimp only
    congr 1
    lia

/-- Down goes to the row behind. -/
theorem down_movesTo (hb : s.Bounded) {k : EditKey} (hr : s.running = true) (h : k.key = keyDown)
    (hex : ∃ i, 0 ≤ i ∧ i ≤ s.len ∧ (s.rowCol f i).1 = (s.rowCol f s.cursor).1 + 1) :
    MovesTo f s (editKey f s k) ((s.rowCol f s.cursor).1 + 1) := by
  have hkey : keyDown = 257 := rfl
  obtain ⟨i, h0, hi, he⟩ := hex
  refine movesTo_row hb ⟨i.toNat, by lia, rowCol_eq hi ▸ he⟩ ?_
  rw [editKey, hr, if_neg (by simp), if_neg (by lia), if_neg (by lia), if_neg (by lia), if_neg (by lia), if_neg (by lia),
    typeKey, if_neg (by rw [keyLeft]; lia), if_neg (by rw [keyRight]; lia), if_neg (by rw [keyUp]; lia), if_pos h, Editor.down]
  rfl

/-- A place leads back to its index. -/
theorem index_rowCol {i : Int} (h0 : 0 ≤ i) (hi : i ≤ s.len) :
    indexOfRowCol (f.text s.um) s.len (s.rowCol f i).1 (s.rowCol f i).2 = i := by
  have hcol := rowCol_col_lt (f := f) hi
  rw [rowCol_eq hi] at hcol ⊢
  rw [(indexOfRowCol_spec (f.text s.um) hcol ⟨i.toNat, by omega, rfl⟩).2 i.toNat (by omega) rfl]
  omega

theorem right_key (hb : s.Bounded) (k : EditKey) : s.Right f k where
  edits := view_edit hb
  keeps := text_kept
  places _ h0 hi := index_rowCol h0 hi
  up := up_movesTo hb
  down := down_movesTo hb

end Editor

/-! ## A session -/

/-- `SYS_LOAD` returns -1, or no more than the length of the buffer. -/
theorem sysLoad_le (k : Kernel) (um : UserMem) (nameOff bufOff max : U32) :
    (k.sysLoad um nameOff bufOff max).2.2 = fail ∨ (k.sysLoad um nameOff bufOff max).2.2 ≤ max := by
  unfold Kernel.sysLoad
  split
  · exact .inl rfl
  · cases nameAt um nameOff with
    | none => exact .inl rfl
    | some uname =>
      dsimp only
      unfold Fs.read
      cases fsFind k.fs.dir (normalizeName uname) with
      | none => exact .inl rfl
      | some idx =>
        dsimp only
        by_cases hmax : max < (k.fs.dir.get idx).size
        · rw [if_pos hmax]
          exact .inl rfl
        · rw [if_neg hmax]
          exact .inr (BitVec.not_lt.mp hmax)

/-- The editor starts with the cursor in front of a text that the buffer holds. -/
theorem bounded_editOpen {f : EditFrame} {k : Kernel} {um : UserMem} {cwd name : List Byte} {s : Editor}
    (h : editOpen f k um cwd name = some s) : s.Bounded := by
  rw [editOpen] at h
  obtain ⟨⟨ok, path⟩, -, h⟩ := Option.bind_eq_some_iff.mp h
  dsimp only at h
  split at h
  · cases h
  · obtain rfl := Option.some.inj h
    have hsize : editSize = 131072 := rfl
    refine ⟨le_rfl, by dsimp only; split <;> lia, ?_⟩
    dsimp only
    split
    · rename_i hpos
      rcases sysLoad_le k (um.put f.pathOff.toNat path) f.pathOff f.bufOff (BitVec.ofNat 32 editSize) with hf | hle
      · rw [hf] at hpos
        exact absurd hpos (by decide)
      · generalize (k.sysLoad (um.put f.pathOff.toNat path) f.pathOff f.bufOff (BitVec.ofNat 32 editSize)).2.2 = n
          at hpos hle ⊢
        have hle' : n.toNat ≤ 131072 := BitVec.le_def.mp hle
        rw [BitVec.toInt_eq_toNat_of_lt (by lia)]
        lia
    · lia

/-- In every session of the editor the cursor stays in the text and the text in the buffer, and every key does what it should. -/
theorem editor_edits_list (f : EditFrame) (k : Kernel) (um : UserMem) (cwd name : List Byte) (s : Editor)
    (h : editOpen f k um cwd name = some s) (keys : List EditKey) :
    (∀ n, (runFrom (editKey f) s (keys.take n)).Bounded) ∧ Meets (editKey f) (Editor.Right f) s keys := by
  have hb := bounded_editOpen h
  exact ⟨fun n => inv_runFrom_all Editor.Bounded (fun _ k h => Editor.bounded_key h k) hb _,
    meets_of_inv_all Editor.Bounded (fun _ k h => Editor.bounded_key h k) (fun _ k h => Editor.right_key h k) hb keys⟩

/-! ## A session on a new file -/

/-- `buf` at the start of the segment, `path` behind it. -/
def lowFrame : EditFrame := ⟨0#32, 131072#32, rfl, by decide, .inr le_rfl⟩

/-- A name of one letter, in the root. -/
theorem buildPath_letter {out : List Byte} (hlen : out.length = 64) :
    buildPath [] [65#8] out 64 false = some (1, [65#8, 0#8, 0#8] ++ out.drop 3) := by
  match out, hlen with
  | _ :: _ :: _ :: rest, hlen =>
    simp [buildPath, foldPath, slash, dot, bufCopy, bufSet, pushComponent, behindComponent, buildPathEnd, dropSlash, endsInSlash]

/-- The editor opens a file that is not there, with an empty text. -/
theorem editor_edits_new_file : ∃ s,
    editOpen lowFrame (Kernel.fresh Dir.empty (Disk.blank 64#32 (by decide))) (fun _ => 0#8) [] [65#8] = some s ∧
      ∀ keys, (∀ n, (runFrom (editKey lowFrame) s (keys.take n)).Bounded) ∧
        Meets (editKey lowFrame) (Editor.Right lowFrame) s keys := by
  have h : (editOpen lowFrame (Kernel.fresh Dir.empty (Disk.blank 64#32 (by decide))) (fun _ => 0#8) [] [65#8]).isSome := by
    rw [editOpen, buildPath_letter (by simp [UserMem.bytes])]
    simp [nameMax]
  obtain ⟨s, hs⟩ := Option.isSome_iff_exists.mp h
  exact ⟨s, hs, editor_edits_list lowFrame _ _ _ _ s hs⟩

end MiniOs32
