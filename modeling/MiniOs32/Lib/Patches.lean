import MiniOs32.Lib.Words

/-!
# Patching words into byte strings

Several byte strings, named by keys, and 32-bit words written into them one after the other. When the words written do not
overlap, each one is there in the end, and every byte outside them is what it was.
-/

namespace MiniOs32

/-- The word at an offset of a byte string. -/
def wordAt (buf : List Byte) (off : Nat) : Option U32 :=
  match buf[off]?, buf[off + 1]?, buf[off + 2]?, buf[off + 3]? with
  | some b0, some b1, some b2, some b3 => some (word32 b0 b1 b2 b3)
  | _, _, _, _ => none

/-- A word written at an offset. -/
def patchAt (buf : List Byte) (off : Nat) (w : U32) : List Byte := buf.take off ++ (le32 w ++ buf.drop (off + 4))

variable {buf : List Byte} {off : Nat}

theorem patchAt_length (h : off + 4 ≤ buf.length) (w : U32) : (patchAt buf off w).length = buf.length := by
  simp [patchAt]
  omega

/-- The bytes after a word is written. -/
theorem patchAt_getElem? (h : off + 4 ≤ buf.length) (w : U32) (k : Nat) :
    (patchAt buf off w)[k]? = if off ≤ k ∧ k < off + 4 then (le32 w)[k - off]? else buf[k]? := by
  have htake : (buf.take off).length = off := by simp; omega
  unfold patchAt
  rcases Nat.lt_or_ge k off with hk | hk
  · rw [List.getElem?_append_left (by omega), List.getElem?_take_of_lt hk, if_neg (by omega)]
  · rw [List.getElem?_append_right (by omega), htake]
    rcases Nat.lt_or_ge k (off + 4) with hk' | hk'
    · rw [List.getElem?_append_left (by simp; omega), if_pos ⟨hk, hk'⟩]
    · rw [List.getElem?_append_right (by simp; omega), List.getElem?_drop, if_neg (by omega), le32_length]
      congr 1
      omega

/-- The word just written is read back. -/
theorem wordAt_patchAt (h : off + 4 ≤ buf.length) (w : U32) : wordAt (patchAt buf off w) off = some w := by
  unfold wordAt
  rw [patchAt_getElem? h, patchAt_getElem? h, patchAt_getElem? h, patchAt_getElem? h, if_pos (by lia), if_pos (by lia),
    if_pos (by lia), if_pos (by lia)]
  simp only [Nat.add_sub_cancel_left, Nat.sub_self, le32]
  simp [word32_le32]

/-- A word is read from its four bytes only. -/
theorem wordAt_congr {buf' : List Byte} (h : ∀ k, off ≤ k → k < off + 4 → buf'[k]? = buf[k]?) : wordAt buf' off = wordAt buf off := by
  unfold wordAt
  rw [h off (by lia) (by lia), h (off + 1) (by lia) (by lia), h (off + 2) (by lia) (by lia),
    h (off + 3) (by lia) (by lia)]

variable {κ : Type*} [DecidableEq κ]

/-- A word to be written into the byte string of a key. -/
structure Patch (κ : Type*) where
  sec : κ
  off : Nat
  word : U32

/-- The byte at an offset is one of those a patch writes. -/
def Patch.Covers (p : Patch κ) (sec : κ) (k : Nat) : Prop := p.sec = sec ∧ p.off ≤ k ∧ k < p.off + 4

/-- Two patches that do not overlap. -/
def Patch.Apart (p q : Patch κ) : Prop := p.sec = q.sec → p.off + 4 ≤ q.off ∨ q.off + 4 ≤ p.off

/-- A patch inside its byte string. -/
def Patch.Inside (bufs : κ → List Byte) (p : Patch κ) : Prop := p.off + 4 ≤ (bufs p.sec).length

/-- A patch written. -/
def Patch.apply (bufs : κ → List Byte) (p : Patch κ) : κ → List Byte :=
  fun sec => if sec = p.sec then patchAt (bufs p.sec) p.off p.word else bufs sec

/-- Patches written in order. -/
def applyPatches (ps : List (Patch κ)) (bufs : κ → List Byte) : κ → List Byte := ps.foldl Patch.apply bufs

theorem Patch.apply_length {bufs : κ → List Byte} {p : Patch κ} (h : p.Inside bufs) (sec : κ) :
    (p.apply bufs sec).length = (bufs sec).length := by
  unfold Patch.apply
  split
  · rename_i hs
    rw [patchAt_length h, hs]
  · rfl

/-- A patch leaves the bytes it does not cover. -/
theorem Patch.apply_getElem? {bufs : κ → List Byte} {p : Patch κ} (h : p.Inside bufs) {sec : κ} {k : Nat}
    (hc : ¬p.Covers sec k) : (p.apply bufs sec)[k]? = (bufs sec)[k]? := by
  unfold Patch.apply
  split
  · rename_i hs
    subst hs
    rw [patchAt_getElem? h, if_neg]
    intro hk
    exact hc ⟨rfl, hk⟩
  · rfl

/-- Patches keep the lengths. -/
theorem applyPatches_length {ps : List (Patch κ)} {bufs : κ → List Byte} (h : ∀ p ∈ ps, p.Inside bufs) (sec : κ) :
    (applyPatches ps bufs sec).length = (bufs sec).length := by
  induction ps generalizing bufs with
  | nil => rfl
  | cons p ps ih =>
    have hp := h p (List.mem_cons_self ..)
    rw [applyPatches, List.foldl_cons, ← applyPatches, ih, Patch.apply_length hp]
    intro q hq
    rw [Patch.Inside, Patch.apply_length hp]
    exact h q (List.mem_cons_of_mem p hq)

/-- Bytes no patch covers are left alone. -/
theorem applyPatches_getElem? {ps : List (Patch κ)} {bufs : κ → List Byte} (h : ∀ p ∈ ps, p.Inside bufs) {sec : κ} {k : Nat}
    (hc : ∀ p ∈ ps, ¬p.Covers sec k) : (applyPatches ps bufs sec)[k]? = (bufs sec)[k]? := by
  induction ps generalizing bufs with
  | nil => rfl
  | cons p ps ih =>
    have hp := h p (List.mem_cons_self ..)
    rw [applyPatches, List.foldl_cons, ← applyPatches, ih, Patch.apply_getElem? hp (hc p (List.mem_cons_self ..))]
    · intro q hq
      rw [Patch.Inside, Patch.apply_length hp]
      exact h q (List.mem_cons_of_mem p hq)
    · intro q hq
      exact hc q (List.mem_cons_of_mem p hq)

/-- Patches that do not overlap are all there in the end. -/
theorem applyPatches_word {ps : List (Patch κ)} {bufs : κ → List Byte} (h : ∀ p ∈ ps, p.Inside bufs)
    (ha : ps.Pairwise Patch.Apart) {p : Patch κ} (hp : p ∈ ps) : wordAt (applyPatches ps bufs p.sec) p.off = some p.word := by
  induction ps generalizing bufs with
  | nil => cases hp
  | cons q ps ih =>
    have hq := h q (List.mem_cons_self ..)
    have hrest : ∀ r ∈ ps, r.Inside (q.apply bufs) := by
      intro r hr
      rw [Patch.Inside, Patch.apply_length hq]
      exact h r (List.mem_cons_of_mem q hr)
    rw [List.pairwise_cons] at ha
    rw [applyPatches, List.foldl_cons, ← applyPatches]
    rcases List.mem_cons.1 hp with heq | hmem
    · -- the patches after this one leave its word alone
      subst heq
      have hkeep : ∀ k, p.off ≤ k → k < p.off + 4 → (applyPatches ps (p.apply bufs) p.sec)[k]? = (p.apply bufs p.sec)[k]? := by
        intro k hk hk'
        refine applyPatches_getElem? hrest ?_
        rintro r hr ⟨hs, hrk, hrk'⟩
        have := ha.1 r hr hs.symm
        omega
      rw [wordAt_congr hkeep, Patch.apply, if_pos rfl]
      exact wordAt_patchAt hq p.word
    · exact ih hrest ha.2 hmem

end MiniOs32
