import MiniOs32.Kernel.Keyboard

/-!
# Held keys

A keyboard sends the scancodes of its keys as they go down and up. Behind any such sequence the flags and `SYS_KEYSTATE` tell which
keys are held, if and only if no Shift and no left Ctrl is held and the right Ctrl has not outlasted the left one (`keyboard_iff`):
one flag serves two keys, and the scancodes that set it are not recorded in `key_down`. Two Shifts held and one of them let go leave
the flag clear (`keyboard_false`).
-/

namespace MiniOs32

/-! ## Keys and events -/

/-- A key of the keyboard: whether its code follows an `E0`, and the code. `60` cannot be one, because its break code would be the `E0`,
and behind an `E0` the codes of the Shifts are no keys. -/
structure Key where
  ext : Bool
  code : BitVec 7
  real : code ≠ 0x60#7 ∧ (ext = true → code ≠ 0x2A#7 ∧ code ≠ 0x36#7)
  deriving DecidableEq

/-- The two Shifts. -/
def Key.isShift (k : Key) : Bool := k.code = 0x2A#7 ∨ k.code = 0x36#7

/-- The two Ctrls. -/
def Key.isCtrl (k : Key) : Bool := k.code = 0x1D#7

/-- The key an argument of `SYS_KEYSTATE` names. -/
def Key.Named (k : Key) (key : U32) : Prop :=
  k.ext = false ∧ k.code.setWidth 32 = key ∨ k.ext = true ∧ ∃ v, (k.code, v) ∈ extKeys ∧ v.setWidth 32 = key

/-- A key goes down or up. A key that is held repeats its press. -/
structure KeyEvent where
  key : Key
  down : Bool
  deriving DecidableEq

/-- The scancodes of an event. -/
def KeyEvent.codes (e : KeyEvent) : List Byte :=
  (if e.key.ext then [0xE0#8] else []) ++ [if e.down then e.key.code.setWidth 8 else e.key.code.setWidth 8 ||| 0x80#8]

/-- The last event at one of some keys is a press. -/
def lastDown (p : Key → Bool) (evs : List KeyEvent) : Bool := (evs.reverse.find? fun e => p e.key).any KeyEvent.down

/-- A key is held. -/
def held (evs : List KeyEvent) (k : Key) : Bool := lastDown (fun k' => k' = k) evs

/-- The keyboard behind a sequence of events. -/
def keyboardAfter (evs : List KeyEvent) : Kbd := Kbd.initial.after (evs.flatMap KeyEvent.codes)

/-- The flags and `SYS_KEYSTATE` tell which keys are held. -/
structure KeysTracked (evs : List KeyEvent) (s : Kbd) : Prop where
  shift : s.shift = true ↔ ∃ k, k.isShift = true ∧ held evs k = true
  ctrl : s.ctrl = true ↔ ∃ k, k.isCtrl = true ∧ held evs k = true
  keystate : ∀ key, s.keystate key = 1#32 ↔ ∃ k : Key, k.Named key ∧ held evs k = true

/-- Of the Shifts, and of the Ctrls, none is held but by the last press; and none is held whose code is not recorded. -/
structure ModifiersApart (evs : List KeyEvent) : Prop where
  shift : ∀ k, k.isShift = true → held evs k = true → lastDown Key.isShift evs = true
  ctrl : ∀ k, k.isCtrl = true → held evs k = true → lastDown Key.isCtrl evs = true
  plain : ∀ k, k.ext = false → (k.isShift || k.isCtrl) = true → held evs k = false

/-! ## One event -/

section Event

variable {k s : Kbd} {evs : List KeyEvent} {e : KeyEvent} {p : Key → Bool}

/-- The part of the keyboard that the ring of characters is not. -/
structure SameKeys (k k' : Kbd) : Prop where
  shift : k'.shift = k.shift
  ctrl : k'.ctrl = k.ctrl
  ext : k'.ext = k.ext
  keyDown : k'.keyDown = k.keyDown
  extKeyDown : k'.extKeyDown = k.extKeyDown

theorem push_sameKeys (k : Kbd) (v : BitVec 16) : SameKeys k (k.push v) := by
  unfold Kbd.push
  split <;> exact ⟨rfl, rfl, rfl, rfl, rfl⟩

theorem pressPlain_sameKeys (k : Kbd) (base : BitVec 7) :
    SameKeys { k with keyDown := fun i => if i = base then true else k.keyDown i } (k.pressPlain base).1 := by
  unfold Kbd.pressPlain
  simp only
  split
  · exact ⟨rfl, rfl, rfl, rfl, rfl⟩
  · split
    · exact push_sameKeys _ _
    · exact ⟨rfl, rfl, rfl, rfl, rfl⟩

theorem pressExt_sameKeys (k : Kbd) (base : BitVec 7) :
    SameKeys { k with extKeyDown := fun i => if i = base then true else k.extKeyDown i, ext := false } (k.pressExt base).1 := by
  unfold Kbd.pressExt
  simp only
  split
  · exact push_sameKeys _ _
  · split_ifs <;> exact ⟨rfl, rfl, rfl, rfl, rfl⟩

/-- A make code stands for its key. -/
theorem make_code : ∀ c : BitVec 7, c.setWidth 8 ≠ 0xE0#8 ∧ (c.setWidth 8 = 0x2A#8 ↔ c = 0x2A#7) ∧ (c.setWidth 8 = 0x36#8 ↔ c = 0x36#7) ∧
    c.setWidth 8 ≠ 0xAA#8 ∧ c.setWidth 8 ≠ 0xB6#8 ∧ (c.setWidth 8 = 0x1D#8 ↔ c = 0x1D#7) ∧ c.setWidth 8 ≠ 0x9D#8 ∧
    c.setWidth 8 &&& 0x80#8 = 0#8 ∧ (c.setWidth 8).setWidth 7 = c := by
  decide

/-- A break code stands for its key. -/
theorem break_code : ∀ c : BitVec 7, (c.setWidth 8 ||| 0x80#8 = 0xE0#8 ↔ c = 0x60#7) ∧ c.setWidth 8 ||| 0x80#8 ≠ 0x2A#8 ∧
    c.setWidth 8 ||| 0x80#8 ≠ 0x36#8 ∧ (c.setWidth 8 ||| 0x80#8 = 0xAA#8 ↔ c = 0x2A#7) ∧ (c.setWidth 8 ||| 0x80#8 = 0xB6#8 ↔ c = 0x36#7) ∧
    c.setWidth 8 ||| 0x80#8 ≠ 0x1D#8 ∧ (c.setWidth 8 ||| 0x80#8 = 0x9D#8 ↔ c = 0x1D#7) ∧
    (c.setWidth 8 ||| 0x80#8) &&& 0x80#8 ≠ 0#8 ∧ (c.setWidth 8 ||| 0x80#8).setWidth 7 = c := by
  decide

/-- What a key does to the flags and to the keys recorded. -/
def Kbd.moved (k : Kbd) (ext : Bool) (c : BitVec 7) (down : Bool) : Kbd :=
  if c = 0x2A#7 ∨ c = 0x36#7 then { k with shift := down, ext := false }
  else if c = 0x1D#7 then { k with ctrl := down, ext := false }
  else if ext then { k with extKeyDown := fun i => if i = c then down else k.extKeyDown i, ext := false }
  else { k with keyDown := fun i => if i = c then down else k.keyDown i, ext := false }

theorem handle_make (k : Kbd) (c : BitVec 7) : SameKeys (k.moved k.ext c true) (k.handleScancode (c.setWidth 8)).1 := by
  obtain ⟨h0, h2a, h36, haa, hb6, h1d, h9d, htop, hbase⟩ := make_code c
  unfold Kbd.handleScancode Kbd.moved
  rw [if_neg h0]
  by_cases hs : c = 0x2A#7 ∨ c = 0x36#7
  · rw [if_pos (hs.imp h2a.mpr h36.mpr), if_pos hs]
    exact ⟨rfl, rfl, rfl, rfl, rfl⟩
  · have hs' : ¬(c.setWidth 8 = 0x2A#8 ∨ c.setWidth 8 = 0x36#8) := fun h => hs (h.imp h2a.mp h36.mp)
    rw [if_neg hs', if_neg (not_or.mpr ⟨haa, hb6⟩), if_neg hs]
    by_cases hc : c = 0x1D#7
    · rw [if_pos (h1d.mpr hc), if_pos hc]
      exact ⟨rfl, rfl, rfl, rfl, rfl⟩
    · rw [if_neg (fun h => hc (h1d.mp h)), if_neg h9d, if_neg hc]
      simp only [hbase]
      rw [if_neg (not_not.mpr htop)]
      cases hext : k.ext with
      | true => exact pressExt_sameKeys k c
      | false =>
        have h := pressPlain_sameKeys k c
        exact ⟨h.shift, h.ctrl, h.ext.trans hext, h.keyDown, h.extKeyDown⟩

theorem handle_break (k : Kbd) {c : BitVec 7} (hc60 : c ≠ 0x60#7) :
    SameKeys (k.moved k.ext c false) (k.handleScancode (c.setWidth 8 ||| 0x80#8)).1 := by
  obtain ⟨he0, h2a, h36, haa, hb6, h1d, h9d, htop, hbase⟩ := break_code c
  unfold Kbd.handleScancode Kbd.moved
  rw [if_neg (fun h => hc60 (he0.mp h)), if_neg (not_or.mpr ⟨h2a, h36⟩)]
  by_cases hs : c = 0x2A#7 ∨ c = 0x36#7
  · rw [if_pos (hs.imp haa.mpr hb6.mpr), if_pos hs]
    exact ⟨rfl, rfl, rfl, rfl, rfl⟩
  · have hs' : ¬(c.setWidth 8 ||| 0x80#8 = 0xAA#8 ∨ c.setWidth 8 ||| 0x80#8 = 0xB6#8) := fun h => hs (h.imp haa.mp hb6.mp)
    rw [if_neg hs', if_neg h1d, if_neg hs]
    by_cases hc : c = 0x1D#7
    · rw [if_pos (h9d.mpr hc), if_pos hc]
      exact ⟨rfl, rfl, rfl, rfl, rfl⟩
    · rw [if_neg (fun h => hc (h9d.mp h)), if_neg hc]
      simp only [hbase]
      rw [if_pos htop]
      cases hext : k.ext with
      | true => exact ⟨rfl, rfl, rfl, rfl, rfl⟩
      | false => exact ⟨rfl, rfl, rfl, rfl, rfl⟩

/-- An event moves its key. -/
theorem after_codes (k : Kbd) (e : KeyEvent) (hext : k.ext = false) :
    SameKeys (k.moved e.key.ext e.key.code e.down) (k.after e.codes) := by
  have hcode : ∀ k : Kbd, SameKeys (k.moved k.ext e.key.code e.down)
      (k.handleScancode (if e.down then e.key.code.setWidth 8 else e.key.code.setWidth 8 ||| 0x80#8)).1 := by
    intro k
    cases e.down with
    | true => exact handle_make k e.key.code
    | false => exact handle_break k e.key.real.1
  unfold KeyEvent.codes
  cases hkey : e.key.ext with
  | true =>
    -- the `E0` is remembered for the code behind it
    have h := hcode { k with ext := true }
    have hmoved : ({ k with ext := true } : Kbd).moved true e.key.code e.down = k.moved true e.key.code e.down := by
      unfold Kbd.moved
      split_ifs <;> rfl
    rw [show ({ k with ext := true } : Kbd).ext = true from rfl, hmoved] at h
    exact h
  | false =>
    have h := hcode k
    rw [hext] at h
    exact h

/-! ## Sequences of events -/

theorem lastDown_append (p : Key → Bool) (evs : List KeyEvent) (e : KeyEvent) :
    lastDown p (evs ++ [e]) = if p e.key then e.down else lastDown p evs := by
  unfold lastDown
  rw [List.reverse_append, List.reverse_singleton, List.singleton_append, List.find?_cons]
  cases p e.key <;> rfl

/-- The keys a scancode is recorded for. -/
def Recorded (c : BitVec 7) : Prop := c ≠ 0x2A#7 ∧ c ≠ 0x36#7 ∧ c ≠ 0x1D#7

instance (c : BitVec 7) : Decidable (Recorded c) := inferInstanceAs (Decidable (_ ∧ _ ∧ _))

/-- What the keyboard has recorded of a sequence of events. -/
structure Tracking (evs : List KeyEvent) (s : Kbd) : Prop where
  ext : s.ext = false
  shift : s.shift = lastDown Key.isShift evs
  ctrl : s.ctrl = lastDown Key.isCtrl evs
  keyDown : ∀ c, Recorded c → s.keyDown c = lastDown (fun k => k.ext = false ∧ k.code = c) evs
  unrecorded : ∀ c, ¬Recorded c → s.keyDown c = false
  extKeyDown : ∀ c, Recorded c → s.extKeyDown c = lastDown (fun k => k.ext = true ∧ k.code = c) evs

theorem moved_shift (k : Kbd) (ext : Bool) (c : BitVec 7) (down : Bool) :
    (k.moved ext c down).shift = if c = 0x2A#7 ∨ c = 0x36#7 then down else k.shift := by
  unfold Kbd.moved
  split_ifs <;> rfl

theorem moved_ctrl (k : Kbd) (ext : Bool) (c : BitVec 7) (down : Bool) :
    (k.moved ext c down).ctrl = if c = 0x1D#7 then down else k.ctrl := by
  unfold Kbd.moved
  split_ifs with h₁ h₂
  · subst h₂
    exact absurd h₁ (by decide)
  all_goals rfl

theorem moved_recorded (k : Kbd) (ext : Bool) {c : BitVec 7} (hc : Recorded c) (down : Bool) : k.moved ext c down =
    if ext then { k with extKeyDown := fun i => if i = c then down else k.extKeyDown i, ext := false }
    else { k with keyDown := fun i => if i = c then down else k.keyDown i, ext := false } := by
  unfold Kbd.moved
  rw [if_neg (not_or.mpr ⟨hc.1, hc.2.1⟩), if_neg hc.2.2]

theorem moved_unrecorded (k : Kbd) (ext : Bool) {c : BitVec 7} (hc : ¬Recorded c) (down : Bool) :
    (k.moved ext c down).keyDown = k.keyDown ∧ (k.moved ext c down).extKeyDown = k.extKeyDown := by
  unfold Kbd.moved
  split_ifs with h₁ h₂
  · exact ⟨rfl, rfl⟩
  · exact ⟨rfl, rfl⟩
  all_goals exact absurd ⟨fun h => h₁ (.inl h), fun h => h₁ (.inr h), h₂⟩ hc

theorem moved_keyDown (k : Kbd) (ext : Bool) (c : BitVec 7) (down : Bool) (i : BitVec 7) :
    (k.moved ext c down).keyDown i = if Recorded c ∧ ext = false ∧ c = i then down else k.keyDown i := by
  by_cases hc : Recorded c
  · rw [moved_recorded k ext hc]
    cases ext with
    | true => rw [if_pos rfl, if_neg fun h => Bool.noConfusion h.2.1]
    | false =>
      rw [if_neg Bool.false_ne_true]
      simp only [hc, true_and, eq_comm (a := i)]
  · rw [(moved_unrecorded k ext hc down).1, if_neg fun h => hc h.1]

theorem moved_extKeyDown (k : Kbd) (ext : Bool) (c : BitVec 7) (down : Bool) (i : BitVec 7) :
    (k.moved ext c down).extKeyDown i = if Recorded c ∧ ext = true ∧ c = i then down else k.extKeyDown i := by
  by_cases hc : Recorded c
  · rw [moved_recorded k ext hc]
    cases ext with
    | true =>
      rw [if_pos rfl]
      simp only [hc, true_and, eq_comm (a := i)]
    | false => rw [if_neg Bool.false_ne_true, if_neg fun h => Bool.noConfusion h.2.1]
  · rw [(moved_unrecorded k ext hc down).2, if_neg fun h => hc h.1]

theorem moved_ext (k : Kbd) (ext : Bool) (c : BitVec 7) (down : Bool) : (k.moved ext c down).ext = false := by
  unfold Kbd.moved
  split_ifs <;> rfl

theorem tracking_step (h : Tracking evs s) (e : KeyEvent) : Tracking (evs ++ [e]) (s.after e.codes) := by
  obtain ⟨hshift, hctrl, hext, hkey, hextKey⟩ := after_codes s e h.ext
  refine ⟨hext.trans (moved_ext ..), ?_, ?_, fun c hc => ?_, fun c hc => ?_, fun c hc => ?_⟩
  · rw [hshift, moved_shift, lastDown_append, h.shift]
    simp only [Key.isShift, decide_eq_true_eq]
  · rw [hctrl, moved_ctrl, lastDown_append, h.ctrl]
    simp only [Key.isCtrl, decide_eq_true_eq]
  · rw [hkey, moved_keyDown, lastDown_append, h.keyDown c hc]
    by_cases hk : e.key.ext = false ∧ e.key.code = c
    · rw [if_pos ⟨hk.2 ▸ hc, hk⟩, if_pos (decide_eq_true hk)]
    · rw [if_neg (fun h => hk h.2), if_neg (by simpa using hk)]
  · rw [hkey, moved_keyDown, h.unrecorded c hc]
    refine if_neg ?_
    rintro ⟨hrec, -, rfl⟩
    exact hc hrec
  · rw [hextKey, moved_extKeyDown, lastDown_append, h.extKeyDown c hc]
    by_cases hk : e.key.ext = true ∧ e.key.code = c
    · rw [if_pos ⟨hk.2 ▸ hc, hk⟩, if_pos (decide_eq_true hk)]
    · rw [if_neg (fun h => hk h.2), if_neg (by simpa using hk)]

theorem keyboardAfter_tracking (evs : List KeyEvent) : Tracking evs (keyboardAfter evs) := by
  induction evs using List.reverseRecOn with
  | nil => exact ⟨rfl, rfl, rfl, fun _ _ => rfl, fun _ _ => rfl, fun _ _ => rfl⟩
  | append_singleton evs e ih =>
    have hrun : keyboardAfter (evs ++ [e]) = (keyboardAfter evs).after e.codes := by
      simp [keyboardAfter, Kbd.after, List.flatMap_append, List.foldl_append]
    rw [hrun]
    exact tracking_step ih e

theorem find_key {l : List KeyEvent} (h : (l.find? fun e => p e.key) = some e) : (l.find? fun e' => e'.key = e.key) = some e := by
  induction l with
  | nil => cases h
  | cons e' l ih =>
    rw [List.find?_cons] at h ⊢
    cases hp : p e'.key with
    | true =>
      rw [hp] at h
      cases h
      simp
    | false =>
      rw [hp] at h
      have hne : e'.key ≠ e.key := by
        intro hkey
        have hpe := List.find?_some h
        rw [← hkey, hp] at hpe
        cases hpe
      rw [decide_eq_false hne]
      exact ih h

/-- A last press is the press of a key that is held. -/
theorem held_of_lastDown (h : lastDown p evs = true) : ∃ k, p k = true ∧ held evs k = true := by
  obtain ⟨e, he, hdown⟩ := (Option.any_eq_true _ _).mp h
  have hp : p e.key = true := List.find?_some (p := fun e : KeyEvent => p e.key) he
  refine ⟨e.key, hp, ?_⟩
  unfold held lastDown
  rw [find_key he]
  exact hdown

theorem held_eq {x : Bool} {c : BitVec 7} {k : Key} (hx : k.ext = x) (hc : k.code = c) :
    lastDown (fun k => k.ext = x ∧ k.code = c) evs = held evs k := by
  unfold held
  congr 1
  funext k'
  subst hx hc
  cases k
  cases k'
  simp

/-! ## What is told of the keys -/

/-- A flag tells whether one of its keys is held, unless one is held that was not the last to be pressed. -/
theorem flag_iff (p : Key → Bool) (evs : List KeyEvent) : (lastDown p evs = true ↔ ∃ k, p k = true ∧ held evs k = true) ↔
    ∀ k, p k = true → held evs k = true → lastDown p evs = true :=
  ⟨fun h k hp hk => h.mpr ⟨k, hp, hk⟩, fun h => ⟨held_of_lastDown, fun ⟨k, hp, hk⟩ => h k hp hk⟩⟩

/-- The key a scancode is recorded for is told to be held when it is. -/
theorem recorded_iff {x : Bool} {c : BitVec 7} : lastDown (fun k => k.ext = x ∧ k.code = c) evs = true ↔
    ∃ k : Key, (k.ext = x ∧ k.code = c) ∧ held evs k = true := by
  constructor
  · intro h
    obtain ⟨k, hk, hheld⟩ := held_of_lastDown h
    exact ⟨k, of_decide_eq_true hk, hheld⟩
  · rintro ⟨k, ⟨hx, hc⟩, hheld⟩
    rwa [held_eq hx hc]

theorem extKeys_recorded : ∀ e ∈ extKeys, Recorded e.1 ∧ 128 ≤ (e.2.setWidth 32).toNat := by
  simp [extKeys, Recorded]

theorem extKeys_apart : ∀ e ∈ extKeys, ∀ e' ∈ extKeys, e.2.setWidth 32 = e'.2.setWidth 32 → e = e' := by
  simp [extKeys]

theorem word_of_bool (b : Bool) : ((if b then 1#32 else 0#32) = (1#32 : U32)) ↔ b = true := by cases b <;> decide

/-- `SYS_KEYSTATE` on a scancode. -/
theorem keystate_plain (h : Tracking evs s) {key : U32} (hkey : key.toNat < 128) : s.keystate key = 1#32 ↔
    Recorded (key.setWidth 7) ∧ ∃ k : Key, (k.ext = false ∧ k.code = key.setWidth 7) ∧ held evs k = true := by
  unfold Kbd.keystate
  simp only
  rw [if_pos hkey, word_of_bool]
  by_cases hc : Recorded (key.setWidth 7)
  · rw [h.keyDown _ hc, recorded_iff, and_iff_right hc]
  · rw [h.unrecorded _ hc]
    exact iff_of_false Bool.false_ne_true fun hk => hc hk.1

theorem named_plain {k : Key} {key : U32} (hkey : key.toNat < 128) : k.Named key ↔ k.ext = false ∧ k.code = key.setWidth 7 := by
  have hwidth : k.code.setWidth 32 = key ↔ k.code = key.setWidth 7 := by
    constructor
    · rintro rfl
      bv_omega
    · intro h
      rw [h]
      bv_omega
  unfold Key.Named
  rw [hwidth]
  refine or_iff_left ?_
  rintro ⟨-, v, hv, rfl⟩
  have hlarge : 128 ≤ (v.setWidth 32).toNat := (extKeys_recorded _ hv).2
  omega

/-- `SYS_KEYSTATE` on the number of a key behind an `E0`. -/
theorem keystate_ext (h : Tracking evs s) {key : U32} (hkey : 128 ≤ key.toNat) : s.keystate key = 1#32 ↔
    ∃ k : Key, k.Named key ∧ held evs k = true := by
  have hplain : ∀ k : Key, k.Named key ↔ k.ext = true ∧ ∃ v, (k.code, v) ∈ extKeys ∧ v.setWidth 32 = key := by
    intro k
    refine or_iff_right ?_
    rintro ⟨-, rfl⟩
    bv_omega
  unfold Kbd.keystate
  simp only [hplain]
  rw [if_neg (by omega)]
  cases hfind : extKeys.find? fun e => e.2.setWidth 32 = key with
  | none =>
    refine iff_of_false (show (0#32 : U32) ≠ 1#32 by decide) ?_
    rintro ⟨k, ⟨-, v, hv, rfl⟩, -⟩
    have := List.find?_eq_none.mp hfind _ hv
    simp at this
  | some e =>
    have hmem := List.mem_of_find?_eq_some hfind
    have hval : e.2.setWidth 32 = key := by simpa using List.find?_some hfind
    simp only
    rw [word_of_bool, h.extKeyDown _ (extKeys_recorded e hmem).1, recorded_iff]
    constructor
    · rintro ⟨k, ⟨hx, hc⟩, hheld⟩
      exact ⟨k, ⟨hx, e.2, hc ▸ hmem, hval⟩, hheld⟩
    · rintro ⟨k, ⟨hx, v, hv, hkv⟩, hheld⟩
      have heq := extKeys_apart _ hv e hmem (hkv.trans hval.symm)
      exact ⟨k, ⟨hx, congrArg Prod.fst heq⟩, hheld⟩

theorem not_recorded_iff (k : Key) : (k.isShift || k.isCtrl) = true ↔ ¬Recorded k.code := by
  unfold Key.isShift Key.isCtrl Recorded
  simp only [Bool.or_eq_true, decide_eq_true_eq]
  tauto

/-- `SYS_KEYSTATE` tells which keys are held, but for the modifiers. -/
theorem keystate_iff (h : Tracking evs s) : (∀ key, s.keystate key = 1#32 ↔ ∃ k : Key, k.Named key ∧ held evs k = true) ↔
    ∀ k : Key, k.ext = false → (k.isShift || k.isCtrl) = true → held evs k = false := by
  constructor
  · intro hall k hext hmod
    have hlt : (k.code.setWidth 32 : U32).toNat < 128 := by bv_omega
    have hcode : (k.code.setWidth 32 : U32).setWidth 7 = k.code := by bv_omega
    by_contra hheld
    have hstate := (hall (k.code.setWidth 32)).mpr ⟨k, .inl ⟨hext, rfl⟩, by simpa using hheld⟩
    rw [keystate_plain h hlt, hcode] at hstate
    exact (not_recorded_iff k).mp hmod hstate.1
  · intro hmods key
    by_cases hkey : key.toNat < 128
    · rw [keystate_plain h hkey]
      simp only [named_plain hkey]
      refine and_iff_right_of_imp ?_
      rintro ⟨k, ⟨hext, hcode⟩, hheld⟩
      by_contra hrec
      rw [hmods k hext ((not_recorded_iff k).mpr (hcode ▸ hrec))] at hheld
      cases hheld
    · exact keystate_ext h (by omega)

end Event

/-- The flags and `SYS_KEYSTATE` tell which keys are held if, and only if, none is held whose flag another key has cleared, or whose
code is not recorded. -/
theorem keyboard_iff (evs : List KeyEvent) : KeysTracked evs (keyboardAfter evs) ↔ ModifiersApart evs := by
  have h := keyboardAfter_tracking evs
  have hshift := flag_iff Key.isShift evs
  have hctrl := flag_iff Key.isCtrl evs
  rw [← h.shift] at hshift
  rw [← h.ctrl] at hctrl
  constructor
  · intro ht
    refine ⟨?_, ?_, (keystate_iff h).mp ht.keystate⟩
    · rw [← h.shift]
      exact hshift.mp ht.shift
    · rw [← h.ctrl]
      exact hctrl.mp ht.ctrl
  · intro ha
    refine ⟨hshift.mpr ?_, hctrl.mpr ?_, (keystate_iff h).mpr ha.plain⟩
    · rw [h.shift]
      exact ha.shift
    · rw [h.ctrl]
      exact ha.ctrl

/-- The left Shift. -/
def leftShift : Key := ⟨false, 0x2A#7, by decide⟩

/-- The right Shift. -/
def rightShift : Key := ⟨false, 0x36#7, by decide⟩

/-- Both Shifts go down, and the right one up again: the left one is held, and the flag is clear. -/
theorem keyboard_false : ¬∀ evs : List KeyEvent, KeysTracked evs (keyboardAfter evs) := by
  intro h
  have hflag := (h [⟨leftShift, true⟩, ⟨rightShift, true⟩, ⟨rightShift, false⟩]).shift.mpr ⟨leftShift, by decide, by decide⟩
  exact absurd hflag (by decide)

end MiniOs32
