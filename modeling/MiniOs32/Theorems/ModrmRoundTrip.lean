import MiniOs32.As.Insn
import MiniOs32.Lib.Modrm

/-!
# What `emit_modrm` emits, read back

For every memory operand and every middle field the bytes of `emit_modrm` are decoded to the same field and the same address, with
nothing left (`modrm_round_trip`).
-/

namespace MiniOs32

/-! ## Bytes emitted -/

/-- The notes, replaced. -/
def Asm.withTrace (s : Asm) (t : Trace) : Asm := { s with trace := t }

/-- A computation emits bytes and does nothing else, but for its notes. -/
def EmitsBytes (x : AsmM Unit) (bytes : List Byte) : Prop := ∀ s : Asm, ∃ t, x s = some ((), (bytes.foldl Asm.emit8 s).withTrace t)

theorem Asm.emit8_withTrace (s : Asm) (t : Trace) (b : Byte) : (s.withTrace t).emit8 b = (s.emit8 b).withTrace t := by
  unfold Asm.emit8 Asm.withTrace
  dsimp only
  repeat' split
  all_goals rfl

theorem Asm.foldl_emit8_withTrace (t : Trace) (bytes : List Byte) :
    ∀ s : Asm, bytes.foldl Asm.emit8 (s.withTrace t) = (bytes.foldl Asm.emit8 s).withTrace t := by
  induction bytes with
  | nil => intro s; rfl
  | cons b bytes ih =>
    intro s
    rw [List.foldl_cons, List.foldl_cons, Asm.emit8_withTrace, ih]

/-- The bytes of a word by way of its halves. -/
theorem le32_halves (v : U32) : le32 v =
    [(v &&& 0xFFFF#32).extractLsb' 0 8, (v &&& 0xFFFF#32).extractLsb' 8 8, (v.sshiftRight 16 &&& 0xFFFF#32).extractLsb' 0 8,
      (v.sshiftRight 16 &&& 0xFFFF#32).extractLsb' 8 8] := by
  have hlow : ∀ k < 9, (v &&& 0xFFFF#32).extractLsb' k 8 = v.extractLsb' k 8 := by
    intro k hk
    ext i hi
    have hmask : (0xFFFF#32).getLsbD (k + i) = true := by
      have : ∀ j < 16, (0xFFFF#32).getLsbD j = true := by decide
      exact this _ (by omega)
    simp [hmask]
  have hhigh : ∀ k < 9, (v.sshiftRight 16 &&& 0xFFFF#32).extractLsb' k 8 = v.extractLsb' (16 + k) 8 := by
    intro k hk
    ext i hi
    have hmask : (0xFFFF#32).getLsbD (k + i) = true := by
      have : ∀ j < 16, (0xFFFF#32).getLsbD j = true := by decide
      exact this _ (by omega)
    have hlt : 16 + (k + i) < 32 := by omega
    simp [hmask, BitVec.getLsbD_sshiftRight, hlt, Nat.add_assoc]
    omega
  rw [hlow 0 (by decide), hlow 8 (by decide), hhigh 0 (by decide), hhigh 8 (by decide)]
  rfl

namespace EmitsBytes

variable {x y : AsmM Unit} {bs bs' : List Byte}

theorem seq (hx : EmitsBytes x bs) (hy : EmitsBytes y bs') : EmitsBytes (x >>= fun _ => y) (bs ++ bs') := by
  intro s
  obtain ⟨t, ht⟩ := hx s
  obtain ⟨t', ht'⟩ := hy ((bs.foldl Asm.emit8 s).withTrace t)
  refine ⟨t', ?_⟩
  rw [Asm.foldl_emit8_withTrace] at ht'
  rw [List.foldl_append]
  change (x s).bind (fun p => y p.2) = _
  rw [ht]
  exact ht'

theorem byte (b : Byte) : EmitsBytes (emit8 b) [b] := fun s => ⟨_, congrArg (fun s => some ((), s)) (s.emit8_withTrace _ b)⟩

theorem nothing : EmitsBytes (pure ()) [] := fun s => ⟨s.trace, rfl⟩

theorem word (v : U32) : EmitsBytes (emit32 v) (le32 v) := by
  rw [le32_halves]
  exact ((byte _).seq (byte _)).seq ((byte _).seq (byte _))

/-- A scale factor that is valid is noted, and no more. -/
theorem scaled {k : BitVec 2 → AsmM Unit} {sc : Expr} {ss : BitVec 2} (hss : sc.val = BitVec.ofNat 32 (2 ^ ss.toNat))
    (hk : EmitsBytes (k ss) bs) : EmitsBytes (scaleBits sc >>= k) bs := by
  intro s
  have hbits : s.scaleBits sc = (ss, s.noteScale sc) := by
    have hcases : ∀ ss : BitVec 2, ss = 0#2 ∨ ss = 1#2 ∨ ss = 2#2 ∨ ss = 3#2 := by decide
    unfold Asm.scaleBits
    rcases hcases ss with rfl | rfl | rfl | rfl <;> rw [hss] <;> rfl
  obtain ⟨t, ht⟩ := hk (s.noteScale sc)
  refine ⟨t, ?_⟩
  change k (s.scaleBits sc).1 (s.scaleBits sc).2 = _
  have hfold : bs.foldl Asm.emit8 (s.noteScale sc) = (bs.foldl Asm.emit8 s).withTrace (s.noteScale sc).trace :=
    s.foldl_emit8_withTrace _ bs
  rw [hbits]
  dsimp only
  rw [ht, hfold]
  rfl

end EmitsBytes

/-! ## Displacements -/

/-- The bytes of a displacement. -/
def dispBytes (mod : BitVec 2) (disp : U32) : List Byte :=
  if mod = 1#2 then [disp.setWidth 8] else if mod = 2#2 then le32 disp else []

theorem emitDisp_emits (mod : BitVec 2) (disp : U32) : EmitsBytes (emitDisp mod disp) (dispBytes mod disp) := by
  unfold emitDisp dispBytes
  split
  · exact .byte _
  · split
    · exact .word _
    · exact .nothing

/-- A value in the range of a signed byte is its low byte extended. -/
theorem fits8_iff (v : U32) : fits8 v = true ↔ (v.setWidth 8).signExtend 32 = v := by
  rw [sext_eq_iff v (k := 7) (by decide), fits8, Bool.and_eq_true, decide_eq_true_iff, decide_eq_true_iff]
  omega

theorem modOf_ne_three (disp : Expr) (base : RegNum) : modOf disp base ≠ 3#2 := by
  unfold modOf
  repeat' split
  all_goals decide

/-- The displacement is read back, and base 5 has one. -/
theorem takeDisp_dispBytes (disp : Expr) (base : RegNum) (rest : List Byte) :
    takeDisp (modOf disp base) (dispBytes (modOf disp base) disp.val ++ rest) = some (disp.val, rest) ∧
      ¬(modOf disp base = 0#2 ∧ base = 5#3) := by
  unfold modOf
  split
  · exact ⟨takeWord_le32 _ _, nofun⟩
  split
  · rename_i h
    exact ⟨congrArg (fun v => some (v, rest)) h.1.symm, fun h5 => h.2 h5.2⟩
  split
  · rename_i h
    exact ⟨congrArg (fun v => some (v, rest)) ((fits8_iff _).mp h), nofun⟩
  · exact ⟨takeWord_le32 _ _, nofun⟩

/-! ## Operands -/

/-- The address that an operand stands for. -/
def Operand.address (o : Operand) : AddressExpr := ⟨o.base, o.index.map fun i => (i, o.scale.val.toNat), o.disp.val⟩

/-- A scale factor of an address. -/
theorem exists_scaleBits {v : U32} (h : v = 1#32 ∨ v = 2#32 ∨ v = 4#32 ∨ v = 8#32) : ∃ ss : BitVec 2, v = BitVec.ofNat 32 (2 ^ ss.toNat) := by
  rcases h with rfl | rfl | rfl | rfl
  · exact ⟨0#2, rfl⟩
  · exact ⟨1#2, rfl⟩
  · exact ⟨2#2, rfl⟩
  · exact ⟨3#2, rfl⟩

theorem toNat_factor (ss : BitVec 2) : (BitVec.ofNat 32 (2 ^ ss.toNat)).toNat = 2 ^ ss.toNat := by
  revert ss
  decide

/-- Every memory operand has an encoding, which `emit_modrm` emits and which reads back. -/
theorem modrm_round_trip (reg : RegNum) (o : Operand) (hmem : o.kind = .mem) (hindex : o.index ≠ some 4#3)
    (hscale : o.scale.val = 1#32 ∨ o.scale.val = 2#32 ∨ o.scale.val = 4#32 ∨ o.scale.val = 8#32) :
    ∃ bytes, EmitsBytes (emitModrm reg o) bytes ∧ ∀ rest, decodeModrm (bytes ++ rest) = some (reg, .mem o.address, rest) := by
  obtain ⟨ss, hss⟩ := exists_scaleBits hscale
  have hfactor : o.scale.val.toNat = 2 ^ ss.toNat := by rw [hss, toNat_factor]
  have hreg : ¬o.kind = .reg := by rw [hmem]; decide
  rw [emitModrm, if_neg hreg, if_neg (not_not_intro hmem)]
  cases hb : o.base with
  | none =>
    cases hi : o.index with
    | none =>
      refine ⟨fields233 0#2 reg 5#3 :: le32 o.disp.val, (EmitsBytes.byte _).seq (.word _), fun rest => ?_⟩
      rw [List.cons_append, decodeModrm_fields (by decide), if_neg (by decide), if_pos ⟨rfl, rfl⟩, takeWord_le32]
      rw [Operand.address, hb, hi]
      rfl
    | some i =>
      refine ⟨fields233 0#2 reg 4#3 :: fields233 ss i 5#3 :: le32 o.disp.val,
        (EmitsBytes.byte _).seq (.scaled hss ((EmitsBytes.byte _).seq (.word _))), fun rest => ?_⟩
      have hi4 : i ≠ 4#3 := fun h => hindex (by rw [hi, h])
      rw [List.cons_append, List.cons_append, decodeModrm_fields (by decide), if_pos rfl, decodeSib_fields, if_pos ⟨rfl, rfl⟩,
        if_neg hi4, takeWord_le32]
      rw [Operand.address, hb, hi, hfactor]
      rfl
  | some b =>
    have hmod := modOf_ne_three o.disp b
    have hdisp := takeDisp_dispBytes o.disp b
    cases hi : o.index with
    | none =>
      dsimp only
      by_cases hb4 : b = 4#3
      · -- the SIB byte with index 4
        rw [if_pos hb4]
        refine ⟨fields233 (modOf o.disp b) reg 4#3 :: fields233 ss 4#3 b :: dispBytes (modOf o.disp b) o.disp.val,
          (EmitsBytes.byte _).seq (.scaled hss ((EmitsBytes.byte _).seq (emitDisp_emits _ _))), fun rest => ?_⟩
        rw [List.cons_append, List.cons_append, decodeModrm_fields hmod, if_pos rfl, decodeSib_fields, if_neg (hdisp rest).2,
          if_pos rfl, (hdisp rest).1]
        rw [Operand.address, hb, hi]
        rfl
      · rw [if_neg hb4]
        refine ⟨fields233 (modOf o.disp b) reg b :: dispBytes (modOf o.disp b) o.disp.val,
          (EmitsBytes.byte _).seq (emitDisp_emits _ _), fun rest => ?_⟩
        rw [List.cons_append, decodeModrm_fields hmod, if_neg hb4, if_neg (hdisp rest).2, (hdisp rest).1]
        rw [Operand.address, hb, hi]
        rfl
    | some i =>
      refine ⟨fields233 (modOf o.disp b) reg 4#3 :: fields233 ss i b :: dispBytes (modOf o.disp b) o.disp.val,
        (EmitsBytes.byte _).seq (.scaled hss ((EmitsBytes.byte _).seq (emitDisp_emits _ _))), fun rest => ?_⟩
      have hi4 : i ≠ 4#3 := fun h => hindex (by rw [hi, h])
      rw [List.cons_append, List.cons_append, decodeModrm_fields hmod, if_pos rfl, decodeSib_fields, if_neg (hdisp rest).2,
        if_neg hi4, (hdisp rest).1]
      rw [Operand.address, hb, hi, hfactor]
      rfl

/-- `-8(%ebp,%ecx,4)` with `%edx`. -/
theorem modrm_round_trip_ebp : ∃ bytes, EmitsBytes (emitModrm 2#3 ⟨.mem, 0#3, 0, some 5#3, some 1#3, ⟨4#32, false⟩, ⟨-8#32, false⟩⟩) bytes ∧
    ∀ rest, decodeModrm (bytes ++ rest) = some (2#3, .mem ⟨some 5#3, some (1#3, 4), -8#32⟩, rest) :=
  modrm_round_trip 2#3 ⟨.mem, 0#3, 0, some 5#3, some 1#3, ⟨4#32, false⟩, ⟨-8#32, false⟩⟩ rfl (by decide) (by decide)

end MiniOs32
