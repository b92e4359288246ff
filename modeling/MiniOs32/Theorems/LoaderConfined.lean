import MiniOs32.Kernel.Exec

/-!
# The program loader and its headers

The loader trusts every field of the program headers. It stays inside the file and inside the user arena exactly for the
files whose headers lie in the file, whose segments lie in the file, and whose segments end below the trampoline page.
-/

namespace MiniOs32

/-- The offsets a range covers, modulo 2^32. -/
def covers (off len : U32) : Set Nat := {x | ∃ j < len.toNat, x = (off.toNat + j) % 2 ^ 32}

/-- A read inside the file, or a write below the trampoline page or in the stack region. -/
def Access.Confined (size : Nat) : Access → Prop
  | .read off len => ∀ x ∈ covers off len, x < size
  | .write off len => ∀ x ∈ covers off len, x < userTrampOff ∨ (userStackBottomOff ≤ x ∧ x < userFbOffset)

/-- The loader rejects the file, or keeps every access confined and the break at or below the trampoline page. -/
def LoaderConfined (size : Nat) (mem : Nat → Byte) : Prop :=
  match loadImage size mem with
  | none => True
  | some r => (∀ a ∈ r.accesses, a.Confined size) ∧ r.brk.toNat ≤ userTrampOff

/-- A program header the loader can trust: its type lies in the file and, for a loadable segment, the rest of the header and
the segment's bytes do too, and the segment ends at or below the trampoline page. -/
def PhdrOk (size : Nat) (mem : Nat → Byte) (ph : U32) : Prop :=
  ph.toNat + 4 ≤ size ∧ (fieldU32 mem ph = 1#32 →
    ph.toNat + 24 ≤ size ∧
    (0 < (fieldU32 mem (ph + 16#32)).toNat →
      (fieldU32 mem (ph + 4#32)).toNat + (fieldU32 mem (ph + 16#32)).toNat ≤ size) ∧
    (fieldU32 mem (ph + 8#32)).toNat + max (fieldU32 mem (ph + 16#32)).toNat (fieldU32 mem (ph + 20#32)).toNat ≤ userTrampOff)

/-- A file long enough for a header that starts with the magic. -/
def IsElf (size : Nat) (mem : Nat → Byte) : Prop :=
  52 ≤ size ∧ mem 0 = 0x7F#8 ∧ mem 1 = Char.byte 'E' ∧ mem 2 = Char.byte 'L' ∧ mem 3 = Char.byte 'F'

/-- A file that is not an ELF file, or one whose program headers can all be trusted. -/
def ImageOk (size : Nat) (mem : Nat → Byte) : Prop :=
  IsElf size mem → ∀ i < (fieldU16 mem 44#32).toNat,
    PhdrOk size mem (phdrOff (fieldU32 mem 28#32) (fieldU16 mem 42#32) i)

/-! ## Ranges -/

theorem mem_covers_self {off len : U32} (h : 0 < len.toNat) : off.toNat ∈ covers off len :=
  ⟨0, h, by rw [Nat.add_zero, Nat.mod_eq_of_lt off.isLt]⟩

/-- A range whose bytes are all below a bound does not wrap. -/
theorem covers_below_iff {off len : U32} {b : Nat} (hb : b < 2 ^ 32) :
    (∀ x ∈ covers off len, x < b) ↔ (0 < len.toNat → off.toNat + len.toNat ≤ b) := by
  have ho := off.isLt
  constructor
  · intro h hlen
    by_contra hlt
    by_cases hw : off.toNat + len.toNat ≤ 2 ^ 32
    · have := h (off.toNat + len.toNat - 1) ⟨len.toNat - 1, by lia, by rw [Nat.mod_eq_of_lt (by lia)]; lia⟩
      lia
    · have := h (2 ^ 32 - 1) ⟨2 ^ 32 - 1 - off.toNat, by lia, by rw [Nat.mod_eq_of_lt (by lia)]; lia⟩
      lia
  · rintro h x ⟨j, hj, rfl⟩
    have := h (by lia)
    rw [Nat.mod_eq_of_lt (by lia)]
    lia

theorem userTrampOff_lt : userTrampOff < 2 ^ 32 := by decide

/-- What is written below the trampoline page is confined. -/
theorem write_confined_of_below {size : Nat} {off len : U32} (h : 0 < len.toNat → off.toNat + len.toNat ≤ userTrampOff) :
    (Access.write off len).Confined size :=
  fun x hx => Or.inl ((covers_below_iff userTrampOff_lt).2 h x hx)

/-- A confined write that starts at or below the trampoline page ends there too. -/
theorem below_of_write_confined {size : Nat} {off len : U32} (h : (Access.write off len).Confined size)
    (hs : off.toNat ≤ userTrampOff) : 0 < len.toNat → off.toNat + len.toNat ≤ userTrampOff := by
  intro hlen
  by_contra hlt
  have htramp : userTrampOff = 24109056 := rfl
  have hbottom : userStackBottomOff = 24117248 := rfl
  rcases h userTrampOff ⟨userTrampOff - off.toNat, by omega, by rw [Nat.mod_eq_of_lt (by omega)]; omega⟩ with h1 | h1 <;> omega

/-- A confined segment whose end, modulo 2^32, is at or below the trampoline page really ends there: the stack region is too
far from the top of the address space to be wrapped from. -/
theorem segment_end_le {size : Nat} {vaddr filesz memsz : U32} (hw : (Access.write vaddr filesz).Confined size)
    (hz : filesz < memsz → (Access.write (vaddr + filesz) (memsz - filesz)).Confined size)
    (hb : (vaddr + memsz).toNat ≤ userTrampOff) : vaddr.toNat + max filesz.toNat memsz.toNat ≤ userTrampOff := by
  have htramp : userTrampOff = 24109056 := rfl
  have hbottom : userStackBottomOff = 24117248 := rfl
  have hfb : userFbOffset = 25165824 := rfl
  have hv := vaddr.isLt
  have hm := memsz.isLt
  rw [BitVec.toNat_add] at hb
  by_cases hlow : vaddr.toNat ≤ userTrampOff
  · have h1 := below_of_write_confined hw hlow
    by_cases hlt : filesz < memsz
    · have hlt' := BitVec.lt_def.1 hlt
      have hsum : (vaddr + filesz).toNat = vaddr.toNat + filesz.toNat := by
        rw [BitVec.toNat_add, Nat.mod_eq_of_lt (by lia)]
      have hdiff : (memsz - filesz).toNat = memsz.toNat - filesz.toNat := BitVec.toNat_sub_of_le (BitVec.le_of_lt hlt)
      have h2 := below_of_write_confined (hz hlt) (by lia)
      lia
    · rw [BitVec.not_lt, BitVec.le_def] at hlt
      lia
  · -- the last byte of the address space would have been written
    exfalso
    have hwrap : 2 ^ 32 ≤ vaddr.toNat + memsz.toNat := by lia
    by_cases hin : 2 ^ 32 - 1 - vaddr.toNat < filesz.toNat
    · rcases hw (2 ^ 32 - 1) ⟨2 ^ 32 - 1 - vaddr.toNat, hin, by rw [Nat.mod_eq_of_lt (by lia)]; lia⟩ with h | h <;> lia
    · have hlt : filesz < memsz := BitVec.lt_def.2 (by lia)
      have hdiff : (memsz - filesz).toNat = memsz.toNat - filesz.toNat := BitVec.toNat_sub_of_le (BitVec.le_of_lt hlt)
      have hmem : 2 ^ 32 - 1 ∈ covers (vaddr + filesz) (memsz - filesz) := by
        refine ⟨2 ^ 32 - 1 - vaddr.toNat - filesz.toNat, by lia, ?_⟩
        rw [BitVec.toNat_add, Nat.mod_add_mod, Nat.mod_eq_of_lt (by lia)]
        lia
      rcases hz hlt _ hmem with h | h <;> lia

/-! ## One header -/

/-- The break after a header. -/
theorem loadSegment_brk (mem : Nat → Byte) (ph brk : U32) :
    (loadSegment mem ph brk).2.toNat ≤ userTrampOff ↔ brk.toNat ≤ userTrampOff ∧
      (fieldU32 mem ph = 1#32 → (fieldU32 mem (ph + 8#32) + fieldU32 mem (ph + 20#32)).toNat ≤ userTrampOff) := by
  unfold loadSegment
  split
  · rename_i h
    exact ⟨fun hb => ⟨hb, fun h1 => absurd h1 h⟩, fun hb => hb.1⟩
  · rename_i h
    dsimp only
    split
    · rename_i hlt
      rw [BitVec.lt_def] at hlt
      exact ⟨fun hb => ⟨by omega, fun _ => hb⟩, fun hb => hb.2 (not_not.1 h)⟩
    · rename_i hlt
      rw [BitVec.not_lt, BitVec.le_def] at hlt
      exact ⟨fun hb => ⟨hb, fun _ => by omega⟩, fun hb => hb.1⟩

/-- A header never lowers the break. -/
theorem loadSegment_brk_le (mem : Nat → Byte) (ph brk : U32) : brk.toNat ≤ (loadSegment mem ph brk).2.toNat := by
  unfold loadSegment
  split
  · exact Nat.le_refl _
  · dsimp only
    split
    · rename_i hlt; exact le_of_lt (BitVec.lt_def.1 hlt)
    · exact Nat.le_refl _

/-- Nor does the loop. -/
theorem loadSegments_brk_le (mem : Nat → Byte) (phoff : U32) (phentsize : BitVec 16) (n : Nat) : ∀ (i : Nat) (brk : U32),
    brk.toNat ≤ (loadSegments mem phoff phentsize n i brk).2.toNat := by
  induction n with
  | zero => intro i brk; exact Nat.le_refl _
  | succ n ih =>
    intro i brk
    simp only [loadSegments]
    exact le_trans (loadSegment_brk_le mem _ brk) (ih (i + 1) _)

/-- Four bytes of a header inside the file. -/
theorem read_field_iff {size : Nat} (hsize : size < 2 ^ 32) (off : U32) :
    (Access.read off 4#32).Confined size ↔ off.toNat + 4 ≤ size := by
  have h4 : (4#32).toNat = 4 := rfl
  rw [Access.Confined, covers_below_iff hsize, h4]
  exact ⟨fun h => h (by decide), fun h _ => h⟩

/-- A field of a header that starts inside the file. -/
theorem ph_add_toNat {size : Nat} (hsize : size ≤ fileBufMax) {ph : U32} (h : ph.toNat + 4 ≤ size) {n : Nat} (hn : n ≤ 20) :
    (ph + BitVec.ofNat 32 n).toNat = ph.toNat + n := by
  have hmax : fileBufMax = 1048576 := rfl
  rw [BitVec.toNat_add, BitVec.toNat_ofNat]
  lia

/-- One header's accesses are confined and the break stays low exactly for a header that can be trusted. -/
theorem loadSegment_confined_iff {size : Nat} (hsize : size ≤ fileBufMax) (mem : Nat → Byte) (ph brk : U32)
    (hbrk : brk.toNat ≤ userTrampOff) :
    (∀ a ∈ (loadSegment mem ph brk).1, a.Confined size) ∧ (loadSegment mem ph brk).2.toNat ≤ userTrampOff ↔ PhdrOk size mem ph := by
  have hmax : fileBufMax = 1048576 := rfl
  have hlt : size < 2 ^ 32 := by omega
  rw [loadSegment_brk, and_iff_right hbrk, PhdrOk]
  by_cases htype : fieldU32 mem ph = 1#32
  · have hacc : (loadSegment mem ph brk).1 = [Access.read ph 4#32, .read (ph + 4#32) 4#32, .read (ph + 8#32) 4#32,
        .read (ph + 16#32) 4#32, .read (ph + 20#32) 4#32, .read (fieldU32 mem (ph + 4#32)) (fieldU32 mem (ph + 16#32)),
        .write (fieldU32 mem (ph + 8#32)) (fieldU32 mem (ph + 16#32))] ++
        (if fieldU32 mem (ph + 16#32) < fieldU32 mem (ph + 20#32) then
          [Access.write (fieldU32 mem (ph + 8#32) + fieldU32 mem (ph + 16#32)) (fieldU32 mem (ph + 20#32) - fieldU32 mem (ph + 16#32))]
        else []) := by
      simp [loadSegment, htype]
    rw [hacc]
    generalize fieldU32 mem (ph + 4#32) = offset
    generalize fieldU32 mem (ph + 8#32) = vaddr
    generalize fieldU32 mem (ph + 16#32) = filesz
    generalize fieldU32 mem (ph + 20#32) = memsz
    simp only [List.forall_mem_append, List.forall_mem_cons, List.not_mem_nil, false_imp_iff, implies_true, and_true,
      read_field_iff hlt, htype, forall_const]
    have hv := vaddr.isLt
    have hread : (Access.read offset filesz).Confined size ↔ (0 < filesz.toNat → offset.toNat + filesz.toNat ≤ size) :=
      covers_below_iff hlt
    rw [hread]
    constructor
    · rintro ⟨⟨⟨h0, -, -, -, h20, hr, hw⟩, hz⟩, hb⟩
      refine ⟨h0, ?_, hr, ?_⟩
      · rw [ph_add_toNat hsize h0 (by decide)] at h20
        omega
      · refine segment_end_le hw (fun hlt' => hz _ ?_) hb
        rw [if_pos hlt']
        exact List.mem_singleton.2 rfl
    · rintro ⟨h0, h24, hr, hend⟩
      have hf := filesz.isLt
      have htramp : userTrampOff = 24109056 := rfl
      refine ⟨⟨⟨h0, ?_, ?_, ?_, ?_, hr, write_confined_of_below (fun _ => by omega)⟩, fun a ha => ?_⟩, ?_⟩
      · rw [ph_add_toNat hsize h0 (by decide)]; omega
      · rw [ph_add_toNat hsize h0 (by decide)]; omega
      · rw [ph_add_toNat hsize h0 (by decide)]; omega
      · rw [ph_add_toNat hsize h0 (by decide)]; omega
      · split at ha
        · rename_i hlt'
          obtain rfl := List.mem_singleton.1 ha
          have hsub : (memsz - filesz).toNat = memsz.toNat - filesz.toNat := BitVec.toNat_sub_of_le (BitVec.le_of_lt hlt')
          refine write_confined_of_below (fun _ => ?_)
          rw [BitVec.lt_def] at hlt'
          rw [BitVec.toNat_add, Nat.mod_eq_of_lt (by omega), hsub]
          omega
        · cases ha
      · rw [BitVec.toNat_add, Nat.mod_eq_of_lt (by omega)]
        omega
  · have hacc : (loadSegment mem ph brk).1 = [.read ph 4#32] := by simp [loadSegment, htype]
    rw [hacc]
    simp only [List.forall_mem_cons, List.not_mem_nil, false_imp_iff, implies_true, and_true, read_field_iff hlt, htype]

/-! ## Whole files -/

/-- The loop over the headers is confined exactly when every header can be trusted. -/
theorem loadSegments_confined_iff {size : Nat} (hsize : size ≤ fileBufMax) (mem : Nat → Byte) (phoff : U32) (phentsize : BitVec 16)
    (n : Nat) : ∀ (i : Nat) (brk : U32), brk.toNat ≤ userTrampOff →
    ((∀ a ∈ (loadSegments mem phoff phentsize n i brk).1, a.Confined size) ∧
      (loadSegments mem phoff phentsize n i brk).2.toNat ≤ userTrampOff ↔
        ∀ j, i ≤ j → j < i + n → PhdrOk size mem (phdrOff phoff phentsize j)) := by
  induction n with
  | zero =>
    intro i brk hbrk
    simp only [loadSegments, List.not_mem_nil, false_imp_iff, implies_true, true_and]
    exact ⟨fun _ j h1 h2 => by lia, fun _ => hbrk⟩
  | succ n ih =>
    intro i brk hbrk
    have hone := loadSegment_confined_iff hsize mem (phdrOff phoff phentsize i) brk hbrk
    simp only [loadSegments, List.forall_mem_append]
    constructor
    · rintro ⟨⟨h1, h2⟩, h3⟩ j hij hjn
      -- the break only rises, so it was low after this header already
      have hb : (loadSegment mem (phdrOff phoff phentsize i) brk).2.toNat ≤ userTrampOff := by
        refine le_trans ?_ h3
        exact loadSegments_brk_le mem phoff phentsize n (i + 1) _
      rcases Nat.eq_or_lt_of_le hij with rfl | hlt
      · exact hone.1 ⟨h1, hb⟩
      · exact (ih (i + 1) _ hb).1 ⟨h2, h3⟩ j hlt (by lia)
    · intro h
      obtain ⟨h1, hb⟩ := hone.2 (h i (Nat.le_refl _) (by lia))
      obtain ⟨h2, h3⟩ := (ih (i + 1) _ hb).2 (fun j h1 h2 => h j (by lia) (by lia))
      exact ⟨⟨h1, h2⟩, h3⟩

/-- Exactly the ELF files are loaded. -/
theorem loadImage_of_isElf {size : Nat} {mem : Nat → Byte} (h : IsElf size mem) :
    loadImage size mem = some ⟨(loadSegments mem (fieldU32 mem 28#32) (fieldU16 mem 42#32) (fieldU16 mem 44#32).toNat 0 0#32).1,
      (loadSegments mem (fieldU32 mem 28#32) (fieldU16 mem 42#32) (fieldU16 mem 44#32).toNat 0 0#32).2, fieldU32 mem 24#32⟩ := by
  obtain ⟨hs, h0, h1, h2, h3⟩ := h
  simp [loadImage, Nat.not_lt.2 hs, h0, h1, h2, h3]

theorem loadImage_of_not_isElf {size : Nat} {mem : Nat → Byte} (h : ¬IsElf size mem) : loadImage size mem = none := by
  unfold loadImage
  split
  · rfl
  · rename_i hs
    rw [if_pos]
    by_contra hm
    push Not at hm
    exact h ⟨by omega, hm⟩

/-- For every file of at most `FILE_BUF_MAX` bytes the loader is confined exactly when the file's headers can be trusted. -/
theorem loader_confined_iff_imageOk (size : Nat) (hsize : size ≤ fileBufMax) (mem : Nat → Byte) :
    LoaderConfined size mem ↔ ImageOk size mem := by
  unfold LoaderConfined ImageOk
  by_cases helf : IsElf size mem
  · rw [loadImage_of_isElf helf]
    dsimp only
    rw [loadSegments_confined_iff hsize mem _ _ _ 0 0#32 (by decide)]
    exact ⟨fun h _ i hi => h i (Nat.zero_le _) (by omega), fun h j _ hj => h helf j (by omega)⟩
  · rw [loadImage_of_not_isElf helf]
    exact ⟨fun _ h => absurd h helf, fun _ => trivial⟩

/-- What `exec_user` loads is an image of at most `FILE_BUF_MAX` bytes, whatever the filesystem holds. -/
theorem execUser_loadImage {fs : Fs} {name : List Byte} {mem : Nat → Byte} {r : Loaded} (h : (execUser fs name mem).2 = some r) :
    ∃ size mem', size ≤ fileBufMax ∧ loadImage size mem' = some r := by
  unfold execUser at h
  split at h
  · cases h
  · rename_i fs' size data heq
    refine ⟨size.toNat, fun i => if i < size.toNat then data i else mem i, ?_, h⟩
    have hread := congrArg Prod.snd heq
    unfold Fs.read at hread
    split at hread
    · cases hread
    · dsimp only at hread
      split at hread
      · cases hread
      · rename_i hmax
        simp only [Option.some.injEq, Prod.mk.injEq] at hread
        rw [← hread.1]
        exact BitVec.le_def.1 (BitVec.not_lt.1 hmax)

/-- An ELF file of 84 bytes with one loadable segment. -/
def oneSegment (offset vaddr filesz memsz : U32) : List Byte :=
  [0x7F#8, 0x45#8, 0x4C#8, 0x46#8] ++ List.replicate 24 0#8 ++ le32 52#32 ++ List.replicate 10 0#8 ++ [32#8, 0#8, 1#8, 0#8] ++
    List.replicate 6 0#8 ++ le32 1#32 ++ le32 offset ++ le32 vaddr ++ le32 0#32 ++ le32 filesz ++ le32 memsz ++
    List.replicate 8 0#8

/-- The rule at work: a program of 84 bytes loaded at 4096 with a page of zeros behind it. -/
theorem loader_confined_iff_imageOk_small :
    LoaderConfined 84 (fun i => (oneSegment 0#32 4096#32 84#32 4180#32).getD i 0#8) := by
  refine (loader_confined_iff_imageOk 84 (by decide) _).2 (fun _ i hi => ?_)
  have hn : (fieldU16 (fun i => (oneSegment 0#32 4096#32 84#32 4180#32).getD i 0#8) 44#32).toNat = 1 := by decide
  obtain rfl : i = 0 := by omega
  unfold PhdrOk
  decide

/-- A file whose only segment asks for the first bytes of the framebuffer window is loaded there. -/
theorem loader_confined_false :
    ¬∀ (size : Nat) (mem : Nat → Byte), size ≤ fileBufMax → LoaderConfined size mem := by
  intro h
  have hc := h 84 (fun i => (oneSegment 0#32 0x1800000#32 84#32 84#32).getD i 0#8) (by decide)
  unfold LoaderConfined at hc
  rw [loadImage_of_isElf (by unfold IsElf; decide)] at hc
  have hmem : Access.write 0x1800000#32 84#32 ∈ (loadSegments (fun i => (oneSegment 0#32 0x1800000#32 84#32 84#32).getD i 0#8)
      (fieldU32 (fun i => (oneSegment 0#32 0x1800000#32 84#32 84#32).getD i 0#8) 28#32)
      (fieldU16 (fun i => (oneSegment 0#32 0x1800000#32 84#32 84#32).getD i 0#8) 42#32)
      (fieldU16 (fun i => (oneSegment 0#32 0x1800000#32 84#32 84#32).getD i 0#8) 44#32).toNat 0 0#32).1 := by decide
  rcases hc.1 _ hmem _ (mem_covers_self (by decide)) with h1 | h1
  · exact absurd h1 (by decide)
  · exact absurd h1.2 (by decide)

end MiniOs32
