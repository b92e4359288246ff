import MiniOs32.Kernel.Image
import MiniOs32.As.Elf
import MiniOs32.Lemmas.AsOutput
import MiniOs32.Theorems.Linking
import MiniOs32.Theorems.PassesAgree

/-!
# Linker, ELF writer and loader agree on addresses

The linker and the assembler assign addresses, `build_elf` writes a file, and `exec_user` puts it into memory. The compiler's three
parts share one layout for all section sizes. The assembler's do when the last emit pass leaves the lengths the bases were computed
from.
-/

namespace MiniOs32

/-! ## What the loader reads back -/

@[simp] theorem elfHeaders_length (entry fileSz memSz : U32) : (elfHeaders entry fileSz memSz).length = 84 := rfl

/-- What the loader looks at in a file. -/
structure ElfFields (file : Nat → Byte) (entry fileSz memSz : U32) : Prop where
  magic : file 0 = 0x7F#8 ∧ file 1 = Char.byte 'E' ∧ file 2 = Char.byte 'L' ∧ file 3 = Char.byte 'F'
  entry : fieldU32 file 24#32 = entry
  phoff : fieldU32 file 28#32 = 52#32
  phentsize : fieldU16 file 42#32 = 32#16
  phnum : fieldU16 file 44#32 = 1#16
  type : fieldU32 file 52#32 = 1#32
  offset : fieldU32 file (52#32 + 4#32) = 0#32
  vaddr : fieldU32 file (52#32 + 8#32) = 0#32
  filesz : fieldU32 file (52#32 + 16#32) = fileSz
  memsz : fieldU32 file (52#32 + 20#32) = memSz

/-- The loader reads back what `build_elf` has stored. -/
theorem elfFields_elfFile (entry fileSz memSz : U32) (body : List Byte) (behind : Nat → Byte) :
    ElfFields (fileBuf (elfFile entry fileSz memSz body) behind) entry fileSz memSz := by
  have hbyte : ∀ {i : Nat} {b : Byte}, (elfHeaders entry fileSz memSz)[i]? = some b →
      fileBuf (elfFile entry fileSz memSz body) behind i = b := by
    intro i b h
    have hi : i < (elfHeaders entry fileSz memSz).length := (List.getElem?_eq_some_iff.mp h).1
    rw [fileBuf, elfFile, List.getElem?_append_left hi, h]
    rfl
  generalize fileBuf (elfFile entry fileSz memSz body) behind = file at hbyte
  have hword : ∀ (off : U32) (w : U32), (∀ i < 4, (elfHeaders entry fileSz memSz)[(off + BitVec.ofNat 32 i).toNat]? = (le32 w)[i]?) →
      fieldU32 file off = w := by
    intro off w h
    have h0 : file off.toNat = w.extractLsb' 0 8 := hbyte ((congrArg _ (by simp)).trans (h 0 (by decide)))
    have h1 : file (off + 1#32).toNat = w.extractLsb' 8 8 := hbyte (h 1 (by decide))
    have h2 : file (off + 2#32).toNat = w.extractLsb' 16 8 := hbyte (h 2 (by decide))
    have h3 : file (off + 3#32).toNat = w.extractLsb' 24 8 := hbyte (h 3 (by decide))
    unfold fieldU32
    rw [h0, h1, h2, h3]
    exact word32_le32 w
  have hhalf : ∀ (off : U32) (b₀ b₁ : Byte), (elfHeaders entry fileSz memSz)[off.toNat]? = some b₀ →
      (elfHeaders entry fileSz memSz)[(off + 1#32).toNat]? = some b₁ → fieldU16 file off = b₁ ++ b₀ := by
    intro off b₀ b₁ h₀ h₁
    rw [fieldU16, hbyte h₀, hbyte h₁]
  refine ⟨⟨hbyte rfl, hbyte rfl, hbyte rfl, hbyte rfl⟩, hword _ _ ?_, hword _ _ ?_, hhalf 42#32 32#8 0#8 rfl rfl,
    hhalf 44#32 1#8 0#8 rfl rfl, hword _ _ ?_, hword _ _ ?_, hword _ _ ?_, hword _ _ ?_, hword _ _ ?_⟩
  all_goals
    intro i hi
    interval_cases i <;> rfl

/-- The trampoline is not below its own address. -/
theorem writeUserTrampoline_below (m : U32 → Byte) {a : U32} (ha : a.toNat < userTrampOff) : writeUserTrampoline m a = m a := by
  have hoff : (BitVec.ofNat 32 userTrampOff).toNat = userTrampOff := by decide
  have hroom : userTrampOff + 10 ≤ 2 ^ 32 := by decide
  have hlen : trampoline.length ≤ (a - BitVec.ofNat 32 userTrampOff).toNat := by
    rw [BitVec.toNat_sub, hoff, Nat.mod_eq_of_lt (by omega)]
    show 10 ≤ _
    omega
  rw [writeUserTrampoline, List.getElem?_eq_none hlen]
  rfl

/-- Below the trampoline everything is cleared first. -/
theorem resetUser_below (m : U32 → Byte) {a : U32} (ha : a.toNat < userTrampOff) : resetUser m a = 0#8 := by
  have hguard : userTrampOff ≤ userStackGuardOff := by decide
  exact if_pos (lt_of_lt_of_le ha hguard)

/-- The part of a segment that is zeroed lies behind the part that is copied. -/
theorem zeroed_not_copied {a fileSz memSz : U32} (ha : a < fileSz) (hm : fileSz < memSz) : ¬a - fileSz < memSz - fileSz := by
  have h1 := BitVec.lt_def.mp ha
  have h2 := BitVec.lt_def.mp hm
  have h4 := memSz.isLt
  have h3 := fileSz.isLt
  rw [BitVec.lt_def, BitVec.toNat_sub, BitVec.toNat_sub]
  omega

/-- A file with one segment at address 0 is loaded whole: below the trampoline the memory holds the file and then zeros. -/
theorem startImage_of_fields {file : Nat → Byte} {entry fileSz memSz : U32} (h : ElfFields file entry fileSz memSz) {size : Nat}
    (hsize : 52 ≤ size) (m : U32 → Byte) :
    ∃ st, startImage size file m = some st ∧ st.entry = entry ∧ st.brk = memSz ∧
      ∀ a : U32, a.toNat < userTrampOff → st.mem a = if a < fileSz then file a.toNat else 0#8 := by
  obtain ⟨m0, m1, m2, m3⟩ := h.magic
  have hph : phdrOff 52#32 32#16 0 = 52#32 := by simp [phdrOff]
  have hload : loadImage size file = some ⟨(loadSegment file 52#32 0#32).1 ++ [], memSz, entry⟩ := by
    unfold loadImage
    rw [if_neg (by omega), if_neg (by simp [m0, m1, m2, m3])]
    simp only [h.phoff, h.phentsize, h.phnum, h.entry]
    have hbrk : (loadSegment file 52#32 0#32).2 = memSz := by
      simp only [loadSegment, h.type, h.vaddr, h.memsz]
      rw [if_neg (by simp)]
      simp only [BitVec.zero_add]
      split
      · rfl
      · rename_i hz
        exact (BitVec.le_zero_iff.mp (BitVec.not_lt.mp hz)).symm
    show some _ = some _
    simp only [loadSegments, hph, hbrk, show (1#16 : BitVec 16).toNat = 1 from rfl]
  refine ⟨_, by rw [startImage, hload]; rfl, rfl, rfl, ?_⟩
  intro a ha
  have hone : (1#16 : BitVec 16).toNat = 1 := rfl
  simp only
  rw [writeUserTrampoline_below _ ha, h.phoff, h.phentsize, h.phnum, hone, copySegments, copySegments, hph, copySegment, h.type,
    if_neg (by simp)]
  simp only [h.offset, h.vaddr, h.filesz, h.memsz, BitVec.zero_add, BitVec.sub_zero, resetUser_below m ha]
  by_cases hin : a < fileSz
  · rw [if_neg fun hz => zeroed_not_copied hin hz.1 hz.2]
  · simp only [if_neg hin, ite_self]

/-- A file written by either `build_elf`, loaded: the sections from the end of the headers on, and zeros behind them. -/
theorem startImage_elfFile (entry memSz : U32) (body : List Byte) (hfit : elfHeader + body.length < userTrampOff)
    (behind : Nat → Byte) (m : U32 → Byte) :
    ∃ st, startImage (elfFile entry (BitVec.ofNat 32 (elfHeader + body.length)) memSz body).length
        (fileBuf (elfFile entry (BitVec.ofNat 32 (elfHeader + body.length)) memSz body) behind) m = some st ∧
      st.entry = entry ∧ st.brk = memSz ∧
      (∀ k b, body[k]? = some b → st.mem (BitVec.ofNat 32 (elfHeader + k)) = b) ∧
      ∀ a, elfHeader + body.length ≤ a → a < userTrampOff → st.mem (BitVec.ofNat 32 a) = 0#8 := by
  have htramp : userTrampOff < 2 ^ 32 := by decide
  have hsize : 52 ≤ (elfFile entry (BitVec.ofNat 32 (elfHeader + body.length)) memSz body).length := by
    rw [elfFile, List.length_append, elfHeaders_length]
    lia
  obtain ⟨st, hst, hentry, hbrk, hmem⟩ :=
    startImage_of_fields (elfFields_elfFile entry (BitVec.ofNat 32 (elfHeader + body.length)) memSz body behind) hsize m
  refine ⟨st, hst, hentry, hbrk, ?_, ?_⟩
  · intro k b hk
    have hlt : k < body.length := (List.getElem?_eq_some_iff.mp hk).1
    have hnat : (BitVec.ofNat 32 (elfHeader + k)).toNat = elfHeader + k := Nat.mod_eq_of_lt (by lia)
    rw [hmem _ (by lia), if_pos (by rw [BitVec.lt_def, hnat, BitVec.toNat_ofNat, Nat.mod_eq_of_lt] <;> lia), hnat, fileBuf, elfFile,
      List.getElem?_append_right (by rw [elfHeaders_length]; exact Nat.le_add_right 84 k)]
    have hidx : elfHeader + k - (elfHeaders entry (BitVec.ofNat 32 (elfHeader + body.length)) memSz).length = k := by
      rw [elfHeaders_length]
      exact Nat.add_sub_cancel_left 84 k
    rw [hidx, hk]
    rfl
  · intro a hle ha
    have hnat : (BitVec.ofNat 32 a).toNat = a := Nat.mod_eq_of_lt (by lia)
    rw [hmem _ (by lia), if_neg]
    rw [BitVec.lt_def, hnat, BitVec.toNat_ofNat, Nat.mod_eq_of_lt] <;> lia

/-! ## The compiler's images -/

/-- The program starts with every linked byte at its address, bss cleared, at the start stub, and with the break behind bss. -/
structure CcLoaded (objs : List Obj) (out : LinkOut) (st : Started) : Prop where
  covers : ∀ s, s ≠ .bss → (out.bytes s).length = secTotal objs s
  bytes : ∀ s k b, (out.bytes s)[k]? = some b → st.mem (BitVec.ofNat 32 (secBase objs s + k)) = b
  bss : ∀ k < secTotal objs .bss, st.mem (BitVec.ofNat 32 (secBase objs .bss + k)) = 0#8
  entry : ∀ p ps, place (fun _ => 0) objs = p :: ps → st.entry = p.addr (secBase objs) .text
  brk : st.brk = BitVec.ofNat 32 (secBase objs .bss + secTotal objs .bss)

/-- The sections a link puts out are as long as those of the objects together. -/
theorem linkObjects_length {stack : Nat → Byte} {objs : List Obj} {out : LinkOut} (hobjs : ∀ o ∈ objs, o.RelocsInside)
    (h : linkObjects stack objs = .ok out) (s : Section) : (out.bytes s).length = (concatSec objs s).length := by
  obtain ⟨-, syms, -, qs, hqs, rfl⟩ := linkObjects_eq_ok h
  obtain ⟨-, -, hkeys⟩ := allPatches_spec hqs
  exact applyPatches_length (patches_apart hobjs hkeys).1 s

theorem concatSec_length {objs : List Obj} {s : Section} (hs : s ≠ .bss) : (concatSec objs s).length = secTotal objs s := by
  rw [concatSec, List.length_flatMap, secTotal]
  congr 2
  funext o
  cases s with
  | bss => exact absurd rfl hs
  | text => rfl
  | rodata => rfl
  | data => rfl

/-- The file the compiler writes: its body, and its length. -/
theorem buildElf_eq_some {out : LinkOut} {file : List Byte} (h : buildElf out = some file) :
    file = elfFile (BitVec.ofNat 32 elfHeader)
      (BitVec.ofNat 32 (elfHeader + (out.bytes .text ++ (out.bytes .rodata ++ out.bytes .data)).length))
      (BitVec.ofNat 32 (elfHeader + (out.bytes .text ++ (out.bytes .rodata ++ out.bytes .data)).length + out.bss))
      (out.bytes .text ++ (out.bytes .rodata ++ out.bytes .data)) := by
  unfold buildElf at h
  simp only [List.append_assoc] at h
  split at h
  · cases h
  · exact (Option.some.inj h).symm

/-- Whatever the compiler links and writes is loaded at the addresses it was linked for. -/
theorem ccLoaded_of_link {stack : Nat → Byte} {objs : List Obj} {out : LinkOut} (hobjs : ∀ o ∈ objs, o.RelocsInside)
    (h : linkObjects stack objs = .ok out) {file : List Byte} (hfile : buildElf out = some file)
    (hfit : file.length + out.bss < userTrampOff) (behind : Nat → Byte) (m : U32 → Byte) :
    ∃ st, startImage file.length (fileBuf file behind) m = some st ∧ CcLoaded objs out st := by
  have hlen : ∀ s, s ≠ .bss → (out.bytes s).length = secTotal objs s := fun s hs =>
    (linkObjects_length hobjs h s).trans (concatSec_length hs)
  have htext := hlen .text nofun
  have hrodata := hlen .rodata nofun
  have hdata := hlen .data nofun
  have hnone : (out.bytes .bss).length = 0 := by
    rw [linkObjects_length hobjs h]
    simp [concatSec, Obj.bytes]
  have hbss : out.bss = secTotal objs .bss := by
    obtain ⟨-, syms, -, qs, -, rfl⟩ := linkObjects_eq_ok h
    rfl
  have heq := buildElf_eq_some hfile
  have hflen : file.length = elfHeader + (out.bytes .text ++ (out.bytes .rodata ++ out.bytes .data)).length := by
    rw [heq, elfFile, List.length_append, elfHeaders_length]
    rfl
  have hend : file.length = secBase objs .bss := by
    rw [hflen]
    simp only [List.length_append, htext, hrodata, hdata, secBase]
    lia
  obtain ⟨st, hst, hentry, hbrk, hbytes, hzero⟩ := startImage_elfFile (BitVec.ofNat 32 elfHeader)
    (BitVec.ofNat 32 (elfHeader + (out.bytes .text ++ (out.bytes .rodata ++ out.bytes .data)).length + out.bss))
    (out.bytes .text ++ (out.bytes .rodata ++ out.bytes .data)) (by lia) behind m
  refine ⟨st, by rw [heq]; exact hst, hlen, ?_, ?_, ?_, ?_⟩
  · intro s k b hk
    have hk' : k < (out.bytes s).length := (List.getElem?_eq_some_iff.mp hk).1
    cases s with
    | text => exact hbytes k b (by rw [List.getElem?_append_left hk', hk])
    | rodata =>
      have hidx := hbytes ((out.bytes .text).length + k) b (by
        rw [List.getElem?_append_right (Nat.le_add_right ..), Nat.add_sub_cancel_left, List.getElem?_append_left hk', hk])
      rw [secBase, ← htext, Nat.add_assoc]
      exact hidx
    | data =>
      have hidx := hbytes ((out.bytes .text).length + ((out.bytes .rodata).length + k)) b (by
        rw [List.getElem?_append_right (Nat.le_add_right ..), Nat.add_sub_cancel_left,
          List.getElem?_append_right (Nat.le_add_right ..), Nat.add_sub_cancel_left, hk])
      rw [secBase, ← htext, ← hrodata, Nat.add_assoc, Nat.add_assoc]
      exact hidx
    | bss => lia
  · intro k hk
    exact hzero _ (by lia) (by lia)
  · intro p ps hplace
    cases objs with
    | nil => cases hplace
    | cons o os =>
      obtain ⟨rfl, -⟩ := List.cons.inj hplace
      exact hentry
  · rw [hbrk, ← hflen, hend, hbss]

/-! ## The assembler's images -/

/-- An emit pass at work: the bases as `main` has set them, and buffers as long as the lengths say. -/
structure Laid (baseData baseBss : Int) (s : Asm) : Prop where
  pass : s.pass = .two
  baseText : s.baseText = elfHdrSize
  baseData : s.baseData = baseData
  baseBss : s.baseBss = baseBss
  text : (s.textBuf.length : Int) = s.textLen
  data : (s.dataBuf.length : Int) = s.dataLen

theorem laid_inv (baseData baseBss : Int) : OutputInv (Laid baseData baseBss) := by
  refine ⟨?_, ?_⟩
  · intro s s' hq h
    exact ⟨hq.pass.trans h.pass, hq.baseText.trans h.baseText, hq.baseData.trans h.baseData, hq.baseBss.trans h.baseBss,
      by rw [hq.textBuf, hq.textLen, h.text], by rw [hq.dataBuf, hq.dataLen, h.data]⟩
  · intro s b h
    have hp := h.pass
    unfold Asm.emit8
    split
    · simp_all
    · split
      · exact { h with }
      · refine { h with text := ?_ }
        simp [h.text]
    · simp_all
    · split
      · exact { h with }
      · refine { h with data := ?_ }
        simp [h.data]
    · exact { h with }

/-- What the emit passes leave for `build_elf`. -/
theorem emitPasses_laid {src buf₂ buf₃ : List Byte} {s₁ s₂ s₃ : Asm} (h : emitPasses src buf₂ buf₃ s₁ = some (s₂, s₃)) :
    Laid (elfHdrSize + s₁.textLen) (elfHdrSize + s₁.textLen + s₁.dataLen) s₃ := by
  simp only [emitPasses, bind, Option.bind_eq_some_iff, pure, Option.some.injEq, Prod.mk.injEq] at h
  obtain ⟨t₂, h₂, t₃, h₃, rfl, rfl⟩ := h
  have hlaid₂ := (laid_inv (elfHdrSize + s₁.textLen) (elfHdrSize + s₁.textLen + s₁.dataLen)).runPass
    ⟨rfl, rfl, rfl, rfl, rfl, rfl⟩ h₂
  refine (laid_inv _ _).runPass ?_ h₃
  exact ⟨rfl, hlaid₂.baseText, hlaid₂.baseData, hlaid₂.baseBss, rfl, rfl⟩

/-- The program starts with every assembled byte at its address, bss cleared, at `_start`, `main` or the first byte, and with the
break behind bss. -/
structure AsLoaded (s : Asm) (st : Started) : Prop where
  text : ∀ (k : Nat) b, s.textBuf[k]? = some b → st.mem (BitVec.ofInt 32 (s.baseText + k)) = b
  data : ∀ (k : Nat) b, s.dataBuf[k]? = some b → st.mem (BitVec.ofInt 32 (s.baseData + k)) = b
  bss : ∀ k : Nat, k < s.bssLen → st.mem (BitVec.ofInt 32 (s.baseBss + k)) = 0#8
  entry : st.entry = s.entry
  brk : st.brk = BitVec.ofInt 32 (s.baseBss + s.bssLen)

/-- The last emit pass ends with the text and data lengths of the first pass. -/
def SizesKept (s₁ s₃ : Asm) : Prop := s₃.textLen = s₁.textLen ∧ s₃.dataLen = s₁.dataLen

section Assembler

variable {baseData baseBss : Int} {s : Asm} (hl : Laid baseData baseBss s) {file : List Byte} (hfile : s.buildElf = some file)
  (hfit : s.fileSz + s.bssLen < userTrampOff) (behind : Nat → Byte) (m : U32 → Byte)

include hl hfile

/-- What the file of an accepted source is loaded as. -/
theorem startImage_buildElf :
    ∃ st, startImage file.length (fileBuf file behind) m = some st ∧ st.entry = s.entry ∧
      st.brk = BitVec.ofInt 32 (s.fileSz + s.bssLen) ∧
      (∀ (k : Nat) b, s.textBuf[k]? = some b → st.mem (BitVec.ofInt 32 (elfHdrSize + k)) = b) ∧
      (∀ (k : Nat) b, s.dataBuf[k]? = some b → st.mem (BitVec.ofInt 32 (elfHdrSize + s.textLen + k)) = b) ∧
      ∀ k : Nat, s.fileSz + k < userTrampOff → st.mem (BitVec.ofInt 32 (s.fileSz + k)) = 0#8 := by
  have hroom : (maxText + maxData + elfHdrSize).toNat < userTrampOff := by decide
  have hmax : 0 ≤ maxText + maxData + elfHdrSize := by decide
  have htext := hl.text
  have hdata := hl.data
  have hhdr : (elfHeader : Int) = elfHdrSize := rfl
  have hsz : s.fileSz = ((elfHeader + (s.textBuf ++ s.dataBuf).length : Nat) : Int) := by
    unfold Asm.fileSz
    rw [List.length_append]
    push_cast
    lia
  unfold Asm.buildElf at hfile
  split at hfile
  · cases hfile
  · rename_i hle
    obtain rfl := Option.some.inj hfile
    obtain ⟨st, hst, hentry, hbrk, hbytes, hzero⟩ := startImage_elfFile s.entry (BitVec.ofInt 32 (s.fileSz + s.bssLen))
      (s.textBuf ++ s.dataBuf) (by lia) behind m
    rw [show (BitVec.ofInt 32 s.fileSz) = BitVec.ofNat 32 (elfHeader + (s.textBuf ++ s.dataBuf).length) by rw [hsz]; rfl]
    refine ⟨st, hst, hentry, hbrk, ?_, ?_, ?_⟩
    · intro k b hk
      have hk' : k < s.textBuf.length := (List.getElem?_eq_some_iff.mp hk).1
      exact hbytes k b (by rw [List.getElem?_append_left hk', hk])
    · intro k b hk
      have hidx := hbytes (s.textBuf.length + k) b (by rw [List.getElem?_append_right (Nat.le_add_right ..), Nat.add_sub_cancel_left, hk])
      have haddr : elfHdrSize + s.textLen + k = ((elfHeader + (s.textBuf.length + k) : Nat) : Int) := by
        push_cast
        lia
      rw [haddr]
      exact hidx
    · intro k hk
      have haddr : s.fileSz + k = ((elfHeader + (s.textBuf ++ s.dataBuf).length + k : Nat) : Int) := by
        rw [hsz]
        push_cast
        rfl
      rw [haddr]
      exact hzero _ (Nat.le_add_right ..) (by lia)

include hfit

/-- With data and bss where the file has them, everything is at its address. -/
theorem asLoaded_of_bases (hd : baseData = elfHdrSize + s.textLen) (hb : baseBss = baseData + s.dataLen) :
    ∃ st, startImage file.length (fileBuf file behind) m = some st ∧ AsLoaded s st := by
  obtain ⟨st, hst, hentry, hbrk, htext, hdata, hzero⟩ := startImage_buildElf hl hfile behind m
  have hbss : s.baseBss = s.fileSz := by rw [hl.baseBss, hb, hd]; rfl
  refine ⟨st, hst, ?_, ?_, ?_, hentry, ?_⟩
  · rw [hl.baseText]
    exact htext
  · rw [hl.baseData, hd]
    exact hdata
  · intro k hk
    rw [hbss]
    exact hzero k (by omega)
  · rw [hbrk, hbss]

end Assembler

/-- A source that the first pass leaves settled keeps its sizes. -/
theorem sizesKept_of_settled {src buf₁ buf₂ buf₃ : List Byte} (hb₂ : buf₂.length = buf₁.length) (hb₃ : buf₃.length = buf₁.length)
    {s s₁ s₂ s₃ : Asm} (h₁ : runPass .one src buf₁ s = some s₁) (he : s₁.errCount = 0)
    (h : emitPasses src buf₂ buf₃ s₁ = some (s₂, s₃)) (hs : Settled s₁) : SizesKept s₁ s₃ := by
  simp only [emitPasses, bind, Option.bind_eq_some_iff, pure, Option.some.injEq, Prod.mk.injEq] at h
  obtain ⟨t₂, h₂, t₃, h₃, rfl, rfl⟩ := h
  have hlink : ∀ name, s₁.defines name = true → (assignAddrs s₁).defines name = true := by
    intro name hn
    rw [assignAddrs_defines, hn]
  obtain ⟨u₂, hu₂, hR₂⟩ := runPass_two_agrees src _ buf₂ hb₂ (assignAddrs s₁) h₁ he hs he hlink
  obtain rfl : t₂ = u₂ := Option.some.inj (h₂.symm.trans hu₂)
  obtain ⟨u₃, hu₃, hR₃⟩ := runPass_two_agrees src _ buf₃ hb₃ { t₂ with errCount := 0 } h₁ he hs rfl hR₂.defs
  obtain rfl : t₃ = u₃ := Option.some.inj (h₃.symm.trans hu₃)
  exact ⟨hR₃.textLen, hR₃.dataLen⟩

/-- Every image of the compiler is loaded at the addresses it was linked for. An image of the assembler is when the last emit pass
keeps the sizes of the first pass, as it does on a settled source; and a program finds its break behind bss only if the last emit
pass keeps the sum of the sizes. -/
theorem images_load_as_linked_of_sizesKept (src : List Byte) (n : Nat) (buf₁ buf₂ buf₃ : List.Vector Byte n) (s₁ s₂ s₃ : Asm)
    (h₁ : runPass .one src buf₁.toList Asm.initial = some s₁) (he₁ : s₁.errCount = 0)
    (h : emitPasses src buf₂.toList buf₃.toList s₁ = some (s₂, s₃)) (file : List Byte) (hfile : s₃.buildElf = some file)
    (hfit : s₃.fileSz + s₃.bssLen < userTrampOff) (behind : Nat → Byte) (m : U32 → Byte) :
    (∀ (stack : Nat → Byte) (objs : List Obj) (out : LinkOut) (ccFile : List Byte), (∀ o ∈ objs, o.RelocsInside) →
      linkObjects stack objs = .ok out → buildElf out = some ccFile → ccFile.length + out.bss < userTrampOff →
      ∃ st, startImage ccFile.length (fileBuf ccFile behind) m = some st ∧ CcLoaded objs out st) ∧
    (SizesKept s₁ s₃ → ∃ st, startImage file.length (fileBuf file behind) m = some st ∧ AsLoaded s₃ st) ∧
    (Settled s₁ → SizesKept s₁ s₃) ∧
    ∀ st, startImage file.length (fileBuf file behind) m = some st → AsLoaded s₃ st →
      BitVec.ofInt 32 (s₃.textLen + s₃.dataLen) = BitVec.ofInt 32 (s₁.textLen + s₁.dataLen) := by
  have hl := emitPasses_laid h
  refine ⟨?_, ?_, ?_, ?_⟩
  · intro stack objs out ccFile hobjs hlink hcc hbss
    exact ccLoaded_of_link hobjs hlink hcc hbss behind m
  · rintro ⟨ht, hd⟩
    exact asLoaded_of_bases hl hfile hfit behind m (by rw [ht]) (by rw [hd])
  · exact sizesKept_of_settled (by simp) (by simp) h₁ he₁ h
  · intro st hst hloaded
    obtain ⟨st', hst', -, hbrk, -⟩ := startImage_buildElf hl hfile behind m
    obtain rfl : st = st' := Option.some.inj (hst.symm.trans hst')
    have heq := hloaded.brk.symm.trans hbrk
    rw [hl.baseBss] at heq
    unfold Asm.fileSz at heq
    simp only [BitVec.ofInt_add] at heq ⊢
    have hcancel := add_right_cancel heq
    rw [BitVec.add_assoc, BitVec.add_assoc] at hcancel
    exact (add_left_cancel hcancel).symm

/-- Memory full of zeros. -/
def zeroMem : U32 → Byte := fun _ => 0#8

theorem images_load_as_linked_of_sizesKept_loop :
    ∃ s₁ s₂ s₃ file st, runPass .one loopSource clearBuf.toList Asm.initial = some s₁ ∧
      emitPasses loopSource clearBuf.toList clearBuf.toList s₁ = some (s₂, s₃) ∧ s₃.buildElf = some file ∧
      startImage file.length (fileBuf file fun _ => 0#8) zeroMem = some st ∧ AsLoaded s₃ st := by
  have hrun : (runPass .one loopSource clearBuf.toList Asm.initial).any (fun s₁ => s₁.errCount = 0 && Settled s₁ &&
      (emitPasses loopSource clearBuf.toList clearBuf.toList s₁).any fun r =>
        r.2.buildElf.isSome && r.2.fileSz + r.2.bssLen < (userTrampOff : Int)) = true := by
    decide +kernel
  obtain ⟨s₁, h₁, hs⟩ := (Option.any_eq_true _ _).mp hrun
  simp only [Bool.and_eq_true, decide_eq_true_eq] at hs
  obtain ⟨⟨he, hsettled⟩, hemit⟩ := hs
  obtain ⟨⟨s₂, s₃⟩, h₂, hfits⟩ := (Option.any_eq_true _ _).mp hemit
  simp only [Bool.and_eq_true, decide_eq_true_eq] at hfits
  obtain ⟨file, hfile⟩ := Option.isSome_iff_exists.mp hfits.1
  have hmain := images_load_as_linked_of_sizesKept loopSource 256 clearBuf clearBuf clearBuf s₁ s₂ s₃ h₁ he h₂ file hfile hfits.2
    (fun _ => 0#8) zeroMem
  obtain ⟨st, hst, hloaded⟩ := hmain.2.1 (hmain.2.2.1 hsettled)
  exact ⟨s₁, s₂, s₃, file, st, h₁, h₂, hfile, hst, hloaded⟩

/-- An alignment to a `.equ` value in front of data. -/
def equAlignDataSource : List Byte := asciiBytes ".equ N, 16\nnop\n.align N\n.data\n.long 7\n"

/-- Not every image of the assembler is loaded at the addresses it was assembled for. -/
theorem images_load_as_linked_false :
    ¬∀ (src : List Byte) (n : Nat) (buf₁ buf₂ buf₃ : List.Vector Byte n) (s₁ s₂ s₃ : Asm),
      runPass .one src buf₁.toList Asm.initial = some s₁ → s₁.errCount = 0 →
      emitPasses src buf₂.toList buf₃.toList s₁ = some (s₂, s₃) → s₃.errCount = 0 →
      ∀ file, s₃.buildElf = some file → file.length ≤ fileBufMax → s₃.fileSz + s₃.bssLen < userTrampOff →
      ∀ (behind : Nat → Byte) (m : U32 → Byte),
        ∃ st, startImage file.length (fileBuf file behind) m = some st ∧ AsLoaded s₃ st := by
  intro h
  have hrun : (runPass .one equAlignDataSource clearBuf.toList Asm.initial).any (fun s₁ => s₁.errCount = 0 &&
      (emitPasses equAlignDataSource clearBuf.toList clearBuf.toList s₁).any fun r =>
        r.2.errCount = 0 && r.2.fileSz + r.2.bssLen < (userTrampOff : Int) && (r.2.baseBss + r.2.bssLen = 89) &&
          r.2.buildElf.any fun file => file.length ≤ fileBufMax &&
            (startImage file.length (fileBuf file fun _ => 0#8) zeroMem).any fun st => st.brk = 104#32) = true := by
    decide +kernel
  obtain ⟨s₁, h₁, hs⟩ := (Option.any_eq_true _ _).mp hrun
  simp only [Bool.and_eq_true, decide_eq_true_eq] at hs
  obtain ⟨he, hemit⟩ := hs
  obtain ⟨⟨s₂, s₃⟩, h₂, hrest⟩ := (Option.any_eq_true _ _).mp hemit
  simp only [Bool.and_eq_true, decide_eq_true_eq] at hrest
  obtain ⟨⟨⟨he₃, hfit⟩, hend⟩, hbuilt⟩ := hrest
  obtain ⟨file, hfile, hload⟩ := (Option.any_eq_true _ _).mp hbuilt
  simp only [Bool.and_eq_true, decide_eq_true_eq] at hload
  obtain ⟨hlen, hstart⟩ := hload
  obtain ⟨st, hst, hbrk⟩ := (Option.any_eq_true _ _).mp hstart
  obtain ⟨st', hst', hloaded⟩ := h equAlignDataSource 256 clearBuf clearBuf clearBuf s₁ s₂ s₃ h₁ he h₂ he₃ file hfile hlen hfit
    (fun _ => 0#8) zeroMem
  obtain rfl : st = st' := Option.some.inj (hst.symm.trans hst')
  have hwrong := hloaded.brk
  rw [hend, of_decide_eq_true hbrk] at hwrong
  exact absurd hwrong (by decide)

end MiniOs32
