import MiniOs32.Theorems.EditorText
import MiniOs32.Theorems.SaveLoad

/-!
# Saving what was opened

`cmd_edit` takes every load that fails for a new file. A file that is there and fits the buffer is written back in place, byte for
byte; one that does not fit is loaded as no text at all, and the save then cuts it to that.
-/

namespace MiniOs32

/-- The keys that move the cursor: the arrows, and a page up and down. -/
def IsMovement (key : Int) : Prop := key = keyLeft ∨ key = keyRight ∨ key = keyUp ∨ key = keyDown ∨ key = 21 ∨ key = 4

/-- A load of the file in a slot, into a buffer that is large enough, returns and stores what it did before. -/
def LoadsSame (k k' : Kernel) (idx : Nat) : Prop :=
  ∀ um nameOff bufOff max name, nameAt um nameOff = some name → fsFind k.fs.dir (normalizeName name) = some idx →
    (k.fs.dir.get idx).size ≤ max → (k'.sysLoad um nameOff bufOff max).2 = (k.sysLoad um nameOff bufOff max).2

/-- The run of an entry lies behind the directory, and ATA addresses reach it. -/
def Dirent.Addressed (e : Dirent) : Prop := fsDataLba ≤ e.start.toNat ∧ e.start.toNat + sectorCount e.size.toNat ≤ ataSectors

/-! ## Reading a run -/

/-- A run is on the medium, or the RAM disk refuses it. -/
theorem Disk.onMedium_or_refused (d : Disk) {lba count : U32} (hlo : fsDirLba ≤ lba.toNat)
    (hhi : lba.toNat + count.toNat ≤ ataSectors) :
    d.OnMedium lba.toNat count.toNat ∨ d.ram = true ∧ d.rdRangeOk lba count = false := by
  have hata : ataSectors = 2 ^ 28 := rfl
  cases hr : d.ram with
  | false => exact .inl ⟨hlo, by simpa [Disk.limit, hr] using hhi⟩
  | true =>
    have hlim : d.limit = fsDirLba + d.rdSectors.toNat := by simp [Disk.limit, hr]
    by_cases hin : lba.toNat + count.toNat ≤ d.limit
    · exact .inl ⟨hlo, hin⟩
    · refine .inr ⟨rfl, ?_⟩
      have hsub := sub_fsDirLba_toNat hlo
      have hadd : (lba - BitVec.ofNat 32 fsDirLba + count).toNat = lba.toNat - fsDirLba + count.toNat := by
        rw [BitVec.toNat_add, hsub]
        exact Nat.mod_eq_of_lt (by lia)
      have hgt : ¬lba - BitVec.ofNat 32 fsDirLba + count ≤ d.rdSectors := by
        rw [BitVec.le_def, hadd]
        lia
      rw [Disk.rdRangeOk, decide_eq_false hgt, Bool.and_false]

/-- Two disks whose bytes agree read alike, also where a read is refused. -/
theorem Disk.readSectors_congr {d d' : Disk} (hs : d.SameMedium d') {lba count : U32} (hlo : fsDirLba ≤ lba.toNat)
    (hhi : lba.toNat + count.toNat ≤ ataSectors) {i : Nat} (hi : i < count.toNat * 512)
    (hb : d.OnMedium lba.toNat count.toNat → d'.byteAt (lba.toNat + i / 512) (i % 512) = d.byteAt (lba.toNat + i / 512) (i % 512)) :
    (d'.readSectors lba count).2 i = (d.readSectors lba count).2 i := by
  rcases d.onMedium_or_refused hlo hhi with hm | ⟨hr, hno⟩
  · rw [(d'.readSectors_byteAt (hs.onMedium hm)).2 i hi, (d.readSectors_byteAt hm).2 i hi, hb hm]
  · have hno' : d'.rdRangeOk lba count = false := by
      rw [← hno]
      simp only [Disk.rdRangeOk, hs.ram, hs.rdSectors]
    simp [Disk.readSectors, hs.ram, hr, hno, hno']

/-- Reading a run changes nothing. -/
theorem Disk.readSectors_fst (d : Disk) {lba count : U32} (hlo : fsDirLba ≤ lba.toNat)
    (hhi : lba.toNat + count.toNat ≤ ataSectors) : (d.readSectors lba count).1 = d := by
  rcases d.onMedium_or_refused hlo hhi with hm | ⟨hr, hno⟩
  · exact (d.readSectors_byteAt hm).1
  · simp [Disk.readSectors, hr, hno]

/-! ## Reading a file -/

/-- What `fs_read` copies out for an entry. -/
def Disk.fileData (d : Disk) (e : Dirent) : Nat → Byte := fun i =>
  let full := e.size / 512#32
  if i < full.toNat * 512 then (d.readSectors e.start full).2 i
  else if 0#32 < e.size % 512#32 then (d.readSectors (e.start + full) 1#32).2 (i - full.toNat * 512) else 0#8

section Run

variable {e : Dirent} (h : e.Addressed)
include h

/-- The whole sectors of the run. -/
theorem Dirent.Addressed.full : fsDirLba ≤ e.start.toNat ∧ e.start.toNat + (e.size / 512#32).toNat ≤ ataSectors := by
  obtain ⟨hlo, hhi⟩ := h
  have hfull : (e.size / 512#32).toNat = e.size.toNat / 512 := by simp
  have hdir : fsDataLba = fsDirLba + 64 := rfl
  rw [sectorCount] at hhi
  lia

/-- The partial sector behind them. -/
theorem Dirent.Addressed.last (hrem : 0#32 < e.size % 512#32) :
    (e.start + e.size / 512#32).toNat = e.start.toNat + e.size.toNat / 512 ∧
      fsDirLba ≤ (e.start + e.size / 512#32).toNat ∧ (e.start + e.size / 512#32).toNat + (1#32).toNat ≤ ataSectors := by
  obtain ⟨hlo, hhi⟩ := h
  have hfull : (e.size / 512#32).toNat = e.size.toNat / 512 := by simp
  have hmod : 0 < e.size.toNat % 512 := by
    have := BitVec.lt_def.mp hrem
    simpa using this
  have hdir : fsDataLba = fsDirLba + 64 := rfl
  have hata : ataSectors = 2 ^ 28 := rfl
  have hone : (1#32).toNat = 1 := rfl
  rw [sectorCount] at hhi
  have hadd : (e.start + e.size / 512#32).toNat = e.start.toNat + e.size.toNat / 512 := by
    rw [BitVec.toNat_add, hfull]
    exact Nat.mod_eq_of_lt (by lia)
  exact ⟨hadd, by lia, by lia⟩

/-- `fs_read` of a file changes nothing. -/
theorem Fs.read_addressed {fs : Fs} {name : List Byte} {idx : Nat} (hf : fsFind fs.dir name = some idx)
    (he : fs.dir.get idx = e) (max : U32) :
    fs.read name max = (fs, if max < e.size then none else some (e.size, fs.disk.fileData e)) := by
  subst he
  rw [Fs.read, hf]
  dsimp only
  set e := fs.dir.get idx
  split
  · rfl
  · have h1 : (if 0#32 < e.size / 512#32 then fs.disk.readSectors e.start (e.size / 512#32) else (fs.disk, fun _ => 0#8)).1 =
        fs.disk := by
      split
      · exact fs.disk.readSectors_fst h.full.1 h.full.2
      · rfl
    have h2 : (if 0#32 < e.size % 512#32 then fs.disk.readSectors (e.start + e.size / 512#32) 1#32
        else (fs.disk, fun _ => 0#8)).1 = fs.disk := by
      split
      · rename_i hrem
        exact fs.disk.readSectors_fst (h.last hrem).2.1 (h.last hrem).2.2
      · rfl
    rw [h1, h2]
    congr 2
    congr 1
    funext i
    simp only [Disk.fileData]
    split
    · rename_i hi
      rw [if_pos]
      rw [BitVec.lt_def]
      show 0 < _
      omega
    · split <;> rfl

/-- The data of a file on the medium is what its sectors hold. -/
theorem Disk.fileData_byteAt {fs : Fs} {name : List Byte} {idx : Nat} (hf : fsFind fs.dir name = some idx)
    (he : fs.dir.get idx = e) (hm : fs.disk.OnMedium e.start.toNat (sectorCount e.size.toNat)) {i : Nat} (hi : i < e.size.toNat) :
    fs.disk.fileData e i = fs.disk.byteAt (e.start.toNat + i / 512) (i % 512) := by
  have hle : ¬e.size < (fs.dir.get idx).size := by rw [he]; exact BitVec.lt_irrefl _
  obtain ⟨data, hread, hdata⟩ := fs.read_spec hf hle fun _ => by rw [he]; exact hm
  rw [Fs.read_addressed h hf he, if_neg (BitVec.lt_irrefl _)] at hread
  rw [he] at hread hdata
  have hsame : fs.disk.fileData e = data := by
    have := Option.some.inj (Prod.ext_iff.mp hread).2
    exact (Prod.ext_iff.mp this).2
  rw [hsame, hdata i hi]

/-- Two disks that agree on the bytes of a file give the same data. -/
theorem Disk.fileData_congr {d d' : Disk} (hs : d.SameMedium d') {e' : Dirent} (hstart : e'.start = e.start)
    (hsize : e'.size = e.size) {i : Nat} (hi : i < e.size.toNat)
    (hb : ∀ l j, d.OnMedium l 1 → j < 512 → l = e.start.toNat + i / 512 → j = i % 512 → d'.byteAt l j = d.byteAt l j) :
    d'.fileData e' i = d.fileData e i := by
  have hfull : (e.size / 512#32).toNat = e.size.toNat / 512 := by simp
  simp only [Disk.fileData, hstart, hsize]
  split
  · rename_i hlt
    refine Disk.readSectors_congr hs h.full.1 h.full.2 hlt fun hm => ?_
    exact hb _ _ ⟨by have := hm.1; lia, by have := hm.2; lia⟩ (Nat.mod_lt _ (by lia)) rfl rfl
  · rename_i hge
    split
    · rename_i hrem
      obtain ⟨hadd, hlo, hhi⟩ := h.last hrem
      have hone : (1#32).toNat = 1 := rfl
      refine Disk.readSectors_congr hs hlo hhi (by lia) fun hm => ?_
      refine hb _ _ ?_ (Nat.mod_lt _ (by lia)) (by lia) (by lia)
      exact ⟨by have := hm.1; lia, by have := hm.2; lia⟩
    · rfl

end Run

/-! ## Loading a file -/

/-- `SYS_LOAD` of a file into a buffer that is large enough returns its size. -/
theorem sysLoad_status {k : Kernel} {um : UserMem} {nameOff bufOff max : U32} {name : List Byte} {idx : Nat}
    (hr : userRangeOk bufOff max = true) (hname : nameAt um nameOff = some name)
    (hf : fsFind k.fs.dir (normalizeName name) = some idx) (hmax : (k.fs.dir.get idx).size ≤ max) :
    (k.sysLoad um nameOff bufOff max).2.2 = (k.fs.dir.get idx).size := by
  rw [Kernel.sysLoad, hr, hname]
  dsimp only
  rw [Fs.read, hf]
  dsimp only
  rw [if_neg (BitVec.not_lt.mpr hmax)]
  rfl

/-- And stores its data. -/
theorem sysLoad_file {k : Kernel} {um : UserMem} {nameOff bufOff max : U32} {name : List Byte} {idx : Nat}
    (hr : userRangeOk bufOff max = true) (hname : nameAt um nameOff = some name)
    (hf : fsFind k.fs.dir (normalizeName name) = some idx) (h : (k.fs.dir.get idx).Addressed)
    (hmax : (k.fs.dir.get idx).size ≤ max) :
    k.sysLoad um nameOff bufOff max = (k, fun i => if bufOff.toNat ≤ i ∧ i < bufOff.toNat + (k.fs.dir.get idx).size.toNat then
      k.fs.disk.fileData (k.fs.dir.get idx) (i - bufOff.toNat) else um i, (k.fs.dir.get idx).size) := by
  rw [Kernel.sysLoad, hr, hname]
  dsimp only
  rw [Fs.read_addressed h hf rfl, if_neg (BitVec.not_lt.mpr hmax)]
  rfl

/-- A file that is found under the same names, is as large and has the same bytes. -/
structure FileKept (k k' : Kernel) (idx : Nat) : Prop where
  found : ∀ name, IsName name → fsFind k.fs.dir (normalizeName name) = some idx → fsFind k'.fs.dir (normalizeName name) = some idx
  size : (k'.fs.dir.get idx).size = (k.fs.dir.get idx).size
  addressed : (k'.fs.dir.get idx).Addressed
  data : ∀ i < (k.fs.dir.get idx).size.toNat,
    k'.fs.disk.fileData (k'.fs.dir.get idx) i = k.fs.disk.fileData (k.fs.dir.get idx) i

/-- It loads the same. -/
theorem FileKept.loadsSame {k k' : Kernel} {idx : Nat} (hk : FileKept k k' idx) (h : (k.fs.dir.get idx).Addressed) :
    LoadsSame k k' idx := by
  intro um nameOff bufOff max name hname hfind hmax
  cases hr : userRangeOk bufOff max with
  | false => simp [Kernel.sysLoad, hr]
  | true =>
    have hfind' := hk.found name (nameAt_isName hname) hfind
    rw [sysLoad_file hr hname hfind h hmax, sysLoad_file hr hname hfind' hk.addressed (by rw [hk.size]; exact hmax), hk.size]
    refine Prod.ext (funext fun i => ?_) rfl
    dsimp only
    split
    · exact hk.data _ (by omega)
    · rfl

/-- `SYS_SYNC` reads the RAM disk only. -/
theorem FileKept.sysSync {k k' : Kernel} {idx : Nat} (hk : FileKept k k' idx) (status : U32) :
    FileKept k (k'.sysSync status).1 idx := by
  have hread : ∀ lba n, ((k'.fs.disk.sync status).1.readSectors lba n).2 = (k'.fs.disk.readSectors lba n).2 := by
    intro lba n
    rw [Disk.sync]
    split
    · rfl
    split
    · rfl
    · simp only [Disk.readSectors, Disk.rdRangeOk, Disk.rdInside, Disk.addr]
      split
      · split
        · split <;> rfl
        · rfl
      · rfl
  refine ⟨hk.found, hk.size, hk.addressed, fun i hi => ?_⟩
  rw [← hk.data i hi, sysSync_fst]
  simp only [Disk.fileData, hread]

/-! ## Writing a file back -/

/-- Names that find a slot find it again when the file there is saved under one of them. -/
theorem fsFind_saved {d : Dir} {p name : List Byte} {idx : Nat} (hp : IsName p) (hn : IsName name)
    (hfp : fsFind d (normalizeName p) = some idx) (hfn : fsFind d (normalizeName name) = some idx) (start size : U32) :
    fsFind (d.set idx (saveEntry (d.get idx) (normalizeName p) start size)) (normalizeName name) = some idx := by
  obtain ⟨⟨hlive, hsame⟩, -⟩ := (fsFind_eq_some_iff _ _ _).mp hfp
  have hname := ((fsFind_eq_some_iff _ _ _).mp hfn).1.2
  rw [nameEqCi_iff _ (normalizeName_isName hp)] at hsame
  rw [nameEqCi_iff _ (normalizeName_isName hn)] at hname
  have hstr := saveEntry_str (d.get idx) (normalizeName_isName hp) (normalizeName_length_le p) start size
  refine fsFind_set (d.lt_of_live hlive) (.inl hfn) ?_ ?_
  · rw [Dirent.live_iff, hstr]
    intro hnil
    rw [hnil] at hsame
    have hlen := congrArg List.length hsame
    have hpos := List.length_pos_of_ne_nil ((Dirent.live_iff _).mp hlive)
    simp only [List.take_nil, List.map_nil, List.length_nil, List.length_map, List.length_take] at hlen
    omega
  · rw [nameEqCi_iff _ (normalizeName_isName hn), hstr]
    exact hsame.symm.trans hname

/-- A save of a file at its own size goes where it is. -/
theorem fsPlace_inPlace {d : Dir} {name : List Byte} {idx : Nat} {size : U32} (hf : fsFind d name = some idx)
    (hle : sectorsOf size ≤ sectorsOf (d.get idx).size) : fsPlace d name size = some (idx, (d.get idx).start) := by
  rw [fsPlace, hf]
  exact if_pos hle

/-- A save of the bytes that a file has keeps it. -/
theorem fileKept_sysSave {k : Kernel} {um : UserMem} {pathOff bufOff : U32} {p : List Byte} {idx : Nat}
    (hr : userRangeOk bufOff (k.fs.dir.get idx).size = true) (hp : nameAt um pathOff = some p)
    (hf : fsFind k.fs.dir (normalizeName p) = some idx) (h : (k.fs.dir.get idx).Addressed)
    (hum : ∀ i < (k.fs.dir.get idx).size.toNat, um (bufOff.toNat + i) = k.fs.disk.fileData (k.fs.dir.get idx) i) :
    FileKept k (k.sysSave um pathOff bufOff (k.fs.dir.get idx).size).1 idx := by
  have hplace := fsPlace_inPlace hf (BitVec.le_refl (sectorsOf (k.fs.dir.get idx).size))
  have hlive := ((fsFind_eq_some_iff _ _ _).mp hf).1.1
  have hlen := userRangeOk_len hr
  have hfb : userFbOffset = 25165824 := rfl
  have hdir : fsDataLba = fsDirLba + 64 := rfl
  set e := k.fs.dir.get idx with he
  have hcount := sectorsOf_toNat (show e.size.toNat + 511 < 2 ^ 32 by lia)
  have hsave : (k.sysSave um pathOff bufOff e.size).1 =
      ⟨Fs.syncDir ⟨k.fs.dir.set idx (saveEntry e (normalizeName p) e.start e.size),
        k.fs.disk.writeSectors .save e.start (sectorsOf e.size) (fun i => um (bufOff.toNat + i))⟩, k.ofiles⟩ := by
    simp [Kernel.sysSave, hr, hp, Fs.write, hplace, ← he]
  rw [hsave]
  have hget : (k.fs.dir.set idx (saveEntry e (normalizeName p) e.start e.size)).get idx =
      saveEntry e (normalizeName p) e.start e.size := Dir.get_set_self _ (k.fs.dir.lt_of_live hlive) _
  refine ⟨fun name hn hfn => fsFind_saved (nameAt_isName hp) hn hf hfn e.start e.size, ?_, ?_, ?_⟩
  · show ((k.fs.dir.set idx _).get idx).size = _
    rw [hget]
    rfl
  · show Dirent.Addressed ((k.fs.dir.set idx _).get idx)
    rw [hget]
    exact h
  intro i hi
  change i < e.size.toNat at hi
  show Disk.fileData _ ((k.fs.dir.set idx _).get idx) i = _
  rw [hget]
  obtain ⟨hsame, hsync⟩ := Fs.syncDir_byteAt ⟨k.fs.dir.set idx (saveEntry e (normalizeName p) e.start e.size),
    k.fs.disk.writeSectors .save e.start (sectorsOf e.size) (fun i => um (bufOff.toNat + i))⟩
  have hlow : fsDirLba ≤ e.start.toNat := by
    have := h.1
    lia
  have hhigh : e.start.toNat + (sectorsOf e.size).toNat ≤ ataSectors := by
    rw [hcount]
    exact h.2
  rcases k.fs.disk.onMedium_or_refused hlow hhigh with hm | ⟨hram, hno⟩
  · -- the data lands where it was read from
    obtain ⟨hsame', hwrite⟩ := k.fs.disk.writeSectors_byteAt .save (fun i => um (bufOff.toNat + i)) hm
    refine Disk.fileData_congr h (hsame'.trans hsame) rfl rfl hi fun l j hl hj hle hje => ?_
    rw [hsync l j (hsame'.onMedium hl) hj, if_neg (by have := h.1; lia)]
    subst hle hje
    rw [hwrite _ _ hl hj, if_pos (by rw [hcount, sectorCount]; lia)]
    have hoff : (e.start.toNat + i / 512 - e.start.toNat) * 512 + i % 512 = i := by lia
    rw [hoff, hum i hi]
    rw [hcount] at hm
    exact Disk.fileData_byteAt h hf he.symm hm hi
  · -- the RAM disk refuses the write as it refused the read
    have heq : k.fs.disk.writeSectors .save e.start (sectorsOf e.size) (fun i => um (bufOff.toNat + i)) = k.fs.disk := by
      simp [Disk.writeSectors, hram, hno]
    rw [heq] at hsame hsync ⊢
    refine Disk.fileData_congr h hsame rfl rfl hi fun l j hl hj hle hje => ?_
    rw [hsync l j hl hj, if_neg (by have := h.1; lia)]

/-! ## The session -/

/-- `user_copy_str` looks at the bytes of the string only. -/
theorem userCopyStrLoop_congr {um um' : UserMem} : ∀ {n a : Nat}, (∀ i < n, um (a + i) = um' (a + i)) →
    userCopyStrLoop um a n = userCopyStrLoop um' a n := by
  intro n
  induction n with
  | zero => intro a _; rfl
  | succ n ih =>
    intro a h
    have h0 : um a = um' a := h 0 (by omega)
    rw [userCopyStrLoop, userCopyStrLoop, ← h0, ih fun i hi => by rw [Nat.add_assoc, Nat.add_comm 1, h (i + 1) (by omega)]]

theorem nameAt_congr {um um' : UserMem} {off : U32} (h : ∀ i < 64, um (off.toNat + i) = um' (off.toNat + i)) :
    nameAt um off = nameAt um' off := by
  rw [nameAt, nameAt, userCopyStr, userCopyStr,
    userCopyStrLoop_congr fun i hi => h i (by rw [userCopyStrLimit] at hi; omega)]

/-- `SYS_LOAD` stores nothing outside its buffer. -/
theorem sysLoad_frame (k : Kernel) (um : UserMem) (nameOff bufOff max : U32) {j : Nat}
    (hj : ¬(bufOff.toNat ≤ j ∧ j < bufOff.toNat + max.toNat)) : (k.sysLoad um nameOff bufOff max).2.1 j = um j := by
  unfold Kernel.sysLoad
  split
  · rfl
  · cases nameAt um nameOff with
    | none => rfl
    | some uname =>
      dsimp only
      unfold Fs.read
      cases fsFind k.fs.dir (normalizeName uname) with
      | none => rfl
      | some idx =>
        dsimp only
        by_cases hmax : max < (k.fs.dir.get idx).size
        · rw [if_pos hmax]
        · rw [if_neg hmax]
          have hle := BitVec.le_def.mp (BitVec.not_lt.mp hmax)
          exact if_neg (by omega)

/-- `SYS_LOAD` of a file that does not fit the buffer fails. -/
theorem sysLoad_large {k : Kernel} {um : UserMem} {nameOff bufOff max : U32} {name : List Byte} {idx : Nat}
    (hname : nameAt um nameOff = some name) (hf : fsFind k.fs.dir (normalizeName name) = some idx)
    (hmax : max < (k.fs.dir.get idx).size) : k.sysLoad um nameOff bufOff max = (k, um, fail) := by
  rw [Kernel.sysLoad, hname]
  dsimp only
  rw [Fs.read, hf]
  dsimp only
  rw [if_pos hmax]
  split <;> rfl

/-- What the editor opens a file with: the file if it fits, and no text if it does not. -/
theorem editOpen_file {f : EditFrame} {k : Kernel} {um : UserMem} {cwd name p : List Byte} {s : Editor} {idx : Nat}
    (h : editOpen f k um cwd name = some s) (hp : nameAt s.um f.pathOff = some p)
    (hf : fsFind k.fs.dir (normalizeName p) = some idx) (he : (k.fs.dir.get idx).Addressed) :
    s.kernel = k ∧ s.running = true ∧
      ((k.fs.dir.get idx).size.toNat ≤ editSize → s.len = (k.fs.dir.get idx).size.toNat ∧
        ∀ i < (k.fs.dir.get idx).size.toNat, s.um (f.bufOff.toNat + i) = k.fs.disk.fileData (k.fs.dir.get idx) i) ∧
      (editSize < (k.fs.dir.get idx).size.toNat → s.len = 0) := by
  rw [editOpen] at h
  obtain ⟨⟨ok, path⟩, -, h⟩ := Option.bind_eq_some_iff.mp h
  dsimp only at h
  split at h
  · cases h
  obtain rfl := Option.some.inj h
  dsimp only at hp ⊢
  set um1 := um.put f.pathOff.toNat path
  have hsize : (BitVec.ofNat 32 editSize).toNat = editSize := rfl
  have hapart := f.apart
  -- the load leaves the path alone
  have hp1 : nameAt um1 f.pathOff = some p := by
    rw [← hp]
    exact nameAt_congr fun i hi => (sysLoad_frame k um1 f.pathOff f.bufOff _ (by rw [hsize]; lia)).symm
  by_cases hle : (k.fs.dir.get idx).size ≤ BitVec.ofNat 32 editSize
  · have hle' := BitVec.le_def.mp hle
    rw [hsize] at hle'
    rw [sysLoad_file f.bufOk hp1 hf he hle]
    dsimp only
    have hint : (k.fs.dir.get idx).size.toInt = (k.fs.dir.get idx).size.toNat :=
      BitVec.toInt_eq_toNat_of_lt (by have : editSize = 131072 := rfl; lia)
    refine ⟨rfl, rfl, fun _ => ⟨?_, fun i hi => ?_⟩, fun hlt => by lia⟩
    · rw [hint]
      split <;> lia
    · rw [if_pos (by lia), Nat.add_sub_cancel_left]
  · have hlt := BitVec.not_le.mp hle
    rw [sysLoad_large hp1 hf hlt]
    refine ⟨rfl, rfl, fun hle' => absurd (BitVec.le_def.mpr hle') hle, fun _ => rfl⟩

/-- A movement changes nothing that a save looks at. -/
theorem editKey_movement (f : EditFrame) (s : Editor) {k : EditKey} (hk : k.key = 0 ∨ IsMovement k.key) :
    (editKey f s k).kernel = s.kernel ∧ (editKey f s k).um = s.um ∧ (editKey f s k).len = s.len ∧
      (editKey f s k).running = s.running := by
  rw [editKey]
  split
  · exact ⟨rfl, rfl, rfl, rfl⟩
  rcases hk with hk | hk | hk | hk | hk | hk | hk <;> rw [hk]
  · exact ⟨rfl, rfl, rfl, rfl⟩
  · exact ⟨rfl, rfl, rfl, rfl⟩
  · exact ⟨rfl, rfl, rfl, rfl⟩
  · change (Editor.up f _).kernel = _ ∧ (Editor.up f _).um = _ ∧ (Editor.up f _).len = _ ∧ (Editor.up f _).running = _
    rw [Editor.up]
    dsimp only
    split <;> exact ⟨rfl, rfl, rfl, rfl⟩
  · exact ⟨rfl, rfl, rfl, rfl⟩
  · exact ⟨rfl, rfl, rfl, rfl⟩
  · exact ⟨rfl, rfl, rfl, rfl⟩

/-- Nor do any number of them. -/
theorem runFrom_movement (f : EditFrame) {keys : List EditKey} (hkeys : ∀ k ∈ keys, k.key = 0 ∨ IsMovement k.key) :
    ∀ s : Editor, (runFrom (editKey f) s keys).kernel = s.kernel ∧ (runFrom (editKey f) s keys).um = s.um ∧
      (runFrom (editKey f) s keys).len = s.len ∧ (runFrom (editKey f) s keys).running = s.running := by
  induction keys with
  | nil => intro s; exact ⟨rfl, rfl, rfl, rfl⟩
  | cons k keys ih =>
    intro s
    obtain ⟨h1, h2, h3, h4⟩ := ih (fun k hk => hkeys k (List.mem_cons_of_mem _ hk)) (editKey f s k)
    obtain ⟨g1, g2, g3, g4⟩ := editKey_movement f s (hkeys k List.mem_cons_self)
    rw [runFrom_cons]
    exact ⟨h1.trans g1, h2.trans g2, h3.trans g3, h4.trans g4⟩

/-- Ctrl+S. -/
theorem editKey_save (f : EditFrame) {s : Editor} (hr : s.running = true) (status : U32) :
    (editKey f s ⟨19, status⟩).kernel = (if (s.kernel.sysSave s.um f.pathOff f.bufOff (BitVec.ofInt 32 s.len)).2 ≠ 0#32 then
      (s.kernel.sysSave s.um f.pathOff f.bufOff (BitVec.ofInt 32 s.len)).1
      else ((s.kernel.sysSave s.um f.pathOff f.bufOff (BitVec.ofInt 32 s.len)).1.sysSync status).1) := by
  rw [editKey, hr]
  change (s.save f status).kernel = _
  rw [Editor.save]
  dsimp only
  split <;> rfl

/-- A shorter range is as good. -/
theorem userRangeOk_shorter {off len len' : U32} (h : userRangeOk off len = true) (hle : len'.toNat ≤ len.toNat) :
    userRangeOk off len' = true := by
  unfold userRangeOk at h ⊢
  split at h
  · rename_i hlt
    rw [if_pos hlt]
    simp only [decide_eq_true_eq] at h ⊢
    omega
  · rename_i hge
    rw [if_neg hge]
    split at h
    · cases h
    · rename_i hfb
      rw [if_neg hfb]
      simp only [decide_eq_true_eq] at h ⊢
      omega

/-- A save of no text cuts the file to nothing. -/
theorem sysSave_empty {k : Kernel} {um : UserMem} {pathOff bufOff : U32} {p : List Byte} {idx : Nat}
    (hr : userRangeOk bufOff 0#32 = true) (hp : nameAt um pathOff = some p)
    (hf : fsFind k.fs.dir (normalizeName p) = some idx) :
    (k.sysSave um pathOff bufOff 0#32).2 = 0#32 ∧ (k.sysSave um pathOff bufOff 0#32).1.fs.dir =
      k.fs.dir.set idx (saveEntry (k.fs.dir.get idx) (normalizeName p) (k.fs.dir.get idx).start 0#32) := by
  have hle : sectorsOf 0#32 ≤ sectorsOf (k.fs.dir.get idx).size := by
    have h0 : sectorsOf 0#32 = 0#32 := rfl
    rw [h0]
    exact BitVec.le_def.mpr (Nat.zero_le _)
  have hplace := fsPlace_inPlace hf hle
  simp [Kernel.sysSave, hr, hp, Fs.write, hplace, Fs.syncDir]

/-- A session that opens a file, moves and saves, up to the save. -/
structure OpenedFile (f : EditFrame) (k : Kernel) (s : Editor) (p : List Byte) (idx : Nat) : Prop where
  name : nameAt s.um f.pathOff = some p
  found : fsFind k.fs.dir (normalizeName p) = some idx
  kernel : s.kernel = k
  running : s.running = true

section Saved

variable {f : EditFrame} {k : Kernel} {s : Editor} {p : List Byte} {idx : Nat} (h : OpenedFile f k s p idx) (status : U32)
include h

/-- If the text is the file, the save keeps it. -/
theorem loadsSame_of_text (he : (k.fs.dir.get idx).Addressed) (hsize : (k.fs.dir.get idx).size.toNat ≤ editSize)
    (hlen : s.len = (k.fs.dir.get idx).size.toNat)
    (hum : ∀ i < (k.fs.dir.get idx).size.toNat, s.um (f.bufOff.toNat + i) = k.fs.disk.fileData (k.fs.dir.get idx) i) :
    LoadsSame k (editKey f s ⟨19, status⟩).kernel idx := by
  have hint : BitVec.ofInt 32 s.len = (k.fs.dir.get idx).size := by
    rw [hlen, BitVec.ofInt_natCast, BitVec.ofNat_toNat, BitVec.setWidth_eq]
  have hkept := fileKept_sysSave (userRangeOk_shorter f.bufOk hsize) h.name h.found he hum
  rw [editKey_save f h.running, h.kernel, hint]
  split
  · exact hkept.loadsSame he
  · exact (hkept.sysSync status).loadsSame he

/-- If the text is empty, the save empties the file. -/
theorem not_loadsSame_of_empty (hlen : s.len = 0) (hpos : 0 < (k.fs.dir.get idx).size.toNat)
    (hsize : (k.fs.dir.get idx).size.toNat ≤ userFbOffset) : ¬LoadsSame k (editKey f s ⟨19, status⟩).kernel idx := by
  intro hsame
  have hr0 : userRangeOk f.bufOff 0#32 = true := userRangeOk_shorter f.bufOk (Nat.zero_le _)
  obtain ⟨hret, hdir⟩ := sysSave_empty hr0 h.name h.found
  have hint : BitVec.ofInt 32 s.len = 0#32 := by rw [hlen]; rfl
  rw [editKey_save f h.running, h.kernel, hint, hret, if_neg (by simp)] at hsame
  have hr : userRangeOk 0#32 (k.fs.dir.get idx).size = true := userRangeOk_arena hsize
  have hname := nameAt_isName h.name
  have hfind := fsFind_saved hname hname h.found h.found (k.fs.dir.get idx).start 0#32
  have hlive := ((fsFind_eq_some_iff _ _ _).mp h.found).1.1
  have hget : ((k.sysSave s.um f.pathOff f.bufOff 0#32).1.sysSync status).1.fs.dir.get idx =
      saveEntry (k.fs.dir.get idx) (normalizeName p) (k.fs.dir.get idx).start 0#32 := by
    rw [sysSync_fst, hdir]
    exact Dir.get_set_self _ (k.fs.dir.lt_of_live hlive) _
  -- the load that returned the size returns 0 now
  have hload := congrArg Prod.snd (hsame s.um f.pathOff 0#32 _ p h.name h.found (BitVec.le_refl _))
  rw [sysLoad_status hr h.name h.found (BitVec.le_refl _),
    sysLoad_status hr h.name (by rw [sysSync_fst, hdir]; exact hfind)
      (by rw [hget]; exact BitVec.le_def.mpr (Nat.zero_le _)), hget] at hload
  have hzero : (k.fs.dir.get idx).size.toNat = 0 := congrArg BitVec.toNat hload.symm
  omega

end Saved

/-- A file that is larger than any buffer is never loaded. -/
theorem loadsSame_of_unloadable {k : Kernel} {idx : Nat} (h : userFbOffset < (k.fs.dir.get idx).size.toNat) (k' : Kernel) :
    LoadsSame k k' idx := by
  intro um nameOff bufOff max name _ _ hmax
  have hr : userRangeOk bufOff max = false := by
    rw [Bool.eq_false_iff]
    intro hr
    have := userRangeOk_len hr
    have := BitVec.le_def.mp hmax
    omega
  simp [Kernel.sysLoad, hr]

/-- A file that the editor opens and saves with movements between loads as before exactly if it fits the editor's buffer. One that
is too large for every buffer could not be loaded before. -/
theorem editor_save_keeps_iff (f : EditFrame) (k : Kernel) (um : UserMem) (cwd name p : List Byte) (s : Editor) (idx : Nat)
    (h : editOpen f k um cwd name = some s) (hp : nameAt s.um f.pathOff = some p)
    (hf : fsFind k.fs.dir (normalizeName p) = some idx) (he : (k.fs.dir.get idx).Addressed) (keys : List EditKey)
    (hkeys : ∀ k ∈ keys, k.key = 0 ∨ IsMovement k.key) (status : U32) :
    LoadsSame k (editKey f (runFrom (editKey f) s keys) ⟨19, status⟩).kernel idx ↔
      (k.fs.dir.get idx).size.toNat ≤ editSize ∨ userFbOffset < (k.fs.dir.get idx).size.toNat := by
  obtain ⟨hker, hrun, hfits, hlarge⟩ := editOpen_file h hp hf he
  obtain ⟨h1, h2, h3, h4⟩ := runFrom_movement f hkeys s
  have hopen : OpenedFile f k (runFrom (editKey f) s keys) p idx := ⟨by rw [h2]; exact hp, hf, h1.trans hker, h4.trans hrun⟩
  rcases Nat.lt_or_ge editSize (k.fs.dir.get idx).size.toNat with hlt | hle
  · rcases Nat.lt_or_ge userFbOffset (k.fs.dir.get idx).size.toNat with hbig | hsize
    · exact iff_of_true (loadsSame_of_unloadable hbig _) (.inr hbig)
    · exact iff_of_false (not_loadsSame_of_empty hopen status (h3.trans (hlarge hlt)) (by omega) hsize) (by omega)
  · obtain ⟨hlen, hum⟩ := hfits hle
    exact iff_of_true (loadsSame_of_text hopen status he hle (h3.trans hlen) (by rw [h2]; exact hum)) (.inl hle)

/-! ## Two files -/

/-- A disk with one file `A`, of a size. -/
def kernelWithA (size : U32) : Kernel :=
  Kernel.fresh (Dir.empty.set 0 (saveEntry Dirent.zero [65#8] 201#32 size)) (Disk.blank 1000#32 (by decide))

theorem fsFind_kernelWithA (size : U32) : fsFind (kernelWithA size).fs.dir (normalizeName [65#8]) = some 0 := rfl

/-- The editor opens a file named by a letter, whatever the directory holds. -/
theorem editOpen_letter (k : Kernel) : ∃ s, editOpen lowFrame k (fun _ => 0#8) [] [65#8] = some s ∧
    nameAt s.um lowFrame.pathOff = some [65#8] := by
  have hpath : (UserMem.bytes (fun _ => 0#8) lowFrame.pathOff.toNat 64).length = 64 := by simp [UserMem.bytes]
  have hopen : (editOpen lowFrame k (fun _ => 0#8) [] [65#8]).isSome := by
    rw [editOpen, buildPath_letter hpath]
    simp [nameMax]
  obtain ⟨s, hs⟩ := Option.isSome_iff_exists.mp hopen
  refine ⟨s, hs, ?_⟩
  rw [editOpen, buildPath_letter hpath] at hs
  obtain rfl : _ = s := by simpa [nameMax] using hs
  dsimp only
  rw [nameAt_congr fun i hi => sysLoad_frame k _ lowFrame.pathOff lowFrame.bufOff _ (by simp [lowFrame, editSize])]
  rw [nameAt, userCopyStr, if_neg (by omega), if_neg (by decide)]
  refine userCopyStrLoop_eq _ [65#8] _ _ (by simp [IsName]) (by decide) fun i hi => ?_
  rcases Nat.le_one_iff_eq_zero_or_eq_one.mp hi with rfl | rfl <;> simp [UserMem.put]

/-- A file of three bytes is kept. -/
theorem editor_keeps_small : ∃ s, editOpen lowFrame (kernelWithA 3#32) (fun _ => 0#8) [] [65#8] = some s ∧
    LoadsSame (kernelWithA 3#32) (editKey lowFrame (runFrom (editKey lowFrame) s [⟨keyRight, 0#32⟩]) ⟨19, 0#32⟩).kernel 0 := by
  obtain ⟨s, hs, hname⟩ := editOpen_letter (kernelWithA 3#32)
  have hkeys : ∀ k ∈ [(⟨keyRight, 0#32⟩ : EditKey)], k.key = 0 ∨ IsMovement k.key := by simp [IsMovement]
  have haddr : ((kernelWithA 3#32).fs.dir.get 0).Addressed := ⟨le_rfl, by decide⟩
  exact ⟨s, hs, (editor_save_keeps_iff lowFrame _ _ _ _ _ s 0 hs hname (fsFind_kernelWithA _) haddr _ hkeys _).mpr
    (.inl (by decide))⟩

/-- One of 131073 bytes is emptied. -/
theorem editor_empties_large : ∃ s, editOpen lowFrame (kernelWithA 131073#32) (fun _ => 0#8) [] [65#8] = some s ∧
    nameAt s.um lowFrame.pathOff = some [65#8] ∧ ((kernelWithA 131073#32).fs.dir.get 0).Addressed ∧
    ¬LoadsSame (kernelWithA 131073#32) (editKey lowFrame s ⟨19, 0#32⟩).kernel 0 := by
  obtain ⟨s, hs, hname⟩ := editOpen_letter (kernelWithA 131073#32)
  have haddr : ((kernelWithA 131073#32).fs.dir.get 0).Addressed := ⟨le_rfl, by decide⟩
  have hfind := fsFind_kernelWithA 131073#32
  obtain ⟨hker, hrun, -, hlarge⟩ := editOpen_file hs hname hfind haddr
  exact ⟨s, hs, hname, haddr, not_loadsSame_of_empty ⟨hname, hfind, hker, hrun⟩ 0#32 (hlarge (by decide)) (by decide) (by decide)⟩

end MiniOs32
