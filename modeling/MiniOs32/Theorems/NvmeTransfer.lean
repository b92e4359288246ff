import MiniOs32.Kernel.NvmeRw

/-!
# The blocks of a transfer

For every block size from 512 to 4096, every request and every controller, a transfer moves exactly the blocks asked for through PRP
entries for exactly the pages of its chunks, and is refused before any command where it reaches past the namespace, if and only if it is
none whose end wraps around to within the namespace (`transfer_iff`). One for the last block of the address space passes the check
(`transfer_false`).
-/

namespace MiniOs32

/-- The driver's buffers are at the start of pages, and the blocks are of a size `nvme_init` takes. -/
structure NvmePlaced (info : NvmeDrive) : Prop where
  small : 512 ≤ info.blockSize.toNat
  large : info.blockSize.toNat ≤ 4096
  bounce : info.bounce.toNat % 4096 = 0
  list : info.prpList.toNat % 4096 = 0

/-- The PRP entries of a command describe the first pages of the bounce buffer, as many as its blocks take. -/
def IssuedCmd.Describes (info : NvmeDrive) (c : IssuedCmd) : Prop :=
  prpPages info c (c.sqe.blockCount * info.blockSize.toNat) =
    some ((List.range (prpPageCount (c.sqe.blockCount * info.blockSize.toNat))).map (bounceAddr info))

/-- A transfer moves the blocks asked for and no others, through the pages of the bounce buffer; or it is refused. -/
structure TransferRight (reply : NvmeReply) (d : NvmeIo) (write : Bool) (lba : U64) (count : U32) (data : Nat → Byte) : Prop where
  returns : ∃ r d' got, d.rw reply write lba count data = some (r, d', got) ∧ (r = 0 ∨ r = -1)
  refused : d.info.blocks.toNat < lba.toNat + count.toNat → d.rw reply write lba count data = some (-1, d, [])
  described : ∀ r d' got, d.rw reply write lba count data = some (r, d', got) →
    ∃ cmds, d'.issued = d.issued ++ cmds ∧ ∀ c ∈ cmds, c.Describes d.info
  read : ∀ d' got, d.rw reply write lba count data = some (0, d', got) → write = false → d'.disk = d.disk ∧
    got = (List.range (count.toNat * d.info.blockSize.toNat)).map fun i => d.disk (lba.toNat * d.info.blockSize.toNat + i)
  write : ∀ d' got, d.rw reply write lba count data = some (0, d', got) → write = true → ∀ i, d'.disk i =
    if lba.toNat * d.info.blockSize.toNat ≤ i ∧ i < (lba.toNat + count.toNat) * d.info.blockSize.toNat then
      data (i - lba.toNat * d.info.blockSize.toNat)
    else d.disk i

/-- The end of a request wraps around to within the namespace. -/
def EndWraps (info : NvmeDrive) (lba : U64) (count : U32) : Prop :=
  info.present = true ∧ count ≠ 0#32 ∧ 2 ^ 64 ≤ lba.toNat + count.toNat ∧ lba + count.setWidth 64 ≤ info.blocks

/-! ## Chunks -/

section Chunks

variable {info : NvmeDrive} {job : Rw} {d d' : NvmeIo} {reply : NvmeReply} {got : List Byte} {r : Int} {list : Nat → U64}

/-- The blocks and bytes of a chunk, without wrapping. -/
theorem chunk_bounds (hp : NvmePlaced info) (hcount : job.count ≠ 0#32) :
    0 < (job.chunk info).toNat ∧ (job.chunk info).toNat ≤ job.count.toNat ∧ (job.chunk info).toNat ≤ 256 ∧
    (job.chunk info).toNat * info.blockSize.toNat ≤ 131072 ∧ (job.bytes info).toNat = (job.chunk info).toNat * info.blockSize.toNat := by
  have hsmall := hp.small
  have hlarge := hp.large
  have hpos : 0 < info.blockSize.toNat := by omega
  have hper : (nvmeChunk / info.blockSize).toNat = 131072 / info.blockSize.toNat := by
    rw [BitVec.toNat_udiv]
    rfl
  have hper_pos : 0 < 131072 / info.blockSize.toNat := Nat.div_pos (by omega) hpos
  have hper_le : 131072 / info.blockSize.toNat ≤ 256 := (Nat.div_le_div_left hsmall (by decide)).trans (by decide)
  have hper_mul : 131072 / info.blockSize.toNat * info.blockSize.toNat ≤ 131072 := Nat.div_mul_le_self _ _
  have hcount' : job.count.toNat ≠ 0 := fun h => hcount (BitVec.eq_of_toNat_eq h)
  have hchunk : 0 < (job.chunk info).toNat ∧ (job.chunk info).toNat ≤ job.count.toNat ∧
      (job.chunk info).toNat ≤ 131072 / info.blockSize.toNat := by
    unfold Rw.chunk
    simp only
    split
    · rename_i hlt
      have hlt' : job.count.toNat < 131072 / info.blockSize.toNat := hper ▸ hlt
      exact ⟨Nat.pos_of_ne_zero hcount', le_rfl, hlt'.le⟩
    · rename_i hge
      have hge' : 131072 / info.blockSize.toNat ≤ job.count.toNat := hper ▸ not_lt.mp hge
      rw [hper]
      exact ⟨hper_pos, hge', le_rfl⟩
  have hbytes : (job.chunk info).toNat * info.blockSize.toNat ≤ 131072 := (Nat.mul_le_mul_right _ hchunk.2.2).trans hper_mul
  refine ⟨hchunk.1, hchunk.2.1, hchunk.2.2.trans hper_le, hbytes, ?_⟩
  unfold Rw.bytes
  rw [BitVec.toNat_mul]
  exact Nat.mod_eq_of_lt (by omega)

/-- The blocks of the command of a chunk. -/
theorem cmd_blocks (hp : NvmePlaced info) (hcount : job.count ≠ 0#32) :
    (job.cmd info).blockCount = (job.chunk info).toNat ∧ (job.cmd info).firstBlock = job.lba.toNat := by
  obtain ⟨hpos, -, hle, -, -⟩ := chunk_bounds hp hcount
  constructor
  · have hsub : (job.chunk info - 1#32).toNat = (job.chunk info).toNat - 1 := by bv_omega
    unfold Sqe.blockCount Rw.cmd
    rw [BitVec.toNat_and, hsub, show (0xFFFF#32).toNat = 2 ^ 16 - 1 from rfl, Nat.and_two_pow_sub_one_eq_mod]
    omega
  · unfold Sqe.firstBlock Rw.cmd
    simp only [BitVec.toNat_setWidth, BitVec.toNat_ushiftRight, Nat.shiftRight_eq_div_pow]
    omega

/-- The number of pages, as `rw_chunk` computes it. -/
theorem pages_eq (hp : NvmePlaced info) (hcount : job.count ≠ 0#32) :
    ((job.bytes info + 4095#32) / 4096#32).toNat = prpPageCount ((job.chunk info).toNat * info.blockSize.toNat) ∧
    0 < prpPageCount ((job.chunk info).toNat * info.blockSize.toNat) ∧
    prpPageCount ((job.chunk info).toNat * info.blockSize.toNat) ≤ bouncePages := by
  obtain ⟨hpos, -, -, hbytes, heq⟩ := chunk_bounds hp hcount
  have hsome : 0 < (job.chunk info).toNat * info.blockSize.toNat := Nat.mul_pos hpos (by have := hp.small; lia)
  have hadd : (job.bytes info + 4095#32).toNat = (job.chunk info).toNat * info.blockSize.toNat + 4095 := by
    rw [BitVec.toNat_add, heq, BitVec.toNat_ofNat]
    lia
  unfold prpPageCount bouncePages
  rw [BitVec.toNat_udiv, hadd, show (4096#32).toNat = 4096 from rfl]
  lia

theorem bounceAddr_aligned (hp : NvmePlaced info) (i : Nat) : (bounceAddr info i).toNat % 4096 = 0 := by
  have hbounce := hp.bounce
  unfold bounceAddr
  rw [BitVec.toNat_setWidth, BitVec.toNat_add, BitVec.toNat_ofNat]
  omega

/-- The pages of the bounce buffer are told apart by their addresses. -/
theorem bouncePage_addr {i : Nat} (hi : i < bouncePages) : bouncePage info (bounceAddr info i) = some i := by
  unfold bouncePage
  rw [List.find?_range_eq_some]
  refine ⟨by simp, List.mem_range.mpr hi, ?_⟩
  intro j hj
  have hne : bounceAddr info j ≠ bounceAddr info i := by
    intro heq
    have hnat := congrArg BitVec.toNat heq
    unfold bounceAddr at hnat
    unfold bouncePages at hi
    rw [BitVec.toNat_setWidth, BitVec.toNat_setWidth, BitVec.toNat_add, BitVec.toNat_add, BitVec.toNat_ofNat, BitVec.toNat_ofNat] at hnat
    lia
  simpa using hne

theorem mapM_some {α β : Type} {f : β → Option α} {g : α → β} {l : List α} (h : ∀ a ∈ l, f (g a) = some a) :
    (l.map g).mapM f = some l := by
  induction l with
  | nil => rfl
  | cons a l ih =>
    rw [List.map_cons, List.mapM_cons, h a List.mem_cons_self, ih fun b hb => h b (List.mem_cons_of_mem a hb)]
    rfl

/-- The PRP entries `rw_chunk` sets up: one page, two, or one and a list. -/
theorem prpPages_cmd (hp : NvmePlaced info) (hcount : job.count ≠ 0#32)
    (hlist : ∀ i, 2 < prpPageCount ((job.chunk info).toNat * info.blockSize.toNat) →
      i + 1 < prpPageCount ((job.chunk info).toNat * info.blockSize.toNat) → list i = bounceAddr info (i + 1)) :
    prpPages info ⟨job.cmd info, list⟩ ((job.chunk info).toNat * info.blockSize.toNat) =
      some ((List.range (prpPageCount ((job.chunk info).toNat * info.blockSize.toNat))).map (bounceAddr info)) := by
  obtain ⟨heq, hpos, -⟩ := pages_eq hp hcount
  generalize hn : prpPageCount ((job.chunk info).toNat * info.blockSize.toNat) = n at heq hpos hlist
  have hprp1 : (job.cmd info).prp1 = bounceAddr info 0 := by
    change info.bounce.setWidth 64 = (info.bounce + BitVec.ofNat 32 (0 * 4096)).setWidth 64
    rw [show BitVec.ofNat 32 (0 * 4096) = 0#32 from rfl, BitVec.add_zero]
  have hpages : ∀ as : Option (List U64), as = some ((List.range n).map (bounceAddr info)) →
      as.filter (fun as => as.all fun a => a.toNat % 4096 = 0) = some ((List.range n).map (bounceAddr info)) := by
    intro as has
    rw [has, Option.filter_some, if_pos]
    rw [List.all_map, List.all_eq_true]
    intro i _
    exact decide_eq_true (bounceAddr_aligned hp i)
  unfold prpPages
  rw [hn]
  refine hpages _ ?_
  rcases Nat.lt_trichotomy n 2 with hlt | rfl | hgt
  · have hone : n = 1 := by lia
    subst hone
    rw [if_pos le_rfl, hprp1]
    rfl
  · have htwo : (job.bytes info + 4095#32) / 4096#32 = 2#32 := BitVec.eq_of_toNat_eq heq
    have hprp2 : (job.cmd info).prp2 = bounceAddr info 1 := by
      unfold Rw.cmd
      simp only [htwo, if_true]
      rfl
    rw [if_neg (by decide), if_pos rfl, hprp1, hprp2]
    rfl
  · have hne : (job.bytes info + 4095#32) / 4096#32 ≠ 2#32 := by
      intro h
      rw [h] at heq
      exact absurd heq.symm (Nat.ne_of_gt hgt)
    have hlt : 2#32 < (job.bytes info + 4095#32) / 4096#32 := by
      change 2 < ((job.bytes info + 4095#32) / 4096#32).toNat
      lia
    have hprp2 : (job.cmd info).prp2 = info.prpList.setWidth 64 := by
      unfold Rw.cmd
      simp only [if_neg hne, if_pos hlt]
    have halign : (info.prpList.setWidth 64).toNat % 4096 = 0 := by
      have hplist := hp.list
      rw [BitVec.toNat_setWidth]
      lia
    rw [if_neg (by lia), if_neg (by lia), hprp2, if_pos ⟨rfl, halign⟩, hprp1]
    congr 1
    obtain ⟨m, rfl⟩ : ∃ m, n = m + 1 := ⟨n - 1, by lia⟩
    rw [Nat.add_sub_cancel, List.range_succ_eq_map, List.map_cons, List.map_map]
    congr 1
    apply List.map_congr_left
    intro i hi
    exact hlist i hgt (by have := List.mem_range.mp hi; lia)

/-- The bytes of a transfer over the first pages of the bounce buffer are its first bytes. -/
theorem bounceByte_range {n k : Nat} (hk : k < n * 4096) : NvmeIo.bounceByte (List.range n) k = k := by
  have hdiv : k / 4096 < n := by omega
  unfold NvmeIo.bounceByte
  rw [List.getD_eq_getElem?_getD, List.getElem?_range hdiv, Option.getD_some]
  omega

/-! ## Commands -/

/-- The driver before the command of a chunk: the command, its pages, and the bytes it is to write. -/
theorem prepare_described (hp : NvmePlaced d.info) (hcount : job.count ≠ 0#32) :
    IssuedCmd.Describes d.info ⟨job.cmd d.info, (d.prepare job).prpList⟩ := by
  obtain ⟨hpages, -, hle⟩ := pages_eq hp hcount
  unfold IssuedCmd.Describes
  rw [(cmd_blocks hp hcount).1]
  refine prpPages_cmd hp hcount fun i hmany hi => ?_
  have hlt : 2#32 < (job.bytes d.info + 4095#32) / 4096#32 := by
    change 2 < ((job.bytes d.info + 4095#32) / 4096#32).toNat
    omega
  unfold NvmeIo.prepare
  simp only
  rw [if_pos hlt, if_pos (by omega)]
  rfl

/-- What the controller does with the command of a chunk: a write puts the first bytes of the bounce buffer on the medium, a read
brings the blocks there. -/
theorem execute_cmd (hp : NvmePlaced d.info) (hcount : job.count ≠ 0#32) (cmds : List IssuedCmd) :
    NvmeIo.execute { d.prepare job with issued := cmds } ⟨job.cmd d.info, (d.prepare job).prpList⟩ =
      some (if job.write then
        { d.prepare job with
          issued := cmds
          disk := fun i =>
            if job.lba.toNat * d.info.blockSize.toNat ≤ i ∧
              i < job.lba.toNat * d.info.blockSize.toNat + (job.chunk d.info).toNat * d.info.blockSize.toNat
            then (d.prepare job).bounce (i - job.lba.toNat * d.info.blockSize.toNat) else d.disk i }
      else
        { d.prepare job with
          issued := cmds
          bounce := fun j =>
            if j < (job.chunk d.info).toNat * d.info.blockSize.toNat then d.disk (job.lba.toNat * d.info.blockSize.toNat + j)
            else (d.prepare job).bounce j }) := by
  obtain ⟨hblocks, hfirst⟩ := cmd_blocks hp hcount
  have hdesc := prepare_described hp hcount
  unfold IssuedCmd.Describes at hdesc
  rw [hblocks] at hdesc
  have hbytes : (job.chunk d.info).toNat * d.info.blockSize.toNat ≤
      prpPageCount ((job.chunk d.info).toNat * d.info.blockSize.toNat) * 4096 := by
    unfold prpPageCount
    omega
  have hpages : ((List.range (prpPageCount ((job.chunk d.info).toNat * d.info.blockSize.toNat))).map (bounceAddr d.info)).mapM
      (bouncePage d.info) = some (List.range (prpPageCount ((job.chunk d.info).toNat * d.info.blockSize.toNat))) := by
    refine mapM_some fun i hi => bouncePage_addr ?_
    exact (List.mem_range.mp hi).trans_le (pages_eq hp hcount).2.2
  have hinfo : (d.prepare job).info = d.info := rfl
  have hdisk : (d.prepare job).disk = d.disk := rfl
  unfold NvmeIo.execute
  simp only [hinfo, hblocks, hfirst, hdesc, Option.bind_some, hpages]
  cases hwrite : job.write with
  | true =>
    have hop : (job.cmd d.info).cdw0 &&& 0xFF#32 = 1#32 := by
      unfold Rw.cmd
      simp only [hwrite]
      decide
    rw [if_pos hop, if_pos rfl]
    congr 2
    funext i
    by_cases hi : job.lba.toNat * d.info.blockSize.toNat ≤ i ∧
        i < job.lba.toNat * d.info.blockSize.toNat + (job.chunk d.info).toNat * d.info.blockSize.toNat
    · rw [if_pos hi, if_pos hi, bounceByte_range (by omega)]
    · rw [if_neg hi, if_neg hi, hdisk]
  | false =>
    have hop : (job.cmd d.info).cdw0 &&& 0xFF#32 ≠ 1#32 := by
      unfold Rw.cmd
      simp only [hwrite]
      decide
    rw [if_neg hop, if_neg Bool.false_ne_true]
    congr 2
    funext j
    by_cases hj : j < (job.chunk d.info).toNat * d.info.blockSize.toNat
    · have hfind : (List.range ((job.chunk d.info).toNat * d.info.blockSize.toNat)).find? (fun k => decide (NvmeIo.bounceByte
          (List.range (prpPageCount ((job.chunk d.info).toNat * d.info.blockSize.toNat))) k = j)) = some j := by
        rw [List.find?_range_eq_some]
        refine ⟨decide_eq_true (bounceByte_range (by omega)), List.mem_range.mpr hj, fun k hk => ?_⟩
        rw [bounceByte_range (by omega)]
        simp [Nat.ne_of_lt hk]
      rw [hfind, if_pos hj, hdisk]
    · have hfind : (List.range ((job.chunk d.info).toNat * d.info.blockSize.toNat)).find? (fun k => decide (NvmeIo.bounceByte
          (List.range (prpPageCount ((job.chunk d.info).toNat * d.info.blockSize.toNat))) k = j)) = none := by
        rw [List.find?_eq_none]
        intro k hk
        have hlt := List.mem_range.mp hk
        rw [bounceByte_range (by omega)]
        simp only [decide_eq_true_eq]
        omega
      rw [hfind, if_neg hj]

/-! ## The loop -/

theorem execute_same {c : IssuedCmd} (h : d.execute c = some d') : d'.issued = d.issued ∧ d'.info = d.info := by
  unfold NvmeIo.execute at h
  simp only at h
  split at h
  · exact absurd h.symm (Option.some_ne_none _)
  · split at h
    · rw [← Option.some.inj h]
      exact ⟨rfl, rfl⟩
    · rw [← Option.some.inj h]
      exact ⟨rfl, rfl⟩

/-- A command is on record with the list it was issued with. -/
theorem ioCmd_issued {sqe : Sqe} {ok : Bool} (h : d.ioCmd reply sqe = some (ok, d')) :
    d'.issued = d.issued ++ [⟨sqe, d.prpList⟩] ∧ d'.info = d.info := by
  unfold NvmeIo.ioCmd at h
  simp only at h
  split at h
  · obtain ⟨d₁, hexec, heq⟩ := Option.map_eq_some_iff.mp h
    rw [← (Prod.mk.inj heq).2]
    exact execute_same hexec
  · rw [← (Prod.mk.inj (Option.some.inj h)).2]
    exact ⟨rfl, rfl⟩

/-- Every command the loop issues has its entries set up, and it issues one if there is anything left to do. -/
theorem rwLoop_issued {fuel : Nat} (hp : NvmePlaced d.info) (h : NvmeIo.rwLoop reply fuel d job = some (r, d', got)) :
    ∃ cmds, d'.issued = d.issued ++ cmds ∧ (∀ c ∈ cmds, c.Describes d.info) ∧ (job.count ≠ 0#32 → cmds ≠ []) := by
  induction fuel generalizing d job with
  | zero =>
    unfold NvmeIo.rwLoop at h
    split at h
    · rename_i hzero
      rw [← (Prod.mk.inj (Prod.mk.inj (Option.some.inj h)).2).1]
      exact ⟨[], (List.append_nil _).symm, by simp, fun hne => absurd hzero hne⟩
    · exact absurd h.symm (Option.some_ne_none _)
  | succ fuel ih =>
    unfold NvmeIo.rwLoop at h
    split at h
    · rename_i hzero
      rw [← (Prod.mk.inj (Prod.mk.inj (Option.some.inj h)).2).1]
      exact ⟨[], (List.append_nil _).symm, by simp, fun hne => absurd hzero hne⟩
    · rename_i hcount
      have hdesc := prepare_described hp hcount
      split at h
      · exact absurd h.symm (Option.some_ne_none _)
      · rename_i d₁ hcmd
        obtain ⟨hissued, -⟩ := ioCmd_issued hcmd
        rw [← (Prod.mk.inj (Prod.mk.inj (Option.some.inj h)).2).1]
        refine ⟨[_], hissued, ?_, fun _ => List.cons_ne_nil _ _⟩
        intro c hc
        rw [List.mem_singleton.mp hc]
        exact hdesc
      · rename_i d₁ hcmd
        obtain ⟨hissued, hinfo⟩ := ioCmd_issued hcmd
        have hinfo' : d₁.info = d.info := hinfo
        obtain ⟨cmds, hrest, hall, -⟩ := ih (by rw [hinfo']; exact hp) h
        rw [hinfo'] at hall
        refine ⟨⟨job.cmd d.info, (d.prepare job).prpList⟩ :: cmds, ?_, ?_, fun _ => List.cons_ne_nil _ _⟩
        · rw [hrest, hissued, List.append_assoc]
          rfl
        · intro c hc
          rcases List.mem_cons.mp hc with rfl | hc
          · exact hdesc
          · exact hall c hc

/-- What the loop has done when it returns: on success all blocks are moved, and no others. -/
structure Moves (d : NvmeIo) (job : Rw) (r : Int) (d' : NvmeIo) (got : List Byte) : Prop where
  ret : r = 0 ∨ r = -1
  read : r = 0 → job.write = false → d'.disk = d.disk ∧ got = job.got ++ (List.range (job.count.toNat * d.info.blockSize.toNat)).map
    fun i => d.disk (job.lba.toNat * d.info.blockSize.toNat + i)
  write : r = 0 → job.write = true → ∀ i, d'.disk i =
    if job.lba.toNat * d.info.blockSize.toNat ≤ i ∧
      i < job.lba.toNat * d.info.blockSize.toNat + job.count.toNat * d.info.blockSize.toNat
    then job.data (i - job.lba.toNat * d.info.blockSize.toNat) else d.disk i

theorem moves_nothing (h : job.count = 0#32) : Moves d job 0 d job.got := by
  have hzero : job.count.toNat = 0 := congrArg BitVec.toNat h
  refine ⟨Or.inl rfl, fun _ _ => ⟨rfl, ?_⟩, fun _ _ i => ?_⟩
  · rw [hzero, Nat.zero_mul]
    exact (List.append_nil _).symm
  · rw [hzero, Nat.zero_mul, if_neg (by omega)]

/-- The rest of the job behind a chunk. -/
theorem advance_counts (hp : NvmePlaced info) (hcount : job.count ≠ 0#32) (hend : job.lba.toNat + job.count.toNat < 2 ^ 64)
    (bs : List Byte) : (job.advance info bs).lba.toNat = job.lba.toNat + (job.chunk info).toNat ∧
      (job.advance info bs).count.toNat = job.count.toNat - (job.chunk info).toNat := by
  obtain ⟨-, hle, -, -, -⟩ := chunk_bounds hp hcount
  constructor
  · change (job.lba + (job.chunk info).setWidth 64).toNat = _
    rw [BitVec.toNat_add, BitVec.toNat_setWidth]
    omega
  · change (job.count - job.chunk info).toNat = _
    bv_omega

/-- The blocks of a chunk and of the rest are the blocks of the job. -/
theorem Moves.chunk {d₁ : NvmeIo} {bs : List Byte} (hp : NvmePlaced d.info) (hcount : job.count ≠ 0#32)
    (hend : job.lba.toNat + job.count.toNat < 2 ^ 64) (hinfo : d₁.info = d.info)
    (hread : job.write = false → d₁.disk = d.disk ∧ bs = (List.range ((job.chunk d.info).toNat * d.info.blockSize.toNat)).map
      fun i => d.disk (job.lba.toNat * d.info.blockSize.toNat + i))
    (hwrite : job.write = true → ∀ i, d₁.disk i =
      if job.lba.toNat * d.info.blockSize.toNat ≤ i ∧
        i < job.lba.toNat * d.info.blockSize.toNat + (job.chunk d.info).toNat * d.info.blockSize.toNat
      then job.data (i - job.lba.toNat * d.info.blockSize.toNat) else d.disk i)
    (h : Moves d₁ (job.advance d.info bs) r d' got) : Moves d job r d' got := by
  obtain ⟨hlba, hrest⟩ := advance_counts hp hcount hend bs
  obtain ⟨-, hle, -, -, hbytes⟩ := chunk_bounds hp hcount
  obtain ⟨hret, hmoves, hmoves'⟩ := h
  rw [hinfo, hlba, hrest] at hmoves hmoves'
  have hstart : (job.lba.toNat + (job.chunk d.info).toNat) * d.info.blockSize.toNat =
      job.lba.toNat * d.info.blockSize.toNat + (job.chunk d.info).toNat * d.info.blockSize.toNat := Nat.add_mul _ _ _
  have hsplit : job.count.toNat * d.info.blockSize.toNat = (job.chunk d.info).toNat * d.info.blockSize.toNat +
      (job.count.toNat - (job.chunk d.info).toNat) * d.info.blockSize.toNat := by
    rw [← Nat.add_mul]
    congr 1
    lia
  refine ⟨hret, fun hr hw => ?_, fun hr hw i => ?_⟩
  · obtain ⟨hdisk, hgot⟩ := hmoves hr hw
    obtain ⟨hdisk₁, hbs⟩ := hread hw
    refine ⟨hdisk.trans hdisk₁, ?_⟩
    rw [hgot, hdisk₁, hstart, hsplit, List.range_add, List.map_append, List.map_map]
    change job.got ++ bs ++ _ = _
    rw [hbs, List.append_assoc]
    congr 2
    apply List.map_congr_left
    intro k _
    change _ = d.disk (job.lba.toNat * d.info.blockSize.toNat + ((job.chunk d.info).toNat * d.info.blockSize.toNat + k))
    rw [Nat.add_assoc]
  · rw [hmoves' hr hw i, hwrite hw i, hstart, hsplit]
    generalize job.lba.toNat * d.info.blockSize.toNat = first at *
    change (if _ then job.data (i - (first + (job.chunk d.info).toNat * d.info.blockSize.toNat) + (job.bytes d.info).toNat) else _) = _
    rw [hbytes]
    generalize (job.chunk d.info).toNat * d.info.blockSize.toNat = n
    generalize (job.count.toNat - (job.chunk d.info).toNat) * d.info.blockSize.toNat = m
    by_cases hlater : first + n ≤ i ∧ i < first + n + m
    · rw [if_pos hlater, if_pos (by lia)]
      congr 1
      lia
    · rw [if_neg hlater]
      by_cases hnow : first ≤ i ∧ i < first + n
      · rw [if_pos hnow, if_pos (by lia)]
      · rw [if_neg hnow, if_neg (by lia)]

/-- The loop ends, and has moved the blocks of the job if it succeeds. -/
theorem rwLoop_moves {fuel : Nat} (hp : NvmePlaced d.info) (hfuel : job.count.toNat ≤ fuel)
    (hend : job.lba.toNat + job.count.toNat < 2 ^ 64) :
    ∃ r d' got, NvmeIo.rwLoop reply fuel d job = some (r, d', got) ∧ Moves d job r d' got := by
  induction fuel generalizing d job with
  | zero =>
    have hzero : job.count = 0#32 := BitVec.eq_of_toNat_eq (by simpa using hfuel)
    unfold NvmeIo.rwLoop
    rw [if_pos hzero]
    exact ⟨0, d, job.got, rfl, moves_nothing hzero⟩
  | succ fuel ih =>
    unfold NvmeIo.rwLoop
    by_cases hzero : job.count = 0#32
    · rw [if_pos hzero]
      exact ⟨0, d, job.got, rfl, moves_nothing hzero⟩
    · rw [if_neg hzero]
      obtain ⟨hpos, hle, -, -, hbytes⟩ := chunk_bounds hp hzero
      unfold NvmeIo.ioCmd
      simp only
      cases hreply : reply ((d.prepare job).issued ++ [⟨job.cmd d.info, (d.prepare job).prpList⟩]) with
      | some left =>
        refine ⟨-1, _, job.got, rfl, Or.inr rfl, ?_, ?_⟩
        · intro h
          exact absurd h (by decide)
        · intro h
          exact absurd h (by decide)
      | none =>
        have hexec := execute_cmd hp hzero ((d.prepare job).issued ++ [⟨job.cmd d.info, (d.prepare job).prpList⟩])
        generalize hcmds : (d.prepare job).issued ++ [(⟨job.cmd d.info, (d.prepare job).prpList⟩ : IssuedCmd)] = cmds at hexec ⊢
        simp only [hexec, Option.map_some]
        cases hw : job.write with
        | true =>
          simp only [if_true]
          generalize hd₁ : ({ d.prepare job with issued := cmds, disk := _ } : NvmeIo) = d₁
          have hinfo : d₁.info = d.info := by rw [← hd₁]; rfl
          obtain ⟨hlba, hrest⟩ := advance_counts hp hzero hend []
          have hwrite : job.write = true → ∀ i, d₁.disk i =
              if job.lba.toNat * d.info.blockSize.toNat ≤ i ∧
                i < job.lba.toNat * d.info.blockSize.toNat + (job.chunk d.info).toNat * d.info.blockSize.toNat
              then job.data (i - job.lba.toNat * d.info.blockSize.toNat) else d.disk i := by
            intro _ i
            rw [← hd₁]
            simp only
            split
            · rename_i hi
              unfold NvmeIo.prepare overlay
              simp only [hw, if_true]
              rw [if_pos (by lia)]
            · rfl
          obtain ⟨r, d', got, hloop, hmoves⟩ := @ih (job.advance d.info []) d₁ (by rw [hinfo]; exact hp)
            (by rw [hrest]; lia) (by rw [hlba, hrest]; lia)
          have hright := hmoves.chunk hp hzero hend hinfo (fun h => absurd (h.symm.trans hw) Bool.false_ne_true) hwrite
          exact ⟨r, d', got, hloop, hright⟩
        | false =>
          simp only [Bool.false_eq_true, if_false]
          generalize hd₁ : ({ d.prepare job with issued := cmds, bounce := _ } : NvmeIo) = d₁
          have hinfo : d₁.info = d.info := by rw [← hd₁]; rfl
          obtain ⟨hlba, hrest⟩ := advance_counts hp hzero hend ((List.range (job.bytes d.info).toNat).map d₁.bounce)
          have hread : job.write = false → d₁.disk = d.disk ∧ (List.range (job.bytes d.info).toNat).map d₁.bounce =
              (List.range ((job.chunk d.info).toNat * d.info.blockSize.toNat)).map
                fun i => d.disk (job.lba.toNat * d.info.blockSize.toNat + i) := by
            intro _
            rw [← hd₁, hbytes]
            refine ⟨rfl, List.map_congr_left fun i hi => ?_⟩
            exact if_pos (List.mem_range.mp hi)
          obtain ⟨r, d', got, hloop, hmoves⟩ := @ih (job.advance d.info ((List.range (job.bytes d.info).toNat).map
            d₁.bounce)) d₁ (by rw [hinfo]; exact hp) (by rw [hrest]; lia) (by rw [hlba, hrest]; lia)
          have hright := hmoves.chunk hp hzero hend hinfo hread fun h => absurd (hw.symm.trans h) Bool.false_ne_true
          subst hd₁
          exact ⟨r, d', got, hloop, hright⟩

end Chunks

/-! ## Requests -/

/-- For every block size, request and controller, the transfer is right exactly if the end of the request does not wrap around to within
the namespace. -/
theorem transfer_iff {d : NvmeIo} (hp : NvmePlaced d.info) (reply : NvmeReply) (write : Bool) (lba : U64) (count : U32)
    (data : Nat → Byte) : TransferRight reply d write lba count data ↔ ¬EndWraps d.info lba count := by
  have hsum : (lba + count.setWidth 64).toNat = (lba.toNat + count.toNat) % 2 ^ 64 := by
    rw [BitVec.toNat_add, BitVec.toNat_setWidth, Nat.mod_eq_of_lt (by omega : count.toNat < 2 ^ 64)]
  constructor
  · intro h ⟨hpresent, hcount, hwrap, hin⟩
    have hpast : d.info.blocks.toNat < lba.toNat + count.toNat := by
      have hlt := d.info.blocks.isLt
      omega
    have hloop : d.rw reply write lba count data = NvmeIo.rwLoop reply count.toNat d ⟨write, lba, count, data, []⟩ := by
      unfold NvmeIo.rw
      rw [if_neg (by simp [hpresent, hcount]), if_neg (BitVec.not_lt.mpr hin)]
    have hrefused := h.refused hpast
    rw [hloop] at hrefused
    obtain ⟨cmds, hissued, -, hsome⟩ := rwLoop_issued hp hrefused
    exact hsome hcount (List.append_right_eq_self.mp hissued.symm)
  · intro h
    by_cases hearly : (!d.info.present) = true ∨ count = 0#32 ∨ d.info.blocks < lba + count.setWidth 64
    · have hfail : d.rw reply write lba count data = some (-1, d, []) := by
        unfold NvmeIo.rw
        rcases hearly with hp' | hz | hb
        · rw [if_pos (Or.inl hp')]
        · rw [if_pos (Or.inr hz)]
        · rw [if_pos hb, ite_self]
      refine ⟨⟨-1, d, [], hfail, Or.inr rfl⟩, fun _ => hfail, ?_, ?_, ?_⟩
      · intro r d' got hrw
        rw [hfail] at hrw
        rw [← (Prod.mk.inj (Prod.mk.inj (Option.some.inj hrw)).2).1]
        exact ⟨[], (List.append_nil _).symm, by simp⟩
      · intro d' got hrw
        rw [hfail] at hrw
        exact absurd (Prod.mk.inj (Option.some.inj hrw)).1 (by decide)
      · intro d' got hrw
        rw [hfail] at hrw
        exact absurd (Prod.mk.inj (Option.some.inj hrw)).1 (by decide)
    · obtain ⟨hpresent, hcount, hin⟩ := not_or.mp hearly |>.imp_right not_or.mp
      have hle : (lba + count.setWidth 64).toNat ≤ d.info.blocks.toNat := not_lt.mp hin
      have hend : lba.toNat + count.toNat < 2 ^ 64 := by
        by_contra hwrap
        exact h ⟨by simpa using hpresent, hcount, not_lt.mp hwrap, hle⟩
      rw [hsum, Nat.mod_eq_of_lt hend] at hle
      have hloop : d.rw reply write lba count data = NvmeIo.rwLoop reply count.toNat d ⟨write, lba, count, data, []⟩ := by
        unfold NvmeIo.rw
        rw [if_neg (not_or.mpr ⟨hpresent, hcount⟩), if_neg hin]
      obtain ⟨r₁, d₁, got₁, hrun, hmoves⟩ := @rwLoop_moves ⟨write, lba, count, data, []⟩ d reply count.toNat hp le_rfl hend
      rw [← hloop] at hrun
      refine ⟨⟨r₁, d₁, got₁, hrun, hmoves.ret⟩, fun hpast => absurd hle (not_le.mpr hpast), ?_, ?_, ?_⟩
      · intro r d' got hrw
        rw [hloop] at hrw
        obtain ⟨cmds, hissued, hall, -⟩ := rwLoop_issued hp hrw
        exact ⟨cmds, hissued, hall⟩
      · intro d' got hrw hread
        rw [hrun] at hrw
        obtain ⟨hr, heq⟩ := Prod.mk.inj (Option.some.inj hrw)
        obtain ⟨rfl, rfl⟩ := Prod.mk.inj heq
        exact hmoves.read hr hread
      · intro d' got hrw hwrite i
        rw [hrun] at hrw
        obtain ⟨hr, heq⟩ := Prod.mk.inj (Option.some.inj hrw)
        obtain ⟨rfl, rfl⟩ := Prod.mk.inj heq
        rw [Nat.add_mul]
        exact hmoves.write hr hwrite i

/-- A drive with a million blocks of 512 bytes. -/
def quietDrive : NvmeDrive := ⟨true, 1#32, 1000000#64, 512#32, 0x200000#32, 0x220000#32⟩

theorem transfer_iff_small : NvmePlaced quietDrive ∧
    (TransferRight (fun _ => none) ⟨quietDrive, fun _ => 0#8, fun _ => 0#64, fun _ => 0#8, []⟩ false 0#64 1#32 (fun _ => 0#8) ↔
      ¬EndWraps quietDrive 0#64 1#32) :=
  ⟨⟨by decide, by decide, by decide, by decide⟩, transfer_iff ⟨by decide, by decide, by decide, by decide⟩ _ _ _ _ _⟩

/-- The last block of the address space, as a partition table may name it: the end wraps around to block 0, and a command is issued. -/
theorem transfer_false : ¬∀ (reply : NvmeReply) (d : NvmeIo) (write : Bool) (lba : U64) (count : U32) (data : Nat → Byte),
    NvmePlaced d.info → TransferRight reply d write lba count data := by
  intro h
  have hright := h (fun _ => some (fun _ => 0#8, fun _ => 0#8)) ⟨quietDrive, fun _ => 0#8, fun _ => 0#64, fun _ => 0#8, []⟩ false
    0xFFFFFFFFFFFFFFFF#64 1#32 (fun _ => 0#8) ⟨by decide, by decide, by decide, by decide⟩
  have hrefused := hright.refused (by decide)
  have hissued := congrArg (fun o => o.map fun t => t.2.1.issued.length) hrefused
  exact absurd hissued (by decide)

end MiniOs32
