import MiniOs32.Lib.PhaseRing

/-!
# The NVMe driver and its controller

The driver has two queue pairs and sends one command at a time: it writes a submission entry, rings the doorbell and polls the
completion queue until the phase of the entry at its head is the one it expects, or gives up. The controller takes submission
entries in order and posts one completion for each at any later time, in any order, with the command's id; it does not post into
a full completion queue. The two run interleaved, one event at a time.

Every command has a number among those of its queue. The numbers, the count of completions taken and the record of what was
posted are for the statements about a run; neither side reads them.
-/

namespace MiniOs32

/-- `QDEPTH`. -/
def qdepth : Nat := 64

/-- `NVME_CHUNK`. -/
def nvmeChunk : U32 := 131072#32

/-- How often `submit` polls before it gives up. -/
def submitSpins : Nat := 200000000

/-- The fields of `sqe_t` that the driver sets. -/
structure Sqe where
  cdw0 : U32
  nsid : U32
  prp1 : U64
  prp2 : U64
  cdw10 : U32
  cdw11 : U32
  cdw12 : U32
  deriving DecidableEq

/-- A submission entry and the number of its command. -/
structure SqEntry where
  sqe : Sqe
  num : Nat
  deriving DecidableEq

/-- The `dw3` of the completion a controller posts. -/
def completionDw3 (cid : BitVec 16) (phase : Bool) (status : BitVec 15) : U32 :=
  BitVec.ofNat 32 (status.toNat * 131072 + (if phase then 65536 else 0) + cid.toNat)

/-- `(dw3 >> 16) & 1u`. -/
def dw3Phase (dw3 : U32) : U32 := (dw3 >>> 16) &&& 1#32

/-- `(dw3 >> 17) & 0x7FFFu`. -/
def dw3Status (dw3 : U32) : U32 := (dw3 >>> 17) &&& 0x7FFF#32

/-- The admin queue pair and the I/O queue pair. -/
inductive Qid where
  | admin
  | io
  deriving DecidableEq

/-- A queue pair: the two queues in memory, of completions only `dw3`; the driver's `tail`, `head` and `phase`; the doorbells; and
the controller's side. -/
structure QueuePair where
  sq : Nat → SqEntry
  cq : Nat → U32
  tail : Nat
  head : Nat
  phase : U32
  sqDoorbell : Nat
  cqDoorbell : Nat
  sqHead : Nat
  cqTail : Nat
  cqPhase : Bool
  inflight : List SqEntry
  submitted : Nat
  consumed : Nat
  posted : List (Nat × BitVec 15)

/-- A queue pair as `nvme_init` sets it up: zeroed, with the phase set. -/
def QueuePair.reset (sq : Nat → SqEntry) : QueuePair :=
  ⟨sq, fun _ => 0#32, 0, 0, 1#32, 0, 0, 0, 0, true, [], 0, 0, []⟩

/-! ## The controller -/

/-- The controller takes the next submission entry, if there is one. -/
def QueuePair.fetch (qp : QueuePair) : QueuePair :=
  if qp.sqHead = qp.sqDoorbell then qp
  else { qp with inflight := qp.inflight ++ [qp.sq qp.sqHead], sqHead := (qp.sqHead + 1) % qdepth }

/-- The controller posts the completion of a command it has taken, unless the completion queue is full. -/
def QueuePair.post (qp : QueuePair) (i : Nat) (status : BitVec 15) : QueuePair :=
  match qp.inflight[i]? with
  | none => qp
  | some e =>
    if (qp.cqTail + 1) % qdepth = qp.cqDoorbell then qp
    else
      let cqTail := (qp.cqTail + 1) % qdepth
      { qp with
        cq := setSlot qp.cq qp.cqTail (completionDw3 (e.sqe.cdw0.extractLsb' 16 16) qp.cqPhase status)
        cqTail := cqTail
        cqPhase := if cqTail = 0 then !qp.cqPhase else qp.cqPhase
        inflight := qp.inflight.eraseIdx i
        posted := qp.posted ++ [(e.num, status)] }

/-! ## `submit` -/

/-- `submit` up to the doorbell. -/
def QueuePair.enqueue (qp : QueuePair) (cid : BitVec 16) (cmd : Sqe) : QueuePair :=
  let sqe := { cmd with cdw0 := (cmd.cdw0 &&& 0xFFFF#32) ||| (cid.setWidth 32 <<< 16) }
  { qp with
    sq := setSlot qp.sq qp.tail ⟨sqe, qp.submitted⟩
    tail := (qp.tail + 1) % qdepth
    submitted := qp.submitted + 1 }

/-- `ring_sq`. -/
def QueuePair.ringSq (qp : QueuePair) : QueuePair := { qp with sqDoorbell := qp.tail }

/-- The entry at the head has the expected phase. -/
def QueuePair.ready (qp : QueuePair) : Prop := dw3Phase (qp.cq qp.head) = qp.phase

instance (qp : QueuePair) : Decidable qp.ready := by unfold QueuePair.ready; infer_instance

/-- The driver takes the entry at the head and rings the doorbell of the completion queue. -/
def QueuePair.consume (qp : QueuePair) : QueuePair :=
  let head := (qp.head + 1) % qdepth
  { qp with
    head := head
    phase := if head = 0 then qp.phase ^^^ 1#32 else qp.phase
    cqDoorbell := head
    consumed := qp.consumed + 1 }

/-- What `submit` returns after the given turn of its loop, if it returns then; `cfs` is the fatal-error bit of the controller. -/
def QueuePair.submitResult (qp : QueuePair) (spin : Nat) (cfs : Bool) : Option Int :=
  if qp.ready then some (dw3Status (qp.cq qp.head)).toNat
  else if cfs then some (-1)
  else if spin + 1 < submitSpins then none
  else some (-1)

/-! ## `rw` -/

/-- What `nvme_init` found out about the drive, and where the buffers are. -/
structure NvmeDrive where
  present : Bool
  nsid : U32
  blocks : U64
  blockSize : U32
  bounce : U32
  prpList : U32
  deriving DecidableEq

/-- The locals of `rw`; `data` is what `p` points at and `got` what a read has copied so far. -/
structure Rw where
  write : Bool
  lba : U64
  count : U32
  data : Nat → Byte
  got : List Byte

/-- The number of blocks of the next chunk. -/
def Rw.chunk (rw : Rw) (info : NvmeDrive) : U32 :=
  let perChunk := nvmeChunk / info.blockSize
  if rw.count < perChunk then rw.count else perChunk

/-- The number of bytes of the next chunk. -/
def Rw.bytes (rw : Rw) (info : NvmeDrive) : U32 := rw.chunk info * info.blockSize

/-- The next chunk is done. -/
def Rw.advance (rw : Rw) (info : NvmeDrive) (read : List Byte) : Rw :=
  { rw with
    lba := rw.lba + (rw.chunk info).setWidth 64
    count := rw.count - rw.chunk info
    data := fun i => rw.data (i + (rw.bytes info).toNat)
    got := rw.got ++ read }

/-- The command of `rw_chunk`. -/
def Rw.cmd (rw : Rw) (info : NvmeDrive) : Sqe :=
  let pages := (rw.bytes info + 4095#32) / 4096#32
  { cdw0 := if rw.write then 1#32 else 2#32
    nsid := info.nsid
    prp1 := info.bounce.setWidth 64
    prp2 := if pages = 2#32 then (info.bounce + 4096#32).setWidth 64
      else if 2#32 < pages then info.prpList.setWidth 64
      else 0#64
    cdw10 := rw.lba.setWidth 32
    cdw11 := (rw.lba >>> 32).setWidth 32
    cdw12 := rw.chunk info - 1#32 }

/-- Where the driver is: outside, before the doorbell of a command, in the loop of `submit`, or about to copy what a read has
brought. A command of `rw` has its locals with it, an admin command has none. -/
inductive NvmePc where
  | idle
  | ring (q : Qid) (num : Nat) (job : Option Rw)
  | spin (q : Qid) (num : Nat) (n : Nat) (job : Option Rw)
  | copy (num : Nat) (rw : Rw)

/-- The driver, the controller and the buffers between them. -/
structure Nvme where
  queue : Qid → QueuePair
  nextCid : BitVec 16
  bounce : Nat → Byte
  prpList : Nat → U64
  info : NvmeDrive
  pc : NvmePc

/-- A queue pair replaced. -/
def Nvme.setQueue (d : Nvme) (q : Qid) (qp : QueuePair) : Nvme :=
  { d with queue := fun r => if r = q then qp else d.queue r }

/-- The first `n` bytes of a buffer replaced. -/
def overlay (old new : Nat → Byte) (n : Nat) : Nat → Byte := fun i => if i < n then new i else old i

/-- The start of `submit`. -/
def Nvme.submit (d : Nvme) (q : Qid) (cmd : Sqe) (job : Option Rw) : Nvme :=
  { d.setQueue q ((d.queue q).enqueue d.nextCid cmd) with
    nextCid := d.nextCid + 1#16
    pc := .ring q (d.queue q).submitted job }

/-- The list of pages `rw_chunk` fills in for a transfer over more than two. -/
def Nvme.fillPrpList (d : Nvme) (pages : U32) : Nat → U64 :=
  if 2#32 < pages then
    fun i => if i + 1 < pages.toNat then (d.info.bounce + BitVec.ofNat 32 ((i + 1) * 4096)).setWidth 64 else d.prpList i
  else d.prpList

/-- The head of the loop of `rw`. -/
def Nvme.rwNext (d : Nvme) (rw : Rw) : Nvme :=
  if rw.count = 0#32 then { d with pc := .idle }
  else
    let bounce := if rw.write then overlay d.bounce rw.data (rw.bytes d.info).toNat else d.bounce
    let prpList := d.fillPrpList ((rw.bytes d.info + 4095#32) / 4096#32)
    { d with bounce := bounce, prpList := prpList }.submit .io (rw.cmd d.info) (some rw)

/-- `rw` up to its loop. -/
def Nvme.rwStart (d : Nvme) (rw : Rw) : Nvme :=
  if !d.info.present ∨ rw.count = 0#32 then d
  else if d.info.blocks < rw.lba + rw.count.setWidth 64 then d
  else d.rwNext rw

/-- What follows the return of `submit`. -/
def Nvme.submitDone (d : Nvme) (num : Nat) (job : Option Rw) (result : Int) : Nvme :=
  match job with
  | none => { d with pc := .idle }
  | some rw =>
    if result ≠ 0 then { d with pc := .idle }
    else if rw.write then d.rwNext (rw.advance d.info [])
    else { d with pc := .copy num rw }

/-- The next step of the driver. -/
def Nvme.hostStep (d : Nvme) (cfs : Bool) : Nvme :=
  match d.pc with
  | .idle => d
  | .ring q num job => { d.setQueue q (d.queue q).ringSq with pc := .spin q num 0 job }
  | .spin q num n job =>
    match (d.queue q).submitResult n cfs with
    | none => { d with pc := .spin q num (n + 1) job }
    | some r =>
      if (d.queue q).ready then (d.setQueue q (d.queue q).consume).submitDone num job r else d.submitDone num job r
  | .copy _ rw => d.rwNext (rw.advance d.info ((List.range (rw.bytes d.info).toNat).map d.bounce))

/-- What can happen: a call of the driver, which is refused while another is running; a step of the driver; and the controller
taking an entry, moving the data of a read it has taken, or posting a completion. -/
inductive NvmeEvent where
  | admin (cmd : Sqe)
  | rw (write : Bool) (lba : U64) (count : U32) (data : Nat → Byte)
  | host (cfs : Bool)
  | fetch (q : Qid)
  | transfer (i : Nat) (data : Nat → Byte)
  | post (q : Qid) (i : Nat) (status : BitVec 15)

/-- The data of a read that is in flight, into the bounce buffer. -/
def Nvme.transfer (d : Nvme) (i : Nat) (data : Nat → Byte) : Nvme :=
  match (d.queue .io).inflight[i]? with
  | none => d
  | some e =>
    if e.sqe.cdw0 &&& 0xFF#32 = 2#32 then
      { d with bounce := overlay d.bounce data ((e.sqe.cdw12 + 1#32) * d.info.blockSize).toNat }
    else d

/-- One event. -/
def Nvme.step (d : Nvme) : NvmeEvent → Nvme
  | .admin cmd => match d.pc with
    | .idle => d.submit .admin cmd none
    | _ => d
  | .rw write lba count data => match d.pc with
    | .idle => d.rwStart ⟨write, lba, count, data, []⟩
    | _ => d
  | .host cfs => d.hostStep cfs
  | .fetch q => d.setQueue q (d.queue q).fetch
  | .transfer i data => d.transfer i data
  | .post q i status => d.setQueue q ((d.queue q).post i status)

/-- The driver outside any call, with its queues as `nvme_init` leaves them. -/
def Nvme.start (sq : Qid → Nat → SqEntry) (nextCid : BitVec 16) (bounce : Nat → Byte) (prpList : Nat → U64) (info : NvmeDrive) :
    Nvme :=
  ⟨fun q => .reset (sq q), nextCid, bounce, prpList, info, .idle⟩

end MiniOs32
