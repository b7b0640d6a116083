import InMemoryDb.Server.Acker
import InMemoryDb.Server.Stage2
import InMemoryDb.Server.Stage3.IoWork
import InMemoryDb.Storage.WalFormat
import Mathlib.Data.Finmap

/-!
# Stage 3: the WAL engine

The loop of `WalEngine::start` as a step function.  A step is one action of the
engine thread, of the kernel, or of the channel that feeds the engine.  The
thread's control point is `pc`; between two control points the thread touches
nothing the kernel touches, so finer steps would reach no other states.

Responses leave through `outbox`: `Acker::advance` puts them there in order, with
the recycling of the batch behind them.  `send` does the next of these, and the
thread takes no other step while one is left.

Nothing waits here for a reply channel to get room or, in `submit_and_wait(1)`, for a
completion: `send`, `finishLoop` and `wake` go on at once.  The runs are those of the
program and more.  Where progress depends on these waits, `Server` has them.
-/

namespace InMemoryDb.Stage3

open SparseFile WalFormat

def defaultSpinBudget : ℤ := 500

/-- Where `reap_cqes` returns to: the main loop, with the answer of
`handle_pending`, or the drain loop of `rotate`. -/
inductive Return where
  | loop (needSubmit : Bool)
  | rotate (boundaryLsn : ℕ)
  deriving DecidableEq

/-- Control points of the engine thread. -/
inductive Pc where
  /-- The top of the loop, before `poll_channel_or_park`. -/
  | top
  /-- Behind the message, before `should_fsync`. -/
  | plan
  /-- Inside `reap_cqes`, with the completions its iterator still has. -/
  | reaping (todo : List Cqe) (ret : Return)
  /-- The head of the drain loop of `rotate`. -/
  | draining (boundaryLsn : ℕ)
  /-- Inside `submit_ring_and_park` of the drain loop. -/
  | drainWait (boundaryLsn : ℕ)
  deriving DecidableEq

/-- What the thread has left to do for a completion: hand a response to its reply
channel, or give a batch back to the pool. -/
inductive Out where
  | reply (sent : Reply)
  | recycle (batch : Batch)
  deriving DecidableEq

/-- The response an output hands over. -/
def Out.reply? : Out → Option Reply
  | .reply sent => some sent
  | .recycle _ => none

/-- History: a batch was encoded and given its place in a segment. -/
structure Queued where
  seg : ℕ
  offset : ℕ
  batch : Batch
  deriving DecidableEq

/-- History: `Acker::advance` was called on a batch of stage 3, with the active
segment as it stood then. -/
structure Ack where
  point : AckPoint
  seg : ℕ
  disk : File
  batch : Batch
  deriving DecidableEq

/-- `WalEngine`, with the far ends of its channels, the ring and the directory.
The last four fields are history and no step reads them. -/
structure WalEngine where
  depth : ℕ
  files : Files
  ring : IoUring
  pending : List IoWork
  inflight : Finmap fun _ : ℕ => IoWork
  /-- The keys the slab offers next. -/
  vacant : List ℕ
  spinBudget : ℤ
  msgRx : List WalMsg
  recycleTx : List Batch
  lastIngestedLsn : ℕ
  seg : Segment
  ack : Acker
  fsyncPlanner : FsyncPlanner
  awaitingFsync : List Batch
  pc : Pc
  outbox : List Out
  /-- What the active segment holds once every queued write has landed. -/
  image : Bytes
  queued : List Queued
  acked : List Ack
  /-- Batches as they were when they were recycled. -/
  returned : List Batch

namespace WalEngine

/-- What the page cache would give a reader of a segment file. -/
def readSeg (files : Files) (seg : ℕ) : Bytes := contents (cacheOf files seg)

def new (depth : ℕ) (files : Files) (startLsn : ℕ) (mode : Mode) (pool : List Batch) :
    WalEngine :=
  let opened := Segment.open files startLsn
  { depth := depth
    files := opened.1
    ring := IoUring.empty
    pending := []
    inflight := ∅
    vacant := []
    spinBudget := defaultSpinBudget
    msgRx := []
    recycleTx := pool
    lastIngestedLsn := startLsn
    seg := opened.2
    ack := Acker.new mode
    fsyncPlanner := FsyncPlanner.new (FsyncCadence.ofMode mode)
    awaitingFsync := []
    pc := .top
    outbox := []
    image := readSeg files startLsn
    queued := []
    acked := []
    returned := [] }

def outOfSpins (engine : WalEngine) : Bool := engine.spinBudget ≤ 0

def shouldPark (engine : WalEngine) : Bool :=
  engine.pending = [] ∧ engine.inflight = ∅

def ringIsFull (engine : WalEngine) : Bool := engine.inflight.keys.card ≥ engine.depth

/-- The active segment file. -/
def disk (engine : WalEngine) : File :=
  (engine.files.lookup engine.seg.startLsn).getD File.empty

/-- The encoding loop of `handle_batch`. -/
def encodeItems : Bytes → ℕ → List Request → Bytes × ℕ
  | out, lsn, [] => (out, lsn)
  | out, lsn, req :: items =>
      match req.op with
      | .put => encodeItems (encodeRecord out (lsn + 1) req.data.bytes) (lsn + 1) items
      | _ => encodeItems out lsn items

/-- `handle_batch`.  The second assertion is a `debug_assert_eq!`. -/
def handleBatch (engine : WalEngine) (batch : Batch) : Except Panic WalEngine :=
  if batch.lsnLow ≠ engine.lastIngestedLsn then .error .assertion
  else
    let encoded := encodeItems batch.out batch.lsnLow batch.items
    if encoded.2 ≠ batch.lsnHi then .error .assertion
    else
      let batch := { batch with out := encoded.1 }
      let batchSize := batch.out.length
      let advanced := engine.seg.advanceOffset batchSize
      .ok { engine with
        lastIngestedLsn := batch.lsnHi
        seg := advanced.1
        fsyncPlanner := engine.fsyncPlanner.onWriteQueued batchSize
        pending := engine.pending ++ [IoWork.ofBatch batch advanced.2.1]
        image := engine.image ++ batch.out
        queued := engine.queued ++ [⟨engine.seg.startLsn, advanced.2.1, batch⟩] }

/-- The responses of an `advance`, in the order they are sent. -/
def sends (advanced : Batch × List Reply) : List Out := advanced.2.map Out.reply

/-- `advance`, recycle and send back for every batch in `awaiting_fsync`; the
loop is the same in `reap_cqes` and in `rotate`. -/
def releaseDurable (engine : WalEngine) : WalEngine :=
  { engine with
    awaitingFsync := []
    outbox := engine.outbox ++ engine.awaitingFsync.flatMap fun batch =>
      let advanced := engine.ack.advance batch .durable
      sends advanced ++ [Out.recycle advanced.1]
    acked := engine.acked ++
      engine.awaitingFsync.map (Ack.mk .durable engine.seg.startLsn engine.disk) }

/-- `retire`: schedules the removal of the segments below the boundary. -/
def retire (engine : WalEngine) (boundaryLsn : ℕ) : Except Panic WalEngine :=
  if engine.seg.startLsn < boundaryLsn then .error .assertion
  else
    .ok { engine with
      pending := engine.pending ++
        ((engine.files.entries.map Prod.fst).filter fun lsn => lsn < boundaryLsn).map
          IoWork.remove }

/-- `vacant_entry().key()`: the first key on offer that no operation has, and where
there is none a key above all that are in use. -/
def vacantKey (engine : WalEngine) : ℕ :=
  (engine.vacant.find? fun key => key ∉ engine.inflight).getD (engine.inflight.keys.sup id + 1)

/-- `handle_pending` has room for one more operation. -/
def hasRoom (engine : WalEngine) : Bool :=
  engine.ring.sq.length < engine.depth ∧ engine.inflight.keys.card < engine.depth

/-- Builds the entry of the first pending operation and pushes it; `rest` is
what stays pending. -/
def push (engine : WalEngine) (work : IoWork) (rest : List IoWork) : WalEngine :=
  let entryIdx := engine.vacantKey
  { engine with
    pending := rest
    inflight := engine.inflight.insert entryIdx work
    ring := { engine.ring with
      sq := engine.ring.sq ++ [⟨entryIdx, work.sqe engine.seg.startLsn, .queued⟩] } }

/-- The loop of `handle_pending`: pushes while there is room. -/
def pullLoop : ℕ → WalEngine → WalEngine
  | 0, engine => engine
  | fuel + 1, engine =>
      match engine.pending with
      | [] => engine
      | work :: rest => if engine.hasRoom then pullLoop fuel (engine.push work rest) else engine

/-- `handle_pending`: `true` if something was added to the ring. -/
def handlePending (engine : WalEngine) : WalEngine × Bool :=
  let pulled := pullLoop engine.pending.length engine
  (pulled, engine.inflight.keys.card ≠ pulled.inflight.keys.card)

/-- The first branch of `reap_cqes`: a write has completed in full. -/
def reapWritten (engine : WalEngine) (batch : Batch) : WalEngine :=
  let advanced := engine.ack.advance batch .written
  let engine := { engine with
    outbox := engine.outbox ++ sends advanced
    acked := engine.acked ++ [Ack.mk .written engine.seg.startLsn engine.disk batch] }
  if Acker.isSettled advanced.1 then
    { engine with outbox := engine.outbox ++ [Out.recycle advanced.1] }
  else { engine with awaitingFsync := engine.awaitingFsync ++ [advanced.1] }

/-- One round of `reap_cqes`. -/
def reapCqe (engine : WalEngine) (cqe : Cqe) : Except Panic WalEngine :=
  match engine.inflight.lookup cqe.userData with
  | none => .error .outOfBounds
  | some work =>
      let engine := { engine with inflight := engine.inflight.erase cqe.userData }
      match work.complete cqe.result with
      | .ok none => .ok engine
      | .ok (some batch) => .ok (engine.reapWritten batch)
      | .retry work =>
          .ok { engine with
            fsyncPlanner := engine.fsyncPlanner.onWriteQueued work.unwritten
            pending := work :: engine.pending }
      | .durable =>
          let engine := engine.releaseDurable
          .ok { engine with fsyncPlanner := engine.fsyncPlanner.onFsyncCompleted }
      | .fatal _ => .error .fatalIo

/-- The tail of `rotate`, when nothing is pending or in flight: seal the old
segment with a blocking fsync, release the waiting batches, open the new one. -/
def sealSegment (engine : WalEngine) (boundaryLsn : ℕ) : WalEngine :=
  let engine := { engine with
    files := engine.files.insert engine.seg.startLsn (engine.disk.flush engine.disk.cache)
    fsyncPlanner := engine.fsyncPlanner.onFsyncCompleted }
  let engine := engine.releaseDurable
  let opened := Segment.open engine.files boundaryLsn
  { engine with
    files := opened.1
    seg := opened.2
    image := readSeg engine.files boundaryLsn
    spinBudget := defaultSpinBudget
    pc := .plan }

/-- `poll_channel_or_park`, and the dispatch on the message. -/
def poll (engine : WalEngine) : Option WalEngine :=
  match engine.msgRx with
  | [] =>
      if engine.shouldPark then none
      else some { engine with spinBudget := engine.spinBudget - 1, pc := .plan }
  | msg :: rest =>
      let engine := { engine with msgRx := rest, spinBudget := defaultSpinBudget }
      match msg with
      | .write batch =>
          ((engine.handleBatch batch).toOption).map fun after => { after with pc := .plan }
      | .rotate boundaryLsn => some { engine with pc := .draining boundaryLsn }
      | .retire boundaryLsn =>
          ((engine.retire boundaryLsn).toOption).map fun after => { after with pc := .plan }

/-- Arms an fsync when the planner says so. -/
def armFsync (engine : WalEngine) : WalEngine :=
  let answer := engine.fsyncPlanner.shouldFsync
  { engine with
    fsyncPlanner := answer.2
    pending := if answer.1 then engine.pending ++ [IoWork.fsync engine.lastIngestedLsn]
      else engine.pending }

/-- The call of `reap_cqes`: its iterator sees the completions posted so far. -/
def beginReap (engine : WalEngine) (ret : Return) : WalEngine :=
  { engine with
    pc := .reaping engine.ring.cq ret
    ring := { engine.ring with cq := [] } }

/-- From `should_fsync` to the call of `reap_cqes`. -/
def plan (engine : WalEngine) : WalEngine :=
  let pulled := engine.armFsync.handlePending
  pulled.1.beginReap (.loop pulled.2)

/-- The entries pushed so far reach the kernel. -/
def submitRing (engine : WalEngine) : WalEngine := { engine with ring := engine.ring.submit }

/-- The end of a round of the main loop: submit what was added. -/
def finishLoop (engine : WalEngine) (needSubmit : Bool) : WalEngine :=
  if (engine.outOfSpins ∧ engine.inflight ≠ ∅) ∨ engine.ringIsFull ∨ needSubmit then
    { engine.submitRing with pc := .top }
  else { engine with pc := .top }

/-- The next completion of `reap_cqes`, or its return. -/
def reap (engine : WalEngine) : Option WalEngine :=
  match engine.pc with
  | .reaping (cqe :: todo) ret =>
      ({ engine with pc := .reaping todo ret }.reapCqe cqe).toOption
  | .reaping [] (.loop needSubmit) => some (engine.finishLoop needSubmit)
  | .reaping [] (.rotate boundaryLsn) => some { engine with pc := .draining boundaryLsn }
  | _ => none

/-- The head of the drain loop of `rotate`. -/
def drain (engine : WalEngine) (boundaryLsn : ℕ) : WalEngine :=
  if engine.shouldPark then engine.sealSegment boundaryLsn
  else
    { engine.handlePending.1.submitRing with pc := .drainWait boundaryLsn }

/-- `reap_cqes` of the drain loop starts, after `submit_ring_and_park`. -/
def wake (engine : WalEngine) (boundaryLsn : ℕ) : WalEngine :=
  engine.beginReap (.rotate boundaryLsn)

/-- Actions: a message arrives, the thread moves on, the kernel starts or
completes an entry, a response or a batch leaves, stage 2 takes a free batch.  `slab`
chooses the keys of the next operations: any will do that are not in use. -/
inductive Act where
  | arrive (msg : WalMsg)
  | poll
  | plan
  | reap
  | drain
  | wake
  | start (position : ℕ)
  | complete (position : ℕ) (res : ℤ)
  | send
  | lend
  | slab (keys : List ℕ)
  deriving DecidableEq

/-- One action; `none` when it is not enabled or the process aborts. -/
def step (engine : WalEngine) : Act → Option WalEngine
  | .arrive msg => some { engine with msgRx := engine.msgRx ++ [msg] }
  | .poll => if engine.pc = .top ∧ engine.outbox = [] then engine.poll else none
  | .plan => if engine.pc = .plan ∧ engine.outbox = [] then some engine.plan else none
  | .reap => if engine.outbox = [] then engine.reap else none
  | .drain =>
      match engine.pc with
      | .draining boundaryLsn =>
          if engine.outbox = [] then some (engine.drain boundaryLsn) else none
      | _ => none
  | .wake =>
      match engine.pc with
      | .drainWait boundaryLsn =>
          if engine.outbox = [] then some (engine.wake boundaryLsn) else none
      | _ => none
  | .start position =>
      (startEntry engine.files engine.ring position).map fun ring =>
        { engine with ring := ring }
  | .complete position res =>
      (completeEntry engine.files engine.ring position res).map fun after =>
        { engine with files := after.1, ring := after.2 }
  | .send =>
      match engine.outbox with
      | [] => none
      | .reply _ :: rest => some { engine with outbox := rest }
      | .recycle batch :: rest =>
          some { engine with
            outbox := rest
            recycleTx := engine.recycleTx ++ [batch.recycle]
            returned := engine.returned ++ [batch] }
  | .lend =>
      match engine.recycleTx with
      | [] => none
      | _ :: pool => some { engine with recycleTx := pool }
  | .slab keys => some { engine with vacant := keys }

end WalEngine

/-! ## What stage 2 sends -/

/-- The shape of a batch that stage 2 sends: executed, its redo buffer empty,
at least one PUT, numbered by the watermark, with the responses below the mode's
level already taken. -/
structure FromStage2 (ack : Acker) (batch : Batch) : Prop where
  executed : ∀ req ∈ batch.items, Stage2.Admissible req.data
  out : batch.out = []
  walWork : 0 < (puts batch.items).length
  lsnHi : batch.lsnHi = batch.lsnLow + (puts batch.items).length
  owed : ∀ req ∈ batch.items, req.resp.isSome ↔ ¬ ack.required req ≤ .applied

instance (ack : Acker) (batch : Batch) : Decidable (FromStage2 ack batch) :=
  decidable_of_iff
    ((∀ req ∈ batch.items, Stage2.Admissible req.data) ∧ batch.out = [] ∧
      0 < (puts batch.items).length ∧
      batch.lsnHi = batch.lsnLow + (puts batch.items).length ∧
      ∀ req ∈ batch.items, req.resp.isSome ↔ ¬ ack.required req ≤ .applied)
    ⟨fun ⟨hexecuted, hout, hwork, hlsn, howed⟩ => ⟨hexecuted, hout, hwork, hlsn, howed⟩,
      fun h => ⟨h.executed, h.out, h.walWork, h.lsnHi, h.owed⟩⟩

/-- Guard of engine runs: every write message has the shape stage 2 gives it.
Rotate and retire messages are unconstrained. -/
def Feeds (engine : WalEngine) : WalEngine.Act → Prop
  | .arrive (.write batch) => FromStage2 engine.ack batch
  | _ => True

instance (engine : WalEngine) : (act : WalEngine.Act) → Decidable (Feeds engine act)
  | .arrive (.write batch) => inferInstanceAs (Decidable (FromStage2 engine.ack batch))
  | .arrive (.rotate _) => isTrue trivial
  | .arrive (.retire _) => isTrue trivial
  | .poll => isTrue trivial
  | .plan => isTrue trivial
  | .reap => isTrue trivial
  | .drain => isTrue trivial
  | .wake => isTrue trivial
  | .start _ => isTrue trivial
  | .complete _ _ => isTrue trivial
  | .send => isTrue trivial
  | .lend => isTrue trivial
  | .slab _ => isTrue trivial

end InMemoryDb.Stage3
