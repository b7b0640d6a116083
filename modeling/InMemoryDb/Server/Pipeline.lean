import InMemoryDb.Lib.Machine
import InMemoryDb.Server.Stage1
import InMemoryDb.Server.Stage2
import InMemoryDb.Server.Stage3.Engine

/-!
# The pipeline

Connection readers, the stage 2 thread, the WAL engine and the kernel, as one
step function over the channels between them.  `run_main_loop` is cut where
another thread can observe it: the batch is taken and executed, its responses
leave one by one, the batch goes to stage 3 or back into the slot.

Stage 2 sends write messages only; the rotate and retire messages of the
protocol may come at any point between them.
-/

namespace InMemoryDb

open Wire Recover Stage2 Stage3

/-- The server process.  The last three fields are history and no step reads
them. -/
structure Pipeline where
  /-- The channel from the connection readers to stage 2. -/
  items : List Request
  db : Db
  lsn : ℕ
  ack : Acker
  /-- The `recycled_batch` slot of stage 2. -/
  recycled : Option Batch
  /-- The executed batch stage 2 is working on. -/
  hand : Option Batch
  /-- Responses stage 2 is sending. -/
  outbox : List Reply
  wal : WalEngine
  /-- The reply channels: every response in the order it was sent. -/
  chan : List Reply
  admitted : List Request
  /-- The responses stage 2 computed, in the order of the requests. -/
  computed : List Reply
  /-- Batches stage 2 recycled, as they were then. -/
  returned : List Batch

namespace Pipeline

/-- The process after recovery, with the free pool filled. -/
def start (mode : Mode) (files : Files) (db : Db) (startLsn : ℕ) : Pipeline :=
  { items := []
    db := db
    lsn := startLsn
    ack := Acker.new mode
    recycled := none
    hand := none
    outbox := []
    wal := WalEngine.new ringDepth files startLsn mode ((List.range nBuffers).map Batch.withId)
    chan := []
    admitted := []
    computed := []
    returned := [] }

/-- `main`: recover, then start the stages. -/
def boot (mode : Mode) (dir : Dir) : Except Panic Pipeline := do
  let (db, startLsn) ← recover dir
  return start mode (Files.ofSegs dir.segs) db startLsn

/-- A connection reader admits a frame. -/
def accept (pipe : Pipeline) (conn : ℕ) (data : Payload) : Pipeline :=
  let req : Request := ⟨data, conn, none, pipe.admitted.length⟩
  { pipe with items := pipe.items ++ [req], admitted := pipe.admitted ++ [req] }

/-- `recycled_batch.take().or_else(..)`: the slot first, then the free pool. -/
def takeBuffer (pipe : Pipeline) : Option (Batch × Pipeline) :=
  match pipe.recycled with
  | some batch => some (batch, { pipe with recycled := none })
  | none =>
      match pipe.wal.recycleTx with
      | [] => none
      | batch :: pool => some (batch, { pipe with wal := { pipe.wal with recycleTx := pool } })

/-- Stage 2 receives `count` requests, executes them and advances the batch to
`Applied`. -/
def take (pipe : Pipeline) (count : ℕ) : Option Pipeline :=
  if pipe.hand = none ∧ pipe.outbox = [] ∧ 0 < count ∧ count ≤ maxBatch ∧
      count ≤ pipe.items.length then
    pipe.takeBuffer.bind fun (buffer, pipe) =>
      let batch := { buffer with items := buffer.items ++ pipe.items.take count }
      (applyBatch pipe.db batch pipe.lsn).toOption.map fun (db, batch, lsn) =>
        let advanced := pipe.ack.advance batch .applied
        { pipe with
          items := pipe.items.drop count
          db := db
          lsn := lsn
          hand := some advanced.1
          outbox := advanced.2
          computed := pipe.computed ++ batch.owed }
  else none

/-- The end of a round of `run_main_loop`. -/
def dispatch (pipe : Pipeline) : Option Pipeline :=
  match pipe.hand with
  | none => none
  | some batch =>
      if pipe.outbox = [] then
        if batch.hasWalWork then
          some { pipe with
            hand := none
            wal := { pipe.wal with msgRx := pipe.wal.msgRx ++ [.write batch] } }
        else
          some { pipe with
            hand := none
            recycled := some batch.recycle
            returned := pipe.returned ++ [batch] }
      else none

inductive Act where
  | accept (conn : ℕ) (data : Payload)
  | take (count : ℕ)
  | reply
  | dispatch
  | rotate (boundaryLsn : ℕ)
  | retire (boundaryLsn : ℕ)
  | wal (act : WalEngine.Act)
  deriving DecidableEq

/-- One action of the process, `none` when it is not enabled or the process
aborts. -/
def step (pipe : Pipeline) : Act → Option Pipeline
  | .accept conn data => some (pipe.accept conn data)
  | .take count => pipe.take count
  | .reply =>
      match pipe.outbox with
      | [] => none
      | reply :: rest => some { pipe with outbox := rest, chan := pipe.chan ++ [reply] }
  | .dispatch => pipe.dispatch
  | .rotate boundaryLsn =>
      some { pipe with
        wal := { pipe.wal with msgRx := pipe.wal.msgRx ++ [.rotate boundaryLsn] } }
  | .retire boundaryLsn =>
      some { pipe with
        wal := { pipe.wal with msgRx := pipe.wal.msgRx ++ [.retire boundaryLsn] } }
  | .wal (.arrive _) => none
  | .wal .lend => none
  | .wal .send =>
      (pipe.wal.step .send).map fun wal =>
        { pipe with wal := wal, chan := pipe.chan ++ (pipe.wal.outbox.take 1).filterMap Out.reply? }
  | .wal act => (pipe.wal.step act).map fun wal => { pipe with wal := wal }

end Pipeline

end InMemoryDb
