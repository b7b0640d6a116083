import InMemoryDb.Wire.Body

/-!
# Requests and batches

The data that moves through the pipeline.  Two fields are history only and are
read by no modelled function: the `tag` of a request, its position in the order
of admission, and the `buf` of a batch, which names the preallocated buffer.
-/

namespace InMemoryDb

open Wire

/-- Durability modes of the command line. -/
inductive Mode where
  | noFsync
  | sync
  | async
  deriving DecidableEq, Repr

def ringDepth : ℕ := 128
def maxBatch : ℕ := 1024
def nBuffers : ℕ := 32

/-- The largest frame the connection reader accepts. -/
def maxPayload : ℕ := 8 * 1024 * 1024

/-- A payload the connection reader admits: between one byte and 8 MiB, with no
other check on its content. -/
structure Payload where
  bytes : Bytes
  nonempty : 0 < bytes.length
  bounded : bytes.length ≤ maxPayload
  deriving DecidableEq

namespace Payload

def opU8 (data : Payload) : UInt8 :=
  data.bytes.head (List.ne_nil_of_length_pos data.nonempty)

def op (data : Payload) : Operation := Operation.ofCode data.opU8

/-- The PUT of a one-byte value under a one-byte key. -/
def smallPut (key value : UInt8) : Payload :=
  ⟨[opPut, 1, 0, 0, 0, key, value], by simp, by simp [maxPayload]⟩

/-- The GET of a one-byte key. -/
def smallGet (key : UInt8) : Payload := ⟨[opGet, 1, 0, 0, 0, key], by simp, by simp [maxPayload]⟩

theorem head?_bytes (data : Payload) : data.bytes.head? = some data.opU8 :=
  List.head?_eq_some_head _

end Payload

/-- A request on its way through the pipeline; `reply` is the connection whose
reply channel it holds. -/
structure Request where
  data : Payload
  reply : ℕ
  resp : Option Resp
  tag : ℕ
  deriving DecidableEq

namespace Request

def op (req : Request) : Operation := req.data.op

def isReadOnly (req : Request) : Bool := req.op = .get

end Request

/-- A response on a reply channel, with the tag of the request it answers. -/
structure Reply where
  conn : ℕ
  tag : ℕ
  resp : Resp
  deriving DecidableEq

/-- The response a request still holds, as a message of its reply channel. -/
def Request.owed (req : Request) : Option Reply :=
  req.resp.map fun resp => ⟨req.reply, req.tag, resp⟩

/-- A batch that circulates in the fixed ring pool. It owns the LSNs
`(lsnLow, lsnHi]`. -/
structure Batch where
  items : List Request
  out : Bytes
  lsnLow : ℕ
  lsnHi : ℕ
  buf : ℕ
  deriving DecidableEq

namespace Batch

def withId (buf : ℕ) : Batch := ⟨[], [], 0, 0, buf⟩

def recycle (batch : Batch) : Batch := ⟨[], [], 0, 0, batch.buf⟩

def hasWalWork (batch : Batch) : Bool := batch.lsnHi > batch.lsnLow

/-- The responses the batch still owes, in request order. -/
def owed (batch : Batch) : List Reply := batch.items.filterMap Request.owed

end Batch

/-- Requests that reach the log. -/
def puts (items : List Request) : List Request := items.filter fun req => req.op = .put

/-- The records of the PUTs of `items`, numbered from `lsn` on. -/
def records : ℕ → List Request → List (ℕ × Bytes)
  | _, [] => []
  | lsn, req :: items =>
      if req.op = .put then (lsn + 1, req.data.bytes) :: records (lsn + 1) items
      else records lsn items

theorem records_append (lsn : ℕ) (first second : List Request) :
    records lsn (first ++ second) =
      records lsn first ++ records (lsn + (puts first).length) second := by
  induction first generalizing lsn with
  | nil => simp [records, puts]
  | cons req first ih =>
      by_cases hop : req.op = .put
      · simp [records, puts, hop, ih, Nat.add_comm, Nat.add_assoc]
      · simp [records, puts, hop, ih]

theorem length_records (lsn : ℕ) (items : List Request) :
    (records lsn items).length = (puts items).length := by
  induction items generalizing lsn with
  | nil => rfl
  | cons req items ih =>
      by_cases hop : req.op = .put <;> simp [records, puts, hop] <;> exact ih _

/-- Every record carries the body of a PUT, under an LSN of its own range. -/
theorem mem_records {lsn : ℕ} {items : List Request} {rec : ℕ × Bytes}
    (hrec : rec ∈ records lsn items) :
    lsn < rec.1 ∧ rec.1 ≤ lsn + (puts items).length ∧
      ∃ req ∈ items, req.op = .put ∧ rec.2 = req.data.bytes := by
  induction items generalizing lsn with
  | nil => simp [records] at hrec
  | cons req items ih =>
      by_cases hop : req.op = .put
      · simp only [records, hop, if_true, List.mem_cons] at hrec
        simp only [puts, List.filter_cons, hop, decide_true, if_true, List.length_cons]
        rcases hrec with rfl | hrec
        · exact ⟨by simp, by simp, req, by simp, hop, rfl⟩
        · obtain ⟨hlow, hhigh, other, hother, hput⟩ := ih hrec
          simp only [puts] at hhigh
          exact ⟨by omega, by omega, other, List.mem_cons_of_mem _ hother, hput⟩
      · simp only [records, hop, if_false] at hrec
        obtain ⟨hlow, hhigh, other, hother, hput⟩ := ih hrec
        refine ⟨hlow, ?_, other, List.mem_cons_of_mem _ hother, hput⟩
        simpa [puts, hop] using hhigh

/-- The records a batch has in the log. -/
def Batch.redo (batch : Batch) : List (ℕ × Bytes) := records batch.lsnLow batch.items

/-- Messages of the stage 2 to stage 3 channel. -/
inductive WalMsg where
  | write (batch : Batch)
  | rotate (boundaryLsn : ℕ)
  | retire (boundaryLsn : ℕ)
  deriving DecidableEq

end InMemoryDb
