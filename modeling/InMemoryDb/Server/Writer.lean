import InMemoryDb.Lib.Frames
import InMemoryDb.Lib.Machine
import InMemoryDb.Wire.Body

/-!
# Stage 1: the connection writer

The writer task of a connection takes one response from the reply channel, adds
whatever else is there, and writes the lot.  How many responses share a write
depends on timing and on the size of the buffer; the bytes on the socket do not.
-/

namespace InMemoryDb

open LittleEndian Wire Frames

namespace Wire

def Resp.toProtoCode : Resp → UInt8
  | .value _ => 0
  | .ok => 1
  | .miss => 2
  | .unknownOp => 3
  | .unknown => 4

def Resp.fromProtoCode : Bytes → Resp
  | [] => .unknown
  | code :: rest =>
      if code = 0 then .value rest
      else if code = 1 then .ok
      else if code = 2 then .miss
      else if code = 3 then .unknownOp
      else .unknown

/-- A response the server sends, short enough for its length prefix. -/
def Resp.Sendable : Resp → Prop
  | .value bytes => bytes.length < 2 ^ 32 - 1
  | .unknown => False
  | _ => True

instance : (resp : Resp) → Decidable resp.Sendable
  | .value bytes => inferInstanceAs (Decidable (bytes.length < 2 ^ 32 - 1))
  | .ok => isTrue trivial
  | .miss => isTrue trivial
  | .unknownOp => isTrue trivial
  | .unknown => isFalse id

end Wire

namespace Stage1

/-- Appends a response frame; `Unknown` is `unreachable!()`. -/
def encodeResp (buf : Bytes) (resp : Resp) : Except Panic Bytes :=
  match resp with
  | .value bytes =>
      .ok (buf ++ leBytes 4 (1 + bytes.length) ++ [resp.toProtoCode] ++ bytes)
  | .unknown => .error .assertion
  | _ => .ok (buf ++ leBytes 4 1 ++ [resp.toProtoCode])

/-- The body of a response frame. -/
def respBody (resp : Resp) : Bytes :=
  match resp with
  | .value bytes => resp.toProtoCode :: bytes
  | _ => [resp.toProtoCode]

def respFrame (resp : Resp) : Bytes := leBytes 4 (respBody resp).length ++ respBody resp

theorem encodeResp_ok {resp : Resp} (hsend : resp.Sendable) (buf : Bytes) :
    encodeResp buf resp = .ok (buf ++ respFrame resp) := by
  cases resp with
  | value bytes =>
      rw [encodeResp, respFrame, respBody, List.length_cons, Nat.add_comm]
      simp
  | unknown => exact hsend.elim
  | _ => simp [encodeResp, respFrame, respBody]

/-! ## The task -/

def coalesceLimit : ℕ := 256 * 1024

/-- Control points of the writer task. -/
inductive WriterPc where
  /-- In `recv().await`. -/
  | waiting
  /-- In the `try_recv` loop. -/
  | coalescing
  /-- In `write_all`. -/
  | writing
  /-- A write has failed and the task is over. -/
  | closed
  deriving DecidableEq

/-- The writer task, its channel, and what it has put on the socket; `arrived` is
history. -/
structure Writer where
  respRx : List Resp
  buf : Bytes
  sent : Bytes
  pc : WriterPc
  arrived : List Resp
  deriving DecidableEq

namespace Writer

def new : Writer := ⟨[], [], [], .waiting, []⟩

inductive Act where
  | arrive (resp : Resp)
  | recv
  | tryRecv
  | writeAll
  /-- The socket takes some bytes and then fails. -/
  | fail (count : ℕ)
  deriving DecidableEq

def step (writer : Writer) : Act → Option Writer
  | .arrive resp =>
      some { writer with
        respRx := writer.respRx ++ [resp]
        arrived := writer.arrived ++ [resp] }
  | .recv =>
      match writer.pc, writer.respRx with
      | .waiting, resp :: rest =>
          (encodeResp writer.buf resp).toOption.map fun buf =>
            { writer with respRx := rest, buf := buf, pc := .coalescing }
      | _, _ => none
  | .tryRecv =>
      match writer.pc, writer.respRx with
      | .coalescing, resp :: rest =>
          (encodeResp writer.buf resp).toOption.map fun buf =>
            { writer with
              respRx := rest
              buf := buf
              pc := if buf.length ≥ coalesceLimit then .writing else .coalescing }
      | .coalescing, [] => some { writer with pc := .writing }
      | _, _ => none
  | .writeAll =>
      if writer.pc = .writing then
        some { writer with sent := writer.sent ++ writer.buf, buf := [], pc := .waiting }
      else none
  | .fail count =>
      if writer.pc = .writing then
        some { writer with sent := writer.sent ++ writer.buf.take count, pc := .closed }
      else none

/-- Guard: the server sends its own responses only, and no write fails. -/
def Serves (_ : Writer) : Act → Prop
  | .arrive resp => resp.Sendable
  | .fail _ => False
  | _ => True

instance (writer : Writer) : (act : Act) → Decidable (Serves writer act)
  | .arrive resp => inferInstanceAs (Decidable resp.Sendable)
  | .recv => isTrue trivial
  | .tryRecv => isTrue trivial
  | .writeAll => isTrue trivial
  | .fail _ => isFalse id

/-- Nothing is left to send. -/
def Idle (writer : Writer) : Prop := writer.pc = .waiting ∧ writer.respRx = []

instance (writer : Writer) : Decidable writer.Idle := inferInstanceAs (Decidable (_ ∧ _))

/-- What has arrived is on the socket, in the buffer, or in the channel. -/
structure Flowing (writer : Writer) : Prop where
  sendable : ∀ resp ∈ writer.arrived, resp.Sendable
  bytes : ∃ taken, writer.arrived = taken ++ writer.respRx ∧
    stream respFrame taken = writer.sent ++ writer.buf
  empty : writer.pc = .waiting → writer.buf = []
  opened : writer.pc ≠ .closed

theorem flowing_new : new.Flowing where
  sendable resp hresp := by cases hresp
  bytes := ⟨[], rfl, rfl⟩
  empty _ := rfl
  opened := by decide

variable {writer after : Writer}

theorem Flowing.take (hflowing : writer.Flowing) {resp : Resp} {rest : List Resp}
    (hqueue : writer.respRx = resp :: rest) :
    encodeResp writer.buf resp = .ok (writer.buf ++ respFrame resp) ∧
      ∃ taken, writer.arrived = taken ++ rest ∧
        stream respFrame taken = writer.sent ++ (writer.buf ++ respFrame resp) := by
  obtain ⟨taken, harrived, hbytes⟩ := hflowing.bytes
  rw [hqueue] at harrived
  have hsend : resp.Sendable := by
    apply hflowing.sendable
    rw [harrived]
    exact List.mem_append_right _ List.mem_cons_self
  refine ⟨encodeResp_ok hsend _, taken ++ [resp], by rw [harrived, List.append_assoc]; rfl, ?_⟩
  rw [stream_append, hbytes, stream_cons, stream_nil, List.append_nil, List.append_assoc]

theorem flowing_step {act : Act} (hflowing : writer.Flowing) (hguard : Serves writer act)
    (hstep : writer.step act = some after) : after.Flowing := by
  cases act with
  | arrive resp =>
      simp only [step, Option.some.injEq] at hstep
      subst hstep
      obtain ⟨taken, harrived, hbytes⟩ := hflowing.bytes
      refine ⟨?_, ⟨taken, ?_, hbytes⟩, hflowing.empty, hflowing.opened⟩
      · intro other hother
        rcases List.mem_append.mp hother with hold | hnew
        · exact hflowing.sendable other hold
        · rw [List.mem_singleton.mp hnew]
          exact hguard
      · rw [harrived, List.append_assoc]
  | recv =>
      cases hpc : writer.pc with
      | waiting =>
          cases hqueue : writer.respRx with
          | nil => simp [step, hpc, hqueue] at hstep
          | cons resp rest =>
              obtain ⟨hencode, hbytes⟩ := hflowing.take hqueue
              simp only [step, hpc, hqueue, hencode, Except.toOption, Option.map_some,
                Option.some.injEq] at hstep
              subst hstep
              exact ⟨hflowing.sendable, hbytes, fun h => (by cases h), fun h => (by cases h)⟩
      | _ => simp [step, hpc] at hstep
  | tryRecv =>
      cases hpc : writer.pc with
      | coalescing =>
          cases hqueue : writer.respRx with
          | nil =>
              simp only [step, hpc, hqueue, Option.some.injEq] at hstep
              subst hstep
              refine ⟨hflowing.sendable, ?_, fun h => (by cases h), fun h => (by cases h)⟩
              simpa [hqueue] using hflowing.bytes
          | cons resp rest =>
              obtain ⟨hencode, hbytes⟩ := hflowing.take hqueue
              simp only [step, hpc, hqueue, hencode, Except.toOption, Option.map_some,
                Option.some.injEq] at hstep
              subst hstep
              refine ⟨hflowing.sendable, hbytes, ?_, ?_⟩
              · intro h
                split_ifs at h
              · intro h
                split_ifs at h
      | _ => simp [step, hpc] at hstep
  | writeAll =>
      simp only [step] at hstep
      split_ifs at hstep with hpc
      rw [Option.some.injEq] at hstep
      subst hstep
      obtain ⟨taken, harrived, hbytes⟩ := hflowing.bytes
      refine ⟨hflowing.sendable, ⟨taken, harrived, ?_⟩, fun _ => rfl, fun h => (by cases h)⟩
      rw [hbytes, List.append_nil]
  | fail count => exact hguard.elim

theorem flowing_reach (hreach : Machine.Reach step Serves new writer) : writer.Flowing :=
  hreach.invariant flowing_new fun _ _ _ => flowing_step

/-- Once the writer is idle the socket has the frames of all responses, in order
of arrival. -/
theorem sent_of_idle (hreach : Machine.Reach step Serves new writer) (hidle : writer.Idle) :
    writer.sent = stream respFrame writer.arrived := by
  have hflowing := flowing_reach hreach
  obtain ⟨taken, harrived, hbytes⟩ := hflowing.bytes
  rw [hidle.2, List.append_nil] at harrived
  rw [harrived, hbytes, hflowing.empty hidle.1, List.append_nil]

/-- What the writer has left to do. -/
def work (writer : Writer) : ℕ :=
  4 * writer.respRx.length +
    match writer.pc with
    | .waiting => 0
    | .coalescing => 2
    | .writing => 1
    | .closed => 0

theorem exists_step (hflowing : writer.Flowing) (hbusy : ¬ writer.Idle) :
    ∃ act after, Serves writer act ∧ writer.step act = some after ∧
      after.work < writer.work ∧ after.arrived = writer.arrived := by
  cases hpc : writer.pc with
  | waiting =>
      cases hqueue : writer.respRx with
      | nil => exact absurd ⟨hpc, hqueue⟩ hbusy
      | cons resp rest =>
          obtain ⟨hencode, -⟩ := hflowing.take hqueue
          refine ⟨.recv, { writer with
            respRx := rest, buf := writer.buf ++ respFrame resp, pc := .coalescing },
            trivial, ?_, ?_, rfl⟩
          · simp only [step, hpc, hqueue, hencode, Except.toOption, Option.map_some]
          · simp only [work, hpc, hqueue, List.length_cons]
            omega
  | coalescing =>
      cases hqueue : writer.respRx with
      | nil =>
          refine ⟨.tryRecv, { writer with pc := .writing }, trivial, ?_, ?_, rfl⟩
          · simp only [step, hpc, hqueue]
          · simp only [work, hpc]
            omega
      | cons resp rest =>
          obtain ⟨hencode, -⟩ := hflowing.take hqueue
          refine ⟨.tryRecv, { writer with
            respRx := rest
            buf := writer.buf ++ respFrame resp
            pc := if (writer.buf ++ respFrame resp).length ≥ coalesceLimit then .writing
              else .coalescing }, trivial, ?_, ?_, rfl⟩
          · simp only [step, hpc, hqueue, hencode, Except.toOption, Option.map_some]
          · simp only [work, hpc, hqueue, List.length_cons]
            split_ifs
            · simp only
              omega
            · simp only
              omega
  | writing =>
      refine ⟨.writeAll, { writer with
        sent := writer.sent ++ writer.buf, buf := [], pc := .waiting }, trivial, ?_, ?_, rfl⟩
      · simp only [step, hpc, if_true]
      · simp only [work, hpc]
        omega
  | closed => exact absurd hpc hflowing.opened

/-- The writer never gets stuck: left alone, it sends everything. -/
theorem exists_idle (hreach : Machine.Reach step Serves new writer) :
    ∃ idle, Machine.Reach step Serves new idle ∧ idle.Idle ∧ idle.arrived = writer.arrived := by
  induction hwork : writer.work using Nat.strong_induction_on generalizing writer with
  | _ work ih =>
    by_cases hidle : writer.Idle
    · exact ⟨writer, hreach, hidle, rfl⟩
    · obtain ⟨act, next, hguard, hstep, hless, hsame⟩ :=
        exists_step (flowing_reach hreach) hidle
      obtain ⟨idle, hidleReach, hdone, harrived⟩ :=
        ih next.work (by omega) (hreach.next hguard hstep) rfl
      exact ⟨idle, hidleReach, hdone, harrived.trans hsame⟩

end Writer

end Stage1

end InMemoryDb
