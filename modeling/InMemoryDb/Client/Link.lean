import InMemoryDb.Client.FrameReader
import InMemoryDb.Server.Framing

/-!
# One connection of a smart client

The writer puts the frame of a call into its buffer and the reply sender into a
FIFO.  The reader takes whole responses off the socket and matches each with the
sender at the front.  Both clients run this, one on threads and one on tasks.
A sender that is dropped resolves its call too: the caller's receive fails.
-/

namespace InMemoryDb.Client

open Wire Frames Stage1

/-- What becomes of the reply sender of a call. -/
inductive Outcome where
  /-- `tx.send(Ok(resp))`. -/
  | ok (resp : Resp)
  /-- `tx.send(Err("connection lost"))`. -/
  | lost
  /-- Dropped unused. -/
  | dropped
  deriving DecidableEq

/-- What `call` returns, where `gone` is its error for a dropped sender. -/
def Outcome.result (gone : String) : Outcome → Except String Resp
  | .ok resp => .ok resp
  | .lost => .error "connection lost"
  | .dropped => .error gone

/-- A queued call.  Reply senders are numbered in the order the calls are made. -/
structure Call where
  request : Wire.Call
  tx : ℕ
  deriving DecidableEq

/-- Control points of `read_loop` and `reader_task`. -/
inductive ReaderPc where
  /-- In `read`. -/
  | reading
  /-- At `try_extract`. -/
  | extracting
  /-- In the `recv` of the FIFO, with a response in hand. -/
  | matching (resp : Resp)
  /-- Out of the loop; `dead` is not set yet. -/
  | ended
  /-- In the `try_recv` loop. -/
  | draining
  /-- Behind that loop; the FIFO still takes senders. -/
  | leaving
  /-- Returned, and the receiver of the FIFO dropped. -/
  | done
  deriving DecidableEq

namespace ReaderPc

/-- The response the reader has extracted and not delivered. -/
def hand : ReaderPc → List Resp
  | matching resp => [resp]
  | _ => []

/-- In the outer loop. -/
def active : ReaderPc → Bool
  | reading => true
  | extracting => true
  | matching _ => true
  | _ => false

end ReaderPc

/-- A connection with the FIFO between writer and reader, and its reader.  No step
reads `frames`, `received` or `outcomes`, which are history. -/
structure Link where
  /-- The calls encoded for this connection, in order. -/
  frames : List Call
  /-- The bytes the socket has taken. -/
  sent : Bytes
  /-- The responses of the server, in order. -/
  answered : List Resp
  /-- The bytes the socket has delivered. -/
  received : Bytes
  framer : Bytes
  fifo : List ℕ
  /-- The writer still holds its end of the FIFO. -/
  fifoTx : Bool
  reader : ReaderPc
  /-- What became of the senders put into the FIFO, in order. -/
  outcomes : List (ℕ × Outcome)
  deriving DecidableEq

namespace Link

def new : Link := ⟨[], [], [], [], [], [], true, .reading, []⟩

/-! ## The writer's side -/

/-- `fifo_tx.send(call.tx)`, next to the encoding of the frame.  Once the receiver is
gone the send fails and drops the sender. -/
def push (link : Link) (call : Call) : Link :=
  if link.reader = .done then
    { link with
      frames := link.frames ++ [call]
      outcomes := link.outcomes ++ [(call.tx, .dropped)] }
  else { link with frames := link.frames ++ [call], fifo := link.fifo ++ [call.tx] }

/-- The socket takes some bytes. -/
def write (link : Link) (bytes : Bytes) : Link := { link with sent := link.sent ++ bytes }

/-! ## The reader's side -/

/-- Take the front of the FIFO, if there is one, and use it. -/
def resolve (outcome : Outcome) (link : Link) : Link :=
  match link.fifo with
  | [] => link
  | tx :: rest => { link with fifo := rest, outcomes := link.outcomes ++ [(tx, outcome)] }

/-- The reader is over, and with it all that is in the FIFO. -/
def finish (outcome : Outcome) (link : Link) : Link :=
  { link with
    fifo := []
    reader := .done
    outcomes := link.outcomes ++ link.fifo.map fun tx => (tx, outcome) }

end Link

/-- Steps that both clients' connections take. -/
inductive LinkAct where
  /-- The server answers the next request. -/
  | respond (resp : Resp)
  /-- `read` returns a chunk. -/
  | read (chunk : Bytes)
  | extract
  /-- The `recv` of the FIFO returns a sender. -/
  | recv
  deriving DecidableEq

/-- The size of the buffer a socket is read into. -/
def readSize : ℕ := 8192

/-- The server answers requests it has read in full, one response each and in
order; the socket delivers the bytes of the responses in order. -/
def Link.step (link : Link) : LinkAct → Option Link
  | .respond resp =>
      if resp.Sendable ∧ link.answered.length < (handleConn link.sent).length then
        some { link with answered := link.answered ++ [resp] }
      else none
  | .read chunk =>
      if link.reader = .reading ∧ chunk ≠ [] ∧ chunk.length ≤ readSize ∧
          link.received ++ chunk <+: stream respFrame link.answered then
        some { link with
          received := link.received ++ chunk
          framer := link.framer ++ chunk
          reader := .extracting }
      else none
  | .extract =>
      if link.reader = .extracting then
        match tryExtract link.framer with
        | some (resp, rest) => some { link with framer := rest, reader := .matching resp }
        | none => some { link with reader := .reading }
      else none
  | .recv =>
      match link.reader, link.fifo with
      | .matching resp, _ :: _ => some { link.resolve (.ok resp) with reader := .extracting }
      | _, _ => none

namespace Link

variable {link after : Link}

/-! ## What holds on every connection -/

/-- Frames, senders and responses stay in step. -/
structure Inv (link : Link) : Prop where
  sized : ∀ call ∈ link.frames, call.request.bodyLen ≤ maxPayload
  /-- Senders are resolved in the order of the frames. -/
  lined : link.frames.map Call.tx = link.outcomes.map Prod.fst ++ link.fifo
  written : link.sent <+: encodeCalls (link.frames.map Call.request)
  sendable : ∀ resp ∈ link.answered, resp.Sendable
  asked : link.answered.length ≤ (handleConn link.sent).length
  arrived : link.received <+: stream respFrame link.answered
  matched : ∀ (index tx : ℕ) (resp : Resp),
    link.outcomes[index]? = some (tx, Outcome.ok resp) → link.answered[index]? = some resp
  /-- In its loop the reader has taken one response for each sender resolved. -/
  inStep : link.reader.active = true → ∃ front, front.length = link.outcomes.length ∧
    front ++ link.reader.hand <+: link.answered ∧
    stream respFrame (front ++ link.reader.hand) ++ link.framer = link.received
  emptied : link.reader = .done → link.fifo = []

theorem inv_new : new.Inv where
  sized _ h := by cases h
  lined := rfl
  written := List.nil_prefix
  sendable _ h := by cases h
  asked := Nat.zero_le _
  arrived := List.nil_prefix
  matched _ _ _ h := by cases h
  inStep _ := ⟨[], rfl, List.nil_prefix, rfl⟩
  emptied h := by cases h

theorem Inv.requests_sized (hinv : link.Inv) :
    ∀ call ∈ link.frames.map Call.request, call.bodyLen ≤ maxPayload := by
  intro request hrequest
  obtain ⟨call, hcall, rfl⟩ := List.mem_map.mp hrequest
  exact hinv.sized call hcall

/-- Outcomes that are no answers do not bear on those that are. -/
theorem Inv.matched_append (hinv : link.Inv) {more : List (ℕ × Outcome)}
    (hmore : ∀ entry ∈ more, ∀ resp, entry.2 ≠ .ok resp) (index tx : ℕ) (resp : Resp)
    (hindex : (link.outcomes ++ more)[index]? = some (tx, .ok resp)) :
    link.answered[index]? = some resp := by
  apply hinv.matched index tx
  by_cases hlt : index < link.outcomes.length
  · rwa [List.getElem?_append_left hlt] at hindex
  · rw [List.getElem?_append_right (not_lt.mp hlt)] at hindex
    exact absurd rfl (hmore _ (List.mem_of_getElem? hindex) resp)

theorem encodeCalls_append (front back : List Wire.Call) :
    encodeCalls (front ++ back) = encodeCalls front ++ encodeCalls back := by
  rw [encodeCalls_eq, encodeCalls_eq, encodeCalls_eq, List.flatMap_append]

theorem Inv.push (hinv : link.Inv) {call : Call} (hsize : call.request.bodyLen ≤ maxPayload) :
    (link.push call).Inv := by
  have hsized : ∀ other ∈ link.frames ++ [call], other.request.bodyLen ≤ maxPayload := by
    intro other hother
    rcases List.mem_append.mp hother with hold | hnew
    · exact hinv.sized other hold
    · rw [List.mem_singleton.mp hnew]
      exact hsize
  have hwritten : link.sent <+: encodeCalls ((link.frames ++ [call]).map Call.request) := by
    rw [List.map_append, encodeCalls_append]
    exact hinv.written.trans (List.prefix_append _ _)
  rw [Link.push]
  split_ifs with hdone
  · refine ⟨hsized, ?_, hwritten, hinv.sendable, hinv.asked, hinv.arrived, ?_, ?_, hinv.emptied⟩
    · simp [hinv.lined, hinv.emptied hdone]
    · apply hinv.matched_append
      intro entry hentry resp
      rw [List.mem_singleton.mp hentry]
      exact Outcome.noConfusion
    · intro hactive
      rw [hdone] at hactive
      cases hactive
  · refine ⟨hsized, ?_, hwritten, hinv.sendable, hinv.asked, hinv.arrived, hinv.matched,
      hinv.inStep, fun h => absurd h hdone⟩
    simp [hinv.lined]

/-- A batch is put on the connection; no byte of it is written yet. -/
theorem Inv.pushes (hinv : link.Inv) {batch : List Call}
    (hsize : ∀ call ∈ batch, call.request.bodyLen ≤ maxPayload) :
    (batch.foldl Link.push link).Inv ∧
      (batch.foldl Link.push link).frames = link.frames ++ batch ∧
      (batch.foldl Link.push link).sent = link.sent := by
  induction batch generalizing link with
  | nil => exact ⟨hinv, by simp, rfl⟩
  | cons call batch ih =>
      have hpush : (link.push call).frames = link.frames ++ [call] ∧
          (link.push call).sent = link.sent := by
        rw [Link.push]
        split_ifs <;> exact ⟨rfl, rfl⟩
      obtain ⟨hlast, hframes, hsent⟩ := ih (hinv.push (hsize call List.mem_cons_self))
        fun other hother => hsize other (List.mem_cons_of_mem _ hother)
      rw [List.foldl_cons]
      refine ⟨hlast, ?_, hsent.trans hpush.2⟩
      rw [hframes, hpush.1, List.append_assoc]
      rfl

theorem Inv.write (hinv : link.Inv) {bytes : Bytes}
    (hwithin : link.sent ++ bytes <+: encodeCalls (link.frames.map Call.request)) :
    (link.write bytes).Inv := by
  exact ⟨hinv.sized, hinv.lined, hwithin, hinv.sendable,
    hinv.asked.trans (handleConn_length_mono hinv.requests_sized hwithin), hinv.arrived,
    hinv.matched, hinv.inStep, hinv.emptied⟩

theorem Inv.hangUp (hinv : link.Inv) : { link with fifoTx := false }.Inv :=
  ⟨hinv.sized, hinv.lined, hinv.written, hinv.sendable, hinv.asked, hinv.arrived, hinv.matched,
    hinv.inStep, hinv.emptied⟩

/-- The reader is out of its loop and has not returned. -/
theorem Inv.leave (hinv : link.Inv) {pc : ReaderPc} (hactive : pc.active = false)
    (hdone : pc ≠ .done) : { link with reader := pc }.Inv := by
  refine ⟨hinv.sized, hinv.lined, hinv.written, hinv.sendable, hinv.asked, hinv.arrived,
    hinv.matched, ?_, fun h => absurd h hdone⟩
  intro h
  change pc.active = true at h
  rw [hactive] at h
  cases h

/-- Out of the loop, senders are used for errors. -/
theorem Inv.lose (hinv : link.Inv) (hactive : link.reader.active = false) :
    (link.resolve .lost).Inv := by
  rw [resolve]
  split
  next => exact hinv
  next tx rest hfifo =>
    refine ⟨hinv.sized, ?_, hinv.written, hinv.sendable, hinv.asked, hinv.arrived, ?_, ?_, ?_⟩
    · rw [hinv.lined, hfifo]
      simp
    · apply hinv.matched_append
      intro entry hentry resp
      rw [List.mem_singleton.mp hentry]
      exact Outcome.noConfusion
    · intro h
      change link.reader.active = true at h
      rw [hactive] at h
      cases h
    · intro hdone
      rw [hinv.emptied hdone] at hfifo
      cases hfifo

theorem Inv.finish (hinv : link.Inv) {outcome : Outcome} (herror : ∀ resp, outcome ≠ .ok resp) :
    (link.finish outcome).Inv := by
  refine ⟨hinv.sized, ?_, hinv.written, hinv.sendable, hinv.asked, hinv.arrived, ?_, ?_,
    fun _ => rfl⟩
  · simp [Link.finish, hinv.lined, Function.comp_def]
  · apply hinv.matched_append
    intro entry hentry resp
    obtain ⟨tx, -, rfl⟩ := List.mem_map.mp hentry
    exact herror resp
  · intro h
    cases h

/-- A response in hand has its sender in the FIFO: the server only answers what was
written, and the sender was there before. -/
theorem Inv.ready (hinv : link.Inv) {resp : Resp} (hreader : link.reader = .matching resp) :
    link.fifo ≠ [] := by
  intro hempty
  obtain ⟨front, hfront, hhand, -⟩ := hinv.inStep (by rw [hreader]; rfl)
  have htaken := hhand.length_le
  rw [hreader, List.length_append, hfront] at htaken
  have hlined := congrArg List.length hinv.lined
  rw [hempty, List.append_nil, List.length_map, List.length_map] at hlined
  have hadmits : (handleConn link.sent).length ≤ link.frames.length := by
    rw [handleConn_within hinv.requests_sized hinv.written, List.length_take, payloads,
      List.length_pmap, List.length_map]
    exact min_le_right _ _
  have hasked := hinv.asked
  have hone : (ReaderPc.matching resp).hand.length = 1 := rfl
  omega

/-- The server's next response. -/
theorem Inv.respond (hinv : link.Inv) {resp : Resp} (hsend : resp.Sendable)
    (hasked : link.answered.length < (handleConn link.sent).length) :
    { link with answered := link.answered ++ [resp] }.Inv := by
  refine ⟨hinv.sized, hinv.lined, hinv.written, ?_, ?_, ?_, ?_, ?_, hinv.emptied⟩
  · intro other hother
    rcases List.mem_append.mp hother with hold | hnew
    · exact hinv.sendable other hold
    · rw [List.mem_singleton.mp hnew]
      exact hsend
  · simpa using hasked
  · rw [stream_append]
    exact hinv.arrived.trans (List.prefix_append _ _)
  · intro index tx other hindex
    have hold := hinv.matched index tx other hindex
    have hlt := (List.getElem?_eq_some_iff.mp hold).1
    rw [List.getElem?_append_left hlt]
    exact hold
  · intro hactive
    obtain ⟨front, hfront, hhand, hbytes⟩ := hinv.inStep hactive
    exact ⟨front, hfront, hhand.trans (List.prefix_append _ _), hbytes⟩

theorem Inv.read (hinv : link.Inv) (hreader : link.reader = .reading) {chunk : Bytes}
    (hchunk : link.received ++ chunk <+: stream respFrame link.answered) :
    { link with
      received := link.received ++ chunk
      framer := link.framer ++ chunk
      reader := .extracting }.Inv := by
  obtain ⟨front, hfront, hhand, hbytes⟩ := hinv.inStep (by rw [hreader]; rfl)
  rw [hreader] at hhand hbytes
  refine ⟨hinv.sized, hinv.lined, hinv.written, hinv.sendable, hinv.asked, hchunk, hinv.matched,
    ?_, fun h => by cases h⟩
  intro _
  refine ⟨front, hfront, hhand, ?_⟩
  change stream respFrame (front ++ []) ++ (link.framer ++ chunk) = link.received ++ chunk
  rw [← hbytes, List.append_assoc]
  rfl

/-- A response that is extracted is the next one the server sent. -/
theorem Inv.extract (hinv : link.Inv) (hreader : link.reader = .extracting) {resp : Resp}
    {rest : Bytes} (hextract : tryExtract link.framer = some (resp, rest)) :
    { link with framer := rest, reader := .matching resp }.Inv := by
  obtain ⟨front, hfront, hhand, hbytes⟩ := hinv.inStep (by rw [hreader]; rfl)
  rw [hreader] at hhand hbytes
  change front ++ [] <+: link.answered at hhand
  change stream respFrame (front ++ []) ++ link.framer = link.received at hbytes
  rw [List.append_nil] at hhand hbytes
  obtain ⟨more, hmore⟩ := hhand
  have hpart : link.framer <+: stream respFrame more := by
    have harrived := hinv.arrived
    rw [← hmore, stream_append, ← hbytes, List.prefix_append_right_inj] at harrived
    exact harrived
  obtain ⟨later, rfl, hframer⟩ := delimits_respFrame.decode_within rfl
    (fun other hother =>
      hinv.sendable other (by rw [← hmore]; exact List.mem_append_right _ hother))
    hpart hextract
  refine ⟨hinv.sized, hinv.lined, hinv.written, hinv.sendable, hinv.asked, hinv.arrived,
    hinv.matched, ?_, fun h => by cases h⟩
  intro _
  refine ⟨front, hfront, ?_, ?_⟩
  · change front ++ [resp] <+: link.answered
    rw [← hmore]
    exact ⟨later, by simp⟩
  · change stream respFrame (front ++ [resp]) ++ rest = link.received
    rw [← hbytes, hframer, stream_append, stream_cons, stream_nil, List.append_nil,
      List.append_assoc]

/-- The response in hand goes to the sender at the front. -/
theorem Inv.deliver (hinv : link.Inv) {resp : Resp} (hreader : link.reader = .matching resp)
    {tx : ℕ} {rest : List ℕ} (hfifo : link.fifo = tx :: rest) :
    { link.resolve (.ok resp) with reader := .extracting }.Inv := by
  obtain ⟨front, hfront, hhand, hbytes⟩ := hinv.inStep (by rw [hreader]; rfl)
  rw [hreader] at hhand hbytes
  change front ++ [resp] <+: link.answered at hhand
  have hresolve : link.resolve (.ok resp) =
      { link with fifo := rest, outcomes := link.outcomes ++ [(tx, .ok resp)] } := by
    rw [resolve, hfifo]
  rw [hresolve]
  refine ⟨hinv.sized, ?_, hinv.written, hinv.sendable, hinv.asked, hinv.arrived, ?_, ?_,
    fun h => by cases h⟩
  · rw [hinv.lined, hfifo]
    simp
  · intro index tx' resp' hindex
    change (link.outcomes ++ [(tx, Outcome.ok resp)])[index]? = _ at hindex
    by_cases hlt : index < link.outcomes.length
    · rw [List.getElem?_append_left hlt] at hindex
      exact hinv.matched index tx' resp' hindex
    · rw [List.getElem?_append_right (not_lt.mp hlt), List.getElem?_singleton] at hindex
      split_ifs at hindex with hlast
      simp only [Option.some.injEq, Prod.mk.injEq, Outcome.ok.injEq] at hindex
      obtain ⟨-, rfl⟩ := hindex
      have hsame : index = front.length := by omega
      change link.answered[index]? = some resp
      obtain ⟨later, hlater⟩ := hhand
      rw [← hlater, hsame]
      simp
  · intro _
    refine ⟨front ++ [resp], by simp [hfront], ?_, ?_⟩
    · change (front ++ [resp]) ++ [] <+: link.answered
      rw [List.append_nil]
      exact hhand
    · change stream respFrame ((front ++ [resp]) ++ []) ++ link.framer = link.received
      rw [List.append_nil]
      exact hbytes

/-- A change on the reader's side of a connection. -/
structure Keeps (link after : Link) : Prop where
  inv : link.Inv → after.Inv
  frames : after.frames = link.frames
  sent : after.sent = link.sent
  done : link.reader = .done → after.reader = .done

theorem step_keeps {act : LinkAct} (hstep : link.step act = some after) : link.Keeps after := by
  cases act with
  | respond resp =>
      simp only [Link.step] at hstep
      split_ifs at hstep with hguard
      cases hstep
      exact ⟨fun hinv => hinv.respond hguard.1 hguard.2, rfl, rfl, id⟩
  | read chunk =>
      simp only [Link.step] at hstep
      split_ifs at hstep with hguard
      cases hstep
      exact ⟨fun hinv => hinv.read hguard.1 hguard.2.2.2, rfl, rfl, by simp [hguard.1]⟩
  | extract =>
      simp only [Link.step] at hstep
      split_ifs at hstep with hreader
      split at hstep
      next resp rest hextract =>
        cases hstep
        exact ⟨fun hinv => hinv.extract hreader hextract, rfl, rfl, by simp [hreader]⟩
      next =>
        cases hstep
        refine ⟨?_, rfl, rfl, by simp [hreader]⟩
        intro hinv
        have hsame := hinv.inStep
        rw [hreader] at hsame
        exact ⟨hinv.sized, hinv.lined, hinv.written, hinv.sendable, hinv.asked, hinv.arrived,
          hinv.matched, hsame, fun h => by cases h⟩
  | recv =>
      simp only [Link.step] at hstep
      split at hstep
      next resp tx rest hreader hfifo =>
        cases hstep
        refine ⟨fun hinv => hinv.deliver hreader hfifo, ?_, ?_, by simp [hreader]⟩
        · rw [resolve, hfifo]
        · rw [resolve, hfifo]
      next => cases hstep

theorem keeps_finish {outcome : Outcome} (herror : ∀ resp, outcome ≠ .ok resp) :
    link.Keeps (link.finish outcome) :=
  ⟨fun hinv => hinv.finish herror, rfl, rfl, fun _ => rfl⟩

/-- An answer is the server's response to the frame of the call it is delivered for. -/
theorem Inv.answer (hinv : link.Inv) {index tx : ℕ} {resp : Resp}
    (hindex : link.outcomes[index]? = some (tx, .ok resp)) :
    ∃ call data, link.frames[index]? = some call ∧ call.tx = tx ∧
      link.answered[index]? = some resp ∧ (handleConn link.sent)[index]? = some data ∧
      data.bytes = call.request.body := by
  have hanswered := hinv.matched index tx resp hindex
  have hlt := (List.getElem?_eq_some_iff.mp hanswered).1
  obtain ⟨request, data, hrequest, hdata, hbytes⟩ := handleConn_getElem hinv.requests_sized
    hinv.written (lt_of_lt_of_le hlt hinv.asked)
  rw [List.getElem?_map, Option.map_eq_some_iff] at hrequest
  obtain ⟨call, hcall, rfl⟩ := hrequest
  refine ⟨call, data, hcall, ?_, hanswered, hdata, hbytes⟩
  have htx : (link.frames.map Call.tx)[index]? = some tx := by
    rw [hinv.lined, List.getElem?_append_left, List.getElem?_map, hindex]
    · rfl
    · rw [List.length_map]
      exact (List.getElem?_eq_some_iff.mp hindex).1
  rw [List.getElem?_map, hcall, Option.map_some, Option.some.injEq] at htx
  exact htx

/-- Once the reader has returned every call of the connection is resolved. -/
theorem Inv.resolved (hinv : link.Inv) (hdone : link.reader = .done) :
    link.outcomes.map Prod.fst = link.frames.map Call.tx := by
  rw [hinv.lined, hinv.emptied hdone, List.append_nil]

end Link

end InMemoryDb.Client
