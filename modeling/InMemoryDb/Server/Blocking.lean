import InMemoryDb.Server.Answered

/-!
# What the threads wait for

In the pipeline a thread that has something to do can do it.  Two calls make it wait:
`blocking_send` on a reply channel that is full, and `submit_and_wait(1)`, which comes
back with a completion or with EINTR.  Here the reply channels are bounded, the
connections' writers empty them, and the WAL thread parks where the source does; every
other step is one of the pipeline's.  The system calls of the WAL thread itself do not
fail.
-/

namespace InMemoryDb

open Wire Recover Stage2 Stage3

namespace Stage3.WalEngine

variable {engine after : WalEngine}

/-- The action ends in `submit_ring_and_park(1)`. -/
def parks (engine : WalEngine) : Act → Bool
  | .reap =>
      match engine.pc with
      | .reaping [] (.loop _) => (engine.outOfSpins ∧ engine.inflight ≠ ∅) ∨ engine.ringIsFull
      | _ => false
  | .drain => !engine.shouldPark
  | _ => false

/-- What holds of the engine while its thread is parked. -/
structure Parking (engine : WalEngine) : Prop where
  inflight : engine.inflight ≠ ∅
  todo : engine.todo = []
  filled : engine.pc.filled = false

theorem Parking.congr (hparking : engine.Parking) (hinflight : after.inflight = engine.inflight)
    (hpc : after.pc = engine.pc) : after.Parking := by
  have htodo : after.todo = engine.todo := congrArg Pc.todo hpc
  exact ⟨hinflight ▸ hparking.inflight, htodo.trans hparking.todo, hpc ▸ hparking.filled⟩

theorem inflight_of_full (hdepth : 0 < engine.depth) (hfull : engine.ringIsFull = true) :
    engine.inflight ≠ ∅ := by
  intro hempty
  have hcard : engine.inflight.keys.card ≥ engine.depth := of_decide_eq_true hfull
  rw [hempty, Finmap.keys_empty, Finset.card_empty] at hcard
  omega

theorem parking_of_step {act : Act} (hslotted : engine.Slotted) (hdepth : 0 < engine.depth)
    (hparks : engine.parks act = true) (hstep : engine.step act = some after) : after.Parking := by
  cases stepped hstep with
  | reapCqe hpc hreap => simp [parks, hpc] at hparks
  | reapLoop hpc =>
      have hinflight : engine.inflight ≠ ∅ := by
        simp only [parks, hpc, decide_eq_true_eq] at hparks
        rcases hparks with ⟨-, hinflight⟩ | hfull
        · exact hinflight
        · exact inflight_of_full hdepth hfull
      unfold finishLoop
      split_ifs
      · exact ⟨hinflight, rfl, rfl⟩
      · exact ⟨hinflight, rfl, rfl⟩
  | reapRotate hpc => simp [parks, hpc] at hparks
  | drain hpc =>
      have hpark : engine.shouldPark = false := by simpa [parks] using hparks
      have hleft := inflight_handlePending hslotted.keyed hdepth
        (hslotted.submitted (by rw [hpc]; rfl)) hpark
      simp only [drain, hpark]
      exact ⟨hleft, rfl, rfl⟩
  | _ => cases hparks

/-- A thread that is parked with no completion posted has something with the kernel. -/
theorem Parking.entries_ne_nil (hparking : engine.Parking) (hslotted : engine.Slotted)
    (hcq : engine.ring.cq = []) : engine.ring.entries ≠ [] := fun hentries =>
  cq_ne_nil hslotted.keyed hparking.todo hentries (hslotted.submitted hparking.filled)
    hparking.inflight hcq

end Stage3.WalEngine

namespace Pipeline

variable {pipe after : Pipeline}

/-- The response an action hands to `blocking_send`. -/
def handed (pipe : Pipeline) : Act → Option Reply
  | .reply => pipe.outbox.head?
  | .wal .send => pipe.wal.outbox.head?.bind Out.reply?
  | _ => none

/-- The action ends in `submit_ring_and_park(1)`. -/
def parks (pipe : Pipeline) : Act → Bool
  | .wal act => pipe.wal.parks act
  | _ => false

theorem byWal_of_parks {act : Act} (hparks : pipe.parks act = true) : act.byWal = true := by
  cases act with
  | wal act =>
      cases act with
      | reap => rfl
      | drain => rfl
      | _ => cases hparks
  | _ => cases hparks

/-- What the other threads and the kernel leave alone. -/
structure Apart (pipe after : Pipeline) : Prop where
  pc : after.wal.pc = pipe.wal.pc
  inflight : after.wal.inflight = pipe.wal.inflight
  outbox : after.wal.outbox = pipe.wal.outbox

theorem apart_step {act : Act} (hact : act.byWal = false) (hstep : pipe.step act = some after) :
    Apart pipe after ∧ (act.byKernel = false → after.wal.ring = pipe.wal.ring) := by
  cases step_change hstep with
  | walReply => cases hact
  | walRecycle => cases hact
  | wal hinner hwal =>
      cases WalEngine.stepped hwal with
      | arrive => exact hinner.elim
      | start => exact ⟨⟨rfl, rfl, rfl⟩, fun hkernel => by cases hkernel⟩
      | complete => exact ⟨⟨rfl, rfl, rfl⟩, fun hkernel => by cases hkernel⟩
      | lend => exact hinner.elim
      | slab => exact ⟨⟨rfl, rfl, rfl⟩, fun _ => rfl⟩
      | _ => cases hact
  | _ => exact ⟨⟨rfl, rfl, rfl⟩, fun _ => rfl⟩

theorem outbox_frame {act : Act} (hact : act.byStage2 = false)
    (hstep : pipe.step act = some after) : after.outbox = pipe.outbox := by
  cases step_change hstep with
  | take => cases hact
  | reply => cases hact
  | _ => rfl

theorem handed_frame {act : Act} (hact : act.byWal = false) (hstep : pipe.step act = some after) :
    after.handed (.wal .send) = pipe.handed (.wal .send) := by
  rw [handed, handed, (apart_step hact hstep).1.outbox]

/-- What the WAL thread hands over is at the head of its outbox. -/
theorem handed_of_byWal {act : Act} {sent : Reply} (hact : act.byWal = true)
    (hsent : pipe.handed act = some sent) : pipe.handed (.wal .send) = some sent := by
  cases act with
  | wal act =>
      cases act with
      | send => exact hsent
      | _ => cases hsent
  | _ => cases hact

theorem byWal_of_byStage2 {act : Act} (hact : act.byStage2 = true) : act.byWal = false := by
  cases act with
  | wal act => cases hact
  | _ => rfl

/-- The reply channels are given what the actions hand over. -/
theorem chan_step {act : Act} (hclosed : act.closed = true) (hstep : pipe.step act = some after) :
    after.admitted = pipe.admitted ∧ after.chan = pipe.chan ++ (pipe.handed act).toList := by
  cases step_change hstep with
  | accept => cases hclosed
  | rotate => cases hclosed
  | retire => cases hclosed
  | reply houtbox => exact ⟨rfl, by simp [handed, houtbox]⟩
  | walReply houtbox => exact ⟨rfl, by simp [handed, houtbox, Out.reply?]⟩
  | walRecycle houtbox => exact ⟨rfl, by simp [handed, houtbox, Out.reply?]⟩
  | @wal act wal hinner hwal =>
      have hhanded : pipe.handed (.wal act) = none := by
        cases act with
        | send => exact hinner.elim
        | _ => rfl
      exact ⟨rfl, by rw [hhanded, Option.toList_none, List.append_nil]⟩
  | _ => exact ⟨rfl, (List.append_nil _).symm⟩

theorem Flow.length_chan_le (hflow : pipe.Flow) : pipe.chan.length ≤ pipe.admitted.length :=
  (Multiset.card_le_card hflow.chan_le).trans hflow.computed_le

end Pipeline

/-! ## The machine -/

def respBound : ℕ := 8192

/-- The process with what its threads wait for. -/
structure Server where
  pipe : Pipeline
  /-- The WAL thread is inside `submit_and_wait(1)`. -/
  parked : Bool
  /-- The reply channels: every response that no writer has taken yet. -/
  respRx : List Reply
  /-- Connections whose writer is over. -/
  gone : List ℕ

namespace Server

def start (mode : Mode) (files : Files) (db : Db) (startLsn : ℕ) : Server :=
  ⟨Pipeline.start mode files db startLsn, false, [], []⟩

/-- How many responses the reply channel of a connection holds. -/
def queued (server : Server) (conn : ℕ) : ℕ :=
  server.respRx.countP fun reply => reply.conn = conn

/-- `blocking_send` comes back at once: the channel has room, or its receiver is gone. -/
def hasRoom (server : Server) (conn : ℕ) : Bool :=
  conn ∈ server.gone ∨ server.queued conn < respBound

/-- The thread that would take the action is parked, or held up by a full channel. -/
def waits (server : Server) (act : Pipeline.Act) : Bool :=
  (server.parked && act.byWal) ||
    (Pipeline.handed server.pipe act).any fun reply => !server.hasRoom reply.conn

inductive Act where
  | pipe (act : Pipeline.Act)
  /-- `submit_and_wait(1)` finds a completion. -/
  | unpark
  /-- `submit_and_wait(1)` comes back with EINTR. -/
  | interrupt
  /-- The writer of the connection takes its next response. -/
  | deliver (conn : ℕ)
  /-- The writer of the connection is over, and its channel with it. -/
  | close (conn : ℕ)
  deriving DecidableEq

/-- One action, `none` when it is not enabled, its thread has to wait, or the process
aborts. -/
def step (server : Server) : Act → Option Server
  | .pipe act =>
      if server.waits act then none
      else
        (server.pipe.step act).map fun pipe =>
          { server with
            pipe := pipe
            parked := server.parked || server.pipe.parks act
            respRx := server.respRx ++
              (server.pipe.handed act).toList.filter fun reply => reply.conn ∉ server.gone }
  | .unpark =>
      if server.parked ∧ server.pipe.wal.ring.cq ≠ [] then some { server with parked := false }
      else none
  | .interrupt => if server.parked then some { server with parked := false } else none
  | .deliver conn =>
      if server.queued conn = 0 then none
      else some { server with respRx := server.respRx.eraseP fun reply => reply.conn = conn }
  | .close conn =>
      some { server with
        respRx := server.respRx.filter fun reply => reply.conn ≠ conn
        gone := conn :: server.gone }

/-- The action of the pipeline. -/
def Act.pipe? : Act → Option Pipeline.Act
  | .pipe act => some act
  | _ => none

def Act.byStage2 : Act → Bool
  | .pipe act => act.byStage2
  | _ => false

def Act.byWal : Act → Bool
  | .pipe act => act.byWal
  | .unpark => true
  | _ => false

def Act.byKernel : Act → Bool
  | .pipe act => act.byKernel
  | _ => false

/-- A guard of the pipeline's steps. -/
def Guards (guard : Pipeline → Pipeline.Act → Prop) (server : Server) : Act → Prop
  | .pipe act => guard server.pipe act
  | _ => True

instance {guard : Pipeline → Pipeline.Act → Prop} [∀ pipe act, Decidable (guard pipe act)]
    (server : Server) : (act : Act) → Decidable (Guards guard server act)
  | .pipe act => inferInstanceAs (Decidable (guard server.pipe act))
  | .unpark | .interrupt | .deliver _ | .close _ => isTrue trivial

variable {server after : Server}

/-- What a step does beside the pipeline's. -/
inductive Change (server : Server) : Act → Server → Prop
  | pipe {act : Pipeline.Act} {pipe : Pipeline} (hgoes : server.waits act = false)
      (hstep : server.pipe.step act = some pipe) :
      Change server (.pipe act)
        { server with
          pipe := pipe
          parked := server.parked || server.pipe.parks act
          respRx := server.respRx ++
            (server.pipe.handed act).toList.filter fun reply => reply.conn ∉ server.gone }
  | unpark (hparked : server.parked = true) (hcq : server.pipe.wal.ring.cq ≠ []) :
      Change server .unpark { server with parked := false }
  | interrupt (hparked : server.parked = true) :
      Change server .interrupt { server with parked := false }
  | deliver {conn : ℕ} (hqueued : server.queued conn ≠ 0) :
      Change server (.deliver conn)
        { server with respRx := server.respRx.eraseP fun reply => reply.conn = conn }
  | close (conn : ℕ) :
      Change server (.close conn)
        { server with
          respRx := server.respRx.filter fun reply => reply.conn ≠ conn
          gone := conn :: server.gone }

theorem step_change {act : Act} (hstep : server.step act = some after) :
    Change server act after := by
  cases act with
  | pipe act =>
      simp only [step] at hstep
      split_ifs at hstep with hwaits
      obtain ⟨pipe, hpipe, rfl⟩ := Option.map_eq_some_iff.mp hstep
      exact Change.pipe (Bool.eq_false_of_not_eq_true hwaits) hpipe
  | unpark =>
      simp only [step] at hstep
      split_ifs at hstep with hcase
      cases hstep
      exact Change.unpark hcase.1 hcase.2
  | interrupt =>
      simp only [step] at hstep
      split_ifs at hstep with hparked
      cases hstep
      exact Change.interrupt hparked
  | deliver conn =>
      simp only [step] at hstep
      split_ifs at hstep with hqueued
      cases hstep
      exact Change.deliver hqueued
  | close conn =>
      cases hstep
      exact Change.close conn

/-- The pipeline goes its own way. -/
theorem moves_pipe {act : Act} (hstep : server.step act = some after) :
    Machine.Moves Pipeline.step server.pipe act.pipe? after.pipe := by
  cases step_change hstep with
  | pipe hgoes hpipe => exact hpipe
  | _ => rfl

section

variable {mode : Mode} {segs : SortedMap ℕ Bytes} {db : Db} {startLsn : ℕ}

theorem pipe_reach {guard : Server → Act → Prop} {guard' : Pipeline → Pipeline.Act → Prop}
    (himp : ∀ server act, guard server (.pipe act) → guard' server.pipe act)
    (hreach : Machine.Reach step guard (start mode (Files.ofSegs segs) db startLsn) server) :
    Machine.Reach Pipeline.step guard'
      (Pipeline.start mode (Files.ofSegs segs) db startLsn) server.pipe := by
  induction hreach with
  | start => exact Machine.Reach.start
  | next _ hguard hstep ih =>
      cases step_change hstep with
      | pipe hgoes hpipe => exact ih.next (himp _ _ hguard) hpipe
      | _ => exact ih

/-! ## The invariant -/

/-- The thread parks only for something in flight, and no channel holds more than it can. -/
structure Attended (server : Server) : Prop where
  parking : server.parked = true → server.pipe.wal.Parking
  bounded : ∀ conn, server.queued conn ≤ respBound

theorem bounded_pipe {act : Pipeline.Act} {conn : ℕ} (hbounded : server.queued conn ≤ respBound)
    (hgoes : server.waits act = false) :
    (server.respRx ++ (server.pipe.handed act).toList.filter fun reply =>
      reply.conn ∉ server.gone).countP (fun reply => reply.conn = conn) ≤ respBound := by
  cases hhanded : server.pipe.handed act with
  | none =>
      rw [Option.toList_none, List.filter_nil, List.append_nil]
      exact hbounded
  | some sent =>
      have hroom : server.hasRoom sent.conn = true := by
        simp only [waits, hhanded, Option.any_some, Bool.or_eq_false_iff] at hgoes
        simpa using hgoes.2
      simp only [hasRoom, decide_eq_true_eq] at hroom
      rw [List.countP_append, Option.toList_some]
      change server.queued conn + _ ≤ respBound
      by_cases hgone : sent.conn ∈ server.gone
      · simpa [hgone] using hbounded
      · have hless := hroom.resolve_left hgone
        by_cases hconn : sent.conn = conn
        · rw [hconn] at hless hgone
          simp [hgone, hconn]
          omega
        · simpa [hgone, hconn] using hbounded

theorem attended_step {act : Act} (hslotted : server.pipe.wal.Slotted)
    (hdepth : 0 < server.pipe.wal.depth) (hattended : server.Attended)
    (hstep : server.step act = some after) : after.Attended := by
  cases step_change hstep with
  | @pipe act pipe hgoes hpipe =>
      refine ⟨fun hparked => ?_, fun conn => bounded_pipe (hattended.bounded conn) hgoes⟩
      simp only [Bool.or_eq_true] at hparked
      by_cases hact : act.byWal = true
      · have hparks : server.pipe.parks act = true := by
          refine hparked.resolve_left fun hparked => ?_
          simp [waits, hparked, hact] at hgoes
        cases Pipeline.step_change hpipe with
        | wal hinner hwal => exact WalEngine.parking_of_step hslotted hdepth hparks hwal
        | walReply => cases hparks
        | walRecycle => cases hparks
        | _ => cases hact
      · have hbefore : server.parked = true := by
          refine hparked.resolve_right fun hparks => hact (Pipeline.byWal_of_parks hparks)
        obtain ⟨happart, -⟩ := Pipeline.apart_step (Bool.eq_false_of_not_eq_true hact) hpipe
        exact (hattended.parking hbefore).congr happart.inflight happart.pc
  | unpark => exact ⟨fun hparked => (by cases hparked), hattended.bounded⟩
  | interrupt => exact ⟨fun hparked => (by cases hparked), hattended.bounded⟩
  | deliver =>
      exact ⟨hattended.parking, fun conn =>
        (List.eraseP_sublist.countP_le).trans (hattended.bounded conn)⟩
  | close =>
      exact ⟨hattended.parking, fun conn =>
        (List.filter_sublist.countP_le).trans (hattended.bounded conn)⟩

/-- The invariants of the pipeline, and those of the waits. -/
structure Kept (mode : Mode) (segs : SortedMap ℕ Bytes) (db : Db) (startLsn : ℕ)
    (server : Server) : Prop where
  flow : server.pipe.Flow
  agreed : Pipeline.Agreed mode segs db startLsn server.pipe
  attended : server.Attended

theorem Kept.slotted (hkept : Kept mode segs db startLsn server) :
    server.pipe.wal.Slotted ∧ 0 < server.pipe.wal.depth := by
  obtain ⟨hslotted, hdepth⟩ := WalEngine.slotted_reach hkept.agreed.engine
  exact ⟨hslotted, by rw [hdepth]; decide⟩

theorem kept_reach {guard : Server → Act → Prop}
    (hreach : Machine.Reach step guard (start mode (Files.ofSegs segs) db startLsn) server) :
    Kept mode segs db startLsn server := by
  have hkept : ∀ {server}, server.Attended →
      Machine.Reach step guard (start mode (Files.ofSegs segs) db startLsn) server →
      Kept mode segs db startLsn server := by
    intro server hattended hreach
    have hpipe := @pipe_reach _ _ _ _ _ guard (fun _ _ => True) (fun _ _ _ => trivial) hreach
    obtain ⟨hflow, hagreed⟩ := Pipeline.agreed_reach hpipe
    exact ⟨hflow, hagreed, hattended⟩
  refine hkept ?_ hreach
  induction hreach with
  | start => exact ⟨fun hparked => (by cases hparked), fun conn => Nat.zero_le _⟩
  | next hbefore _ hstep ih =>
      obtain ⟨hslotted, hdepth⟩ := (hkept ih hbefore).slotted
      exact attended_step hslotted hdepth ih hstep

/-! ## When the WAL thread cannot go on -/

/-- In `submit_and_wait(1)`, with no completion to come back with. -/
def AwaitsCompletion (server : Server) : Prop :=
  server.parked = true ∧ server.pipe.wal.ring.cq = []

/-- In `blocking_send`, on a channel that is full. -/
def AwaitsRoom (server : Server) : Prop :=
  server.parked = false ∧ ∃ sent rest, server.pipe.wal.outbox = .reply sent :: rest ∧
    server.hasRoom sent.conn = false

/-- It has sent everything, and waits for a message with nothing pending or in flight, or
panics: on a retire of the active segment, or on an error that cannot be retried. -/
def WalStopped (server : Server) : Prop := server.parked = false ∧ server.pipe.wal.Stopped

/-- A thread that is not parked goes on unless the pipeline stops it, or a full channel. -/
theorem step_pipe_eq_none {act : Pipeline.Act} (hfree : (server.parked && act.byWal) = false)
    (hnone : server.step (.pipe act) = none) :
    (∃ sent, server.pipe.handed act = some sent ∧ server.hasRoom sent.conn = false) ∨
      server.pipe.step act = none := by
  simp only [step] at hnone
  split_ifs at hnone with hwaits
  · rw [waits, hfree, Bool.false_or, Option.any_eq_true] at hwaits
    obtain ⟨sent, hhanded, hfull⟩ := hwaits
    exact Or.inl ⟨sent, hhanded, by simpa using hfull⟩
  · exact Or.inr (Option.map_eq_none_iff.mp hnone)

theorem step_pipe_of_none {act : Pipeline.Act} (hnone : server.pipe.step act = none) :
    server.step (.pipe act) = none := by
  simp only [step, hnone, Option.map_none, ite_self]

theorem AwaitsCompletion.blocked (hawaits : server.AwaitsCompletion) :
    Machine.Blocked step Act.byWal server := by
  obtain ⟨hparked, hcq⟩ := hawaits
  intro act hact
  cases act with
  | pipe act => simp [step, waits, hparked, show act.byWal = true from hact]
  | unpark => simp [step, hcq]
  | _ => cases hact

/-- A thread that is not parked is blocked where none of its actions in the pipeline is
possible. -/
theorem blocked_of_pipe (hparked : server.parked = false)
    (hnone : ∀ act : WalEngine.Act, act.byThread = true →
      server.step (.pipe (.wal act)) = none) : Machine.Blocked step Act.byWal server := by
  intro act hact
  cases act with
  | pipe act =>
      cases act with
      | wal act => exact hnone act hact
      | _ => cases hact
  | unpark => simp [step, hparked]
  | _ => cases hact

theorem AwaitsRoom.blocked (hawaits : server.AwaitsRoom) :
    Machine.Blocked step Act.byWal server := by
  obtain ⟨hparked, sent, rest, houtbox, hfull⟩ := hawaits
  refine blocked_of_pipe hparked fun act hact => ?_
  by_cases hsend : act = .send
  · subst hsend
    simp [step, waits, Pipeline.handed, houtbox, Out.reply?, hfull]
  · refine step_pipe_of_none ((Pipeline.step_wal (Or.inl hact)).mpr ?_)
    by_contra hgoes
    obtain ⟨wal, hwal⟩ := Option.ne_none_iff_exists'.mp hgoes
    rw [WalEngine.outbox_of_step hact hsend hwal] at houtbox
    cases houtbox

theorem WalStopped.blocked (hstopped : server.WalStopped) :
    Machine.Blocked step Act.byWal server :=
  blocked_of_pipe hstopped.1 fun act hact =>
    step_pipe_of_none ((Pipeline.step_wal (Or.inl hact)).mpr (hstopped.2.blocked act hact))

theorem outbox_of_handed {sent : Reply} (hhanded : server.pipe.handed (.wal .send) = some sent) :
    ∃ rest, server.pipe.wal.outbox = .reply sent :: rest := by
  obtain ⟨out, hout, hsent⟩ := Option.bind_eq_some_iff.mp hhanded
  obtain ⟨rest, houtbox⟩ := List.head?_eq_some_iff.mp hout
  cases out with
  | reply sent =>
      cases hsent
      exact ⟨rest, houtbox⟩
  | recycle batch => cases hsent

/-- Why a WAL thread without a step of its own has none. -/
theorem cause_of_blocked (hkept : Kept mode segs db startLsn server)
    (hblocked : Machine.Blocked step Act.byWal server) :
    server.AwaitsCompletion ∨ server.AwaitsRoom ∨ server.WalStopped := by
  cases hparked : server.parked with
  | true =>
      refine Or.inl ⟨hparked, ?_⟩
      by_contra hcq
      have hunpark := hblocked .unpark rfl
      rw [step, if_pos ⟨hparked, hcq⟩] at hunpark
      cases hunpark
  | false =>
      by_cases hroom : server.AwaitsRoom
      · exact Or.inr (Or.inl hroom)
      · refine Or.inr (Or.inr ⟨hparked, hkept.agreed.stopped fun act hact => ?_⟩)
        have hwal : (Pipeline.Act.wal act).byWal = true := hact
        rcases step_pipe_eq_none (by rw [hparked]; rfl) (hblocked (.pipe (.wal act)) hwal) with
          ⟨sent, hhanded, hfull⟩ | hnone
        · obtain ⟨rest, houtbox⟩ := outbox_of_handed (Pipeline.handed_of_byWal hwal hhanded)
          exact absurd ⟨hparked, sent, rest, houtbox, hfull⟩ hroom
        · exact (Pipeline.step_wal (Or.inl hact)).mp hnone

/-- In every run, whatever the requests, the schedule and the clients do, the WAL thread has
no step of its own in these cases and no other: in `submit_and_wait(1)` with no
completion posted, and then the kernel has an entry; in `blocking_send` on a full reply
channel; and where it has stopped. -/
theorem wal_blocked_iff
    (hreach : Machine.Reach step (fun _ _ => True) (start mode (Files.ofSegs segs) db startLsn)
      server) :
    (Machine.Blocked step Act.byWal server ↔
      server.AwaitsCompletion ∨ server.AwaitsRoom ∨ server.WalStopped) ∧
    (server.AwaitsCompletion → server.pipe.wal.ring.entries ≠ []) := by
  have hkept := kept_reach hreach
  refine ⟨⟨cause_of_blocked hkept, ?_⟩, fun hawaits =>
    (hkept.attended.parking hawaits.1).entries_ne_nil hkept.slotted.1 hawaits.2⟩
  rintro (hawaits | hawaits | hstopped)
  · exact hawaits.blocked
  · exact hawaits.blocked
  · exact hstopped.blocked

/-- In the drain loop of a rotate, with the write of a batch in the ring. -/
theorem wal_blocked_draining :
    ∃ server, Machine.Reach step (fun _ _ => True)
        (start .sync (Files.ofSegs SortedMap.empty) Db.new 1) server ∧
      server.pipe.wal.pc = .drainWait 2 ∧ Machine.Blocked step Act.byWal server ∧
      server.pipe.wal.ring.entries ≠ [] := by
  obtain ⟨server, hreach, hdone⟩ := @Machine.exists_reach _ _ step (fun _ _ => True)
    (start .sync (Files.ofSegs SortedMap.empty) Db.new 1) _
    [.pipe (.accept 7 (.smallPut 65 66)), .pipe (.take 1), .pipe .dispatch, .pipe (.rotate 2),
      .pipe (.wal .poll), .pipe (.wal .plan), .pipe (.wal .reap), .pipe (.wal .poll),
      .pipe (.wal .drain)]
    (fun server => server.pipe.wal.pc = .drainWait 2 ∧ server.parked = true ∧
      server.pipe.wal.ring.cq = []) (by decide +kernel)
  obtain ⟨hpc, hawaits⟩ := of_decide_eq_true hdone
  obtain ⟨hiff, hentries⟩ := wal_blocked_iff hreach
  exact ⟨server, hreach, hpc, hiff.mpr (Or.inl hawaits), hentries hawaits⟩

end

end Server

end InMemoryDb
