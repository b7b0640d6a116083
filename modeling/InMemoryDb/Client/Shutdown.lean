import InMemoryDb.Client.Async
import InMemoryDb.Client.Sync

/-!
# What the clients do once their handles are gone

The driver of the blocking client returns when the queue is closed.  In the
client on tasks `writer_task` returns too, but `supervisor` does not look at why
a task has returned: it sleeps and connects again.  The reconnect loop is added
here to the tasks, with its delay and the answers of the server.
-/

namespace InMemoryDb.Client

open Wire Frames Stage1

theorem Board.onLink_same {board after : Board} {change : Link → Option Link}
    (h : board.onLink change = some after) :
    after.rx = board.rx ∧ after.closed = board.closed ∧ after.links ≠ [] ∧
      after.links.length = board.links.length := by
  rw [Board.onLink] at h
  split at h
  next => cases h
  next link past hlinks =>
    obtain ⟨next, -, rfl⟩ := Option.map_eq_some_iff.mp h
    exact ⟨rfl, rfl, List.cons_ne_nil next past, by rw [hlinks]; rfl⟩

/-! ## The queue is closed and empty -/

namespace Async

variable {client after : Async} {act : AsyncAct}

/-- In this step `writer_task` finds the queue closed: `recv` returns `None`. -/
def ObservesClosed (client : Async) (act : AsyncAct) : Prop :=
  act = .recv ∧ client.pc = .waiting ∧ client.rx = [] ∧ client.closed = true

instance (client : Async) (act : AsyncAct) : Decidable (client.ObservesClosed act) :=
  inferInstanceAs (Decidable (_ ∧ _ ∧ _ ∧ _))

/-- All handles are gone, the queue is drained and no call is in the writer's hands. -/
structure Settled (client : Async) : Prop where
  closed : client.closed = true
  rx : client.rx = []
  idle : client.pc = .waiting ∨ client.pc = .reconnecting
  linked : client.links ≠ []

theorem settled_select {change : Link → Option Link} (hclosed : client.closed = true)
    (hrx : client.rx = []) (hstep : client.select change = some after) :
    after.Settled ∧ after.links.length = client.links.length ∧ after.pc = .reconnecting := by
  obtain ⟨board, hboard, rfl⟩ := Option.map_eq_some_iff.mp hstep
  obtain ⟨hrx', hclosed', hlinks, hlength⟩ := Board.onLink_same hboard
  exact ⟨⟨hclosed'.trans hclosed, hrx'.trans hrx, Or.inr rfl, hlinks⟩, hlength, rfl⟩

/-- No connection is added when `writer_task` finds the queue closed. -/
theorem settled_of_observesClosed (hobserves : client.ObservesClosed act)
    (hstep : client.step act = some after) :
    after.Settled ∧ after.links.length = client.links.length ∧ after.pc = .reconnecting := by
  obtain ⟨rfl, hpc, hrx, hclosed⟩ := hobserves
  simp only [step, hpc, hrx, hclosed, if_true] at hstep
  exact settled_select hclosed hrx hstep

/-- The tasks stay settled, and only the supervisor leaves its reconnect loop. -/
theorem Settled.step (hsettled : client.Settled) (hact : act ≠ .connect)
    (hstep : client.step act = some after) :
    after.Settled ∧ after.links.length = client.links.length ∧
      (client.pc = .reconnecting → after.pc = .reconnecting) := by
  have hselect : ∀ {change}, client.select change = some after → after.Settled ∧
      after.links.length = client.links.length ∧
        (client.pc = .reconnecting → after.pc = .reconnecting) := by
    intro change h
    obtain ⟨hafter, hlength, hpc⟩ := settled_select hsettled.closed hsettled.rx h
    exact ⟨hafter, hlength, fun _ => hpc⟩
  cases act with
  | call request =>
      simp [Async.step, Board.call, hsettled.closed] at hstep
  | close =>
      cases hstep
      exact ⟨⟨rfl, hsettled.rx, hsettled.idle, hsettled.linked⟩, rfl, id⟩
  | link act =>
      simp only [Async.step] at hstep
      split_ifs at hstep with hturn
      obtain ⟨board, hboard, rfl⟩ := Option.map_eq_some_iff.mp hstep
      obtain ⟨hrx, hclosed, hlinks, hlength⟩ := Board.onLink_same hboard
      exact ⟨⟨hclosed.trans hsettled.closed, hrx.trans hsettled.rx, hsettled.idle, hlinks⟩,
        hlength, id⟩
  | readEnd =>
      simp only [Async.step] at hstep
      split_ifs at hstep with hyields
      exact hselect hstep
  | recvGone =>
      simp only [Async.step] at hstep
      split_ifs at hstep with hyields
      exact hselect hstep
  | recv =>
      rcases hsettled.idle with hpc | hpc
      · simp only [Async.step, hpc, hsettled.rx, hsettled.closed, if_true] at hstep
        exact hselect hstep
      · simp [Async.step, hpc] at hstep
  | tryRecv => rcases hsettled.idle with hpc | hpc <;> simp [Async.step, hpc] at hstep
  | write count => rcases hsettled.idle with hpc | hpc <;> simp [Async.step, hpc] at hstep
  | flush => rcases hsettled.idle with hpc | hpc <;> simp [Async.step, hpc] at hstep
  | writeFails => rcases hsettled.idle with hpc | hpc <;> simp [Async.step, hpc] at hstep
  | connect => exact absurd rfl hact

/-- A settled writer that waits can only find the queue closed. -/
theorem Settled.exists_recv (hsettled : client.Settled) (hpc : client.pc = .waiting) :
    ∃ after, client.step .recv = some after := by
  obtain ⟨link, past, hlinks⟩ := List.exists_cons_of_ne_nil hsettled.linked
  apply Option.isSome_iff_exists.mp
  simp [Async.step, hpc, hsettled.rx, hsettled.closed, select, Board.onLink, hlinks]

end Async

/-! ## The reconnect loop -/

/-- When `writer_task` first found the queue closed: how many connections there
were, and how the server has answered the attempts since. -/
structure Drained where
  connections : ℕ
  answers : List Bool
  deriving DecidableEq

def Drained.answer (drained : Drained) (accepted : Bool) : Drained :=
  { drained with answers := drained.answers ++ [accepted] }

/-- `supervisor` with its two tasks.  No step reads `drained`, which is history. -/
structure Supervisor extends Async where
  /-- In milliseconds. -/
  delay : ℕ
  /-- The sleep before the next attempt is not over. -/
  sleeping : Bool
  drained : Option Drained
  deriving DecidableEq

inductive SupervisorAct where
  /-- A step of the callers, of the server or of one of the two tasks. -/
  | task (act : AsyncAct)
  /-- `sleep(delay)` is over. -/
  | wake
  /-- `connect` returns a stream. -/
  | connected
  | connectFails
  deriving DecidableEq

namespace Supervisor

/-- The first and the longest delay. -/
def minDelay : ℕ := 100
def maxDelay : ℕ := 5000

def new : Supervisor := ⟨Async.new, minDelay, true, none⟩

/-- The history, when the tasks take a step. -/
def observe (client : Supervisor) (act : AsyncAct) : Option Drained :=
  match client.drained with
  | some drained => some drained
  | none => if client.ObservesClosed act then some ⟨client.links.length, []⟩ else none

/-- `connect` has returned a stream: the tasks start over on it. -/
def connected (client : Supervisor) : Supervisor :=
  { client with
    links := Link.new :: client.links
    pc := .waiting
    delay := minDelay
    sleeping := true
    drained := client.drained.map (·.answer true) }

def step (client : Supervisor) : SupervisorAct → Option Supervisor
  | .task act =>
      if act = .connect then none
      else (client.toAsync.step act).map fun next =>
        { client with toAsync := next, drained := client.observe act }
  | .wake =>
      if client.pc = .reconnecting ∧ client.sleeping then some { client with sleeping := false }
      else none
  | .connected =>
      if client.pc = .reconnecting ∧ client.sleeping = false then some client.connected else none
  | .connectFails =>
      if client.pc = .reconnecting ∧ client.sleeping = false then
        some { client with
          delay := min (client.delay * 2) maxDelay
          sleeping := true
          drained := client.drained.map (·.answer false) }
      else none

variable {client after : Supervisor}

/-- The connections made since the queue was found closed are the attempts that
the server accepted, and before the first of them the supervisor is in its
reconnect loop. -/
structure Since (client : Supervisor) (drained : Drained) : Prop where
  settled : client.Settled
  connections : client.links.length = drained.connections + drained.answers.count true
  reconnecting : drained.answers.count true = 0 → client.pc = .reconnecting

structure Inv (client : Supervisor) : Prop where
  delay : client.delay ≤ maxDelay
  since : ∀ drained, client.drained = some drained → client.Since drained

theorem inv_new : new.Inv where
  delay := by decide
  since _ h := by cases h

/-- What a step of the supervisor can do. -/
theorem step_cases {act : SupervisorAct} (hstep : client.step act = some after) :
    (∃ task next, task ≠ .connect ∧ client.toAsync.step task = some next ∧
      after = { client with toAsync := next, drained := client.observe task }) ∨
    (client.pc = .reconnecting ∧ client.sleeping = true ∧
      after = { client with sleeping := false }) ∨
    (client.pc = .reconnecting ∧ client.sleeping = false ∧ after = client.connected) ∨
    (client.pc = .reconnecting ∧ client.sleeping = false ∧ after = { client with
      delay := min (client.delay * 2) maxDelay
      sleeping := true
      drained := client.drained.map (·.answer false) }) := by
  cases act with
  | task task =>
      simp only [step] at hstep
      split_ifs at hstep with hact
      obtain ⟨next, hnext, rfl⟩ := Option.map_eq_some_iff.mp hstep
      exact Or.inl ⟨task, next, hact, hnext, rfl⟩
  | wake =>
      simp only [step] at hstep
      split_ifs at hstep with hpc
      cases hstep
      exact Or.inr (Or.inl ⟨hpc.1, hpc.2, rfl⟩)
  | connected =>
      simp only [step] at hstep
      split_ifs at hstep with hpc
      cases hstep
      exact Or.inr (Or.inr (Or.inl ⟨hpc.1, hpc.2, rfl⟩))
  | connectFails =>
      simp only [step] at hstep
      split_ifs at hstep with hpc
      cases hstep
      exact Or.inr (Or.inr (Or.inr ⟨hpc.1, hpc.2, rfl⟩))

theorem since_task {task : AsyncAct} {next : Async} {drained : Drained} (hinv : client.Inv)
    (htask : task ≠ .connect) (hnext : client.toAsync.step task = some next)
    (hdrained : client.observe task = some drained) :
    Since { client with toAsync := next, drained := client.observe task } drained := by
  rw [observe] at hdrained
  split at hdrained
  next hold =>
    have hsince := hinv.since drained (hold.trans hdrained)
    obtain ⟨hsettled, hlength, hpc⟩ := hsince.settled.step htask hnext
    exact ⟨hsettled, hlength.trans hsince.connections, fun h => hpc (hsince.reconnecting h)⟩
  next hnone =>
    split_ifs at hdrained with hobserves
    cases hdrained
    obtain ⟨hsettled, hlength, hpc⟩ := Async.settled_of_observesClosed hobserves hnext
    exact ⟨hsettled, hlength, fun _ => hpc⟩

/-- An accepted attempt is a further connection. -/
theorem Since.connected {drained : Drained} (hsince : client.Since drained) :
    client.connected.Since (drained.answer true) := by
  have hsettled := hsince.settled
  refine ⟨⟨hsettled.closed, hsettled.rx, Or.inl rfl, List.cons_ne_nil _ _⟩, ?_, ?_⟩
  · simp only [Drained.answer, Supervisor.connected, List.length_cons, List.count_append,
      List.count_singleton_self]
    rw [hsince.connections, add_assoc]
  · intro hcount
    simp [Drained.answer] at hcount

/-- A refused attempt changes nothing but the delay. -/
theorem Since.refused {drained : Drained} (hsince : client.Since drained)
    (hpc : client.pc = .reconnecting) (later : Supervisor)
    (hlater : later.toAsync = client.toAsync) : later.Since (drained.answer false) := by
  have hcount : (drained.answer false).answers.count true = drained.answers.count true := by
    simp [Drained.answer]
  constructor
  · rw [hlater]
    exact hsince.settled
  · rw [hlater, hcount]
    exact hsince.connections
  · intro _
    rw [hlater]
    exact hpc

theorem inv_step {act : SupervisorAct} (hinv : client.Inv)
    (hstep : client.step act = some after) : after.Inv := by
  rcases step_cases hstep with
    ⟨task, next, htask, hnext, rfl⟩ | ⟨-, -, rfl⟩ | ⟨-, -, rfl⟩ | ⟨hpc, -, rfl⟩
  · exact ⟨hinv.delay, fun drained hdrained => since_task hinv htask hnext hdrained⟩
  · refine ⟨hinv.delay, fun drained hdrained => ?_⟩
    have hsince := hinv.since drained hdrained
    exact ⟨hsince.settled, hsince.connections, hsince.reconnecting⟩
  · have hdelay : minDelay ≤ maxDelay := by decide
    refine ⟨hdelay, fun drained hdrained => ?_⟩
    obtain ⟨old, hold, rfl⟩ := Option.map_eq_some_iff.mp hdrained
    exact (hinv.since old hold).connected
  · refine ⟨min_le_right _ _, fun drained hdrained => ?_⟩
    obtain ⟨old, hold, rfl⟩ := Option.map_eq_some_iff.mp hdrained
    exact (hinv.since old hold).refused hpc _ rfl

theorem inv_reach (hreach : Machine.Reach step (fun _ _ => True) new client) : client.Inv :=
  hreach.invariant inv_new fun _ _ _ hinv _ hstep => inv_step hinv hstep

/-! ## The supervisor connects again -/

/-- A run of the supervisor that goes on from `client` and adds connections to those
made since the queue was found closed. -/
def Connects (client : Supervisor) (drained : Drained) (count : ℕ) : Prop :=
  ∃ after later, Machine.Reach step (fun _ _ => True) client after ∧
    after.drained = some later ∧ later.connections = drained.connections ∧
    client.links.length + count ≤ after.links.length

/-- In the reconnect loop the next connection is an accepted attempt away. -/
theorem connects_of_reconnecting {drained : Drained} (hdrained : client.drained = some drained)
    (hpc : client.pc = .reconnecting) : client.Connects drained 1 := by
  have hawake : Machine.Reach step (fun _ _ => True) client { client with sleeping := false } := by
    cases hsleeping : client.sleeping with
    | true =>
        have hwake : client.step .wake = some { client with sleeping := false } :=
          if_pos ⟨hpc, hsleeping⟩
        exact Machine.Reach.start.next trivial hwake
    | false =>
        rw [← hsleeping]
        exact Machine.Reach.start
  have hstep : step { client with sleeping := false } .connected =
      some (connected { client with sleeping := false }) := if_pos ⟨hpc, rfl⟩
  refine ⟨_, drained.answer true, hawake.next trivial hstep, ?_, rfl, ?_⟩
  · simp [connected, hdrained]
  · simp [connected]

/-- A writer that is started again finds the queue closed again. -/
theorem connects_once {drained : Drained} (hinv : client.Inv)
    (hdrained : client.drained = some drained) : client.Connects drained 1 := by
  have hsettled := (hinv.since drained hdrained).settled
  rcases hsettled.idle with hpc | hpc
  · obtain ⟨next, hnext⟩ := hsettled.exists_recv hpc
    obtain ⟨-, hlength, hpc'⟩ := Async.settled_of_observesClosed
      ⟨rfl, hpc, hsettled.rx, hsettled.closed⟩ hnext
    have hobserve : client.observe .recv = some drained := by rw [observe, hdrained]
    have hstep : client.step (.task .recv) =
        some { client with toAsync := next, drained := client.observe .recv } := by
      rw [step, if_neg (by decide), hnext, Option.map_some]
    obtain ⟨after, later, hreach, hlater, hsame, hmore⟩ :=
      @connects_of_reconnecting { client with toAsync := next, drained := client.observe .recv }
        drained hobserve hpc'
    refine ⟨after, later, (Machine.Reach.start.next trivial hstep).trans hreach, hlater, hsame, ?_⟩
    rw [← hlength]
    exact hmore
  · exact connects_of_reconnecting hdrained hpc

theorem connects_forever {drained : Drained}
    (hreach : Machine.Reach step (fun _ _ => True) new client)
    (hdrained : client.drained = some drained) (count : ℕ) : client.Connects drained count := by
  induction count with
  | zero => exact ⟨client, drained, Machine.Reach.start, hdrained, rfl, le_rfl⟩
  | succ count ih =>
      obtain ⟨middle, half, hmiddle, hhalf, hsame, hsome⟩ := ih
      obtain ⟨after, later, hafter, hlater, hsame', hmore⟩ :=
        connects_once (inv_reach (hreach.trans hmiddle)) hhalf
      refine ⟨after, later, hmiddle.trans hafter, hlater, hsame'.trans hsame, ?_⟩
      omega

/-- Once `writer_task` has found the queue closed, the supervisor makes no further
connection exactly as long as the server accepts none of its attempts.  It never
returns: until an attempt is accepted it is in its reconnect loop, with a bounded
delay, and there is no end to the connections that it can make. -/
theorem further_connection_iff_accepted {drained : Drained}
    (hreach : Machine.Reach step (fun _ _ => True) new client)
    (hdrained : client.drained = some drained) :
    (client.links.length ≤ drained.connections ↔
      ∀ accepted ∈ drained.answers, accepted = false) ∧
    (client.links.length ≤ drained.connections →
      client.pc = .reconnecting ∧ client.delay ≤ maxDelay) ∧
    ∀ count, client.Connects drained count := by
  have hinv := inv_reach hreach
  have hsince := hinv.since drained hdrained
  have hcount : client.links.length ≤ drained.connections ↔ drained.answers.count true = 0 := by
    rw [hsince.connections]
    omega
  refine ⟨?_, ?_, connects_forever hreach hdrained⟩
  · rw [hcount, List.count_eq_zero]
    constructor
    · intro hnone accepted haccepted
      cases accepted with
      | true => exact absurd haccepted hnone
      | false => rfl
    · intro hall htrue
      exact absurd (hall true htrue) (by decide)
  · intro hfew
    exact ⟨hsince.reconnecting (hcount.mp hfew), hinv.delay⟩

/-- The last handle is dropped on an idle client, and `writer_task` returns. -/
theorem further_connection_iff_accepted_closed :
    ∃ client drained, Machine.Reach step (fun _ _ => True) new client ∧
      client.drained = some drained ∧
      (client.links.length ≤ drained.connections ↔
        ∀ accepted ∈ drained.answers, accepted = false) ∧
      (client.links.length ≤ drained.connections →
        client.pc = .reconnecting ∧ client.delay ≤ maxDelay) ∧
      ∀ count, client.Connects drained count := by
  obtain ⟨client, hreach, hdrained⟩ := @Machine.exists_reach _ _ step (fun _ _ => True) new
    (fun _ _ => inferInstanceAs (Decidable True)) [.task .close, .task .recv]
    (fun client => client.drained = some ⟨1, []⟩) (by decide)
  have hdrained := of_decide_eq_true hdrained
  exact ⟨client, ⟨1, []⟩, hreach, hdrained, further_connection_iff_accepted hreach hdrained⟩

/-- After that the supervisor sleeps, and the server accepts its next attempt. -/
theorem connects_after_closed :
    ¬∀ client drained, Machine.Reach step (fun _ _ => True) new client →
      client.drained = some drained → client.links.length ≤ drained.connections := by
  obtain ⟨client, hreach, hclient⟩ := @Machine.exists_reach _ _ step (fun _ _ => True) new
    (fun _ _ => inferInstanceAs (Decidable True)) [.task .close, .task .recv, .wake, .connected]
    (fun client => client.drained = some ⟨1, [true]⟩ ∧ client.links.length = 2) (by decide)
  obtain ⟨hdrained, hlength⟩ := of_decide_eq_true hclient
  intro hall
  have hfew := hall client ⟨1, [true]⟩ hreach hdrained
  rw [hlength] at hfew
  exact absurd hfew (by decide)

end Supervisor

/-! ## The driver returns -/

namespace Sync

variable {client after : Sync}

theorem returned_step {act : SyncAct} (hpc : client.pc = .returned)
    (hstep : client.step act = some after) :
    after.pc = .returned ∧ after.links.length = client.links.length := by
  cases act with
  | call request =>
      obtain ⟨board, hboard, rfl⟩ := Option.map_eq_some_iff.mp hstep
      rw [Board.call] at hboard
      split_ifs at hboard with hroom
      cases hboard
      exact ⟨hpc, rfl⟩
  | close =>
      cases hstep
      exact ⟨hpc, rfl⟩
  | link act =>
      obtain ⟨board, hboard, rfl⟩ := Option.map_eq_some_iff.mp hstep
      exact ⟨hpc, (Board.onLink_same hboard).2.2.2⟩
  | exit act =>
      obtain ⟨board, hboard, rfl⟩ := Option.map_eq_some_iff.mp hstep
      exact ⟨hpc, (Board.onLink_same hboard).2.2.2⟩
  | _ => simp [step, hpc] at hstep

/-- Once the driver has found the queue closed it makes no further connection. -/
theorem returned_reach (hpc : client.pc = .returned)
    (hreach : Machine.Reach step (fun _ _ => True) client after) :
    after.pc = .returned ∧ after.links.length = client.links.length := by
  induction hreach with
  | start => exact ⟨hpc, rfl⟩
  | next _ _ hstep ih =>
      obtain ⟨hlater, hsame⟩ := returned_step ih.1 hstep
      exact ⟨hlater, hsame.trans ih.2⟩

end Sync

end InMemoryDb.Client
