import InMemoryDb.Client.Board

/-!
# The client on tasks

`supervisor` runs `writer_task` and `reader_task` under `select!`: they take turns at
their await points, and when one returns the other is dropped where it stands.
What is between two await points is one step here.
-/

namespace InMemoryDb.Client

open Wire Frames Stage1

/-- Control points of `writer_task` and, between connections, of `supervisor`. -/
inductive TaskPc where
  /-- In `recv().await`. -/
  | waiting
  /-- In the `try_recv` loop. -/
  | batching (batch : List Call)
  /-- In `write_all` or `flush`, with these bytes to go. -/
  | writing (rest : Bytes)
  | reconnecting
  deriving DecidableEq

namespace TaskPc

/-- The calls in the writer's hands. -/
def hand : TaskPc → List Call
  | batching batch => batch
  | _ => []

/-- What is encoded for the current connection and not written, while there is one. -/
def unsent : TaskPc → Option Bytes
  | waiting => some []
  | batching _ => some []
  | writing rest => some rest
  | reconnecting => none

/-- The writer is at an await point, or gone. -/
def yields : TaskPc → Bool
  | batching _ => false
  | _ => true

end TaskPc

/-- What the server does, at any time. -/
def LinkAct.byServer : LinkAct → Bool
  | .respond _ => true
  | _ => false

structure Async extends Board where
  pc : TaskPc
  deriving DecidableEq

inductive AsyncAct where
  /-- Some caller makes a call. -/
  | call (request : Wire.Call)
  /-- The last handle is dropped. -/
  | close
  | link (act : LinkAct)
  /-- `read` returns nothing or an error: the reader drains the FIFO and returns. -/
  | readEnd
  /-- The FIFO has no sender any more: the reader returns. -/
  | recvGone
  | recv
  | tryRecv
  /-- The socket takes some bytes. -/
  | write (count : ℕ)
  | flush
  | writeFails
  | connect
  deriving DecidableEq

namespace Async

def new : Async := ⟨{ Board.new with links := [Link.new] }, .waiting⟩

/-- A task returns: `select!` drops the other one and the connection with it. -/
def select (client : Async) (change : Link → Option Link) : Option Async :=
  (client.onLink change).map fun board => { client with toBoard := board, pc := .reconnecting }

def step (client : Async) : AsyncAct → Option Async
  | .call request =>
      (client.toBoard.call request).map fun board => { client with toBoard := board }
  | .close => some { client with closed := true }
  | .link act =>
      if client.pc.yields || act.byServer then
        (client.onLink fun link => link.step act).map fun board =>
          { client with toBoard := board }
      else none
  | .readEnd =>
      if client.pc.yields then
        client.select fun link =>
          if link.reader = .reading then some (link.finish .lost) else none
      else none
  | .recvGone =>
      if client.pc.yields then
        client.select fun link =>
          match link.reader with
          | .matching _ =>
              if link.fifo = [] ∧ link.fifoTx = false then some (link.finish .dropped) else none
          | _ => none
      else none
  | .recv =>
      match client.pc, client.rx with
      | .waiting, call :: rest => some { client with rx := rest, pc := .batching [call] }
      | .waiting, [] =>
          -- `None` once all handles are gone
          if client.closed then client.select fun link => some (link.finish .dropped) else none
      | _, _ => none
  | .tryRecv =>
      match client.pc, client.rx with
      | .batching batch, call :: rest =>
          some { client with rx := rest, pc := .batching (batch ++ [call]) }
      | .batching batch, [] =>
          (client.onLink fun link => some (batch.foldl Link.push link)).map fun board =>
            { client with toBoard := board, pc := .writing (encodeCalls (batch.map Call.request)) }
      | _, _ => none
  | .write count =>
      match client.pc with
      | .writing rest =>
          if 0 < count ∧ count ≤ rest.length then
            (client.onLink fun link => some (link.write (rest.take count))).map fun board =>
              { client with toBoard := board, pc := .writing (rest.drop count) }
          else none
      | _ => none
  | .flush => if client.pc = .writing [] then some { client with pc := .waiting } else none
  | .writeFails =>
      match client.pc with
      | .writing _ => client.select fun link => some (link.finish .dropped)
      | _ => none
  | .connect =>
      if client.pc = .reconnecting then
        some { client with links := Link.new :: client.links, pc := .waiting }
      else none

/-- What `call` returns. -/
def result : Outcome → Except String Resp := Outcome.result "reader task is gone"

/-- The connections the supervisor is done with. -/
def tornDown (client : Async) : List Link :=
  if client.pc = .reconnecting then client.links else client.links.tail

/-- Guard of runs: no body is too long. -/
def Calls (_ : Async) : AsyncAct → Prop
  | .call request => request.bodyLen ≤ maxPayload
  | _ => True

instance (client : Async) : (act : AsyncAct) → Decidable (Calls client act)
  | .call request => inferInstanceAs (Decidable (request.bodyLen ≤ maxPayload))
  | .close => isTrue trivial
  | .link _ => isTrue trivial
  | .readEnd => isTrue trivial
  | .recvGone => isTrue trivial
  | .recv => isTrue trivial
  | .tryRecv => isTrue trivial
  | .write _ => isTrue trivial
  | .flush => isTrue trivial
  | .writeFails => isTrue trivial
  | .connect => isTrue trivial

variable {client after : Async}

/-! ## What a run keeps -/

def Inv (client : Async) : Prop :=
  client.toBoard.Inv client.pc.hand client.pc.unsent (client.pc = .reconnecting)

theorem inv_new : new.Inv where
  numbered := rfl
  sized _ h := by cases h
  custody := List.Perm.nil
  links link hlink := by
    rw [List.mem_singleton.mp hlink]
    exact Link.inv_new
  past _ h := by cases h
  pending link hlink bytes hbytes := by
    cases hlink
    cases hbytes
    rfl
  ended h := by cases h

theorem Inv.held (hinv : client.Inv) {pc : TaskPc} (hpc : client.pc = pc) :
    client.toBoard.Inv pc.hand pc.unsent (pc = .reconnecting) := by
  rw [← hpc]
  exact hinv

/-- Whichever task returns, and wherever the writer is, the senders left in the FIFO
are used or dropped. -/
theorem inv_select (hinv : client.Inv) (hhand : client.pc.hand = []) {change : Link → Option Link}
    (hchange : ∀ link next, change link = some next →
      ∃ outcome, (∀ resp, outcome ≠ Outcome.ok resp) ∧ next = link.finish outcome)
    (hstep : client.select change = some after) : after.Inv := by
  obtain ⟨board, hboard, rfl⟩ := Option.map_eq_some_iff.mp hstep
  have hover := Board.Inv.hangUp hinv (fun link next hnext => by
    obtain ⟨outcome, herror, rfl⟩ := hchange link next hnext
    exact ⟨Link.keeps_finish herror, rfl⟩) hboard
  rw [hhand] at hover
  exact hover.weaken (fun _ => id) fun _ => trivial

/-- The writer returns, and the senders in the FIFO are dropped. -/
theorem inv_writerReturns (hinv : client.Inv) (hhand : client.pc.hand = [])
    (hstep : (client.select fun link => some (link.finish .dropped)) = some after) :
    after.Inv := by
  refine inv_select hinv hhand ?_ hstep
  intro link next hnext
  cases hnext
  exact ⟨.dropped, fun _ => Outcome.noConfusion, rfl⟩

theorem hand_of_yields {pc : TaskPc} (hyields : pc.yields = true) : pc.hand = [] := by
  cases pc with
  | batching batch => cases hyields
  | _ => rfl

theorem inv_recv (hinv : client.Inv) (hstep : client.step .recv = some after) : after.Inv := by
  simp only [step] at hstep
  split at hstep
  next call rest hpc hrx =>
    cases hstep
    exact ((hinv.held hpc).take hrx).weaken (fun _ => id) (fun h => by cases h)
  next hpc hrx =>
    split_ifs at hstep with hclosed
    exact inv_writerReturns hinv (by rw [hpc]; rfl) hstep
  next => cases hstep

theorem inv_tryRecv (hinv : client.Inv) (hstep : client.step .tryRecv = some after) :
    after.Inv := by
  simp only [step] at hstep
  split at hstep
  next batch call rest hpc hrx =>
    cases hstep
    exact ((hinv.held hpc).take hrx).weaken (fun _ => id) (fun h => by cases h)
  next batch hpc hrx =>
    obtain ⟨board, hboard, rfl⟩ := Option.map_eq_some_iff.mp hstep
    have hheld : client.toBoard.Inv (batch ++ []) (some []) False := by
      rw [List.append_nil]
      exact (hinv.held hpc).weaken (fun _ => id) (fun h => h.elim)
    exact (hheld.push hboard).weaken (fun _ => id) (fun h => by cases h)
  next => cases hstep

theorem inv_step {act : AsyncAct} (hinv : client.Inv) (hguard : Calls client act)
    (hstep : client.step act = some after) : after.Inv := by
  cases act with
  | call request =>
      obtain ⟨board, hboard, rfl⟩ := Option.map_eq_some_iff.mp hstep
      exact Board.Inv.call hinv hguard hboard
  | close =>
      cases hstep
      exact Board.Inv.close hinv
  | link act =>
      simp only [step] at hstep
      split_ifs at hstep with hturn
      obtain ⟨board, hboard, rfl⟩ := Option.map_eq_some_iff.mp hstep
      exact Board.Inv.onLink hinv (fun _ _ => Link.step_keeps) hboard
  | readEnd =>
      simp only [step] at hstep
      split_ifs at hstep with hyields
      refine inv_select hinv (hand_of_yields hyields) ?_ hstep
      intro link next hnext
      split_ifs at hnext with hreader
      cases hnext
      exact ⟨.lost, fun _ => Outcome.noConfusion, rfl⟩
  | recvGone =>
      simp only [step] at hstep
      split_ifs at hstep with hyields
      refine inv_select hinv (hand_of_yields hyields) ?_ hstep
      intro link next hnext
      split at hnext
      next =>
        split_ifs at hnext with hgone
        cases hnext
        exact ⟨.dropped, fun _ => Outcome.noConfusion, rfl⟩
      next => cases hnext
  | recv => exact inv_recv hinv hstep
  | tryRecv => exact inv_tryRecv hinv hstep
  | write count =>
      simp only [step] at hstep
      split at hstep
      next rest hpc =>
        split_ifs at hstep with hcount
        obtain ⟨board, hboard, rfl⟩ := Option.map_eq_some_iff.mp hstep
        exact (Board.Inv.write (hinv.held hpc) hboard).weaken (fun _ => id) (fun h => by cases h)
      next => cases hstep
  | flush =>
      simp only [step] at hstep
      split_ifs at hstep with hpc
      cases hstep
      exact (hinv.held hpc).weaken (fun _ => id) (fun h => by cases h)
  | writeFails =>
      simp only [step] at hstep
      split at hstep
      next rest hpc => exact inv_writerReturns hinv (by rw [hpc]; rfl) hstep
      next => cases hstep
  | connect =>
      simp only [step] at hstep
      split_ifs at hstep with hpc
      cases hstep
      exact ((hinv.held hpc).connect rfl).weaken (fun _ => id) (fun h => by cases h)

theorem inv_reach (hreach : Machine.Reach step Calls new client) : client.Inv :=
  hreach.invariant inv_new fun _ _ _ hinv hguard hstep => inv_step hinv hguard hstep

theorem Inv.matched (hinv : client.Inv) : client.toBoard.Matched result client.tornDown := by
  apply Board.Inv.matched hinv
  intro link hlink
  rw [tornDown] at hlink
  split_ifs at hlink with hpc
  · exact ⟨hlink, Board.Inv.ended hinv hpc link hlink⟩
  · exact ⟨List.mem_of_mem_tail hlink, Board.Inv.past hinv link hlink⟩

end Async

end InMemoryDb.Client
