import InMemoryDb.Client.Async
import InMemoryDb.Client.Sync

/-!
# Clients of either kind

Seen from the server and from their callers the two clients do the same: calls are
made, connections are opened one after another, frames are added to the current one,
and responses are handed over from it.  A call has one place on one connection.
-/

namespace InMemoryDb.Client

open Wire Stage1

/-- A client of either kind. -/
inductive Peer where
  | blocking (client : Sync)
  | tasks (client : Async)

inductive Kind where
  | blocking
  | tasks
  deriving DecidableEq

inductive PeerAct where
  | blocking (act : SyncAct)
  | tasks (act : AsyncAct)
  deriving DecidableEq

namespace PeerAct

/-- The server's part of a connection is not the client's. -/
def byServer : PeerAct → Bool
  | blocking (.link act) => act.byServer
  | tasks (.link act) => act.byServer
  | _ => false

/-- The call a caller makes. -/
def call? : PeerAct → Option Wire.Call
  | blocking (.call request) => some request
  | tasks (.call request) => some request
  | _ => none

/-- A response is handed to a caller. -/
def hands : PeerAct → Bool
  | blocking (.link .recv) => true
  | tasks (.link .recv) => true
  | _ => false

end PeerAct

/-- The response that is about to be handed over, with the sender it goes to. -/
def Board.answer? (board : Board) : Option (ℕ × Resp) :=
  match board.links with
  | [] => none
  | link :: _ =>
      match link.reader, link.fifo with
      | .matching resp, tx :: _ => some (tx, resp)
      | _, _ => none

/-- The connections of a client, the oldest first. -/
def Board.line (board : Board) (number : ℕ) : Option Link := board.links.reverse[number]?

namespace Peer

def start : Kind → Peer
  | .blocking => blocking Sync.new
  | .tasks => tasks Async.new

def board : Peer → Board
  | blocking client => client.toBoard
  | tasks client => client.toBoard

def step : Peer → PeerAct → Option Peer
  | blocking client, .blocking act => (client.step act).map blocking
  | tasks client, .tasks act => (client.step act).map tasks
  | _, _ => none

/-- A response is written to the current connection. -/
def respond (peer : Peer) (resp : Resp) : Option Peer :=
  match peer with
  | blocking client => (client.step (.link (.respond resp))).map blocking
  | tasks client => (client.step (.link (.respond resp))).map tasks

/-- Guard of runs: no body is too long. -/
def Calls (_ : Peer) (act : PeerAct) : Prop := ∀ request ∈ act.call?, request.bodyLen ≤ maxPayload

instance (peer : Peer) (act : PeerAct) : Decidable (peer.Calls act) :=
  inferInstanceAs (Decidable (∀ request ∈ act.call?, request.bodyLen ≤ maxPayload))

def Inv : Peer → Prop
  | blocking client => client.Inv
  | tasks client => client.Inv

end Peer

/-! ## What a client's step does to its connections -/

namespace Link

/-- Calls are added behind, and what the server has answered stays.  A call gets an
answer only where a response is handed over. -/
structure Grows (hands : Bool) (link after : Link) : Prop where
  frames : link.frames <+: after.frames
  sent : link.sent <+: after.sent
  answered : after.answered = link.answered
  outcomes : link.outcomes <+: after.outcomes
  active : after.reader.active = true → link.reader.active = true
  silent : hands = false → ∀ entry ∈ after.outcomes, ∀ resp, entry.2 = .ok resp →
    entry ∈ link.outcomes

variable {link after : Link} {hands : Bool}

/-- Only bytes, or only the reader: what is said of calls stays as it is. -/
theorem grows_same (hactive : after.reader.active = true → link.reader.active = true)
    (hframes : link.frames <+: after.frames) (hsent : link.sent <+: after.sent)
    (hanswered : after.answered = link.answered) (houtcomes : after.outcomes = link.outcomes) :
    Grows hands link after :=
  ⟨hframes, hsent, hanswered, houtcomes ▸ List.prefix_refl _, hactive,
    fun _ _ hentry _ _ => houtcomes ▸ hentry⟩

theorem Grows.refl (hands : Bool) (link : Link) : Grows hands link link :=
  grows_same (fun h => h) (List.prefix_refl _) (List.prefix_refl _) rfl rfl

/-- Some calls get an outcome. -/
theorem grows_resolved {more : List (ℕ × Outcome)}
    (hactive : after.reader.active = true → link.reader.active = true)
    (hframes : link.frames <+: after.frames) (hsent : link.sent <+: after.sent)
    (hanswered : after.answered = link.answered)
    (houtcomes : after.outcomes = link.outcomes ++ more)
    (hmore : hands = false → ∀ entry ∈ more, ∀ resp, entry.2 ≠ .ok resp) :
    Grows hands link after := by
  refine ⟨hframes, hsent, hanswered, houtcomes ▸ List.prefix_append _ _, hactive, ?_⟩
  intro hhands entry hentry resp hresp
  rw [houtcomes] at hentry
  exact (List.mem_append.mp hentry).resolve_right fun hnew => hmore hhands entry hnew resp hresp

theorem Grows.trans {middle : Link} (hfirst : Grows hands link middle)
    (hsecond : Grows hands middle after) : Grows hands link after :=
  ⟨hfirst.frames.trans hsecond.frames, hfirst.sent.trans hsecond.sent,
    hsecond.answered.trans hfirst.answered, hfirst.outcomes.trans hsecond.outcomes,
    fun h => hfirst.active (hsecond.active h), fun hhands entry hentry resp hresp =>
      hfirst.silent hhands entry (hsecond.silent hhands entry hentry resp hresp) resp hresp⟩

theorem grows_push (hands : Bool) (link : Link) (call : Call) :
    Grows hands link (link.push call) := by
  rw [push]
  split_ifs
  · refine grows_resolved (fun h => h) (List.prefix_append _ _) (List.prefix_refl _) rfl rfl ?_
    rintro - entry hentry resp hresp
    rw [List.mem_singleton.mp hentry] at hresp
    cases hresp
  · exact grows_same (fun h => h) (List.prefix_append _ _) (List.prefix_refl _) rfl rfl

theorem grows_pushes (hands : Bool) (link : Link) (batch : List Call) :
    Grows hands link (batch.foldl push link) := by
  induction batch generalizing link with
  | nil => exact Grows.refl hands link
  | cons call batch ih => exact (grows_push hands link call).trans (ih (link.push call))

theorem grows_write (hands : Bool) (link : Link) (bytes : Bytes) :
    Grows hands link (link.write bytes) :=
  grows_same (fun h => h) (List.prefix_refl _) (List.prefix_append _ _) rfl rfl

theorem grows_resolve {outcome : Outcome} (houtcome : hands = false → ∀ resp, outcome ≠ .ok resp)
    (link : Link) : Grows hands link (link.resolve outcome) := by
  rw [resolve]
  split
  · exact Grows.refl hands link
  · refine grows_resolved (fun h => h) (List.prefix_refl _) (List.prefix_refl _) rfl rfl ?_
    rintro hhands entry hentry resp hresp
    rw [List.mem_singleton.mp hentry] at hresp
    exact houtcome hhands resp hresp

theorem grows_finish {outcome : Outcome} (houtcome : ∀ resp, outcome ≠ .ok resp) (hands : Bool)
    (link : Link) : Grows hands link (link.finish outcome) := by
  refine grows_resolved (fun h => by cases h) (List.prefix_refl _) (List.prefix_refl _) rfl rfl ?_
  rintro - entry hentry resp hresp
  obtain ⟨tx, -, rfl⟩ := List.mem_map.mp hentry
  exact houtcome resp hresp

theorem grows_hangUp (hands : Bool) (link : Link) :
    Grows hands link { link with fifoTx := false } :=
  grows_same (fun h => h) (List.prefix_refl _) (List.prefix_refl _) rfl rfl

/-- The reader goes on, or leaves its loop. -/
theorem grows_reader (hactive : after.reader.active = true → link.reader.active = true)
    (hframes : after.frames = link.frames) (hsent : after.sent = link.sent)
    (hanswered : after.answered = link.answered) (houtcomes : after.outcomes = link.outcomes) :
    Grows hands link after :=
  grows_same hactive (hframes ▸ List.prefix_refl _) (hsent ▸ List.prefix_refl _) hanswered houtcomes

theorem grows_step {act : LinkAct} (hstep : link.step act = some after)
    (hown : act.byServer = false) (hhands : hands = false → act ≠ .recv) :
    Grows hands link after := by
  cases act with
  | respond resp => cases hown
  | read chunk =>
      simp only [Link.step] at hstep
      split_ifs at hstep with hguard
      cases hstep
      exact grows_reader (fun _ => by rw [hguard.1]; rfl) rfl rfl rfl rfl
  | extract =>
      simp only [Link.step] at hstep
      split_ifs at hstep with hreader
      split at hstep
      all_goals
        cases hstep
        exact grows_reader (fun _ => by rw [hreader]; rfl) rfl rfl rfl rfl
  | recv =>
      simp only [Link.step] at hstep
      split at hstep
      next resp tx rest hreader hfifo =>
        cases hstep
        have hresolve : Grows hands link (link.resolve (.ok resp)) :=
          grows_resolve (fun hno => absurd rfl (hhands hno)) link
        refine hresolve.trans (grows_same (fun _ => ?_) (List.prefix_refl _) (List.prefix_refl _)
          rfl rfl)
        rw [resolve, hfifo, hreader]
        rfl
      next => cases hstep

theorem grows_exitStep {act : ExitAct} (hstep : link.exitStep act = some after) :
    Grows hands link after := by
  cases act with
  | readEnd =>
      simp only [exitStep] at hstep
      split_ifs at hstep
      cases hstep
      exact grows_reader (fun h => by cases h) rfl rfl rfl rfl
  | recvGone =>
      simp only [exitStep] at hstep
      split at hstep
      next =>
        split_ifs at hstep
        cases hstep
        exact grows_reader (fun h => by cases h) rfl rfl rfl rfl
      next => cases hstep
  | storeDead =>
      simp only [exitStep] at hstep
      split_ifs at hstep
      cases hstep
      exact grows_reader (fun h => by cases h) rfl rfl rfl rfl
  | tryRecv =>
      simp only [exitStep] at hstep
      split_ifs at hstep
      split at hstep
      next =>
        cases hstep
        exact grows_reader (fun h => by cases h) rfl rfl rfl rfl
      next =>
        cases hstep
        exact grows_resolve (fun _ resp h => by cases h) link
  | leave =>
      simp only [exitStep] at hstep
      split_ifs at hstep
      cases hstep
      exact grows_finish (fun resp h => by cases h) hands link

end Link

/-- The connections stay, the current one grows, or a new one is opened. -/
inductive Relinked (hands : Bool) (before after : List Link) : Prop where
  | same (hsame : after = before)
  | grown {link next : Link} {past : List Link} (hbefore : before = link :: past)
      (hgrows : Link.Grows hands link next) (hafter : after = next :: past)
  | opened (hopened : after = Link.new :: before)

/-- What a client's own step does to its calls and connections. -/
structure Board.Moves (hands : Bool) (before after : Board) (request : Option Wire.Call) :
    Prop where
  made : after.made =
    before.made ++ (request.map fun request => ⟨request, before.made.length⟩).toList
  refused : before.refused <+: after.refused
  links : Relinked hands before.links after.links

variable {board after : Board} {hands : Bool}

/-- A step that is no `recv` of the FIFO. -/
theorem ne_recv_of_hands {act : LinkAct} {hands : Bool}
    (hhands : hands = (PeerAct.blocking (.link act)).hands) : hands = false → act ≠ .recv := by
  rintro rfl rfl
  cases hhands

theorem Board.moves_same (hmade : after.made = board.made)
    (hrefused : board.refused <+: after.refused) (hlinks : after.links = board.links) :
    Board.Moves hands board after none :=
  ⟨by rw [hmade, Option.map_none, Option.toList_none, List.append_nil], hrefused, .same hlinks⟩

theorem Board.moves_call {request : Wire.Call} (hcall : board.call request = some after) :
    Board.Moves hands board after (some request) := by
  rw [Board.call] at hcall
  split_ifs at hcall
  cases hcall
  exact ⟨rfl, List.prefix_refl _, .same rfl⟩

theorem Board.moves_onLink {change : Link → Option Link}
    (hchange : ∀ link next, change link = some next → Link.Grows hands link next)
    (hafter : board.onLink change = some after) : Board.Moves hands board after none := by
  obtain ⟨link, past, next, hlinks, hnext, rfl⟩ := onLink_inv hafter
  exact ⟨by simp, List.prefix_refl _, .grown hlinks (hchange link next hnext) rfl⟩

theorem Board.moves_opened (hmade : after.made = board.made)
    (hrefused : after.refused = board.refused)
    (hlinks : after.links = Link.new :: board.links) : Board.Moves hands board after none :=
  ⟨by rw [hmade, Option.map_none, Option.toList_none, List.append_nil],
    hrefused ▸ List.prefix_refl _, .opened hlinks⟩

theorem Sync.moves {client next : Sync} {act : SyncAct} (hstep : client.step act = some next)
    (hown : (PeerAct.blocking act).byServer = false) :
    Board.Moves (PeerAct.blocking act).hands client.toBoard next.toBoard
      (PeerAct.blocking act).call? := by
  cases act with
  | call request =>
      obtain ⟨board, hboard, rfl⟩ := Option.map_eq_some_iff.mp hstep
      exact Board.moves_call hboard
  | close =>
      cases hstep
      exact Board.moves_same rfl (List.prefix_refl _) rfl
  | link act =>
      obtain ⟨board, hboard, rfl⟩ := Option.map_eq_some_iff.mp hstep
      exact Board.moves_onLink (fun _ _ h => Link.grows_step h hown (ne_recv_of_hands rfl)) hboard
  | exit act =>
      obtain ⟨board, hboard, rfl⟩ := Option.map_eq_some_iff.mp hstep
      exact Board.moves_onLink (fun _ _ h => Link.grows_exitStep h) hboard
  | clone =>
      simp only [Sync.step] at hstep
      split_ifs at hstep
      cases hstep
      exact Board.moves_opened rfl rfl rfl
  | cloneFails =>
      simp only [Sync.step] at hstep
      split_ifs at hstep
      cases hstep
      exact Board.moves_same rfl (List.prefix_refl _) rfl
  | recv =>
      simp only [Sync.step] at hstep
      split at hstep
      next =>
        cases hstep
        exact Board.moves_same rfl (List.prefix_refl _) rfl
      next =>
        split_ifs at hstep
        obtain ⟨board, hboard, rfl⟩ := Option.map_eq_some_iff.mp hstep
        exact Board.moves_onLink
          (fun link _ h => Option.some.inj h ▸ Link.grows_hangUp _ link) hboard
      next => cases hstep
  | load seen =>
      simp only [Sync.step] at hstep
      split at hstep
      next =>
        split_ifs at hstep
        all_goals
          cases hstep
          exact Board.moves_same rfl (by simp) rfl
      next => cases hstep
  | tryRecv =>
      simp only [Sync.step] at hstep
      split at hstep
      next =>
        cases hstep
        exact Board.moves_same rfl (List.prefix_refl _) rfl
      next =>
        cases hstep
        exact Board.moves_same rfl (List.prefix_refl _) rfl
      next => cases hstep
  | encode =>
      simp only [Sync.step] at hstep
      split at hstep
      next =>
        obtain ⟨board, hboard, rfl⟩ := Option.map_eq_some_iff.mp hstep
        exact Board.moves_onLink
          (fun link _ h => Option.some.inj h ▸ Link.grows_push _ link _) hboard
      next =>
        cases hstep
        exact Board.moves_same rfl (List.prefix_refl _) rfl
      next => cases hstep
  | write count =>
      simp only [Sync.step] at hstep
      split at hstep
      next =>
        split_ifs at hstep
        obtain ⟨board, hboard, rfl⟩ := Option.map_eq_some_iff.mp hstep
        exact Board.moves_onLink
          (fun link _ h => Option.some.inj h ▸ Link.grows_write _ link _) hboard
      next => cases hstep
  | flush =>
      simp only [Sync.step] at hstep
      split_ifs at hstep
      cases hstep
      exact Board.moves_same rfl (List.prefix_refl _) rfl
  | writeFails =>
      simp only [Sync.step] at hstep
      split at hstep
      next =>
        cases hstep
        exact Board.moves_same rfl (List.prefix_refl _) rfl
      next => cases hstep
  | hangUp =>
      simp only [Sync.step] at hstep
      split_ifs at hstep
      obtain ⟨board, hboard, rfl⟩ := Option.map_eq_some_iff.mp hstep
      exact Board.moves_onLink (fun link _ h => Option.some.inj h ▸ Link.grows_hangUp _ link) hboard
  | reconnect =>
      simp only [Sync.step] at hstep
      split_ifs at hstep
      cases hstep
      exact Board.moves_same rfl (List.prefix_refl _) rfl
  | join =>
      simp only [Sync.step] at hstep
      split_ifs at hstep
      cases hstep
      exact Board.moves_same rfl (List.prefix_refl _) rfl

theorem Async.moves_select {client next : Async} {change : Link → Option Link}
    (hchange : ∀ link after, change link = some after → Link.Grows hands link after)
    (hstep : client.select change = some next) :
    Board.Moves hands client.toBoard next.toBoard none := by
  obtain ⟨board, hboard, rfl⟩ := Option.map_eq_some_iff.mp hstep
  exact Board.moves_onLink hchange hboard

theorem Async.moves {client next : Async} {act : AsyncAct} (hstep : client.step act = some next)
    (hown : (PeerAct.tasks act).byServer = false) :
    Board.Moves (PeerAct.tasks act).hands client.toBoard next.toBoard
      (PeerAct.tasks act).call? := by
  cases act with
  | call request =>
      obtain ⟨board, hboard, rfl⟩ := Option.map_eq_some_iff.mp hstep
      exact Board.moves_call hboard
  | close =>
      cases hstep
      exact Board.moves_same rfl (List.prefix_refl _) rfl
  | link act =>
      simp only [Async.step] at hstep
      split_ifs at hstep
      obtain ⟨board, hboard, rfl⟩ := Option.map_eq_some_iff.mp hstep
      exact Board.moves_onLink (fun _ _ h => Link.grows_step h hown
        (ne_recv_of_hands (by cases act <;> rfl))) hboard
  | readEnd =>
      simp only [Async.step] at hstep
      split_ifs at hstep
      refine moves_select (fun link after h => ?_) hstep
      split_ifs at h
      exact Option.some.inj h ▸ Link.grows_finish (fun resp h => by cases h) _ link
  | recvGone =>
      simp only [Async.step] at hstep
      split_ifs at hstep
      refine moves_select (fun link after h => ?_) hstep
      split at h
      next =>
        split_ifs at h
        exact Option.some.inj h ▸ Link.grows_finish (fun resp h => by cases h) _ link
      next => cases h
  | recv =>
      simp only [Async.step] at hstep
      split at hstep
      next =>
        cases hstep
        exact Board.moves_same rfl (List.prefix_refl _) rfl
      next =>
        split_ifs at hstep
        exact moves_select (fun link _ h =>
          Option.some.inj h ▸ Link.grows_finish (fun resp h => by cases h) _ link) hstep
      next => cases hstep
  | tryRecv =>
      simp only [Async.step] at hstep
      split at hstep
      next =>
        cases hstep
        exact Board.moves_same rfl (List.prefix_refl _) rfl
      next =>
        obtain ⟨board, hboard, rfl⟩ := Option.map_eq_some_iff.mp hstep
        exact Board.moves_onLink
          (fun link _ h => Option.some.inj h ▸ Link.grows_pushes _ link _) hboard
      next => cases hstep
  | write count =>
      simp only [Async.step] at hstep
      split at hstep
      next =>
        split_ifs at hstep
        obtain ⟨board, hboard, rfl⟩ := Option.map_eq_some_iff.mp hstep
        exact Board.moves_onLink
          (fun link _ h => Option.some.inj h ▸ Link.grows_write _ link _) hboard
      next => cases hstep
  | flush =>
      simp only [Async.step] at hstep
      split_ifs at hstep
      cases hstep
      exact Board.moves_same rfl (List.prefix_refl _) rfl
  | writeFails =>
      simp only [Async.step] at hstep
      split at hstep
      next =>
        exact moves_select (fun link _ h =>
          Option.some.inj h ▸ Link.grows_finish (fun resp h => by cases h) _ link) hstep
      next => cases hstep
  | connect =>
      simp only [Async.step] at hstep
      split_ifs at hstep
      cases hstep
      exact Board.moves_opened rfl rfl rfl

namespace Peer

variable {peer next : Peer} {act : PeerAct} {resp : Resp}

theorem moves (hstep : peer.step act = some next) (hown : act.byServer = false) :
    Board.Moves act.hands peer.board next.board act.call? := by
  cases peer with
  | blocking client =>
      cases act with
      | blocking act =>
          obtain ⟨after, hafter, rfl⟩ := Option.map_eq_some_iff.mp hstep
          exact Sync.moves hafter hown
      | tasks act => cases hstep
  | tasks client =>
      cases act with
      | blocking act => cases hstep
      | tasks act =>
          obtain ⟨after, hafter, rfl⟩ := Option.map_eq_some_iff.mp hstep
          exact Async.moves hafter hown

theorem inv_start (kind : Kind) : (start kind).Inv := by
  cases kind with
  | blocking => exact Sync.inv_new
  | tasks => exact Async.inv_new

theorem inv_step (hinv : peer.Inv) (hcalls : peer.Calls act) (hstep : peer.step act = some next) :
    next.Inv := by
  cases peer with
  | blocking client =>
      cases act with
      | blocking act =>
          obtain ⟨after, hafter, rfl⟩ := Option.map_eq_some_iff.mp hstep
          refine Sync.inv_step hinv ?_ hafter
          cases act with
          | call request => exact hcalls request rfl
          | _ => trivial
      | tasks act => cases hstep
  | tasks client =>
      cases act with
      | blocking act => cases hstep
      | tasks act =>
          obtain ⟨after, hafter, rfl⟩ := Option.map_eq_some_iff.mp hstep
          refine Async.inv_step hinv ?_ hafter
          cases act with
          | call request => exact hcalls request rfl
          | _ => trivial

/-- What the invariants of both kinds say of the calls and connections. -/
theorem Inv.held (hinv : peer.Inv) :
    ∃ hand unsent idle, peer.board.Inv hand unsent idle := by
  cases peer with
  | blocking client => exact ⟨_, _, _, hinv⟩
  | tasks client => exact ⟨_, _, _, hinv⟩

theorem respond_step (hstep : peer.respond resp = some next) :
    ∃ act : PeerAct, act.call? = none ∧ peer.step act = some next := by
  cases peer with
  | blocking client => exact ⟨.blocking (.link (.respond resp)), rfl, hstep⟩
  | tasks client => exact ⟨.tasks (.link (.respond resp)), rfl, hstep⟩

theorem inv_respond (hinv : peer.Inv) (hstep : peer.respond resp = some next) : next.Inv := by
  obtain ⟨act, hcall, hact⟩ := respond_step hstep
  refine inv_step hinv (fun request hrequest => ?_) hact
  rw [hcall] at hrequest
  cases hrequest

/-- The current connection holds one response more, and nothing else has changed. -/
theorem respond_inv (hstep : peer.respond resp = some next) :
    ∃ link past, peer.board.links = link :: past ∧
      next.board = { peer.board with
        links := { link with answered := link.answered ++ [resp] } :: past } := by
  have honLink : ∃ board, peer.board.onLink (fun link => link.step (.respond resp)) = some board ∧
      next.board = board := by
    cases peer with
    | blocking client =>
        obtain ⟨after, hafter, rfl⟩ := Option.map_eq_some_iff.mp hstep
        obtain ⟨board, hboard, rfl⟩ := Option.map_eq_some_iff.mp hafter
        exact ⟨board, hboard, rfl⟩
    | tasks client =>
        obtain ⟨after, hafter, rfl⟩ := Option.map_eq_some_iff.mp hstep
        simp only [Async.step] at hafter
        split_ifs at hafter
        obtain ⟨board, hboard, rfl⟩ := Option.map_eq_some_iff.mp hafter
        exact ⟨board, hboard, rfl⟩
  obtain ⟨board, hboard, hnext⟩ := honLink
  obtain ⟨link, past, after, hlinks, hafter, rfl⟩ := Board.onLink_inv hboard
  simp only [Link.step] at hafter
  split_ifs at hafter
  cases hafter
  exact ⟨link, past, hlinks, hnext⟩

/-- A response is handed over: the sender at the front of the FIFO has its outcome. -/
theorem hands_inv (hstep : peer.step act = some next) (hhands : act.hands = true) :
    ∃ link past resp tx rest, peer.board.links = link :: past ∧ link.reader = .matching resp ∧
      link.fifo = tx :: rest ∧ next.board = { peer.board with
        links := { link.resolve (.ok resp) with reader := .extracting } :: past } := by
  have honLink : ∃ board, peer.board.onLink (fun link => link.step .recv) = some board ∧
      next.board = board := by
    cases peer with
    | blocking client =>
        cases act with
        | blocking act =>
            obtain ⟨after, hafter, rfl⟩ := Option.map_eq_some_iff.mp hstep
            unfold PeerAct.hands at hhands
            split at hhands
            next hact =>
              cases hact
              obtain ⟨board, hboard, rfl⟩ := Option.map_eq_some_iff.mp hafter
              exact ⟨board, hboard, rfl⟩
            next hact => cases hact
            next => cases hhands
        | tasks act => cases hstep
    | tasks client =>
        cases act with
        | blocking act => cases hstep
        | tasks act =>
            obtain ⟨after, hafter, rfl⟩ := Option.map_eq_some_iff.mp hstep
            unfold PeerAct.hands at hhands
            split at hhands
            next hact => cases hact
            next hact =>
              cases hact
              simp only [Async.step] at hafter
              split_ifs at hafter
              obtain ⟨board, hboard, rfl⟩ := Option.map_eq_some_iff.mp hafter
              exact ⟨board, hboard, rfl⟩
            next => cases hhands
  obtain ⟨board, hboard, hnext⟩ := honLink
  obtain ⟨link, past, after, hlinks, hafter, rfl⟩ := Board.onLink_inv hboard
  simp only [Link.step] at hafter
  split at hafter
  next resp tx rest hreader hfifo =>
    cases hafter
    exact ⟨link, past, resp, tx, rest, hlinks, hreader, hfifo, hnext⟩
  next => cases hafter

theorem call_of_hands (hhands : act.hands = true) : act.call? = none := by
  unfold PeerAct.hands at hhands
  split at hhands
  next => rfl
  next => rfl
  next => cases hhands

end Peer

/-! ## Connections by their number -/

theorem line_cons (link : Link) (past : List Link) (number : ℕ) :
    (link :: past).reverse[number]? =
      if number = past.length then some link else past.reverse[number]? := by
  rw [List.reverse_cons]
  split_ifs with hlast
  · rw [hlast, ← List.length_reverse, List.getElem?_concat_length]
  · by_cases hlt : number < past.length
    · rw [List.getElem?_append_left (by rwa [List.length_reverse])]
    · rw [List.getElem?_eq_none, List.getElem?_eq_none]
      · rw [List.length_reverse]
        exact not_lt.mp hlt
      · rw [List.length_append, List.length_reverse, List.length_singleton]
        omega

theorem Board.line_past {link : Link} {past : List Link} (hlinks : board.links = link :: past) :
    board.line past.length = some link := by
  rw [line, hlinks, line_cons, if_pos rfl]

theorem Board.line_mem {number : ℕ} {link : Link} (hline : board.line number = some link) :
    link ∈ board.links := List.mem_reverse.mp (List.mem_of_getElem? hline)

/-- A connection there is after a step was there before, or is new and blank. -/
theorem Board.Moves.back {request : Option Wire.Call}
    (hmoves : Board.Moves hands board after request) {number : ℕ} {next : Link}
    (hnext : after.line number = some next) :
    (∃ link, board.line number = some link ∧ Link.Grows hands link next) ∨
      board.line number = none ∧ next = Link.new := by
  rw [line] at hnext
  cases hmoves.links with
  | same hsame =>
      rw [hsame] at hnext
      exact Or.inl ⟨next, hnext, Link.Grows.refl hands next⟩
  | @grown link grown past hbefore hgrows hafter =>
      rw [hafter, line_cons] at hnext
      rw [line, hbefore, line_cons]
      split_ifs at hnext ⊢
      · exact Or.inl ⟨link, rfl, Option.some.inj hnext ▸ hgrows⟩
      · exact Or.inl ⟨next, hnext, Link.Grows.refl hands next⟩
  | opened hopened =>
      rw [hopened, line_cons] at hnext
      split_ifs at hnext with hlast
      · refine Or.inr ⟨?_, (Option.some.inj hnext).symm⟩
        rw [line, List.getElem?_eq_none]
        rw [hlast, List.length_reverse]
      · exact Or.inl ⟨next, hnext, Link.Grows.refl hands next⟩

/-- A connection stays under its number. -/
theorem Board.Moves.forth {request : Option Wire.Call}
    (hmoves : Board.Moves hands board after request) {number : ℕ} {link : Link}
    (hlink : board.line number = some link) :
    ∃ next, after.line number = some next ∧ Link.Grows hands link next := by
  rw [line] at hlink
  cases hmoves.links with
  | same hsame =>
      rw [line, hsame]
      exact ⟨link, hlink, Link.Grows.refl hands link⟩
  | @grown current grown past hbefore hgrows hafter =>
      rw [hbefore, line_cons] at hlink
      rw [line, hafter, line_cons]
      split_ifs at hlink ⊢
      · exact ⟨grown, rfl, Option.some.inj hlink ▸ hgrows⟩
      · exact ⟨link, hlink, Link.Grows.refl hands link⟩
  | opened hopened =>
      have hne : number ≠ board.links.length := by
        rintro rfl
        rw [List.getElem?_eq_none (by rw [List.length_reverse])] at hlink
        cases hlink
      rw [line, hopened, line_cons, if_neg hne]
      exact ⟨link, hlink, Link.Grows.refl hands link⟩

/-- Only the current connection has changed. -/
theorem Board.line_head {link next : Link} {past : List Link}
    (hbefore : board.links = link :: past) (hafter : after.links = next :: past) (number : ℕ) :
    after.line number = if number = past.length then some next else board.line number := by
  rw [line, hafter, line_cons, line, hbefore, line_cons]
  split_ifs <;> rfl

/-- A response that is written changes what the server has answered, and nothing else. -/
theorem line_respond {peer next : Peer} {resp : Resp} {link : Link} {past : List Link}
    (hlinks : peer.board.links = link :: past) (hstep : peer.respond resp = some next)
    (number : ℕ) :
    next.board.line number =
      if number = past.length then some { link with answered := link.answered ++ [resp] }
      else peer.board.line number := by
  obtain ⟨link', past', hlinks', hboard⟩ := Peer.respond_inv hstep
  obtain ⟨rfl, rfl⟩ : link = link' ∧ past = past' := List.cons.inj (hlinks.symm.trans hlinks')
  exact Board.line_head hlinks (by rw [hboard]) number

/-- A call with an outcome stands among the first frames of its connection. -/
theorem Link.Inv.frame {link : Link} (hinv : link.Inv) {entry : ℕ × Outcome}
    (hentry : entry ∈ link.outcomes) :
    ∃ index call, index < link.outcomes.length ∧ link.frames[index]? = some call ∧
      call.tx = entry.1 := by
  obtain ⟨index, hindex, rfl⟩ := List.getElem_of_mem hentry
  have htx : (link.frames.map Call.tx)[index]? = some (link.outcomes[index]).1 := by
    rw [hinv.lined, List.getElem?_append_left (by rwa [List.length_map]), List.getElem?_map,
      List.getElem?_eq_getElem hindex]
    rfl
  rw [List.getElem?_map, Option.map_eq_some_iff] at htx
  obtain ⟨call, hcall, hsame⟩ := htx
  exact ⟨index, call, hindex, hcall, hsame⟩

/-- A call has one place on the connections of its client. -/
theorem Board.Inv.place {hand : List Call} {unsent : Option Bytes} {idle : Prop}
    (hinv : board.Inv hand unsent idle) {number index number' index' : ℕ} {link link' : Link}
    {call call' : Call} (hline : board.line number = some link)
    (hcall : link.frames[index]? = some call) (hline' : board.line number' = some link')
    (hcall' : link'.frames[index']? = some call') (htx : call.tx = call'.tx) :
    number = number' ∧ index = index' := by
  have hnodup := hinv.nodup
  rw [List.map_append] at hnodup
  have hframes := hnodup.of_append_right
  rw [List.map_flatMap, List.nodup_flatMap] at hframes
  obtain ⟨hinner, houter⟩ := hframes
  have hat : (link.frames.map Call.tx)[index]? = some call.tx := by
    rw [List.getElem?_map, hcall]
    rfl
  have hat' : (link'.frames.map Call.tx)[index']? = some call.tx := by
    rw [List.getElem?_map, hcall', htx]
    rfl
  have hnumber : number = number' := by
    by_contra hne
    have hpairs := List.pairwise_iff_getElem.mp (List.pairwise_reverse.mpr
      (houter.imp fun hdisjoint => hdisjoint.symm))
    obtain ⟨hlt, hget⟩ := List.getElem?_eq_some_iff.mp hline
    obtain ⟨hlt', hget'⟩ := List.getElem?_eq_some_iff.mp hline'
    rcases lt_or_gt_of_ne hne with hless | hless
    · have hdisjoint := hpairs number number' hlt hlt' hless
      rw [hget, hget'] at hdisjoint
      exact hdisjoint (List.mem_of_getElem? hat) (List.mem_of_getElem? hat')
    · have hdisjoint := hpairs number' number hlt' hlt hless
      rw [hget, hget'] at hdisjoint
      exact hdisjoint (List.mem_of_getElem? hat') (List.mem_of_getElem? hat)
  subst hnumber
  rw [hline, Option.some.injEq] at hline'
  subst hline'
  exact ⟨rfl, (List.getElem?_inj (List.getElem?_eq_some_iff.mp hat).1
    (hinner link (line_mem hline))).mp (hat.trans hat'.symm)⟩

end InMemoryDb.Client
