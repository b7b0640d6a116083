import InMemoryDb.Client.Peer
import InMemoryDb.Server.Linearizable
import InMemoryDb.Server.ReplyOrder

/-!
# Clients and server

Any number of clients of both kinds, their connections, and the server.  The server
reads the frames a client has put on a connection one after another, whenever their
bytes have come; it writes the responses of a connection in the order they were sent
to it.  Neither side numbers requests.
-/

namespace InMemoryDb

open Wire Client Stage1 Linearization

/-- Where an admitted request came from. -/
structure Origin where
  client : ℕ
  number : ℕ
  call : Client.Call
  deriving DecidableEq

/-- What the server knows a connection by. -/
def connOf (client number : ℕ) : ℕ := Nat.pair client number

namespace Origin

def conn (origin : Origin) : ℕ := connOf origin.client origin.number

/-- What an observer knows a call by. -/
def id (origin : Origin) : ℕ := Nat.pair origin.client origin.call.tx

end Origin

/-- The whole system; the last two fields are history, and no step reads them. -/
structure System where
  pipe : Pipeline
  peers : ℕ → Peer
  /-- Where the admitted requests came from. -/
  origins : List Origin
  /-- What the callers have seen. -/
  events : List (Event Wire.Call Resp)

namespace System

def start (pipe : Pipeline) (kinds : ℕ → Kind) : System :=
  ⟨pipe, fun client => Peer.start (kinds client), [], []⟩

/-- A connection of a client, by the number of connections before it. -/
def line (sys : System) (client number : ℕ) : Option Link :=
  (sys.peers client).board.line number

/-- What a caller sees of a client's step. -/
def observe (client : ℕ) (peer : Peer) (act : PeerAct) : List (Event Wire.Call Resp) :=
  (act.call?.map fun request => .call (Nat.pair client peer.board.made.length) request).toList ++
    if act.hands then
      (peer.board.answer?.map fun answer => .ret (Nat.pair client answer.1) answer.2).toList
    else []

inductive Act where
  | peer (client : ℕ) (act : PeerAct)
  /-- The reader of a connection admits the next frame. -/
  | read (client number : ℕ)
  /-- The writer of a client's current connection writes the next response. -/
  | deliver (client : ℕ)
  | server (act : Pipeline.Act)
  deriving DecidableEq

/-- The reader has taken the frames of the requests it has admitted off the stream. -/
def nextFrame (sys : System) (client number : ℕ) (link : Link) : Option Payload :=
  (handleConn link.sent)[(sys.pipe.requestsOf (connOf client number)).length]?

/-- The response behind those that are on the connection. -/
def nextReply (sys : System) (client number : ℕ) (link : Link) : Option Reply :=
  (onConn (connOf client number) sys.pipe.chan)[link.answered.length]?

/-- A frame comes in. -/
def letIn (sys : System) (client number : ℕ) (link : Link) (data : Payload) : System :=
  { sys with
    pipe := sys.pipe.accept (connOf client number) data
    origins := sys.origins ++
      (link.frames[(sys.pipe.requestsOf (connOf client number)).length]?.map
        (Origin.mk client number)).toList }

def step (sys : System) : Act → Option System
  | .peer client act =>
      if act.byServer then none
      else ((sys.peers client).step act).map fun peer =>
        { sys with
          peers := Function.update sys.peers client peer
          events := sys.events ++ observe client (sys.peers client) act }
  | .read client number =>
      (sys.line client number).bind fun link =>
        (sys.nextFrame client number link).map (sys.letIn client number link)
  | .deliver client =>
      match (sys.peers client).board.links with
      | [] => none
      | link :: past =>
          (sys.nextReply client past.length link).bind fun reply =>
            ((sys.peers client).respond reply.resp).map fun peer =>
              { sys with peers := Function.update sys.peers client peer }
  | .server (.accept _ _) => none
  | .server act => (sys.pipe.step act).map fun pipe => { sys with pipe := pipe }

/-- Guard of runs: no body is too long, and the server's steps meet a guard of their
own. -/
def Runs (serve : Pipeline → Pipeline.Act → Prop) (sys : System) : Act → Prop
  | .peer client act => (sys.peers client).Calls act
  | .server act => serve sys.pipe act
  | _ => True

instance (serve : Pipeline → Pipeline.Act → Prop) [∀ pipe act, Decidable (serve pipe act)]
    (sys : System) : (act : Act) → Decidable (Runs serve sys act)
  | .peer client act => inferInstanceAs (Decidable ((sys.peers client).Calls act))
  | .read _ _ => isTrue trivial
  | .deliver _ => isTrue trivial
  | .server act => inferInstanceAs (Decidable (serve sys.pipe act))

end System

end InMemoryDb
