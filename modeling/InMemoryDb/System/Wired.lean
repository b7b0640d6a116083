import Mathlib.Data.List.Forall2
import InMemoryDb.Lib.Sequence
import InMemoryDb.System.Network

/-!
# Requests and responses on their connections

The requests admitted from a connection are the calls whose frames the client put on
it, in that order; the responses on a connection are the first ones sent to it.  This
is so in every run, whatever order the server answers in.
-/

namespace InMemoryDb

open Wire Client Stage1 Linearization

namespace Pipeline

variable {pipe after : Pipeline}

/-- Only a reader admits requests; responses that are computed or sent stay so. -/
theorem step_grows {act : Act} (hstep : pipe.step act = some after)
    (hact : ∀ conn data, act ≠ .accept conn data) :
    after.admitted = pipe.admitted ∧ pipe.chan <+: after.chan ∧
      pipe.computed <+: after.computed := by
  cases step_change hstep with
  | accept conn data => exact absurd rfl (hact conn data)
  | take => exact ⟨rfl, List.prefix_refl _, List.prefix_append _ _⟩
  | reply => exact ⟨rfl, List.prefix_append _ _, List.prefix_refl _⟩
  | toLog => exact ⟨rfl, List.prefix_refl _, List.prefix_refl _⟩
  | toSlot => exact ⟨rfl, List.prefix_refl _, List.prefix_refl _⟩
  | rotate => exact ⟨rfl, List.prefix_refl _, List.prefix_refl _⟩
  | retire => exact ⟨rfl, List.prefix_refl _, List.prefix_refl _⟩
  | walReply => exact ⟨rfl, List.prefix_append _ _, List.prefix_refl _⟩
  | walRecycle => exact ⟨rfl, List.prefix_refl _, List.prefix_refl _⟩
  | wal => exact ⟨rfl, List.prefix_refl _, List.prefix_refl _⟩

end Pipeline

theorem connOf_inj {client number client' number' : ℕ} :
    connOf client number = connOf client' number' ↔ client = client' ∧ number = number' :=
  Nat.pair_eq_pair

namespace System

/-- The calls whose frames the server has admitted from a connection. -/
def asked (sys : System) (client number : ℕ) : List Client.Call :=
  (sys.origins.filter fun origin => origin.conn = connOf client number).map Origin.call

/-- The responses sent to a connection. -/
def told (sys : System) (client number : ℕ) : List Resp :=
  (onConn (connOf client number) sys.pipe.chan).map Reply.resp

/-- A request carries the body of the call it came from. -/
def Carries (req : Request) (origin : Origin) : Prop :=
  req.reply = origin.conn ∧ req.data.bytes = origin.call.request.body

structure Wired (serve : Pipeline → Pipeline.Act → Prop) (first : Pipeline) (sys : System) :
    Prop where
  server : Machine.Reach Pipeline.step serve first sys.pipe
  peers : ∀ client, (sys.peers client).Inv
  carried : List.Forall₂ Carries sys.pipe.admitted sys.origins
  known : ∀ origin ∈ sys.origins, ∃ link, sys.line origin.client origin.number = some link
  asked : ∀ client number link, sys.line client number = some link →
    sys.asked client number <+: link.frames
  told : ∀ client number link, sys.line client number = some link →
    link.answered <+: sys.told client number

variable {serve : Pipeline → Pipeline.Act → Prop} {first : Pipeline} {sys after : System}

theorem Wired.length_origins (hwired : sys.Wired serve first) :
    sys.origins.length = sys.pipe.admitted.length := hwired.carried.length_eq.symm

theorem Wired.link (hwired : sys.Wired serve first) {client number : ℕ} {link : Link}
    (hline : sys.line client number = some link) : link.Inv := by
  obtain ⟨hand, unsent, idle, hinv⟩ := (hwired.peers client).held
  exact hinv.links link (Board.line_mem hline)

/-- As many requests as calls, on each connection. -/
theorem Wired.length_asked (hwired : sys.Wired serve first) (client number : ℕ) :
    (sys.asked client number).length =
      (sys.pipe.requestsOf (connOf client number)).length := by
  have hfilter := @List.rel_filter _ _ Carries
    (fun req => decide (req.reply = connOf client number))
    (fun origin => decide (origin.conn = connOf client number))
    (fun req origin hcarries => by simp [hcarries.1]) _ _ hwired.carried
  rw [System.asked, List.length_map, Pipeline.requestsOf, hfilter.length_eq]

/-- Nothing has been admitted from a connection that was not opened. -/
theorem Wired.asked_nil (hwired : sys.Wired serve first) {client number : ℕ}
    (hline : sys.line client number = none) : sys.asked client number = [] := by
  rw [System.asked, List.map_eq_nil_iff, List.filter_eq_nil_iff]
  intro origin horigin hconn
  obtain ⟨hclient, hnumber⟩ := connOf_inj.mp (of_decide_eq_true hconn)
  obtain ⟨link, hlink⟩ := hwired.known origin horigin
  rw [hclient, hnumber, hline] at hlink
  cases hlink

/-- The frame a reader admits is the one of the next call on its connection. -/
theorem Wired.next (hwired : sys.Wired serve first) {client number : ℕ} {link : Link}
    {data : Payload} (hline : sys.line client number = some link)
    (hdata : sys.nextFrame client number link = some data) :
    ∃ call, link.frames[(sys.asked client number).length]? = some call ∧
      data.bytes = call.request.body := by
  have hinv := hwired.link hline
  rw [nextFrame, ← hwired.length_asked] at hdata
  obtain ⟨request, data', hrequest, hdata', hbytes⟩ := handleConn_getElem hinv.requests_sized
    hinv.written (List.getElem?_eq_some_iff.mp hdata).1
  rw [hdata, Option.some.injEq] at hdata'
  rw [List.getElem?_map, Option.map_eq_some_iff] at hrequest
  obtain ⟨call, hcall, rfl⟩ := hrequest
  exact ⟨call, hcall, hdata' ▸ hbytes⟩

/-! ## Steps -/

theorem line_update (client : ℕ) (peer : Peer) (events : List (Event Wire.Call Resp))
    (other number : ℕ) :
    ({ sys with peers := Function.update sys.peers client peer, events := events } :
        System).line other number =
      if other = client then peer.board.line number else sys.line other number := by
  simp only [line]
  split_ifs with hother
  · rw [hother, Function.update_self]
  · rw [Function.update_of_ne hother]

/-- What a step changes. -/
inductive Change (sys : System) : Act → System → Prop
  | peer {client : ℕ} {act : PeerAct} {peer : Peer} (hown : act.byServer = false)
      (hstep : (sys.peers client).step act = some peer) :
      Change sys (.peer client act)
        { sys with
          peers := Function.update sys.peers client peer
          events := sys.events ++ observe client (sys.peers client) act }
  | read {client number : ℕ} {link : Link} {data : Payload}
      (hline : sys.line client number = some link)
      (hdata : sys.nextFrame client number link = some data) :
      Change sys (.read client number) (sys.letIn client number link data)
  | deliver {client : ℕ} {link : Link} {past : List Link} {reply : Reply} {peer : Peer}
      (hlinks : (sys.peers client).board.links = link :: past)
      (hreply : sys.nextReply client past.length link = some reply)
      (hstep : (sys.peers client).respond reply.resp = some peer) :
      Change sys (.deliver client)
        { sys with peers := Function.update sys.peers client peer }
  | server {act : Pipeline.Act} {pipe : Pipeline}
      (hact : ∀ conn data, act ≠ .accept conn data) (hstep : sys.pipe.step act = some pipe) :
      Change sys (.server act) { sys with pipe := pipe }

theorem step_change {act : Act} (hstep : sys.step act = some after) : Change sys act after := by
  cases act with
  | peer client act =>
      simp only [step] at hstep
      split_ifs at hstep with hown
      obtain ⟨peer, hpeer, rfl⟩ := Option.map_eq_some_iff.mp hstep
      exact .peer (Bool.eq_false_of_not_eq_true hown) hpeer
  | read client number =>
      obtain ⟨link, hline, hletIn⟩ := Option.bind_eq_some_iff.mp hstep
      obtain ⟨data, hdata, rfl⟩ := Option.map_eq_some_iff.mp hletIn
      exact .read hline hdata
  | deliver client =>
      simp only [step] at hstep
      split at hstep
      next => cases hstep
      next link past hlinks =>
        obtain ⟨reply, hreply, hwrite⟩ := Option.bind_eq_some_iff.mp hstep
        obtain ⟨peer, hpeer, rfl⟩ := Option.map_eq_some_iff.mp hwrite
        exact .deliver hlinks hreply hpeer
  | server act =>
      cases act with
      | accept conn data => cases hstep
      | _ =>
          simp only [step] at hstep
          obtain ⟨pipe, hpipe, rfl⟩ := Option.map_eq_some_iff.mp hstep
          exact .server (fun conn data h => by cases h) hpipe

theorem Wired.peer (hwired : sys.Wired serve first) {client : ℕ} {act : PeerAct} {peer : Peer}
    (hown : act.byServer = false) (hcalls : (sys.peers client).Calls act)
    (hstep : (sys.peers client).step act = some peer) :
    Wired serve first { sys with
      peers := Function.update sys.peers client peer
      events := sys.events ++ observe client (sys.peers client) act } := by
  have hmoves := Peer.moves hstep hown
  refine ⟨hwired.server, ?_, hwired.carried, ?_, ?_, ?_⟩
  · intro other
    change (Function.update sys.peers client peer other).Inv
    by_cases hother : other = client
    · rw [hother, Function.update_self]
      exact Peer.inv_step (hwired.peers client) hcalls hstep
    · rw [Function.update_of_ne hother]
      exact hwired.peers other
  · intro origin horigin
    obtain ⟨link, hlink⟩ := hwired.known origin horigin
    rw [line_update]
    split_ifs with hother
    · rw [hother] at hlink
      obtain ⟨next, hnext, -⟩ := hmoves.forth hlink
      exact ⟨next, hnext⟩
    · exact ⟨link, hlink⟩
  · intro other number next hnext
    rw [line_update] at hnext
    split_ifs at hnext with hother
    · rw [hother]
      rcases hmoves.back hnext with ⟨link, hlink, hgrows⟩ | ⟨hnone, rfl⟩
      · exact (hwired.asked client number link hlink).trans hgrows.frames
      · change sys.asked client number <+: _
        rw [hwired.asked_nil hnone]
        exact List.nil_prefix
    · exact hwired.asked other number next hnext
  · intro other number next hnext
    rw [line_update] at hnext
    split_ifs at hnext with hother
    · rw [hother]
      rcases hmoves.back hnext with ⟨link, hlink, hgrows⟩ | ⟨-, rfl⟩
      · rw [hgrows.answered]
        exact hwired.told client number link hlink
      · exact List.nil_prefix
    · exact hwired.told other number next hnext

/-- The calls admitted from a connection, when one more is. -/
theorem asked_letIn {client number : ℕ} {link : Link} {data : Payload} {call : Client.Call}
    (hcall : link.frames[(sys.pipe.requestsOf (connOf client number)).length]? = some call)
    (other number' : ℕ) :
    (sys.letIn client number link data).asked other number' =
      sys.asked other number' ++
        if connOf client number = connOf other number' then [call] else [] := by
  rw [System.asked, letIn, hcall, Option.map_some, Option.toList_some, List.filter_append,
    List.map_append]
  refine congrArg _ ?_
  split_ifs with hconn
  · simp [Origin.conn, hconn]
  · simp [Origin.conn, hconn]

theorem Wired.read (hwired : sys.Wired serve first)
    (hserve : ∀ pipe conn data, serve pipe (.accept conn data)) {client number : ℕ} {link : Link}
    {data : Payload} (hline : sys.line client number = some link)
    (hdata : sys.nextFrame client number link = some data) :
    Wired serve first (sys.letIn client number link data) := by
  obtain ⟨call, hcall, hbytes⟩ := hwired.next hline hdata
  have hcall' := hcall
  rw [hwired.length_asked] at hcall'
  refine ⟨hwired.server.next (hserve _ _ _) rfl, hwired.peers, ?_, ?_, ?_, hwired.told⟩
  · rw [letIn, hcall', Option.map_some, Option.toList_some]
    exact List.rel_append hwired.carried (.cons ⟨rfl, hbytes⟩ .nil)
  · intro origin horigin
    rw [letIn, hcall', Option.map_some, Option.toList_some] at horigin
    rcases List.mem_append.mp horigin with hold | hnew
    · exact hwired.known origin hold
    · rw [List.mem_singleton.mp hnew]
      exact ⟨link, hline⟩
  · intro other number' link' hline'
    rw [asked_letIn hcall']
    split_ifs with hconn
    · obtain ⟨rfl, rfl⟩ := connOf_inj.mp hconn
      obtain rfl : link = link' := Option.some.inj (hline.symm.trans hline')
      exact Sequence.concat_isPrefix (hwired.asked client number link hline) hcall
    · rw [List.append_nil]
      exact hwired.asked other number' link' hline'

theorem Wired.deliver (hwired : sys.Wired serve first) {client : ℕ} {link : Link}
    {past : List Link} {reply : Reply} {peer : Peer}
    (hlinks : (sys.peers client).board.links = link :: past)
    (hreply : sys.nextReply client past.length link = some reply)
    (hstep : (sys.peers client).respond reply.resp = some peer) :
    Wired serve first { sys with peers := Function.update sys.peers client peer } := by
  have hline : sys.line client past.length = some link := Board.line_past hlinks
  have hat := line_respond hlinks hstep
  refine ⟨hwired.server, ?_, hwired.carried, ?_, ?_, ?_⟩
  · intro other
    change (Function.update sys.peers client peer other).Inv
    by_cases hother : other = client
    · rw [hother, Function.update_self]
      exact Peer.inv_respond (hwired.peers client) hstep
    · rw [Function.update_of_ne hother]
      exact hwired.peers other
  · intro origin horigin
    obtain ⟨known, hknown⟩ := hwired.known origin horigin
    rw [line_update, hat]
    split_ifs with hother
    · exact ⟨_, rfl⟩
    · exact ⟨known, hother ▸ hknown⟩
    · exact ⟨known, hknown⟩
  · intro other number next hnext
    rw [line_update, hat] at hnext
    split_ifs at hnext with hother hnumber
    · rw [hother, hnumber, ← Option.some.inj hnext]
      exact hwired.asked client past.length link hline
    · exact hother ▸ hwired.asked client number next hnext
    · exact hwired.asked other number next hnext
  · intro other number next hnext
    rw [line_update, hat] at hnext
    split_ifs at hnext with hother hnumber
    · rw [hother, hnumber, ← Option.some.inj hnext]
      refine Sequence.concat_isPrefix (hwired.told client past.length link hline) ?_
      rw [System.told, List.getElem?_map, ← nextReply, hreply]
      rfl
    · exact hother ▸ hwired.told client number next hnext
    · exact hwired.told other number next hnext

theorem Wired.served (hwired : sys.Wired serve first) {act : Pipeline.Act} {pipe : Pipeline}
    (hserve : serve sys.pipe act) (hact : ∀ conn data, act ≠ .accept conn data)
    (hstep : sys.pipe.step act = some pipe) :
    Wired serve first { sys with pipe := pipe } := by
  obtain ⟨hadmitted, hchan, -⟩ := Pipeline.step_grows hstep hact
  refine ⟨hwired.server.next hserve hstep, hwired.peers, ?_, hwired.known, hwired.asked, ?_⟩
  · exact hadmitted.symm ▸ hwired.carried
  · intro client number link hline
    exact (hwired.told client number link hline).trans ((hchan.filter _).map _)

theorem Wired.step (hserve : ∀ pipe conn data, serve pipe (.accept conn data)) {act : Act}
    (hwired : sys.Wired serve first) (hruns : Runs serve sys act)
    (hstep : sys.step act = some after) : after.Wired serve first := by
  cases step_change hstep with
  | peer hown hpeer => exact hwired.peer hown hruns hpeer
  | read hline hdata => exact hwired.read hserve hline hdata
  | deliver hlinks hreply hpeer => exact hwired.deliver hlinks hreply hpeer
  | server hact hpipe => exact hwired.served hruns hact hpipe

theorem wired_start (serve : Pipeline → Pipeline.Act → Prop) (kinds : ℕ → Kind)
    (hadmitted : first.admitted = []) : (start first kinds).Wired serve first := by
  have hblank : ∀ client number link, (start first kinds).line client number = some link →
      link = Link.new := by
    intro client number link hline
    have hmem := Board.line_mem hline
    simp only [start] at hmem
    generalize kinds client = kind at hmem
    cases kind with
    | blocking => cases hmem
    | tasks => exact List.mem_singleton.mp hmem
  refine ⟨.start, fun client => Peer.inv_start _, ?_, ?_, ?_, ?_⟩
  · change List.Forall₂ Carries first.admitted []
    rw [hadmitted]
    exact .nil
  · exact fun _ h => by cases h
  · exact fun _ _ _ _ => List.nil_prefix
  · intro client number link hline
    rw [hblank client number link hline]
    exact List.nil_prefix

end System

end InMemoryDb
