import InMemoryDb.System.Wired

/-!
# What callers observe

A call of either client takes effect at one moment between its start and its answer,
as if there were one table and no server, no batches and no connections in between.
A call that ends with an error may have taken effect or not.
-/

namespace InMemoryDb

open Wire Client Stage1 Recover Stage2 Stage3 Linearization Sharing

/-- The table as callers see it. -/
def store : Object Db Wire.Call Resp where
  apply db call :=
    match call with
    | .get key => (db, Plain.found (db.lookup key))
    | .put key value => (db.insert key value, .ok)

/-! ## Calls on the wire -/

theorem keyOf_body {call : Wire.Call} (hsize : call.bodyLen ≤ maxPayload) :
    keyOf call.body = call.key ∧ valueOf call.body = call.value.getD [] := by
  have hkey : call.key.length < 2 ^ 32 := by
    rw [Wire.Call.bodyLen, maxPayload] at hsize
    norm_num
    omega
  have hsplit := Wire.Call.splitKv_body hkey
  rw [splitKv_ok (Wire.Call.wellFormed_body hkey), Except.ok.injEq, Prod.mk.injEq] at hsplit
  exact hsplit

/-- What the server does with the body of a call is what the caller asked for. -/
theorem table_apply {data : Payload} {call : Wire.Call} (hbytes : data.bytes = call.body)
    (db : Db) (conn : ℕ) :
    table.apply db (conn, data) =
      ((store.apply db call).1, conn, (store.apply db call).2) := by
  have hsize : call.bodyLen ≤ maxPayload := by
    rw [← Wire.Call.length_body, ← hbytes]
    exact data.bounded
  obtain ⟨hkey, hvalue⟩ := keyOf_body hsize
  have hop : data.op = call.op := by
    have hcode : data.opU8 = call.op.toCode := by
      simp only [Payload.opU8, hbytes]
      rfl
    rw [Payload.op, hcode]
    cases call <;> rfl
  cases call with
  | get key =>
      have hget : data.op = .get := hop
      have hname : keyOf data.bytes = key := hbytes ▸ hkey
      simp only [table, store, hget]
      rw [hname]
  | put key value =>
      have hput : data.op = .put := hop
      have hname : keyOf data.bytes = key := hbytes ▸ hkey
      have hnew : valueOf data.bytes = value := hbytes ▸ hvalue
      simp only [table, store, hput]
      rw [hname, hnew]

/-- So it is for one call after another. -/
theorem table_store {ops : List (ℕ × Payload)} {calls : List Wire.Call}
    (hcalls : List.Forall₂ (fun op call => op.2.bytes = call.body) ops calls) (db : Db) :
    (table.results db ops).map Prod.snd = store.results db calls ∧
      table.final db ops = store.final db calls := by
  induction hcalls generalizing db with
  | nil => exact ⟨rfl, rfl⟩
  | @cons op call ops calls hbytes _ ih =>
      obtain ⟨conn, data⟩ := op
      have happly := table_apply hbytes db conn
      obtain ⟨hresults, hfinal⟩ := ih (store.apply db call).1
      constructor
      · rw [Object.results, happly, List.map_cons, hresults]
        rfl
      · rw [Object.final, List.foldl_cons, happly]
        exact hfinal

namespace System

variable {serve : Pipeline → Pipeline.Act → Prop} {mode : Mode} {segs : SortedMap ℕ Bytes}
  {db : Db} {startLsn : ℕ} {sys after : System}

/-- The calls that have taken effect, in order. -/
def order (sys : System) : List (ℕ × Wire.Call) :=
  (sys.origins.take sys.pipe.computed.length).map fun origin =>
    (origin.id, origin.call.request)

theorem Wired.flow
    (hwired : sys.Wired serve (Pipeline.start mode (Files.ofSegs segs) db startLsn)) :
    sys.pipe.Flow :=
  (@Pipeline.reach_keeps _ _ (fun _ => True) _ _ _ _ trivial
    (fun _ _ _ _ _ _ _ => trivial) hwired.server).1

/-- Stage 2 has executed the calls whose responses it computed. -/
theorem Wired.executed
    (hwired : sys.Wired serve (Pipeline.start mode (Files.ofSegs segs) db startLsn)) :
    sys.pipe.computed.map Reply.resp = store.results db (sys.order.map Prod.snd) ∧
      sys.pipe.db = store.final db (sys.order.map Prod.snd) := by
  obtain ⟨hresults, hdb⟩ := Pipeline.executed_reach hwired.server
  have hcalls : List.Forall₂ (fun op call => op.2.bytes = call.body)
      ((sys.pipe.admitted.take sys.pipe.computed.length).map Request.call)
      (sys.order.map Prod.snd) := by
    rw [order, List.map_map, List.forall₂_map_left_iff, List.forall₂_map_right_iff]
    exact (List.forall₂_take _ hwired.carried).imp fun _ _ h => h.2
  obtain ⟨hsame, hfinal⟩ := table_store hcalls db
  constructor
  · rw [← hsame, ← hresults, List.map_map]
    rfl
  · rw [hdb, hfinal]

theorem Wired.order_length
    (hwired : sys.Wired serve (Pipeline.start mode (Files.ofSegs segs) db startLsn)) :
    sys.pipe.computed.length ≤ sys.origins.length := by
  rw [hwired.length_origins]
  exact hwired.flow.computed_le

/-! ## The history -/

/-- Guard: a client is handed a response on a connection whose responses left in the
order of its requests. -/
def InStep (sys : System) : Act → Prop
  | .peer client act => act.hands = true → ∀ link past,
      (sys.peers client).board.links = link :: past → link.reader.active = true →
        onConn (connOf client past.length) sys.pipe.chan <+:
          onConn (connOf client past.length) sys.pipe.computed
  | _ => True

/-- The history has every call and every answer, and the calls in the order stage 2
executed them explain it. -/
structure Accounted (db : Db) (sys : System) : Prop where
  traced : Traced store db sys.events sys.order
  distinct : (sys.origins.map Origin.id).Nodup
  called : ∀ client, ∀ call ∈ (sys.peers client).board.made,
    .call (Nat.pair client call.tx) call.request ∈ sys.events
  calls : ∀ id op, .call id op ∈ sys.events →
    ∃ client tx, id = Nat.pair client tx ∧ tx < (sys.peers client).board.made.length
  returns : ∀ id resp, .ret id resp ∈ sys.events → ∃ client number link tx,
    id = Nat.pair client tx ∧ sys.line client number = some link ∧ (tx, .ok resp) ∈ link.outcomes
  handed : ∀ client number link tx resp, sys.line client number = some link →
    (tx, .ok resp) ∈ link.outcomes → .ret (Nat.pair client tx) resp ∈ sys.events

/-- Connections stay with the outcomes of their calls; where nothing is handed over, no
call gets an answer. -/
structure Continues (hands : Bool) (sys after : System) : Prop where
  forth : ∀ client number link, sys.line client number = some link →
    ∃ next, after.line client number = some next ∧ link.outcomes <+: next.outcomes
  back : hands = false → ∀ client number next, after.line client number = some next →
    ∀ tx resp, (tx, .ok resp) ∈ next.outcomes →
      ∃ link, sys.line client number = some link ∧ (tx, .ok resp) ∈ link.outcomes

theorem continues_same (hands : Bool) (hpeers : after.peers = sys.peers) :
    Continues hands sys after := by
  have hline : ∀ client number, after.line client number = sys.line client number := by
    intro client number
    rw [line, line, hpeers]
  refine ⟨fun client number link hlink => ?_, fun _ client number next hnext tx resp hmem => ?_⟩
  · exact ⟨link, (hline client number).trans hlink, List.prefix_refl _⟩
  · exact ⟨next, (hline client number).symm.trans hnext, hmem⟩

theorem continues_peer {client : ℕ} {peer : Peer} {act : PeerAct}
    (events : List (Event Wire.Call Resp))
    (hmoves : Board.Moves act.hands (sys.peers client).board peer.board act.call?) :
    Continues act.hands sys
      { sys with peers := Function.update sys.peers client peer, events := events } := by
  refine ⟨fun other number link hlink => ?_, fun hhands other number next hnext tx resp hmem => ?_⟩
  · rw [line_update]
    split_ifs with hother
    · rw [hother] at hlink
      obtain ⟨next, hnext, hgrows⟩ := hmoves.forth hlink
      exact ⟨next, hnext, hgrows.outcomes⟩
    · exact ⟨link, hlink, List.prefix_refl _⟩
  · rw [line_update] at hnext
    split_ifs at hnext with hother
    · rw [hother]
      rcases hmoves.back hnext with ⟨link, hlink, hgrows⟩ | ⟨-, rfl⟩
      · exact ⟨link, hlink, hgrows.silent hhands _ hmem resp rfl⟩
      · cases hmem
    · exact ⟨next, hnext, hmem⟩

theorem continues_deliver {client : ℕ} {link : Link} {past : List Link} {resp : Resp} {peer : Peer}
    (hlinks : (sys.peers client).board.links = link :: past)
    (hstep : (sys.peers client).respond resp = some peer) :
    Continues false sys { sys with peers := Function.update sys.peers client peer } := by
  have hline : sys.line client past.length = some link := Board.line_past hlinks
  have hat := line_respond hlinks hstep
  refine ⟨fun other number found hfound => ?_, fun _ other number next hnext tx answer hmem => ?_⟩
  · rw [line_update, hat]
    split_ifs with hother hnumber
    · rw [hother, hnumber, hline] at hfound
      exact ⟨_, rfl, Option.some.inj hfound ▸ List.prefix_refl _⟩
    · exact ⟨found, hother ▸ hfound, List.prefix_refl _⟩
    · exact ⟨found, hfound, List.prefix_refl _⟩
  · rw [line_update, hat] at hnext
    split_ifs at hnext with hother hnumber
    · rw [← Option.some.inj hnext] at hmem
      rw [hother, hnumber]
      exact ⟨link, hline, hmem⟩
    · exact ⟨next, hother ▸ hnext, hmem⟩
    · exact ⟨next, hnext, hmem⟩

/-- Nothing a caller sees has happened. -/
theorem Accounted.quiet (haccounted : Accounted db sys) (hcontinues : Continues false sys after)
    (hmade : ∀ client, (after.peers client).board.made = (sys.peers client).board.made)
    (hevents : after.events = sys.events) (htraced : Traced store db sys.events after.order)
    (hdistinct : (after.origins.map Origin.id).Nodup) : Accounted db after := by
  refine ⟨hevents ▸ htraced, hdistinct, ?_, ?_, ?_, ?_⟩
  · intro client call hcall
    rw [hmade] at hcall
    exact hevents ▸ haccounted.called client call hcall
  · intro id op hcall
    rw [hevents] at hcall
    obtain ⟨client, tx, hid, hlt⟩ := haccounted.calls id op hcall
    exact ⟨client, tx, hid, by rwa [hmade]⟩
  · intro id resp hret
    rw [hevents] at hret
    obtain ⟨client, number, link, tx, hid, hlink, hmem⟩ := haccounted.returns id resp hret
    obtain ⟨next, hnext, hprefix⟩ := hcontinues.forth client number link hlink
    exact ⟨client, number, next, tx, hid, hnext, hprefix.subset hmem⟩
  · intro client number next tx resp hnext hmem
    obtain ⟨link, hlink, hold⟩ := hcontinues.back rfl client number next hnext tx resp hmem
    exact hevents ▸ haccounted.handed client number link tx resp hlink hold

theorem observe_quiet {peer : Peer} {act : PeerAct} (hcall : act.call? = none)
    (hhands : act.hands = false) (client : ℕ) : observe client peer act = [] := by
  rw [observe, hcall, hhands]
  rfl

theorem observe_call {peer : Peer} {act : PeerAct} {request : Wire.Call}
    (hcall : act.call? = some request) (client : ℕ) :
    observe client peer act = [.call (Nat.pair client peer.board.made.length) request] := by
  have hhands : act.hands = false := by
    by_contra hne
    rw [Peer.call_of_hands (Bool.eq_true_of_not_eq_false hne)] at hcall
    cases hcall
  rw [observe, hcall, hhands]
  rfl

theorem observe_hands {peer : Peer} {act : PeerAct} (hhands : act.hands = true) {link : Link}
    {past : List Link} {resp : Resp} {tx : ℕ} {rest : List ℕ}
    (hlinks : peer.board.links = link :: past) (hreader : link.reader = .matching resp)
    (hfifo : link.fifo = tx :: rest) (client : ℕ) :
    observe client peer act = [.ret (Nat.pair client tx) resp] := by
  have hanswer : peer.board.answer? = some (tx, resp) := by
    simp only [Board.answer?, hlinks, hreader, hfifo]
  rw [observe, Peer.call_of_hands hhands, hhands, hanswer]
  rfl

/-- The calls a client has made, after a call of some client. -/
theorem made_update {client : ℕ} {peer : Peer} {act : PeerAct} {request : Wire.Call}
    (hmoves : Board.Moves act.hands (sys.peers client).board peer.board (some request))
    (other : ℕ) :
    (Function.update sys.peers client peer other).board.made =
      (sys.peers other).board.made ++
        if other = client then [⟨request, (sys.peers client).board.made.length⟩] else [] := by
  by_cases hother : other = client
  · rw [hother, Function.update_self, if_pos rfl, hmoves.made]
    rfl
  · rw [Function.update_of_ne hother, if_neg hother, List.append_nil]

/-- A call is made. -/
theorem Accounted.call (haccounted : Accounted db sys) {client : ℕ} {peer : Peer} {act : PeerAct}
    {request : Wire.Call} (hcall : act.call? = some request)
    (hmoves : Board.Moves act.hands (sys.peers client).board peer.board act.call?) :
    Accounted db { sys with
      peers := Function.update sys.peers client peer
      events := sys.events ++ observe client (sys.peers client) act } := by
  have hcontinues := continues_peer (sys.events ++ observe client (sys.peers client) act) hmoves
  have hhands : act.hands = false := by
    by_contra hne
    rw [Peer.call_of_hands (Bool.eq_true_of_not_eq_false hne)] at hcall
    cases hcall
  rw [hhands] at hcontinues
  rw [hcall] at hmoves
  have hmade := made_update hmoves
  rw [observe_call hcall] at hcontinues ⊢
  refine ⟨?_, haccounted.distinct, ?_, ?_, ?_, ?_⟩
  · refine haccounted.traced.call request fun other hother => ?_
    obtain ⟨client', tx, hid, hlt⟩ := haccounted.calls _ other hother
    obtain ⟨rfl, htx⟩ := Nat.pair_eq_pair.mp hid
    exact absurd htx (ne_of_gt hlt)
  · intro other call hmem
    rw [hmade] at hmem
    rcases List.mem_append.mp hmem with hold | hnew
    · exact List.mem_append_left _ (haccounted.called other call hold)
    · split_ifs at hnew with hother
      · rw [List.mem_singleton.mp hnew, hother]
        exact List.mem_append_right _ (List.mem_singleton_self _)
      · cases hnew
  · intro id op hcall'
    rcases List.mem_append.mp hcall' with hold | hnew
    · obtain ⟨other, tx, hid, hlt⟩ := haccounted.calls id op hold
      refine ⟨other, tx, hid, ?_⟩
      rw [hmade, List.length_append]
      exact hlt.trans_le (Nat.le_add_right _ _)
    · injection List.mem_singleton.mp hnew with hid
      refine ⟨client, _, hid, ?_⟩
      rw [hmade, if_pos rfl, List.length_append]
      exact Nat.lt_succ_self _
  · intro id resp hret
    rcases List.mem_append.mp hret with hold | hnew
    · obtain ⟨other, number, link, tx, hid, hlink, hmem⟩ := haccounted.returns id resp hold
      obtain ⟨next, hnext, hprefix⟩ := hcontinues.forth other number link hlink
      exact ⟨other, number, next, tx, hid, hnext, hprefix.subset hmem⟩
    · cases List.mem_singleton.mp hnew
  · intro other number next tx resp hnext hmem
    obtain ⟨link, hlink, hold⟩ := hcontinues.back rfl other number next hnext tx resp hmem
    exact List.mem_append_left _ (haccounted.handed other number link tx resp hlink hold)

/-- A frame is admitted: a call has one frame, on one connection. -/
theorem Accounted.distinct_read (haccounted : Accounted db sys)
    (hwired : sys.Wired serve (Pipeline.start mode (Files.ofSegs segs) db startLsn))
    {client number : ℕ} {link : Link} {call : Client.Call}
    (hline : sys.line client number = some link)
    (hcall : link.frames[(sys.asked client number).length]? = some call) :
    ((sys.origins ++ [Origin.mk client number call]).map Origin.id).Nodup := by
  rw [List.map_append]
  refine List.nodup_append.mpr ⟨haccounted.distinct, List.nodup_singleton _, ?_⟩
  intro id hid last hlast heq
  obtain ⟨origin, horigin, rfl⟩ := List.mem_map.mp hid
  rw [List.mem_singleton.mp hlast] at heq
  obtain ⟨hclient, htx⟩ := Nat.pair_eq_pair.mp heq
  obtain ⟨known, hknown⟩ := hwired.known origin horigin
  rw [show origin.client = client from hclient] at hknown
  have hasked : origin.call ∈ sys.asked client origin.number := by
    refine List.mem_map_of_mem (List.mem_filter.mpr ⟨horigin, ?_⟩)
    rw [decide_eq_true_eq, Origin.conn, hclient]
  obtain ⟨index, hindex, hget⟩ := List.getElem_of_mem hasked
  have hframe := Sequence.getElem?_of_isPrefix (hwired.asked client origin.number known hknown)
    (List.getElem?_eq_some_iff.mpr ⟨hindex, hget⟩)
  obtain ⟨hand, unsent, idle, hinv⟩ := (hwired.peers client).held
  obtain ⟨hnumber, hsame⟩ := hinv.place hknown hframe hline hcall htx
  rw [hnumber] at hindex
  exact absurd hsame (ne_of_lt hindex)

/-- The response computed at a position, and where its request came from. -/
def Answers (sys : System) (reply : Reply) (origin : Origin) : Prop :=
  reply.conn = origin.conn ∧ ∃ position : ℕ, sys.pipe.computed[position]? = some reply ∧
    sys.origins[position]? = some origin

theorem Wired.answers_computed
    (hwired : sys.Wired serve (Pipeline.start mode (Files.ofSegs segs) db startLsn)) :
    List.Forall₂ sys.Answers sys.pipe.computed
      (sys.origins.take sys.pipe.computed.length) := by
  have hlength := hwired.order_length
  rw [List.forall₂_iff_get]
  refine ⟨(List.length_take_of_le hlength).symm, fun position hlt _ => ?_⟩
  have hreq : position < sys.pipe.admitted.length := by
    rw [← hwired.length_origins]
    exact hlt.trans_le hlength
  have hconn : (sys.pipe.computed[position]).conn = (sys.pipe.admitted[position]).reply := by
    have hkeys := congrArg (fun keys => keys[position]?) hwired.flow.computed
    simp only [List.getElem?_map, List.getElem?_take_of_lt hlt, List.getElem?_eq_getElem hlt,
      List.getElem?_eq_getElem hreq, Option.map_some, Option.some.injEq, Prod.mk.injEq] at hkeys
    exact hkeys.1
  have hcarries := (List.forall₂_iff_get.mp hwired.carried).2 position hreq (hlt.trans_le hlength)
  simp only [List.get_eq_getElem, List.getElem_take]
  exact ⟨hconn.trans hcarries.1, position, List.getElem?_eq_getElem hlt,
    List.getElem?_eq_getElem (hlt.trans_le hlength)⟩

/-- What is handed to a caller is the result of the call on the table. -/
theorem Wired.outcome
    (hwired : sys.Wired serve (Pipeline.start mode (Files.ofSegs segs) db startLsn))
    {client number index : ℕ} {link : Link} {call : Client.Call} {resp : Resp}
    (hline : sys.line client number = some link) (hframe : link.frames[index]? = some call)
    (hanswered : link.answered[index]? = some resp)
    (hinorder : onConn (connOf client number) sys.pipe.chan <+:
      onConn (connOf client number) sys.pipe.computed) :
    Linearization.Outcome store db sys.order (Nat.pair client call.tx) resp := by
  have htold := Sequence.getElem?_of_isPrefix (hwired.told client number link hline) hanswered
  rw [System.told, List.getElem?_map, Option.map_eq_some_iff] at htold
  obtain ⟨reply, hsent, rfl⟩ := htold
  have hcomputed := Sequence.getElem?_of_isPrefix hinorder hsent
  -- the request this is the response to, by its place among those of the connection
  have hfilter := @List.rel_filter _ _ sys.Answers
    (fun reply => decide (reply.conn = connOf client number))
    (fun origin => decide (origin.conn = connOf client number))
    (fun reply origin hanswers => by simp only [hanswers.1]) _ _ hwired.answers_computed
  obtain ⟨hlength, hpairs⟩ := List.forall₂_iff_get.mp hfilter
  obtain ⟨hlt, hget⟩ := List.getElem?_eq_some_iff.mp hcomputed
  have hlt' := hlength ▸ hlt
  obtain ⟨-, position, hposition, horigin⟩ := hpairs index hlt hlt'
  simp only [List.get_eq_getElem] at hposition horigin
  set origin := ((sys.origins.take sys.pipe.computed.length).filter
    fun origin => decide (origin.conn = connOf client number))[index] with hdef
  have hclient : origin.conn = connOf client number :=
    of_decide_eq_true (List.mem_filter.mp (List.getElem_mem hlt')).2
  have hcall : origin.call = call := by
    have hasked : (sys.asked client number)[index]? = some origin.call := by
      refine Sequence.getElem?_of_isPrefix 
        (((List.take_prefix sys.pipe.computed.length _).filter _).map _) ?_
      rw [List.getElem?_map, List.getElem?_eq_getElem hlt', Option.map_some]
    have hsame := Sequence.getElem?_of_isPrefix (hwired.asked client number link hline) hasked
    exact Option.some.inj (hsame.symm.trans hframe)
  have hwithin : position < sys.pipe.computed.length :=
    (List.getElem?_eq_some_iff.mp hposition).1
  have hid : origin.id = Nat.pair client call.tx := by
    rw [Origin.id, (connOf_inj.mp hclient).1, hcall]
  rw [← hid]
  refine @outcome_of_getElem _ _ _ store db _ position origin.id origin.call.request reply.resp
    ?_ ?_
  · rw [order, List.getElem?_map, List.getElem?_take_of_lt hwithin, horigin]
    rfl
  · rw [← hwired.executed.1, List.getElem?_map, hposition]
    exact congrArg some (congrArg Reply.resp hget)

/-- A caller gets an answer: its call was executed, with this result, and had no answer
before. -/
theorem Accounted.hand (haccounted : Accounted db sys)
    (hwired : sys.Wired serve (Pipeline.start mode (Files.ofSegs segs) db startLsn))
    {client : ℕ} {act : PeerAct} {peer : Peer} (hown : act.byServer = false)
    (hcalls : (sys.peers client).Calls act) (hstep : (sys.peers client).step act = some peer)
    (hhands : act.hands = true) (hinstep : InStep sys (.peer client act)) :
    Accounted db { sys with
      peers := Function.update sys.peers client peer
      events := sys.events ++ observe client (sys.peers client) act } := by
  obtain ⟨link, past, resp, tx, rest, hlinks, hreader, hfifo, hboard⟩ :=
    Peer.hands_inv hstep hhands
  rw [observe_hands hhands hlinks hreader hfifo]
  have hcontinues := continues_peer (sys.events ++ [.ret (Nat.pair client tx) resp])
    (Peer.moves hstep hown)
  have hmade : ∀ other, (Function.update sys.peers client peer other).board.made =
      (sys.peers other).board.made := by
    intro other
    by_cases hother : other = client
    · rw [hother, Function.update_self, hboard]
    · rw [Function.update_of_ne hother]
  have hline : sys.line client past.length = some link := Board.line_past hlinks
  set next : Link := { link.resolve (.ok resp) with reader := .extracting } with hnext
  have hhead := Board.line_head hlinks (show peer.board.links = next :: past by rw [hboard])
  have houtcomes : next.outcomes = link.outcomes ++ [(tx, .ok resp)] := by
    rw [hnext, Link.resolve, hfifo]
  obtain ⟨hand, unsent, idle, hinv⟩ := (hwired.peers client).held
  obtain ⟨hand', unsent', idle', hinv'⟩ := (Peer.inv_step (hwired.peers client) hcalls hstep).held
  have hnextInv : next.Inv := hinv'.links next (by rw [hboard]; exact List.mem_cons_self)
  obtain ⟨call, data, hframe, htx, hanswered, -, -⟩ := hnextInv.answer
    (show next.outcomes[link.outcomes.length]? = some (tx, .ok resp) by
      rw [houtcomes, List.getElem?_concat_length])
  have hsame : next.frames = link.frames ∧ next.answered = link.answered := by
    rw [hnext, Link.resolve, hfifo]
    exact ⟨rfl, rfl⟩
  rw [hsame.1] at hframe
  rw [hsame.2] at hanswered
  have houtcome := hwired.outcome hline hframe hanswered (hinstep hhands link past hlinks
    (by rw [hreader]; rfl))
  rw [htx] at houtcome
  -- the call has no answer yet: its place is behind those that have one
  have hfirst : Nat.pair client tx ∉ sys.events.filterMap Event.returns := by
    intro hmem
    obtain ⟨event, hevent, hreturns⟩ := List.mem_filterMap.mp hmem
    cases event with
    | call id op => cases hreturns
    | ret id result =>
        obtain rfl : id = Nat.pair client tx := Option.some.inj hreturns
        obtain ⟨client', number, found, tx', hid, hfound, hentry⟩ :=
          haccounted.returns _ result hevent
        obtain ⟨rfl, rfl⟩ := Nat.pair_eq_pair.mp hid
        obtain ⟨index, call', hindex, hframe', htx'⟩ := (hwired.link hfound).frame hentry
        obtain ⟨rfl, rfl⟩ := hinv.place hfound hframe' hline hframe (htx'.trans htx.symm)
        obtain rfl : found = link := Option.some.inj (hfound.symm.trans hline)
        exact lt_irrefl _ hindex
  refine ⟨haccounted.traced.ret houtcome hfirst, haccounted.distinct, ?_, ?_, ?_, ?_⟩
  · intro other call' hmem
    rw [hmade] at hmem
    exact List.mem_append_left _ (haccounted.called other call' hmem)
  · intro id op hcall
    rcases List.mem_append.mp hcall with hold | hnew
    · obtain ⟨other, tx', hid, hlt⟩ := haccounted.calls id op hold
      exact ⟨other, tx', hid, by rwa [hmade]⟩
    · cases List.mem_singleton.mp hnew
  · intro id result hret
    rcases List.mem_append.mp hret with hold | hnew
    · obtain ⟨other, number, found, tx', hid, hfound, hmem⟩ := haccounted.returns id result hold
      obtain ⟨later, hlater, hprefix⟩ := hcontinues.forth other number found hfound
      exact ⟨other, number, later, tx', hid, hlater, hprefix.subset hmem⟩
    · injection List.mem_singleton.mp hnew with hid hresult
      refine ⟨client, past.length, next, tx, hid, ?_, ?_⟩
      · rw [line_update, if_pos rfl, hhead, if_pos rfl]
      · rw [houtcomes, hresult]
        exact List.mem_append_right _ (List.mem_singleton_self _)
  · intro other number found tx' result hfound hmem
    rw [line_update, hhead] at hfound
    split_ifs at hfound with hother hnumber
    · rw [← Option.some.inj hfound, houtcomes] at hmem
      rw [hother]
      rcases List.mem_append.mp hmem with hold | hnew
      · exact List.mem_append_left _
          (haccounted.handed client past.length link tx' result hline hold)
      · injection List.mem_singleton.mp hnew with htx' hresult
        injection hresult with hresult
        rw [htx', hresult]
        exact List.mem_append_right _ (List.mem_singleton_self _)
    · exact List.mem_append_left _
        (haccounted.handed other number found tx' result (hother ▸ hfound) hmem)
    · exact List.mem_append_left _ (haccounted.handed other number found tx' result hfound hmem)

/-- Stage 2 executes some of the calls that were admitted. -/
theorem Accounted.served (haccounted : Accounted db sys)
    (hwired : sys.Wired serve (Pipeline.start mode (Files.ofSegs segs) db startLsn))
    {act : Pipeline.Act} {pipe : Pipeline} (hserve : serve sys.pipe act)
    (hact : ∀ conn data, act ≠ .accept conn data) (hstep : sys.pipe.step act = some pipe) :
    Accounted db { sys with pipe := pipe } := by
  have hafter := hwired.served hserve hact hstep
  obtain ⟨-, -, more, hmore⟩ := Pipeline.step_grows hstep hact
  have horder : order { sys with pipe := pipe } = sys.order ++
      ((sys.origins.drop sys.pipe.computed.length).take more.length).map fun origin =>
        (origin.id, origin.call.request) := by
    rw [order, order, ← hmore, List.length_append, List.take_add, List.map_append]
  refine haccounted.quiet (continues_same false rfl) (fun _ => rfl) rfl ?_ haccounted.distinct
  rw [horder]
  refine haccounted.traced.points ?_ ?_
  · intro entry hentry
    obtain ⟨origin, hmem, rfl⟩ := List.mem_map.mp hentry
    have horigin : origin ∈ sys.origins := List.mem_of_mem_drop (List.mem_of_mem_take hmem)
    obtain ⟨link, hlink⟩ := hwired.known origin horigin
    obtain ⟨hand, unsent, idle, hinv⟩ := (hwired.peers origin.client).held
    refine haccounted.called origin.client origin.call (hinv.custody.mem_iff.mp ?_)
    have hframe : origin.call ∈ link.frames :=
      (hwired.asked _ _ link hlink).subset (List.mem_map_of_mem (List.mem_filter.mpr
        ⟨horigin, decide_eq_true rfl⟩))
    have hplaced : origin.call ∈ (sys.peers origin.client).board.links.flatMap Link.frames :=
      List.mem_flatMap.mpr ⟨link, Board.line_mem hlink, hframe⟩
    simp [hplaced]
  · rw [← horder, order, List.map_map]
    exact haccounted.distinct.sublist ((List.take_sublist _ _).map _)

theorem Accounted.step {act : Act} (haccounted : Accounted db sys)
    (hwired : sys.Wired serve (Pipeline.start mode (Files.ofSegs segs) db startLsn))
    (hruns : Runs serve sys act) (hinstep : InStep sys act) (hstep : sys.step act = some after) :
    Accounted db after := by
  cases step_change hstep with
  | @peer client act peer hown hpeer =>
      have hmoves := Peer.moves hpeer hown
      cases hhands : act.hands with
      | true => exact haccounted.hand hwired hown hruns hpeer hhands hinstep
      | false =>
          cases hcall : act.call? with
          | some request => exact haccounted.call hcall hmoves
          | none =>
              have hcontinues :=
                continues_peer (sys.events ++ observe client (sys.peers client) act) hmoves
              rw [hhands] at hcontinues
              rw [observe_quiet hcall hhands, List.append_nil] at hcontinues ⊢
              refine haccounted.quiet hcontinues ?_ rfl haccounted.traced haccounted.distinct
              intro other
              change (Function.update sys.peers client peer other).board.made = _
              by_cases hother : other = client
              · rw [hother, Function.update_self, hmoves.made, hcall]
                exact List.append_nil _
              · rw [Function.update_of_ne hother]
  | @read client number link data hline hdata =>
      obtain ⟨call, hcall, -⟩ := hwired.next hline hdata
      have hcall' := hcall
      rw [hwired.length_asked] at hcall'
      have horigins : (sys.letIn client number link data).origins =
          sys.origins ++ [⟨client, number, call⟩] := by
        rw [letIn, hcall', Option.map_some, Option.toList_some]
      refine haccounted.quiet (continues_same false rfl) (fun _ => rfl) rfl ?_ ?_
      · have horder : (sys.letIn client number link data).order = sys.order := by
          rw [order, horigins, order]
          exact congrArg _ (List.take_append_of_le_length hwired.order_length)
        rw [horder]
        exact haccounted.traced
      · rw [horigins]
        exact haccounted.distinct_read hwired hline hcall
  | @deliver client link past reply peer hlinks hreply hpeer =>
      refine haccounted.quiet (continues_deliver hlinks hpeer) ?_ rfl haccounted.traced
        haccounted.distinct
      intro other
      change (Function.update sys.peers client peer other).board.made = _
      by_cases hother : other = client
      · obtain ⟨_, _, _, hboard⟩ := Peer.respond_inv hpeer
        rw [hother, Function.update_self, hboard]
      · rw [Function.update_of_ne hother]
  | server hact hpipe => exact haccounted.served hwired hruns hact hpipe

theorem accounted_start (db : Db) (mode : Mode) (files : Files) (startLsn : ℕ)
    (kinds : ℕ → Kind) :
    Accounted db (start (Pipeline.start mode files db startLsn) kinds) := by
  have hblank : ∀ kind, (Peer.start kind).board.made = [] ∧
      ∀ link ∈ (Peer.start kind).board.links, link = Link.new := by
    intro kind
    cases kind with
    | blocking => exact ⟨rfl, fun _ h => by cases h⟩
    | tasks => exact ⟨rfl, fun _ h => List.mem_singleton.mp h⟩
  refine ⟨.nil, List.nodup_nil, ?_, ?_, ?_, ?_⟩
  · intro client call hcall
    rw [show (start (Pipeline.start mode files db startLsn) kinds).peers client =
      Peer.start (kinds client) from rfl, (hblank (kinds client)).1] at hcall
    cases hcall
  · exact fun _ _ h => by cases h
  · exact fun _ _ h => by cases h
  · intro client number link tx resp hline hmem
    rw [(hblank (kinds client)).2 link (Board.line_mem hline)] at hmem
    cases hmem

/-- What holds of every run in which the clients are handed responses in step. -/
theorem accounted_reach (hserve : ∀ pipe conn data, serve pipe (.accept conn data))
    {kinds : ℕ → Kind}
    (hreach : Machine.Reach step (fun sys act => Runs serve sys act ∧ InStep sys act)
      (start (Pipeline.start mode (Files.ofSegs segs) db startLsn) kinds) sys) :
    sys.Wired serve (Pipeline.start mode (Files.ofSegs segs) db startLsn) ∧
      Accounted db sys := by
  induction hreach with
  | start =>
      exact ⟨wired_start serve kinds rfl,
        accounted_start db mode (Files.ofSegs segs) startLsn kinds⟩
  | next _ hguard hstep ih =>
      exact ⟨ih.1.step hserve hguard.1 hstep, ih.2.step ih.1 hguard.1 hguard.2 hstep⟩

/-- The history is that of a table which executes one call at a time: it has every call
and every answer, and the calls that took effect stand in an order that gives these
answers, agrees with real time, and leads to the server's table. -/
structure Observed (db : Db) (sys : System) : Prop where
  called : ∀ client, ∀ call ∈ (sys.peers client).board.made,
    .call (Nat.pair client call.tx) call.request ∈ sys.events
  answered : ∀ client tx resp, (tx, .ok resp) ∈ (sys.peers client).board.outcomes →
    .ret (Nat.pair client tx) resp ∈ sys.events
  linearizes : ∃ order, Linearizes store db sys.events order ∧
    sys.pipe.db = store.final db (order.map Prod.snd)

theorem Accounted.observed (haccounted : Accounted db sys)
    (hwired : sys.Wired serve (Pipeline.start mode (Files.ofSegs segs) db startLsn)) :
    Observed db sys := by
  refine ⟨haccounted.called, ?_, sys.order, haccounted.traced.linearizes, hwired.executed.2⟩
  intro client tx resp hmem
  rcases List.mem_append.mp hmem with hrefused | hlinked
  · obtain ⟨call, -, hcall⟩ := List.mem_map.mp hrefused
    cases hcall
  · obtain ⟨link, hlink, hentry⟩ := List.mem_flatMap.mp hlinked
    obtain ⟨number, hnumber⟩ := List.mem_iff_getElem?.mp (List.mem_reverse.mpr hlink)
    exact haccounted.handed client number link tx resp hnumber hentry

/-- Any number of clients of both kinds, with any callers, reconnects and failures, and
the server in any mode: in every run in which no response overtakes another on its
connection, the callers see one table. -/
theorem clients_linearizable {kinds : ℕ → Kind}
    (hreach : Machine.Reach step (Runs Pipeline.InOrder)
      (start (Pipeline.start mode (Files.ofSegs segs) db startLsn) kinds) sys) :
    Observed db sys := by
  have hinstep : ∀ sys act,
      Wired Pipeline.InOrder (Pipeline.start mode (Files.ofSegs segs) db startLsn) sys →
        Runs Pipeline.InOrder sys act → Runs Pipeline.InOrder sys act ∧ InStep sys act := by
    intro sys act hwired hruns
    refine ⟨hruns, ?_⟩
    cases act with
    | peer client act =>
        intro _ link past _ _
        obtain ⟨-, hqueueing⟩ := Pipeline.reach_keeps
          (Pipeline.queueing_start mode (Files.ofSegs segs) db startLsn)
          (fun _ _ _ => Pipeline.queueing_change) hwired.server
        refine List.IsPrefix.trans ?_ (hqueueing.lined.fifo (connOf client past.length))
        exact (List.prefix_append _ _).filter _
    | _ => trivial
  obtain ⟨-, hstrong⟩ := hreach.strengthen (wired_start Pipeline.InOrder kinds rfl)
    (fun _ _ _ hwired hruns hstep => hwired.step (fun _ _ _ => trivial) hruns hstep) hinstep
  obtain ⟨hwired, haccounted⟩ := accounted_reach (fun _ _ _ => trivial) hstrong
  exact haccounted.observed hwired

/-- A blocking client puts a value; once it has its answer, a client on tasks asks for
it. -/
theorem clients_linearizable_two :
    ∃ sys, Machine.Reach step (Runs Pipeline.InOrder)
        (start (Pipeline.start .async (Files.ofSegs SortedMap.empty) Db.new 1)
          fun client => if client = 0 then .blocking else .tasks) sys ∧
      sys.events = [.call (Nat.pair 0 0) (.put [65] [66]), .ret (Nat.pair 0 0) .ok,
        .call (Nat.pair 1 0) (.get [65]), .ret (Nat.pair 1 0) (.value [66])] ∧
      Observed Db.new sys := by
  obtain ⟨sys, hreach, hdone⟩ := @Machine.exists_reach _ _ step (Runs Pipeline.InOrder)
    (start (Pipeline.start .async (Files.ofSegs SortedMap.empty) Db.new 1)
      fun client => if client = 0 then .blocking else .tasks) _
    [.peer 0 (.blocking .clone), .peer 0 (.blocking (.call (.put [65] [66]))),
      .peer 0 (.blocking .recv), .peer 0 (.blocking (.load false)), .peer 0 (.blocking .tryRecv),
      .peer 0 (.blocking .encode), .peer 0 (.blocking .encode), .peer 0 (.blocking (.write 11)),
      .peer 0 (.blocking .flush), .read 0 0, .server (.take 1), .server .dispatch,
      .server (.wal .poll), .server (.wal .plan), .server (.wal .reap), .server (.wal (.start 0)),
      .server (.wal (.complete 0 27)), .server (.wal .poll), .server (.wal .plan),
      .server (.wal .reap), .server (.wal .send), .server (.wal .send), .deliver 0,
      .peer 0 (.blocking (.link (.read [1, 0, 0, 0, 1]))), .peer 0 (.blocking (.link .extract)),
      .peer 0 (.blocking (.link .recv)), .peer 1 (.tasks (.call (.get [65]))),
      .peer 1 (.tasks .recv), .peer 1 (.tasks .tryRecv), .peer 1 (.tasks (.write 10)),
      .peer 1 (.tasks .flush), .read 1 0, .server (.take 1), .server .reply, .deliver 1,
      .peer 1 (.tasks (.link (.read [2, 0, 0, 0, 0, 66]))), .peer 1 (.tasks (.link .extract)),
      .peer 1 (.tasks (.link .recv))]
    (fun sys => sys.events = [.call (Nat.pair 0 0) (.put [65] [66]), .ret (Nat.pair 0 0) .ok,
      .call (Nat.pair 1 0) (.get [65]), .ret (Nat.pair 1 0) (.value [66])])
    (by decide +kernel)
  exact ⟨sys, hreach, of_decide_eq_true hdone, clients_linearizable hreach⟩

end System

end InMemoryDb
