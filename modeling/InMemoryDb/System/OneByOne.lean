import InMemoryDb.System.EndToEnd

/-!
# One call at a time

A client that waits for the outcome of each call before it makes the next one has at
most one request unanswered on a connection it still reads from.  There is nothing to
overtake then, and such clients see one table whatever the server does.
-/

namespace InMemoryDb

open Wire Client Stage1 Recover Stage2 Stage3 Linearization

/-- With one element to come, what has come is a prefix. -/
theorem isPrefix_of_le {α : Type*} {front more rest : List α}
    (hle : ((front ++ more : List α) : Multiset α) ≤ (front ++ rest : List α))
    (hrest : rest.length ≤ 1) : front ++ more <+: front ++ rest := by
  rw [← Multiset.coe_add, ← Multiset.coe_add, add_le_add_iff_left, Multiset.coe_le] at hle
  rw [List.prefix_append_right_inj]
  match more, hle with
  | [], _ => exact List.nil_prefix
  | [elem], hle =>
      have hmem : elem ∈ rest := hle.subset (List.mem_singleton_self elem)
      obtain ⟨other, rfl⟩ := List.length_eq_one_iff.mp
        (le_antisymm hrest (List.length_pos_of_mem hmem))
      rw [List.mem_singleton.mp hmem]
  | first :: second :: more, hle =>
      have hlength := hle.length_le
      simp only [List.length_cons] at hlength
      omega

namespace Client

variable {board after : Board}

/-- Outcomes stay. -/
theorem Board.Moves.outcomes_le {hands : Bool} {request : Option Wire.Call}
    (hmoves : Board.Moves hands board after request) :
    board.outcomes.length ≤ after.outcomes.length := by
  have hrefused := hmoves.refused.length_le
  have hlinks : (board.links.flatMap Link.outcomes).length ≤
      (after.links.flatMap Link.outcomes).length := by
    cases hmoves.links with
    | same hsame => rw [hsame]
    | grown hbefore hgrows hafter =>
        rw [hbefore, hafter, List.flatMap_cons, List.flatMap_cons, List.length_append,
          List.length_append]
        exact Nat.add_le_add_right hgrows.outcomes.length_le _
    | opened hopened =>
        rw [hopened, List.flatMap_cons, List.length_append]
        exact Nat.le_add_left _ _
  simp only [outcomes, List.length_append, List.length_map]
  omega

/-- Calls on connections have an outcome or a sender in a FIFO. -/
theorem length_frames {links : List Link} (hlinks : ∀ link ∈ links, link.Inv) :
    (links.flatMap Link.frames).length =
      (links.flatMap Link.outcomes).length + (links.flatMap Link.fifo).length := by
  induction links with
  | nil => rfl
  | cons link links ih =>
      have hrest := ih fun other hother => hlinks other (List.mem_cons_of_mem _ hother)
      have hlined := congrArg List.length (hlinks link List.mem_cons_self).lined
      simp only [List.length_map, List.length_append] at hlined
      simp only [List.flatMap_cons, List.length_append]
      omega

/-- With one call to come, each connection waits for one answer at most. -/
theorem Board.Inv.frames_le {hand : List Call} {unsent : Option Bytes} {idle : Prop}
    (hinv : board.Inv hand unsent idle)
    (hfew : board.made.length ≤ board.outcomes.length + 1) {link : Link}
    (hlink : link ∈ board.links) : link.frames.length ≤ link.outcomes.length + 1 := by
  have hcustody := hinv.custody.length_eq
  have hframes := length_frames hinv.links
  have hfifo : link.fifo.length ≤ (board.links.flatMap Link.fifo).length := by
    rw [List.flatMap_def]
    exact (List.sublist_flatten_of_mem (List.mem_map_of_mem hlink)).length_le
  have hlined := congrArg List.length (hinv.links link hlink).lined
  simp only [outcomes, List.length_append, List.length_map] at hcustody hfew hlined
  omega

end Client

namespace Pipeline

variable {pipe : Pipeline}

/-- No more responses on a connection than requests. -/
theorem Flow.length_onConn (hflow : pipe.Flow) (conn : ℕ) :
    (onConn conn pipe.computed).length ≤ (pipe.requestsOf conn).length := by
  have hlength := congrArg List.length (hflow.computed_conn conn)
  rw [List.length_map, List.length_map] at hlength
  rw [hlength]
  exact ((List.take_sublist _ _).filter _).length_le

theorem Flow.onConn_le (hflow : pipe.Flow) (conn : ℕ) :
    (onConn conn pipe.chan : Multiset Reply) ≤ onConn conn pipe.computed := by
  rw [onConn, onConn, ← Multiset.filter_coe, ← Multiset.filter_coe]
  exact Multiset.filter_le_filter _ hflow.chan_le

end Pipeline

namespace System

variable {serve : Pipeline → Pipeline.Act → Prop} {mode : Mode} {segs : SortedMap ℕ Bytes}
  {db : Db} {startLsn : ℕ} {sys after : System}

/-- Guard: a client's next call is made when all its calls have an outcome. -/
def OneByOne (sys : System) : Act → Prop
  | .peer client act => act.call?.isSome = true →
      (sys.peers client).board.outcomes.length = (sys.peers client).board.made.length
  | _ => True

instance (sys : System) : (act : Act) → Decidable (OneByOne sys act)
  | .peer client act => inferInstanceAs (Decidable (act.call?.isSome = true →
      (sys.peers client).board.outcomes.length = (sys.peers client).board.made.length))
  | .read _ _ => isTrue trivial
  | .deliver _ => isTrue trivial
  | .server _ => isTrue trivial

/-- Each client waits for one call at most, and the connections it reads from have their
responses in the order of the requests. -/
structure Alone (sys : System) : Prop where
  few : ∀ client,
    (sys.peers client).board.made.length ≤ (sys.peers client).board.outcomes.length + 1
  orderly : ∀ client number link, sys.line client number = some link →
    link.reader.active = true →
      onConn (connOf client number) sys.pipe.chan <+:
        onConn (connOf client number) sys.pipe.computed

theorem Wired.computed_le
    (hwired : sys.Wired serve (Pipeline.start mode (Files.ofSegs segs) db startLsn))
    (hfew : ∀ client,
      (sys.peers client).board.made.length ≤ (sys.peers client).board.outcomes.length + 1)
    {client number : ℕ} {link : Link} (hline : sys.line client number = some link)
    (hactive : link.reader.active = true) :
    (onConn (connOf client number) sys.pipe.computed).length ≤ link.answered.length + 1 := by
  obtain ⟨hand, unsent, idle, hinv⟩ := (hwired.peers client).held
  obtain ⟨front, hfront, htaken, -⟩ := (hwired.link hline).inStep hactive
  have htaken' := htaken.length_le
  rw [List.length_append] at htaken'
  calc (onConn (connOf client number) sys.pipe.computed).length
      ≤ (sys.pipe.requestsOf (connOf client number)).length := hwired.flow.length_onConn _
    _ = (sys.asked client number).length := (hwired.length_asked client number).symm
    _ ≤ link.frames.length := (hwired.asked client number link hline).length_le
    _ ≤ link.outcomes.length + 1 := hinv.frames_le (hfew client) (Board.line_mem hline)
    _ ≤ link.answered.length + 1 := by omega

/-- Nothing was sent to a connection that is not open yet. -/
theorem Wired.unsent
    (hwired : sys.Wired serve (Pipeline.start mode (Files.ofSegs segs) db startLsn))
    {client number : ℕ} (hline : sys.line client number = none) :
    onConn (connOf client number) sys.pipe.chan = [] := by
  have hasked := hwired.length_asked client number
  rw [hwired.asked_nil hline] at hasked
  have hcomputed := hwired.flow.length_onConn (connOf client number)
  rw [← hasked, List.length_nil, Nat.le_zero, List.length_eq_zero_iff] at hcomputed
  have hle := hwired.flow.onConn_le (connOf client number)
  rw [hcomputed] at hle
  exact (Multiset.coe_eq_zero _).mp (Multiset.le_zero.mp hle)

theorem Alone.peer (halone : Alone sys)
    (hwired : sys.Wired serve (Pipeline.start mode (Files.ofSegs segs) db startLsn))
    {client : ℕ} {act : PeerAct} {peer : Peer} (hown : act.byServer = false)
    (hone : OneByOne sys (.peer client act)) (hstep : (sys.peers client).step act = some peer)
    (events : List (Event Wire.Call Resp)) :
    Alone { sys with peers := Function.update sys.peers client peer, events := events } := by
  have hmoves := Peer.moves hstep hown
  refine ⟨fun other => ?_, fun other number next hnext hactive => ?_⟩
  · change (Function.update sys.peers client peer other).board.made.length ≤
      (Function.update sys.peers client peer other).board.outcomes.length + 1
    by_cases hother : other = client
    · rw [hother, Function.update_self, hmoves.made, List.length_append]
      have houtcomes := hmoves.outcomes_le
      have hfew := halone.few client
      cases hcall : act.call? with
      | none => exact hfew.trans (Nat.add_le_add_right houtcomes 1)
      | some request =>
          have hequal := hone (by rw [hcall]; rfl)
          rw [← hequal]
          exact Nat.add_le_add_right houtcomes 1
    · rw [Function.update_of_ne hother]
      exact halone.few other
  · rw [line_update] at hnext
    split_ifs at hnext with hother
    · rw [hother]
      rcases hmoves.back hnext with ⟨link, hlink, hgrows⟩ | ⟨hnone, -⟩
      · exact halone.orderly client number link hlink (hgrows.active hactive)
      · change onConn (connOf client number) sys.pipe.chan <+: _
        rw [hwired.unsent hnone]
        exact List.nil_prefix
    · exact halone.orderly other number next hnext hactive

theorem Alone.deliver (halone : Alone sys) {client : ℕ} {link : Link} {past : List Link}
    {resp : Resp} {peer : Peer} (hlinks : (sys.peers client).board.links = link :: past)
    (hstep : (sys.peers client).respond resp = some peer) :
    Alone { sys with peers := Function.update sys.peers client peer } := by
  refine ⟨fun other => ?_, fun other number next hnext hactive => ?_⟩
  · change (Function.update sys.peers client peer other).board.made.length ≤
      (Function.update sys.peers client peer other).board.outcomes.length + 1
    by_cases hother : other = client
    · obtain ⟨link', past', hlinks', hboard⟩ := Peer.respond_inv hstep
      have hfew := halone.few client
      rw [hother, Function.update_self, hboard]
      simpa [Board.outcomes, hlinks'] using hfew
    · rw [Function.update_of_ne hother]
      exact halone.few other
  · rw [line_update, line_respond hlinks hstep] at hnext
    split_ifs at hnext with hother hnumber
    · rw [← Option.some.inj hnext] at hactive
      rw [hother, hnumber]
      exact halone.orderly client past.length link (Board.line_past hlinks) hactive
    · exact halone.orderly other number next (hother ▸ hnext) hactive
    · exact halone.orderly other number next hnext hactive

/-- Whatever response the server sends to such a connection, it is the next one. -/
theorem Alone.served (halone : Alone sys) {pipe : Pipeline} {act : Pipeline.Act}
    (hwired : sys.Wired serve (Pipeline.start mode (Files.ofSegs segs) db startLsn))
    (hafter : Wired serve (Pipeline.start mode (Files.ofSegs segs) db startLsn)
      { sys with pipe := pipe })
    (hact : ∀ conn data, act ≠ .accept conn data) (hstep : sys.pipe.step act = some pipe) :
    Alone { sys with pipe := pipe } := by
  refine ⟨halone.few, fun client number link hline hactive => ?_⟩
  obtain ⟨-, ⟨more, hmore⟩, hcomputed⟩ := Pipeline.step_grows hstep hact
  have hbefore := (halone.orderly client number link hline hactive).trans
    (hcomputed.filter fun reply : Reply => decide (reply.conn = connOf client number))
  obtain ⟨rest, hrest⟩ := hbefore
  have hfew := hafter.computed_le halone.few hline hactive
  have hanswered := (hwired.told client number link hline).length_le
  have hle := hafter.flow.onConn_le (connOf client number)
  have hchan : onConn (connOf client number) pipe.chan =
      onConn (connOf client number) sys.pipe.chan ++ onConn (connOf client number) more := by
    rw [← hmore, onConn, List.filter_append]
    rfl
  change onConn (connOf client number) pipe.chan <+: onConn (connOf client number) pipe.computed
  change (onConn (connOf client number) pipe.computed).length ≤ _ at hfew
  change (onConn (connOf client number) pipe.chan : Multiset Reply) ≤
    onConn (connOf client number) pipe.computed at hle
  rw [System.told, List.length_map] at hanswered
  have hrest' : onConn (connOf client number) sys.pipe.chan ++ rest =
      onConn (connOf client number) pipe.computed := hrest
  rw [← hrest', List.length_append] at hfew
  rw [hchan, ← hrest'] at hle ⊢
  exact isPrefix_of_le hle (by omega)

theorem Alone.step {act : Act} (halone : Alone sys)
    (hserve : ∀ pipe conn data, serve pipe (.accept conn data))
    (hwired : sys.Wired serve (Pipeline.start mode (Files.ofSegs segs) db startLsn))
    (hruns : Runs serve sys act) (hone : OneByOne sys act) (hstep : sys.step act = some after) :
    Alone after := by
  have hafter := hwired.step hserve hruns hstep
  cases step_change hstep with
  | peer hown hpeer => exact halone.peer hwired hown hone hpeer _
  | read hline hdata => exact ⟨halone.few, halone.orderly⟩
  | deliver hlinks hreply hpeer => exact halone.deliver hlinks hpeer
  | server hact hpipe => exact halone.served hwired hafter hact hpipe

theorem alone_start (mode : Mode) (files : Files) (db : Db) (startLsn : ℕ) (kinds : ℕ → Kind) :
    Alone (start (Pipeline.start mode files db startLsn) kinds) := by
  refine ⟨fun client => ?_, fun _ _ _ _ _ => List.prefix_refl _⟩
  change (Peer.start (kinds client)).board.made.length ≤ _
  cases kinds client with
  | blocking => exact Nat.zero_le _
  | tasks => exact Nat.zero_le _

/-- Any number of clients that make one call at a time, with any reconnects and
failures: in every run of the server, in any mode and with any scheduling, the callers
see one table. -/
theorem one_by_one_linearizable {kinds : ℕ → Kind}
    (hreach : Machine.Reach step
      (fun sys act => Runs (fun _ _ => True) sys act ∧ OneByOne sys act)
      (start (Pipeline.start mode (Files.ofSegs segs) db startLsn) kinds) sys) :
    Observed db sys := by
  obtain ⟨-, hstrong⟩ := @Machine.Reach.strengthen _ _ step _
    (fun sys act => Runs (fun _ _ => True) sys act ∧ InStep sys act) _
    (fun sys => Wired (fun _ _ => True)
      (Pipeline.start mode (Files.ofSegs segs) db startLsn) sys ∧ Alone sys)
    ⟨wired_start _ kinds rfl, alone_start mode _ db startLsn kinds⟩
    (fun _ _ _ hinv hguard hstep => ⟨hinv.1.step (fun _ _ _ => trivial) hguard.1 hstep,
      hinv.2.step (fun _ _ _ => trivial) hinv.1 hguard.1 hguard.2 hstep⟩)
    (fun sys act hinv hguard => by
      refine ⟨hguard.1, ?_⟩
      cases act with
      | peer client act =>
          intro _ link past hlinks hactive
          exact hinv.2.orderly client past.length link (Board.line_past hlinks) hactive
      | _ => trivial) sys hreach
  obtain ⟨hwired, haccounted⟩ := accounted_reach (fun _ _ _ => trivial) hstrong
  exact haccounted.observed hwired

/-- A client puts a value, waits, and asks for it on the same connection. -/
theorem one_by_one_linearizable_put_get :
    ∃ sys, Machine.Reach step
        (fun sys act => Runs (fun _ _ => True) sys act ∧ OneByOne sys act)
        (start (Pipeline.start .sync (Files.ofSegs SortedMap.empty) Db.new 1) fun _ => .tasks)
        sys ∧
      sys.events = [.call (Nat.pair 0 0) (.put [65] [66]), .ret (Nat.pair 0 0) .ok,
        .call (Nat.pair 0 1) (.get [65]), .ret (Nat.pair 0 1) (.value [66])] ∧
      Observed Db.new sys := by
  obtain ⟨sys, hreach, hdone⟩ := @Machine.exists_reach _ _ step
    (fun sys act => Runs (fun _ _ => True) sys act ∧ OneByOne sys act)
    (start (Pipeline.start .sync (Files.ofSegs SortedMap.empty) Db.new 1) fun _ => .tasks) _
    [.peer 0 (.tasks (.call (.put [65] [66]))), .peer 0 (.tasks .recv),
      .peer 0 (.tasks .tryRecv), .peer 0 (.tasks (.write 11)), .peer 0 (.tasks .flush),
      .read 0 0, .server (.take 1), .server .dispatch, .server (.wal .poll),
      .server (.wal .plan), .server (.wal .reap), .server (.wal (.start 0)),
      .server (.wal (.complete 0 27)), .server (.wal (.start 0)), .server (.wal (.complete 0 0)),
      .server (.wal .poll), .server (.wal .plan), .server (.wal .reap), .server (.wal .reap),
      .server (.wal .send), .server (.wal .send), .deliver 0,
      .peer 0 (.tasks (.link (.read [1, 0, 0, 0, 1]))), .peer 0 (.tasks (.link .extract)),
      .peer 0 (.tasks (.link .recv)), .peer 0 (.tasks (.link .extract)),
      .peer 0 (.tasks (.call (.get [65]))), .peer 0 (.tasks .recv), .peer 0 (.tasks .tryRecv),
      .peer 0 (.tasks (.write 10)), .peer 0 (.tasks .flush), .read 0 0, .server (.take 1),
      .server .reply, .deliver 0, .peer 0 (.tasks (.link (.read [2, 0, 0, 0, 0, 66]))),
      .peer 0 (.tasks (.link .extract)), .peer 0 (.tasks (.link .recv))]
    (fun sys => sys.events = [.call (Nat.pair 0 0) (.put [65] [66]), .ret (Nat.pair 0 0) .ok,
      .call (Nat.pair 0 1) (.get [65]), .ret (Nat.pair 0 1) (.value [66])])
    (by decide +kernel)
  exact ⟨sys, hreach, of_decide_eq_true hdone, one_by_one_linearizable hreach⟩

end System

end InMemoryDb
