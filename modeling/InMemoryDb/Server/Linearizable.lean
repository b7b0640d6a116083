import InMemoryDb.Lib.Linearization
import InMemoryDb.Server.OneReply
import InMemoryDb.Server.Sharing

/-!
# The server as one table

Seen from the connections, the server is a table that executes one request at a
time.  A request takes effect when stage 2 executes its batch, in the order of
admission; this is before its response leaves, in every mode, and behind every
request whose response had left when it was admitted.
-/

namespace InMemoryDb

open Wire Stage2 Stage3 Linearization Sharing

/-- The table as a sequential object.  An operation is a payload and the connection
it came from; the result goes back to that connection. -/
def table : Object Db (ℕ × Payload) (ℕ × Resp) where
  apply db call :=
    match call.2.op with
    | .get => (db, call.1, Plain.found (db.lookup (keyOf call.2.bytes)))
    | .put => (db.insert (keyOf call.2.bytes) (valueOf call.2.bytes), call.1, .ok)
    | .unknown _ => (db, call.1, .unknownOp)

/-- The operation a request asks for. -/
def Request.call (req : Request) : ℕ × Payload := (req.reply, req.data)

/-- The result a response carries. -/
def Reply.result (reply : Reply) : ℕ × Resp := (reply.conn, reply.resp)

/-! ## A batch on the table -/

theorem applyReq_table (db : Db) (lsn : ℕ) {req : Request} (hreq : Admissible req.data) :
    ∃ resp, applyReq db lsn req = .ok ((table.apply db req.call).1,
        lsn + (puts [req]).length, { req with resp := some resp }) ∧
      (table.apply db req.call).2 = (req.reply, resp) := by
  unfold applyReq
  cases hop : req.op with
  | get =>
      have hdata : req.data.op = .get := hop
      rw [key_ok (hreq.wellFormed (by simp [hop])), ok_bind, Db.get]
      refine ⟨Plain.found (db.lookup (keyOf req.data.bytes)), ?_, ?_⟩
      · simp only [table, Request.call, hdata]
        cases db.lookup (keyOf req.data.bytes) <;> simp [Plain.found, puts, hop]
      · simp only [table, Request.call, hdata]
  | put =>
      have hdata : req.data.op = .put := hop
      rw [splitKv_ok (hreq.wellFormed (by simp [hop])), ok_bind]
      refine ⟨.ok, ?_, ?_⟩
      · simp [table, Request.call, hdata, puts, hop, Db.put_eq_insertRaw, Db.insertRaw]
      · simp only [table, Request.call, hdata]
  | unknown code =>
      have hdata : req.data.op = .unknown code := hop
      refine ⟨.unknownOp, ?_, ?_⟩
      · simp [table, Request.call, hdata, puts, hop]
      · simp only [table, Request.call, hdata]

/-- Executing a batch is executing its requests on the object, in order. -/
theorem applyItems_table (db : Db) (lsn : ℕ) {items : List Request}
    (hitems : ∀ req ∈ items, Admissible req.data) :
    ∃ after, applyItems db lsn items = .ok (table.final db (items.map Request.call),
        lsn + (puts items).length, after) ∧
      (owedOf after).map Reply.result = table.results db (items.map Request.call) := by
  induction items generalizing db lsn with
  | nil => exact ⟨[], rfl, rfl⟩
  | cons req items ih =>
      obtain ⟨resp, hreq, hresult⟩ := applyReq_table db lsn (hitems req List.mem_cons_self)
      obtain ⟨after, hrest, hresults⟩ := ih (table.apply db req.call).1
        (lsn + (puts [req]).length) fun other hother =>
          hitems other (List.mem_cons_of_mem _ hother)
      have hputs : (puts (req :: items)).length = (puts [req]).length + (puts items).length := by
        rw [← List.length_append]
        simp [puts, ← List.filter_append]
      refine ⟨{ req with resp := some resp } :: after, ?_, ?_⟩
      · rw [applyItems, hreq, ok_bind]
        simp only [hrest, ok_bind, pure_eq_ok, hputs, Nat.add_assoc]
        rfl
      · rw [List.map_cons, Object.results, hresult, ← hresults]
        rfl

namespace Pipeline

/-! ## The history of a run -/

/-- A run with what the connections have seen of it so far. -/
structure Observed where
  pipe : Pipeline
  events : List (Event (ℕ × Payload) (ℕ × Resp))

/-- The requests that come in and the responses that go out in one step. -/
def observe (before after : Pipeline) : List (Event (ℕ × Payload) (ℕ × Resp)) :=
  (after.admitted.drop before.admitted.length).map (fun req => .call req.tag req.call) ++
    (after.chan.drop before.chan.length).map fun reply => .ret reply.tag reply.result

namespace Observed

def start (mode : Mode) (files : Files) (db : Db) (startLsn : ℕ) : Observed :=
  ⟨Pipeline.start mode files db startLsn, []⟩

def step (seen : Observed) (act : Act) : Option Observed :=
  (seen.pipe.step act).map fun after => ⟨after, seen.events ++ observe seen.pipe after⟩

/-- Every run of the pipeline has a history. -/
theorem exists_observed {guard : Pipeline → Act → Prop} {first pipe : Pipeline}
    (hreach : Machine.Reach Pipeline.step guard first pipe) :
    ∃ seen, Machine.Reach step (fun seen act => guard seen.pipe act) ⟨first, []⟩ seen ∧
      seen.pipe = pipe := by
  induction hreach with
  | start => exact ⟨_, Machine.Reach.start, rfl⟩
  | @next pipe after act _ hguard hstep ih =>
      obtain ⟨seen, hseen, rfl⟩ := ih
      refine ⟨⟨after, seen.events ++ observe seen.pipe after⟩, hseen.next hguard ?_, rfl⟩
      rw [step, hstep]
      rfl

end Observed

variable {pipe after : Pipeline}

/-- The operations that have taken effect, in order. -/
def order (pipe : Pipeline) : List (ℕ × ℕ × Payload) :=
  (pipe.admitted.take pipe.computed.length).map fun req => (req.tag, req.call)

theorem order_ids (hflow : pipe.Flow) :
    pipe.order.map Prod.fst = List.range pipe.computed.length := by
  have htags : pipe.order.map Prod.fst =
      (pipe.admitted.take pipe.computed.length).map Request.tag := List.map_map
  rw [htags, List.map_take, hflow.tags, List.take_range, Nat.min_eq_left hflow.computed_le]

theorem order_ops (pipe : Pipeline) :
    pipe.order.map Prod.snd =
      (pipe.admitted.take pipe.computed.length).map Request.call := List.map_map

/-- The history explains the state: stage 2 has executed the operations in order,
every call and every response is in the history. -/
structure Explained (db : Db) (seen : Observed) : Prop where
  traced : Traced table db seen.events seen.pipe.order
  called : ∀ req ∈ seen.pipe.admitted, .call req.tag req.call ∈ seen.events
  calls : ∀ id op, .call id op ∈ seen.events → id < seen.pipe.admitted.length
  returns : seen.events.filterMap Event.returns = seen.pipe.chan.map Reply.tag
  results : seen.pipe.computed.map Reply.result =
    table.results db (seen.pipe.order.map Prod.snd)
  db : seen.pipe.db = table.final db (seen.pipe.order.map Prod.snd)

theorem observe_same (hadmitted : after.admitted = pipe.admitted)
    (hchan : after.chan = pipe.chan) : observe pipe after = [] := by
  rw [observe, hadmitted, hchan, List.drop_length, List.drop_length]
  rfl

theorem observe_sent {sent : Reply} (hadmitted : after.admitted = pipe.admitted)
    (hchan : after.chan = pipe.chan ++ [sent]) :
    observe pipe after = [.ret sent.tag sent.result] := by
  rw [observe, hadmitted, hchan, List.drop_length, List.drop_left]
  rfl

theorem observe_accept (conn : ℕ) (data : Payload) :
    observe pipe (pipe.accept conn data) = [.call pipe.admitted.length (conn, data)] := by
  rw [observe, accept, List.drop_left, List.drop_length]
  rfl

theorem order_congr (hadmitted : after.admitted = pipe.admitted)
    (hcomputed : after.computed = pipe.computed) : after.order = pipe.order := by
  rw [order, order, hadmitted, hcomputed]

theorem explained_start (mode : Mode) (files : Files) (db : Db) (startLsn : ℕ) :
    Explained db (Observed.start mode files db startLsn) := by
  refine ⟨Traced.nil, ?_, ?_, rfl, rfl, rfl⟩
  · exact fun _ h => by cases h
  · exact fun _ _ h => by cases h

variable {db : Db} {events : List (Event (ℕ × Payload) (ℕ × Resp))}

/-- Nothing that can be seen has happened. -/
theorem Explained.quiet (hexplained : Explained db ⟨pipe, events⟩)
    (hadmitted : after.admitted = pipe.admitted) (hcomputed : after.computed = pipe.computed)
    (hchan : after.chan = pipe.chan) (hdb : after.db = pipe.db) :
    Explained db ⟨after, events ++ observe pipe after⟩ := by
  rw [observe_same hadmitted hchan, List.append_nil]
  have horder := order_congr hadmitted hcomputed
  refine ⟨?_, ?_, ?_, ?_, ?_, ?_⟩
  · exact horder ▸ hexplained.traced
  · exact hadmitted ▸ hexplained.called
  · exact hadmitted ▸ hexplained.calls
  · exact hchan ▸ hexplained.returns
  · exact hcomputed ▸ horder ▸ hexplained.results
  · exact hdb ▸ horder ▸ hexplained.db

theorem Explained.accept (hexplained : Explained db ⟨pipe, events⟩) (hflow : pipe.Flow)
    (conn : ℕ) (data : Payload) :
    Explained db ⟨pipe.accept conn data, events ++ observe pipe (pipe.accept conn data)⟩ := by
  rw [observe_accept]
  have horder : (pipe.accept conn data).order = pipe.order := by
    change ((pipe.admitted ++ [_]).take pipe.computed.length).map _ = _
    rw [List.take_append_of_le_length hflow.computed_le]
    rfl
  refine ⟨?_, ?_, ?_, ?_, ?_, ?_⟩
  · rw [horder]
    exact hexplained.traced.call _ fun other hother =>
      lt_irrefl _ (hexplained.calls _ other hother)
  · intro req hreq
    rcases List.mem_append.mp hreq with hold | hnew
    · exact List.mem_append_left _ (hexplained.called req hold)
    · rw [List.mem_singleton.mp hnew]
      exact List.mem_append_right _ (List.mem_singleton_self _)
  · intro id op hcall
    have hlength : (pipe.accept conn data).admitted.length = pipe.admitted.length + 1 :=
      List.length_append
    rw [hlength]
    rcases List.mem_append.mp hcall with hold | hnew
    · exact (hexplained.calls id op hold).trans (Nat.lt_succ_self _)
    · injection List.mem_singleton.mp hnew with hid
      rw [hid]
      exact Nat.lt_succ_self _
  · rw [List.filterMap_append]
    exact (List.append_nil _).trans hexplained.returns
  · rw [horder]
    exact hexplained.results
  · rw [horder]
    exact hexplained.db

/-- The requests of a batch take effect one after another. -/
theorem Explained.take (hexplained : Explained db ⟨pipe, events⟩) (hflow : pipe.Flow)
    (hflow' : after.Flow) {count : ℕ} {batch : Batch} {table' : Db} {lsn : ℕ}
    (hcount : count ≤ pipe.items.length)
    (happly : applyItems pipe.db pipe.lsn (pipe.items.take count) =
      .ok (table', lsn, batch.items))
    (hadmissible : ∀ req ∈ pipe.items.take count, Admissible req.data)
    (hadmitted : after.admitted = pipe.admitted)
    (hcomputed : after.computed = pipe.computed ++ batch.owed)
    (hchan : after.chan = pipe.chan) (hdb : after.db = table') :
    Explained db ⟨after, events ++ observe pipe after⟩ := by
  rw [observe_same hadmitted hchan, List.append_nil]
  obtain ⟨items, hitems, hresults⟩ := applyItems_table pipe.db pipe.lsn hadmissible
  rw [happly, Except.ok.injEq, Prod.mk.injEq, Prod.mk.injEq] at hitems
  obtain ⟨htable, -, rfl⟩ := hitems
  have howed : batch.owed = owedOf batch.items := rfl
  have hlength : batch.owed.length = count := by
    have hsame := congrArg List.length hresults
    rw [List.length_map, Object.length_results, List.length_map, List.length_take_of_le hcount,
      ← howed] at hsame
    exact hsame
  -- the order grows by the requests cut off
  have horder : after.order =
      pipe.order ++ (pipe.items.take count).map fun req => (req.tag, req.call) := by
    rw [order, order, hadmitted, hcomputed, List.length_append, hlength, List.take_add,
      List.map_append, ← hflow.items]
  have hops : after.order.map Prod.snd =
      pipe.order.map Prod.snd ++ (pipe.items.take count).map Request.call := by
    rw [horder, List.map_append, List.map_map]
    rfl
  refine ⟨?_, ?_, ?_, ?_, ?_, ?_⟩
  · rw [horder]
    refine hexplained.traced.points ?_ ?_
    · intro entry hentry
      obtain ⟨req, hreq, rfl⟩ := List.mem_map.mp hentry
      refine hexplained.called req ?_
      have hitem := List.mem_of_mem_take hreq
      rw [hflow.items] at hitem
      exact List.mem_of_mem_drop hitem
    · rw [← horder, order_ids hflow']
      exact List.nodup_range
  · exact hadmitted ▸ hexplained.called
  · exact hadmitted ▸ hexplained.calls
  · exact hchan ▸ hexplained.returns
  · rw [hcomputed, List.map_append, howed, hresults, hops, Object.results_append,
      hexplained.results, hexplained.db]
  · rw [hdb, htable, hops, Object.final_append, hexplained.db]

/-- A response leaves: its operation has taken effect, with this result. -/
theorem Explained.send (hexplained : Explained db ⟨pipe, events⟩) (hflow' : after.Flow)
    {sent : Reply} (hadmitted : after.admitted = pipe.admitted)
    (hcomputed : after.computed = pipe.computed) (hchan : after.chan = pipe.chan ++ [sent])
    (hdb : after.db = pipe.db) :
    Explained db ⟨after, events ++ observe pipe after⟩ := by
  rw [observe_sent hadmitted hchan]
  have horder := order_congr hadmitted hcomputed
  have hsent : sent ∈ after.computed := by
    have hle := Multiset.mem_of_le hflow'.chan_le (a := sent)
    rw [hchan] at hle
    exact hle (by simp)
  refine ⟨?_, ?_, ?_, ?_, ?_, ?_⟩
  · rw [horder]
    refine hexplained.traced.ret ?_ ?_
    · obtain ⟨index, hindex, hget⟩ := List.getElem_of_mem hsent
      have htag : sent.tag = index := by
        have htags := congrArg (fun tags => tags[index]?) hflow'.tags_computed
        simpa [List.getElem?_eq_getElem hindex, hget, hindex] using htags
      have hlength : index < pipe.order.length := by
        rw [← horder, ← List.length_map (f := Prod.fst), order_ids hflow', List.length_range]
        exact hindex
      have hid : (pipe.order[index]).1 = sent.tag := by
        have hids := congrArg (fun ids => ids[index]?) (order_ids hflow')
        rw [horder] at hids
        simpa [List.getElem?_eq_getElem hlength, hindex, htag] using hids
      refine @outcome_of_getElem _ _ _ _ _ _ index sent.tag (pipe.order[index]).2 sent.result ?_ ?_
      · rw [List.getElem?_eq_getElem hlength, ← hid]
      · rw [← hexplained.results, ← hcomputed, List.getElem?_map, List.getElem?_eq_getElem hindex,
          hget]
        rfl
    · have hnodup := hflow'.nodup_sent
      rw [sentTags, hchan, List.map_append] at hnodup
      rw [hexplained.returns]
      exact fun hmem => List.disjoint_of_nodup_append hnodup hmem (List.mem_singleton_self _)
  · rw [hadmitted]
    exact fun req hreq => List.mem_append_left _ (hexplained.called req hreq)
  · intro id op hcall
    rw [hadmitted]
    rcases List.mem_append.mp hcall with hold | hnew
    · exact hexplained.calls id op hold
    · cases List.mem_singleton.mp hnew
  · rw [List.filterMap_append, hchan, List.map_append, hexplained.returns]
    rfl
  · rw [hcomputed, horder]
    exact hexplained.results
  · rw [hdb, horder]
    exact hexplained.db

/-- A batch that was executed out of a blank buffer. -/
theorem applyItems_of_applyBatch {batch : Batch} {buffer : Batch} {count lsn : ℕ} {table' : Db}
    (hblank : buffer.Blank)
    (hbatch : applyBatch pipe.db
      { buffer with items := buffer.items ++ pipe.items.take count } pipe.lsn =
        .ok (table', batch, lsn)) :
    applyItems pipe.db pipe.lsn (pipe.items.take count) = .ok (table', lsn, batch.items) ∧
      ∀ req ∈ pipe.items.take count, Admissible req.data := by
  rw [hblank.1, List.nil_append] at hbatch
  have hadmissible := (applyBatch_inv hbatch).1
  obtain ⟨items, -, hitems⟩ := applyItems_ok pipe.db pipe.lsn hadmissible
  rw [applyBatch, hitems, ok_bind] at hbatch
  simp only [pure_eq_ok, Except.ok.injEq, Prod.mk.injEq] at hbatch
  obtain ⟨rfl, rfl, rfl⟩ := hbatch
  exact ⟨hitems, hadmissible⟩

theorem explained_change {act : Act} (hflow : pipe.Flow)
    (hexplained : Explained db ⟨pipe, events⟩) (hchange : Change pipe act after) :
    Explained db ⟨after, events ++ observe pipe after⟩ := by
  have hflow' := flow_change hflow hchange
  cases hchange with
  | accept conn data => exact hexplained.accept hflow conn data
  | @take count buffer batch pool table' lsn hfree hsent hcount hbuffer hbatch =>
      have hblank : buffer.Blank := by
        rcases hbuffer with ⟨hslot, -⟩ | ⟨-, hpool⟩
        · exact hflow.slot buffer hslot
        · exact hflow.pool buffer (by simp [WalEngine.desk, hpool])
      obtain ⟨happly, hadmissible⟩ := applyItems_of_applyBatch hblank hbatch
      exact hexplained.take hflow hflow' hcount.2.2 happly hadmissible rfl rfl rfl rfl
  | reply houtbox => exact hexplained.send hflow' rfl rfl rfl rfl
  | toLog hhand hsent hwork => exact hexplained.quiet rfl rfl rfl rfl
  | toSlot hhand hsent hwork => exact hexplained.quiet rfl rfl rfl rfl
  | rotate boundaryLsn => exact hexplained.quiet rfl rfl rfl rfl
  | retire boundaryLsn => exact hexplained.quiet rfl rfl rfl rfl
  | walReply houtbox => exact hexplained.send hflow' rfl rfl rfl rfl
  | walRecycle houtbox => exact hexplained.quiet rfl rfl rfl rfl
  | wal hinner hstep => exact hexplained.quiet rfl rfl rfl rfl

theorem explained_reach {guard : Pipeline → Act → Prop} {mode : Mode} {segs : SortedMap ℕ Bytes}
    {startLsn : ℕ} {seen : Observed}
    (hreach : Machine.Reach Observed.step (fun seen act => guard seen.pipe act)
      (Observed.start mode (Files.ofSegs segs) db startLsn) seen) :
    seen.pipe.Flow ∧ Explained db seen := by
  induction hreach with
  | start => exact ⟨flow_start mode segs db startLsn, explained_start mode _ db startLsn⟩
  | next _ _ hstep ih =>
      obtain ⟨after, hafter, rfl⟩ := Option.map_eq_some_iff.mp hstep
      have hchange := step_change hafter
      exact ⟨flow_change ih.1 hchange, explained_change ih.1 ih.2 hchange⟩

/-- The responses stage 2 computed, and its table, are those of the object. -/
theorem executed_reach {guard : Pipeline → Act → Prop} {mode : Mode} {segs : SortedMap ℕ Bytes}
    {startLsn : ℕ}
    (hreach : Machine.Reach step guard (start mode (Files.ofSegs segs) db startLsn) pipe) :
    pipe.computed.map Reply.result = table.results db
        ((pipe.admitted.take pipe.computed.length).map Request.call) ∧
      pipe.db = table.final db
        ((pipe.admitted.take pipe.computed.length).map Request.call) := by
  obtain ⟨seen, hseen, rfl⟩ := Observed.exists_observed hreach
  obtain ⟨-, hexplained⟩ := explained_reach hseen
  rw [← order_ops]
  exact ⟨hexplained.results, hexplained.db⟩

/-- Every run of the server, in every mode and with any rotates, retires and
completions, has a history; and in every history the calls and responses are those of
a table that executes one operation at a time, in an order that agrees with real time
and that leads to the table of stage 2. -/
theorem linearizable {guard : Pipeline → Act → Prop} (mode : Mode) (segs : SortedMap ℕ Bytes)
    (db : Db) (startLsn : ℕ) :
    (∀ pipe, Machine.Reach step guard (start mode (Files.ofSegs segs) db startLsn) pipe →
      ∃ seen, Machine.Reach Observed.step (fun seen act => guard seen.pipe act)
        (Observed.start mode (Files.ofSegs segs) db startLsn) seen ∧ seen.pipe = pipe) ∧
    ∀ seen, Machine.Reach Observed.step (fun seen act => guard seen.pipe act)
        (Observed.start mode (Files.ofSegs segs) db startLsn) seen →
      ∃ order, Linearizes table db seen.events order ∧
        seen.pipe.db = table.final db (order.map Prod.snd) := by
  refine ⟨fun _ => Observed.exists_observed, fun seen hreach => ?_⟩
  obtain ⟨-, hexplained⟩ := explained_reach hreach
  exact ⟨seen.pipe.order, hexplained.traced.linearizes, hexplained.db⟩

/-- A PUT of one connection has returned before another connection asks for its key. -/
theorem linearizable_two :
    ∃ seen, Machine.Reach Observed.step (fun _ _ => True)
        (Observed.start .async (Files.ofSegs SortedMap.empty) Db.new 1) seen ∧
      seen.events = [.call 0 (7, .smallPut 65 66), .ret 0 (7, .ok), .call 1 (8, .smallGet 65),
        .ret 1 (8, .value [66])] ∧
      ∃ order, Linearizes table Db.new seen.events order ∧
        seen.pipe.db = table.final Db.new (order.map Prod.snd) := by
  obtain ⟨seen, hreach, hdone⟩ := @Machine.exists_reach _ _ Observed.step (fun _ _ => True)
    (Observed.start .async (Files.ofSegs SortedMap.empty) Db.new 1) _
    [.accept 7 (.smallPut 65 66), .take 1, .dispatch, .wal .poll, .wal .plan, .wal .reap,
      .wal (.start 0), .wal (.complete 0 27), .wal .poll, .wal .plan, .wal .reap, .wal .send,
      .wal .send, .accept 8 (.smallGet 65), .take 1, .reply]
    (fun seen => seen.events = [.call 0 (7, .smallPut 65 66), .ret 0 (7, .ok),
      .call 1 (8, .smallGet 65), .ret 1 (8, .value [66])])
    (by decide +kernel)
  exact ⟨seen, hreach, of_decide_eq_true hdone,
    (@linearizable (fun _ _ => True) .async SortedMap.empty Db.new 1).2 seen hreach⟩

end Pipeline

end InMemoryDb
