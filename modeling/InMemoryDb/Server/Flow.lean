import InMemoryDb.Server.Pipeline
import InMemoryDb.Server.Stage3.Desk

/-!
# The flow of requests and responses

What holds between the stages in every run: the requests are executed in the
order they were admitted, buffers come back empty, and every response stage 2
has computed is in exactly one place.
-/

namespace InMemoryDb

open Wire Recover Stage2 Stage3 Relation

/-- A batch as stage 2 leaves it behind `apply_batch` and the first `advance`. -/
structure Executed (ack : Acker) (batch : Batch) : Prop where
  admissible : ∀ req ∈ batch.items, Admissible req.data
  out : batch.out = []
  lsnHi : batch.lsnHi = batch.lsnLow + (puts batch.items).length
  owed : ∀ req ∈ batch.items, req.resp.isSome ↔ ¬ ack.required req ≤ .applied

theorem Executed.fromStage2 {ack : Acker} {batch : Batch} (h : Executed ack batch)
    (hwork : batch.hasWalWork = true) : FromStage2 ack batch := by
  refine ⟨h.admissible, h.out, ?_, h.lsnHi, h.owed⟩
  have hlt : batch.lsnLow < batch.lsnHi := by simpa [Batch.hasWalWork] using hwork
  have hhi := h.lsnHi
  omega

/-- A buffer nothing is left in. -/
def Batch.Blank (batch : Batch) : Prop := batch.items = [] ∧ batch.out = []

/-! ## Executed requests -/

theorem records_answered {before after : List Request}
    (hanswered : List.Forall₂ Answered before after) (lsn : ℕ) :
    records lsn after = records lsn before := by
  induction hanswered generalizing lsn with
  | nil => rfl
  | cons hreq _ ih => simp only [records, hreq.op, hreq.1, ih]

theorem length_puts_answered {before after : List Request}
    (hanswered : List.Forall₂ Answered before after) :
    (puts after).length = (puts before).length := by
  rw [← length_records 0, ← length_records 0, records_answered hanswered]

/-- An executed request comes from a received one. -/
theorem exists_received {before after : List Request}
    (hanswered : List.Forall₂ Answered before after) {req : Request} (hreq : req ∈ after) :
    ∃ received ∈ before, Answered received req := by
  induction hanswered with
  | nil => cases hreq
  | @cons received executed _ _ hpair _ ih =>
      rcases List.mem_cons.mp hreq with rfl | hrest
      · exact ⟨received, List.mem_cons_self, hpair⟩
      · obtain ⟨other, hother, hanswer⟩ := ih hrest
        exact ⟨other, List.mem_cons_of_mem _ hother, hanswer⟩

/-- Every executed request has a response, for its own connection. -/
theorem owedOf_answered {before after : List Request}
    (hanswered : List.Forall₂ Answered before after) :
    (owedOf after).map (fun reply => (reply.conn, reply.tag)) =
      before.map fun req => (req.reply, req.tag) := by
  induction hanswered with
  | nil => rfl
  | @cons req executed _ _ hreq _ ih =>
      obtain ⟨resp, hresp⟩ := Option.isSome_iff_exists.mp hreq.2.2.2
      have howed : executed.owed = some ⟨executed.reply, executed.tag, resp⟩ := by
        simp [Request.owed, hresp]
      rw [owedOf, List.filterMap_cons_some howed, List.map_cons, List.map_cons]
      rw [owedOf] at ih
      rw [ih, hreq.2.1, hreq.2.2.1]

theorem tags_answered {before after : List Request}
    (hanswered : List.Forall₂ Answered before after) :
    after.map Request.tag = before.map Request.tag := by
  induction hanswered with
  | nil => rfl
  | cons hreq _ ih => rw [List.map_cons, List.map_cons, hreq.2.2.1, ih]

theorem mem_owedOf {items : List Request} {reply : Reply} (hreply : reply ∈ owedOf items) :
    ∃ req ∈ items, reply.tag = req.tag := by
  obtain ⟨req, hreq, howed⟩ := List.mem_filterMap.mp hreply
  simp only [Request.owed, Option.map_eq_some_iff] at howed
  obtain ⟨-, -, rfl⟩ := howed
  exact ⟨req, hreq, rfl⟩

/-- At `Applied` nobody is kept waiting. -/
theorem owedOf_eq_nil {ack : Acker} {items : List Request} (hlevel : ack.level = .applied)
    (howed : ∀ req ∈ items, req.resp.isSome → ¬ ack.required req ≤ .applied) :
    owedOf items = [] := by
  refine List.filterMap_eq_nil_iff.mpr fun req hreq => ?_
  have hnone : req.resp = none := by
    by_contra hne
    refine howed req hreq (Option.isSome_iff_ne_none.mpr hne) ?_
    rw [Acker.required, hlevel]
    split_ifs <;> exact AckPoint.applied_le _
  simp [Request.owed, hnone]

theorem required_advanceReq (ack : Acker) (reached : AckPoint) (req : Request) :
    ack.required (ack.advanceReq reached req) = ack.required req := by
  simp [Acker.required, Request.isReadOnly]

/-- The batch stage 2 has executed and advanced. -/
theorem executed_advance {ack : Acker} {batch : Batch}
    (hadmissible : ∀ req ∈ batch.items, Admissible req.data)
    (hanswered : ∀ req ∈ batch.items, req.resp.isSome) (hout : batch.out = [])
    (hlsn : batch.lsnHi = batch.lsnLow + (puts batch.items).length) :
    Executed ack (ack.advance batch .applied).1 := by
  refine ⟨?_, hout, ?_, ?_⟩
  · intro req hreq
    obtain ⟨before, hbefore, rfl⟩ := List.mem_map.mp hreq
    rw [Acker.advanceReq_data]
    exact hadmissible before hbefore
  · rw [Acker.advance_lsnHi, Acker.advance_lsnLow, hlsn, ← length_records 0 batch.items,
      ← length_records 0 (ack.advance batch .applied).1.items, Acker.advance,
      Acker.records_map_advanceReq]
  · intro req hreq
    obtain ⟨before, hbefore, rfl⟩ := List.mem_map.mp hreq
    rw [required_advanceReq, Acker.advanceReq]
    split_ifs with hlevel
    · simp [hlevel]
    · simp [hlevel, hanswered before hbefore]

namespace Stage3.WalEngine

theorem desk_arrive (engine : WalEngine) (batch : Batch) :
    { engine with msgRx := engine.msgRx ++ [WalMsg.write batch] }.desk =
      { engine.desk with waiting := batch.items ::ₘ engine.desk.waiting } := by
  refine Desk.ext ?_ rfl rfl rfl rfl rfl
  change (_ : Multiset (List Request)) + (((engine.msgRx ++ [WalMsg.write batch]).filterMap
    WalMsg.items? : List (List Request)) : Multiset (List Request)) = _
  rw [List.filterMap_append, ← Multiset.coe_add, ← add_assoc, add_comm]
  rfl

theorem desk_control (engine : WalEngine) {msg : WalMsg} (hmsg : msg.items? = none) :
    { engine with msgRx := engine.msgRx ++ [msg] }.desk = engine.desk := by
  refine Desk.ext ?_ rfl rfl rfl rfl rfl
  change (_ : Multiset (List Request)) + (((engine.msgRx ++ [msg]).filterMap
    WalMsg.items? : List (List Request)) : Multiset (List Request)) = _
  rw [List.filterMap_append, List.filterMap_cons_none hmsg, List.filterMap_nil, List.append_nil]
  rfl

end Stage3.WalEngine

namespace Pipeline

/-- Stage 2 has executed the batch cut off by `take`, and holds it. -/
def taken (pipe : Pipeline) (count : ℕ) (db : Db) (lsn : ℕ) (batch : Batch) (pool : List Batch) :
    Pipeline :=
  { pipe with
    items := pipe.items.drop count
    db := db
    lsn := lsn
    recycled := none
    hand := some (pipe.ack.advance batch .applied).1
    outbox := (pipe.ack.advance batch .applied).2
    wal := { pipe.wal with recycleTx := pool }
    computed := pipe.computed ++ batch.owed }

/-- What one action does. -/
inductive Change (pipe : Pipeline) : Act → Pipeline → Prop
  | accept (conn : ℕ) (data : Payload) : Change pipe (.accept conn data) (pipe.accept conn data)
  | take {count : ℕ} {buffer batch : Batch} {pool : List Batch} {db : Db} {lsn : ℕ}
      (hfree : pipe.hand = none) (hsent : pipe.outbox = [])
      (hcount : 0 < count ∧ count ≤ maxBatch ∧ count ≤ pipe.items.length)
      (hbuffer : (pipe.recycled = some buffer ∧ pool = pipe.wal.recycleTx) ∨
        (pipe.recycled = none ∧ pipe.wal.recycleTx = buffer :: pool))
      (hbatch : applyBatch pipe.db
        { buffer with items := buffer.items ++ pipe.items.take count } pipe.lsn =
          .ok (db, batch, lsn)) :
      Change pipe (.take count)
        { pipe with
          items := pipe.items.drop count
          db := db
          lsn := lsn
          recycled := none
          hand := some (pipe.ack.advance batch .applied).1
          outbox := (pipe.ack.advance batch .applied).2
          wal := { pipe.wal with recycleTx := pool }
          computed := pipe.computed ++ batch.owed }
  | reply {sent : Reply} {rest : List Reply} (houtbox : pipe.outbox = sent :: rest) :
      Change pipe .reply { pipe with outbox := rest, chan := pipe.chan ++ [sent] }
  | toLog {batch : Batch} (hhand : pipe.hand = some batch) (hsent : pipe.outbox = [])
      (hwork : batch.hasWalWork = true) :
      Change pipe .dispatch
        { pipe with
          hand := none
          wal := { pipe.wal with msgRx := pipe.wal.msgRx ++ [.write batch] } }
  | toSlot {batch : Batch} (hhand : pipe.hand = some batch) (hsent : pipe.outbox = [])
      (hwork : batch.hasWalWork = false) :
      Change pipe .dispatch
        { pipe with
          hand := none
          recycled := some batch.recycle
          returned := pipe.returned ++ [batch] }
  | rotate (boundaryLsn : ℕ) :
      Change pipe (.rotate boundaryLsn)
        { pipe with wal := { pipe.wal with msgRx := pipe.wal.msgRx ++ [.rotate boundaryLsn] } }
  | retire (boundaryLsn : ℕ) :
      Change pipe (.retire boundaryLsn)
        { pipe with wal := { pipe.wal with msgRx := pipe.wal.msgRx ++ [.retire boundaryLsn] } }
  | walReply {sent : Reply} {rest : List Out} (houtbox : pipe.wal.outbox = .reply sent :: rest) :
      Change pipe (.wal .send)
        { pipe with
          wal := { pipe.wal with outbox := rest }
          chan := pipe.chan ++ [sent] }
  | walRecycle {batch : Batch} {rest : List Out}
      (houtbox : pipe.wal.outbox = .recycle batch :: rest) :
      Change pipe (.wal .send)
        { pipe with
          wal := { pipe.wal with
            outbox := rest
            recycleTx := pipe.wal.recycleTx ++ [batch.recycle]
            returned := pipe.wal.returned ++ [batch] } }
  | wal {act : WalEngine.Act} {wal : WalEngine} (hinner : act.inner)
      (hstep : pipe.wal.step act = some wal) :
      Change pipe (.wal act) { pipe with wal := wal }

variable {pipe after : Pipeline}

theorem take_change {count : ℕ} (hstep : pipe.take count = some after) :
    Change pipe (.take count) after := by
  unfold take at hstep
  split_ifs at hstep with hready
  obtain ⟨hfree, hsent, hcount⟩ := hready
  obtain ⟨⟨buffer, middle⟩, hbuffer, htaken⟩ := Option.bind_eq_some_iff.mp hstep
  obtain ⟨⟨db, batch, lsn⟩, hbatch, rfl⟩ := Option.map_eq_some_iff.mp htaken
  have hok := WalEngine.toOption_eq_some hbatch
  unfold takeBuffer at hbuffer
  split at hbuffer
  next slot hslot =>
    simp only [Option.some.injEq, Prod.mk.injEq] at hbuffer
    obtain ⟨rfl, rfl⟩ := hbuffer
    exact Change.take hfree hsent hcount (Or.inl ⟨hslot, rfl⟩) hok
  next hslot =>
    split at hbuffer
    next => cases hbuffer
    next head pool hpool =>
      simp only [Option.some.injEq, Prod.mk.injEq] at hbuffer
      obtain ⟨rfl, rfl⟩ := hbuffer
      have htake := Change.take hfree hsent hcount (Or.inr ⟨hslot, hpool⟩) hok
      rw [← hslot] at htake
      exact htake

theorem dispatch_change (hstep : pipe.dispatch = some after) : Change pipe .dispatch after := by
  unfold dispatch at hstep
  split at hstep
  next => cases hstep
  next batch hhand =>
    split_ifs at hstep with hsent hwork
    · simp only [Option.some.injEq] at hstep
      exact hstep ▸ Change.toLog hhand hsent hwork
    · simp only [Option.some.injEq] at hstep
      exact hstep ▸ Change.toSlot hhand hsent (by simpa using hwork)

theorem send_change
    (hstep : pipe.step (.wal .send) = some after) : Change pipe (.wal .send) after := by
  simp only [step, Option.map_eq_some_iff] at hstep
  obtain ⟨wal, hwal, rfl⟩ := hstep
  cases WalEngine.stepped hwal with
  | @reply sent rest houtbox =>
      have hchan : (pipe.wal.outbox.take 1).filterMap Out.reply? = [sent] := by
        rw [houtbox]
        rfl
      rw [hchan]
      exact Change.walReply houtbox
  | recycle houtbox =>
      have hchan : (pipe.wal.outbox.take 1).filterMap Out.reply? = [] := by
        rw [houtbox]
        rfl
      rw [hchan, List.append_nil]
      exact Change.walRecycle houtbox

/-- Every action is one of these changes. -/
theorem step_change {act : Act} (hstep : pipe.step act = some after) :
    Change pipe act after := by
  have hinner : ∀ act : WalEngine.Act, act.inner →
      (pipe.wal.step act).map (fun wal => { pipe with wal := wal }) = some after →
        Change pipe (.wal act) after := by
    intro act hact hmap
    obtain ⟨wal, hwal, rfl⟩ := Option.map_eq_some_iff.mp hmap
    exact Change.wal hact hwal
  cases act with
  | accept conn data =>
      simp only [step, Option.some.injEq] at hstep
      exact hstep ▸ Change.accept conn data
  | take count => exact take_change hstep
  | reply =>
      simp only [step] at hstep
      split at hstep
      next => cases hstep
      next sent rest houtbox =>
        simp only [Option.some.injEq] at hstep
        exact hstep ▸ Change.reply houtbox
  | dispatch => exact dispatch_change hstep
  | rotate boundaryLsn =>
      simp only [step, Option.some.injEq] at hstep
      exact hstep ▸ Change.rotate boundaryLsn
  | retire boundaryLsn =>
      simp only [step, Option.some.injEq] at hstep
      exact hstep ▸ Change.retire boundaryLsn
  | wal act =>
      cases act with
      | arrive msg => cases hstep
      | lend => cases hstep
      | send => exact send_change hstep
      | poll => exact hinner .poll trivial hstep
      | plan => exact hinner .plan trivial hstep
      | reap => exact hinner .reap trivial hstep
      | drain => exact hinner .drain trivial hstep
      | wake => exact hinner .wake trivial hstep
      | start position => exact hinner (.start position) trivial hstep
      | complete position res => exact hinner (.complete position res) trivial hstep
      | slab keys => exact hinner (.slab keys) trivial hstep

/-! ## The invariant -/

/-- What the batch in stage 2's hands still owes. -/
def handOwed (pipe : Pipeline) : List Reply := pipe.hand.toList.flatMap Batch.owed

/-- What was never sent for the batches stage 2 has recycled. -/
def lost (pipe : Pipeline) : List Reply := pipe.returned.flatMap Batch.owed

structure Flow (pipe : Pipeline) : Prop where
  ack : pipe.wal.ack = pipe.ack
  keyed : pipe.wal.Keyed
  slot : ∀ batch, pipe.recycled = some batch → batch.Blank
  pool : ∀ batch ∈ pipe.wal.desk.pool, batch.Blank
  hand : ∀ batch, pipe.hand = some batch → Executed pipe.ack batch
  /-- Requests are numbered by the order of admission. -/
  tags : pipe.admitted.map Request.tag = List.range pipe.admitted.length
  items : pipe.items = pipe.admitted.drop pipe.computed.length
  /-- Responses are computed in that order. -/
  computed : pipe.computed.map (fun reply => (reply.conn, reply.tag)) =
    (pipe.admitted.take pipe.computed.length).map fun req => (req.reply, req.tag)
  /-- Every response is in one place: sent, being sent, or held by a batch. -/
  ledger : (pipe.computed : Multiset Reply) = pipe.chan + pipe.outbox + pipe.handOwed +
    pipe.wal.desk.held + pipe.lost

theorem Flow.computed_le (hflow : pipe.Flow) : pipe.computed.length ≤ pipe.admitted.length := by
  have hlength := congrArg List.length hflow.computed
  simp only [List.length_map, List.length_take] at hlength
  omega

/-- The batch `take` cuts off and executes. -/
structure Cut (pipe : Pipeline) (count : ℕ) (batch : Batch) (db : Db) (lsn : ℕ) : Prop where
  answered : List.Forall₂ Answered (pipe.items.take count) batch.items
  admissible : ∀ req ∈ batch.items, Admissible req.data
  out : batch.out = []
  lsnLow : batch.lsnLow = pipe.lsn
  lsnHi : batch.lsnHi = lsn
  lsn : lsn = pipe.lsn + (puts (pipe.items.take count)).length
  db : db = applyRecords pipe.db (records pipe.lsn (pipe.items.take count))

theorem Flow.cut (hflow : pipe.Flow) {count : ℕ} {buffer batch : Batch} {pool : List Batch}
    {db : Db} {lsn : ℕ}
    (hbuffer : (pipe.recycled = some buffer ∧ pool = pipe.wal.recycleTx) ∨
      (pipe.recycled = none ∧ pipe.wal.recycleTx = buffer :: pool))
    (hbatch : applyBatch pipe.db
      { buffer with items := buffer.items ++ pipe.items.take count } pipe.lsn =
        .ok (db, batch, lsn)) : Cut pipe count batch db lsn := by
  have hblank : buffer.Blank := by
    rcases hbuffer with ⟨hslot, -⟩ | ⟨-, hpool⟩
    · exact hflow.slot buffer hslot
    · exact hflow.pool buffer (by simp [WalEngine.desk, hpool])
  rw [hblank.1, List.nil_append] at hbatch
  obtain ⟨hadmissible, hanswered, hdb, hlsn, hshape⟩ := applyBatch_inv hbatch
  have hgood : ∀ req ∈ batch.items, Admissible req.data := by
    intro req hreq
    obtain ⟨before, hbefore, hpair⟩ := exists_received hanswered hreq
    rw [hpair.1]
    exact hadmissible before hbefore
  refine ⟨hanswered, hgood, ?_, ?_, ?_, hlsn, hdb⟩
  · rw [hshape]
    exact hblank.2
  · rw [hshape]
  · rw [hshape]

theorem Cut.executed {count : ℕ} {batch : Batch} {db : Db} {lsn : ℕ}
    (hcut : Cut pipe count batch db lsn) (ack : Acker) :
    Executed ack (ack.advance batch .applied).1 := by
  refine executed_advance hcut.admissible ?_ hcut.out ?_
  · intro req hreq
    obtain ⟨received, -, hpair⟩ := exists_received hcut.answered hreq
    exact hpair.2.2.2
  · rw [hcut.lsnHi, hcut.lsn, hcut.lsnLow, length_puts_answered hcut.answered]

/-- `take` numbers and answers the next requests. -/
theorem Cut.computed {count : ℕ} {batch : Batch} {db : Db} {lsn : ℕ}
    (hcut : Cut pipe count batch db lsn) (hflow : pipe.Flow) (hcount : count ≤ pipe.items.length) :
    (pipe.computed ++ batch.owed).length = pipe.computed.length + count ∧
      (pipe.computed ++ batch.owed).map (fun reply => (reply.conn, reply.tag)) =
        (pipe.admitted.take (pipe.computed.length + count)).map
          fun req => (req.reply, req.tag) := by
  have howed : batch.owed.map (fun reply => (reply.conn, reply.tag)) =
      (pipe.items.take count).map fun req => (req.reply, req.tag) := owedOf_answered hcut.answered
  have hlength := congrArg List.length howed
  simp only [List.length_map, List.length_take] at hlength
  constructor
  · rw [List.length_append]
    omega
  · rw [List.map_append, howed, hflow.computed, List.take_add, List.map_append, hflow.items]

theorem lost_toSlot (batch : Batch) :
    { pipe with
      hand := none
      recycled := some batch.recycle
      returned := pipe.returned ++ [batch] }.lost = pipe.lost ++ batch.owed := by
  simp [lost]

theorem flow_accept (hflow : pipe.Flow) (conn : ℕ) (data : Payload) :
    (pipe.accept conn data).Flow := by
  have hle := hflow.computed_le
  refine { hflow with tags := ?_, items := ?_, computed := ?_ }
  · simp [accept, hflow.tags, List.range_succ]
  · change pipe.items ++ [_] = (pipe.admitted ++ [_]).drop pipe.computed.length
    rw [List.drop_append_of_le_length hle, hflow.items]
  · change pipe.computed.map _ = ((pipe.admitted ++ [_]).take pipe.computed.length).map _
    rw [List.take_append_of_le_length hle, hflow.computed]

theorem flow_take (hflow : pipe.Flow) {count : ℕ} {buffer batch : Batch} {pool : List Batch}
    {db : Db} {lsn : ℕ} (hfree : pipe.hand = none) (hsent : pipe.outbox = [])
    (hcount : count ≤ pipe.items.length)
    (hbuffer : (pipe.recycled = some buffer ∧ pool = pipe.wal.recycleTx) ∨
      (pipe.recycled = none ∧ pipe.wal.recycleTx = buffer :: pool))
    (hbatch : applyBatch pipe.db
      { buffer with items := buffer.items ++ pipe.items.take count } pipe.lsn =
        .ok (db, batch, lsn)) :
    (pipe.taken count db lsn batch pool).Flow := by
  unfold taken
  have hcut := hflow.cut hbuffer hbatch
  obtain ⟨hlength, hcomputed⟩ := hcut.computed hflow hcount
  refine ⟨hflow.ack, hflow.keyed.congr (List.Perm.refl _) rfl, ?_, ?_, ?_, hflow.tags, ?_, ?_, ?_⟩
  · intro other hother
    cases hother
  · intro other hother
    apply hflow.pool other
    rcases hbuffer with ⟨-, rfl⟩ | ⟨-, hpool⟩
    · exact hother
    · simp only [WalEngine.desk, hpool]
      exact List.mem_cons_of_mem _ hother
  · intro other hother
    simp only [Option.some.injEq] at hother
    rw [← hother]
    exact hcut.executed pipe.ack
  · change pipe.items.drop count = pipe.admitted.drop (pipe.computed ++ batch.owed).length
    rw [hlength, hflow.items, List.drop_drop]
  · rw [hlength]
    exact hcomputed
  · have howed : (batch.owed : Multiset Reply) =
        (pipe.ack.advance batch .applied).2 + (pipe.ack.advance batch .applied).1.owed :=
      Multiset.coe_eq_coe.mpr (pipe.ack.advance_owed batch .applied)
    have hledger := hflow.ledger
    simp only [handOwed, hfree, Option.toList_none, List.flatMap_nil, hsent, Multiset.coe_nil,
      add_zero] at hledger
    change ((pipe.computed ++ batch.owed : List Reply) : Multiset Reply) =
      pipe.chan + (pipe.ack.advance batch .applied).2 +
        (([(pipe.ack.advance batch .applied).1].flatMap Batch.owed : List Reply) :
          Multiset Reply) + pipe.wal.desk.held + pipe.lost
    rw [← Multiset.coe_add, hledger, howed, List.flatMap_singleton]
    abel

/-- An inner step of stage 3 moves responses, and hands none over. -/
theorem held_run {ack : Acker} {allow : Batch → Prop} {desk desk' : Desk}
    (hrun : ReflTransGen (Desk.Inner ack allow) desk desk') :
    desk'.held = desk.held ∧ desk'.pool = desk.pool := by
  induction hrun with
  | refl => exact ⟨rfl, rfl⟩
  | tail _ hlast ih =>
      refine ⟨(Desk.held_inner hlast).trans ih.1, ?_⟩
      rw [← ih.2]
      cases hlast <;> rfl

theorem flow_toLog (hflow : pipe.Flow) {batch : Batch} (hhand : pipe.hand = some batch) :
    { pipe with
      hand := none
      wal := { pipe.wal with msgRx := pipe.wal.msgRx ++ [WalMsg.write batch] } }.Flow := by
  refine ⟨hflow.ack, hflow.keyed.congr (List.Perm.refl _) rfl, hflow.slot, hflow.pool, ?_,
    hflow.tags, hflow.items, hflow.computed, ?_⟩
  · intro other hother
    cases hother
  · change _ = (pipe.chan : Multiset Reply) + pipe.outbox + 0 +
      ({ pipe.wal with msgRx := pipe.wal.msgRx ++ [WalMsg.write batch] } : WalEngine).desk.held +
      pipe.lost
    have howed : (owedOf batch.items : Multiset Reply) = batch.owed := rfl
    rw [WalEngine.desk_arrive, Desk.held_arrive, howed, hflow.ledger, handOwed, hhand,
      Option.toList_some, List.flatMap_singleton]
    abel

theorem flow_toSlot (hflow : pipe.Flow) {batch : Batch} (hhand : pipe.hand = some batch) :
    { pipe with
      hand := none
      recycled := some batch.recycle
      returned := pipe.returned ++ [batch] }.Flow := by
  refine ⟨hflow.ack, hflow.keyed, ?_, hflow.pool, ?_, hflow.tags, hflow.items, hflow.computed, ?_⟩
  · intro other hother
    simp only [Option.some.injEq] at hother
    rw [← hother]
    exact ⟨rfl, rfl⟩
  · intro other hother
    cases hother
  · rw [lost_toSlot]
    change _ = (pipe.chan : Multiset Reply) + pipe.outbox + 0 + pipe.wal.desk.held +
      ((pipe.lost ++ batch.owed : List Reply) : Multiset Reply)
    rw [hflow.ledger, handOwed, hhand, Option.toList_some, List.flatMap_singleton,
      ← Multiset.coe_add]
    abel

theorem flow_control (hflow : pipe.Flow) {msg : WalMsg} (hmsg : msg.items? = none) :
    { pipe with wal := { pipe.wal with msgRx := pipe.wal.msgRx ++ [msg] } }.Flow := by
  refine ⟨hflow.ack, hflow.keyed.congr (List.Perm.refl _) rfl, hflow.slot, hflow.pool, hflow.hand,
    hflow.tags, hflow.items, hflow.computed, ?_⟩
  rw [WalEngine.desk_control _ hmsg]
  exact hflow.ledger

theorem flow_walReply (hflow : pipe.Flow) {sent : Reply} {rest : List Out}
    (houtbox : pipe.wal.outbox = .reply sent :: rest) :
    { pipe with
      wal := { pipe.wal with outbox := rest }
      chan := pipe.chan ++ [sent] }.Flow := by
  refine ⟨hflow.ack, hflow.keyed.congr (List.Perm.refl _) rfl, hflow.slot, hflow.pool, hflow.hand,
    hflow.tags, hflow.items, hflow.computed, ?_⟩
  have hheld : pipe.wal.desk.held = {sent} + { pipe.wal.desk with outbox := rest }.held :=
    Desk.held_send houtbox
  change _ = ((pipe.chan ++ [sent] : List Reply) : Multiset Reply) + pipe.outbox +
    pipe.handOwed + ({ pipe.wal.desk with outbox := rest } : Desk).held + pipe.lost
  rw [hflow.ledger, hheld, ← Multiset.coe_add, Multiset.coe_singleton]
  abel

theorem flow_walRecycle (hflow : pipe.Flow) {batch : Batch} {rest : List Out}
    (houtbox : pipe.wal.outbox = .recycle batch :: rest) :
    { pipe with
      wal := { pipe.wal with
        outbox := rest
        recycleTx := pipe.wal.recycleTx ++ [batch.recycle]
        returned := pipe.wal.returned ++ [batch] } }.Flow := by
  refine ⟨hflow.ack, hflow.keyed.congr (List.Perm.refl _) rfl, hflow.slot, ?_, hflow.hand,
    hflow.tags, hflow.items, hflow.computed, ?_⟩
  · intro other hother
    rcases List.mem_append.mp hother with hold | hnew
    · exact hflow.pool other hold
    · rw [List.mem_singleton.mp hnew]
      exact ⟨rfl, rfl⟩
  · have hheld := @Desk.held_giveBack pipe.wal.desk batch rest houtbox
      (pipe.wal.recycleTx ++ [batch.recycle]) (pipe.wal.returned ++ [batch])
    have hledger := hflow.ledger
    rw [← hheld] at hledger
    exact hledger

theorem flow_change (hflow : pipe.Flow) {act : Act} (hchange : Change pipe act after) :
    after.Flow := by
  cases hchange with
  | accept conn data => exact flow_accept hflow conn data
  | take hfree hsent hcount hbuffer hbatch =>
      exact flow_take hflow hfree hsent hcount.2.2 hbuffer hbatch
  | @reply sent rest houtbox =>
      refine { hflow with ledger := ?_ }
      change _ = ((pipe.chan ++ [sent] : List Reply) : Multiset Reply) + rest + pipe.handOwed +
        pipe.wal.desk.held + pipe.lost
      rw [hflow.ledger, houtbox, ← Multiset.coe_add, ← Multiset.cons_coe,
        ← Multiset.singleton_add]
      simp only [Multiset.coe_singleton, add_assoc]
  | toLog hhand hsent hwork => exact flow_toLog hflow hhand
  | toSlot hhand hsent hwork => exact flow_toSlot hflow hhand
  | rotate boundaryLsn => exact flow_control hflow rfl
  | retire boundaryLsn => exact flow_control hflow rfl
  | walReply houtbox => exact flow_walReply hflow houtbox
  | walRecycle houtbox => exact flow_walRecycle hflow houtbox
  | @wal act wal hinner hstep =>
      obtain ⟨hkeyed, hack, hrun⟩ := WalEngine.step_desk hflow.keyed hinner hstep
      obtain ⟨hheld, hpool⟩ := held_run hrun
      refine { hflow with
        ack := hack.trans hflow.ack
        keyed := hkeyed
        pool := ?_
        ledger := ?_ }
      · change ∀ batch ∈ wal.desk.pool, batch.Blank
        rw [hpool]
        exact hflow.pool
      · change _ = (pipe.chan : Multiset Reply) + pipe.outbox + pipe.handOwed + wal.desk.held +
          pipe.lost
        rw [hheld]
        exact hflow.ledger

/-- The process starts with blank buffers and nothing in flight. -/
theorem flow_start (mode : Mode) (segs : SortedMap ℕ Bytes) (db : Db) (startLsn : ℕ) :
    (start mode (Files.ofSegs segs) db startLsn).Flow := by
  refine ⟨rfl, WalEngine.keyed_new _ _ _ _ _, ?_, ?_, ?_, rfl, rfl, rfl, rfl⟩
  · intro batch hbatch
    cases hbatch
  · intro batch hbatch
    obtain ⟨buf, -, rfl⟩ := List.mem_map.mp hbatch
    exact ⟨rfl, rfl⟩
  · intro batch hbatch
    cases hbatch

/-- A property of the start that every change keeps holds along every run. -/
theorem reach_keeps {guard : Pipeline → Act → Prop} {Inv : Pipeline → Prop} {mode : Mode}
    {segs : SortedMap ℕ Bytes} {db : Db} {startLsn : ℕ}
    (hstart : Inv (start mode (Files.ofSegs segs) db startLsn))
    (hkeep : ∀ pipe act after, pipe.Flow → Inv pipe → guard pipe act → Change pipe act after →
      Inv after)
    (hreach : Machine.Reach step guard (start mode (Files.ofSegs segs) db startLsn) pipe) :
    pipe.Flow ∧ Inv pipe := by
  induction hreach with
  | start => exact ⟨flow_start mode segs db startLsn, hstart⟩
  | next _ hguard hstep ih =>
      have hchange := step_change hstep
      exact ⟨flow_change ih.1 hchange, hkeep _ _ _ ih.1 ih.2 hguard hchange⟩

/-- Responses are numbered like the requests they answer. -/
theorem Flow.tags_computed (hflow : pipe.Flow) :
    pipe.computed.map Reply.tag = List.range pipe.computed.length := by
  have h := congrArg (List.map Prod.snd) hflow.computed
  rw [List.map_map, List.map_map] at h
  have htake : (pipe.admitted.take pipe.computed.length).map Request.tag =
      List.range pipe.computed.length := by
    rw [List.map_take, hflow.tags, List.take_range, Nat.min_eq_left hflow.computed_le]
  exact h.trans htake

theorem Flow.nodup_tags (hflow : pipe.Flow) : (pipe.computed.map Reply.tag).Nodup := by
  rw [hflow.tags_computed]
  exact List.nodup_range

theorem Flow.chan_le (hflow : pipe.Flow) : (pipe.chan : Multiset Reply) ≤ pipe.computed := by
  rw [hflow.ledger, add_assoc, add_assoc, add_assoc]
  exact Multiset.le_add_right _ _

theorem Flow.tag_lt (hflow : pipe.Flow) {reply : Reply} (hreply : reply ∈ pipe.computed) :
    reply.tag < pipe.computed.length := by
  have hmem : reply.tag ∈ pipe.computed.map Reply.tag := List.mem_map_of_mem hreply
  rw [hflow.tags_computed] at hmem
  exact List.mem_range.mp hmem

/-- The requests a batch is cut from are in order, and newer than everything
that was answered before. -/
theorem Flow.cut_tags (hflow : pipe.Flow) {count : ℕ} {batch : Batch} {db : Db} {lsn : ℕ}
    (hcut : Cut pipe count batch db lsn) :
    (batch.items.Pairwise fun early late => early.tag < late.tag) ∧
      ∀ req ∈ batch.items, pipe.computed.length ≤ req.tag := by
  have htags : batch.items.map Request.tag =
      ((List.range pipe.admitted.length).drop pipe.computed.length).take count := by
    rw [← hflow.tags, ← List.map_drop, ← List.map_take, ← hflow.items]
    exact tags_answered hcut.answered
  constructor
  · apply List.pairwise_map.mp
    rw [htags]
    exact List.pairwise_lt_range.sublist
      ((List.take_sublist _ _).trans (List.drop_sublist _ _))
  · intro req hreq
    have hmem : req.tag ∈ batch.items.map Request.tag := List.mem_map_of_mem hreq
    rw [htags] at hmem
    have hdrop := List.mem_of_mem_take hmem
    rw [List.range_eq_range', List.drop_range', List.mem_range'] at hdrop
    obtain ⟨offset, -, htag⟩ := hdrop
    omega

end Pipeline

end InMemoryDb
