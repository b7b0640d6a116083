import InMemoryDb.Server.Stage3.Line
import Mathlib.Data.Multiset.Bind

/-!
# Who still has to be answered

The abstract view of stage 3 for everything that is about responses.  A `Desk`
forgets the ring, the files and the order of the line: a batch waits for its
write, or for an fsync, or is being answered, or has been recycled.  Every step
of the engine is a short sequence of `Desk.Inner` steps, and none of them loses
or invents a response.
-/

namespace InMemoryDb

/-- The responses a list of requests still waits for, in request order. -/
def owedOf (items : List Request) : List Reply := items.filterMap Request.owed

/-- The requests of a write message. -/
def WalMsg.items? : WalMsg → Option (List Request)
  | .write batch => some batch.items
  | _ => none

namespace Stage3

open Relation

/-- The requests of a queued write. -/
def IoWork.items? : IoWork → Option (List Request)
  | .write op => some op.data.items
  | _ => none

@[ext]
structure Desk where
  /-- The requests of every batch in the channel or in line. -/
  waiting : Multiset (List Request)
  awaiting : List Batch
  outbox : List Out
  pool : List Batch
  returned : List Batch
  /-- The requests of every batch that was given a place in the log. -/
  logged : List (List Request)

namespace Desk

/-- The responses stage 3 holds: those it is sending, and those of the batches
it has not finished with. -/
def held (desk : Desk) : Multiset Reply :=
  (desk.outbox.filterMap Out.reply? : Multiset Reply) +
    (desk.awaiting.flatMap Batch.owed : Multiset Reply) +
    desk.waiting.bind fun items => (owedOf items : Multiset Reply)

/-- What the thread sends, and what it leaves waiting, when a write is done. -/
def written (desk : Desk) (ack : Acker) (batch : Batch) (rest : Multiset (List Request)) :
    Desk :=
  let advanced := ack.advance batch .written
  { desk with
    waiting := rest
    outbox := desk.outbox ++ WalEngine.sends advanced ++
      if Acker.isSettled advanced.1 then [Out.recycle advanced.1] else []
    awaiting := desk.awaiting ++ if Acker.isSettled advanced.1 then [] else [advanced.1] }

/-- What the thread sends when an fsync is done. -/
def release (desk : Desk) (ack : Acker) : Desk :=
  { desk with
    awaiting := []
    outbox := desk.outbox ++ desk.awaiting.flatMap fun batch =>
      let advanced := ack.advance batch .durable
      WalEngine.sends advanced ++ [Out.recycle advanced.1] }

/-- The steps of the engine thread; `allow` says which completed writes may be
reaped. -/
inductive Inner (ack : Acker) (allow : Batch → Prop) : Desk → Desk → Prop
  | still (desk : Desk) : Inner ack allow desk desk
  | log (desk : Desk) {items : List Request} (hitems : items ∈ desk.waiting) :
      Inner ack allow desk { desk with logged := desk.logged ++ [items] }
  | written (desk : Desk) {batch : Batch} {rest : Multiset (List Request)}
      (hallow : allow batch) (hwaiting : desk.waiting = batch.items ::ₘ rest) :
      Inner ack allow desk (desk.written ack batch rest)
  | release (desk : Desk) : Inner ack allow desk (desk.release ack)

theorem Inner.mono {ack : Acker} {allow allow' : Batch → Prop}
    (himp : ∀ batch, allow batch → allow' batch) {desk after : Desk}
    (hinner : Inner ack allow desk after) : Inner ack allow' desk after := by
  cases hinner with
  | still => exact Inner.still _
  | log hitems => exact Inner.log _ hitems
  | written hallow hwaiting => exact Inner.written _ (himp _ hallow) hwaiting
  | release => exact Inner.release _

@[simp]
theorem filterMap_reply_cons (sent : Reply) (rest : List Out) :
    (Out.reply sent :: rest).filterMap Out.reply? = sent :: rest.filterMap Out.reply? := rfl

@[simp]
theorem filterMap_recycle_cons (batch : Batch) (rest : List Out) :
    (Out.recycle batch :: rest).filterMap Out.reply? = rest.filterMap Out.reply? := rfl

theorem filterMap_sends (advanced : Batch × List Reply) :
    (WalEngine.sends advanced).filterMap Out.reply? = advanced.2 := by
  rw [WalEngine.sends, List.filterMap_map]
  exact List.filterMap_some

theorem filterMap_released (ack : Acker) (batches : List Batch) :
    ((batches.flatMap fun batch => WalEngine.sends (ack.advance batch .durable) ++
      [Out.recycle (ack.advance batch .durable).1]).filterMap Out.reply?) =
      batches.flatMap Batch.owed := by
  induction batches with
  | nil => rfl
  | cons batch batches ih =>
      rw [List.flatMap_cons, List.filterMap_append, ih, List.filterMap_append, filterMap_sends,
        Acker.advance_durable, List.flatMap_cons, filterMap_recycle_cons, List.filterMap_nil,
        List.append_nil]

/-- A settled batch owes nothing. -/
theorem owed_of_settled (ack : Acker) (batch : Batch) (point : AckPoint) :
    (if Acker.isSettled (ack.advance batch point).1 then []
      else [(ack.advance batch point).1]).flatMap Batch.owed =
      (ack.advance batch point).1.owed := by
  by_cases hsettled : Acker.isSettled (ack.advance batch point).1 = true
  · rw [if_pos hsettled, (Acker.isSettled_iff _).mp hsettled]
    rfl
  · rw [if_neg hsettled, List.flatMap_singleton]

/-- No step of the thread loses or invents a response. -/
theorem held_inner {ack : Acker} {allow : Batch → Prop} {desk after : Desk}
    (hinner : Inner ack allow desk after) : after.held = desk.held := by
  cases hinner with
  | still => rfl
  | log hitems => rfl
  | @written batch rest hallow hwaiting =>
      have howed : (↑(ack.advance batch .written).2 : Multiset Reply) +
          ↑(ack.advance batch .written).1.owed = ↑(owedOf batch.items) :=
        (Multiset.coe_eq_coe.mpr (ack.advance_owed batch .written)).symm
      have hrecycle : (if Acker.isSettled (ack.advance batch .written).1 then
          [Out.recycle (ack.advance batch .written).1] else []).filterMap Out.reply? = [] := by
        split_ifs <;> rfl
      simp only [held, Desk.written, List.filterMap_append, filterMap_sends, hrecycle,
        List.append_nil, List.flatMap_append, owed_of_settled, hwaiting, Multiset.cons_bind,
        ← Multiset.coe_add, ← howed]
      abel
  | release =>
      simp only [held, Desk.release, List.filterMap_append, filterMap_released,
        ← Multiset.coe_add, List.flatMap_nil, Multiset.coe_nil, add_zero]

/-- A batch that arrives brings its responses along. -/
theorem held_arrive (desk : Desk) (items : List Request) :
    { desk with waiting := items ::ₘ desk.waiting }.held =
      desk.held + (owedOf items : Multiset Reply) := by
  simp only [held, Multiset.cons_bind]
  abel

theorem held_send {desk : Desk} {sent : Reply} {rest : List Out}
    (houtbox : desk.outbox = .reply sent :: rest) :
    desk.held = {sent} + { desk with outbox := rest }.held := by
  simp only [held, houtbox, filterMap_reply_cons, ← Multiset.cons_coe, ← Multiset.singleton_add,
    add_assoc]

theorem held_giveBack {desk : Desk} {batch : Batch} {rest : List Out}
    (houtbox : desk.outbox = .recycle batch :: rest) (pool returned : List Batch) :
    { desk with outbox := rest, pool := pool, returned := returned }.held = desk.held := by
  simp only [held, houtbox, filterMap_recycle_cons]

end Desk

namespace WalEngine

variable {engine after : WalEngine}

def desk (engine : WalEngine) : Desk :=
  { waiting := (engine.line.filterMap IoWork.items? : Multiset (List Request)) +
      (engine.msgRx.filterMap WalMsg.items? : Multiset (List Request))
    awaiting := engine.awaitingFsync
    outbox := engine.outbox
    pool := engine.recycleTx
    returned := engine.returned
    logged := engine.queued.map fun entry => entry.batch.items }

/-- The batch whose write the next completion to be reaped reports as done in
full. -/
def nextWritten (engine : WalEngine) : Option Batch :=
  match engine.todo with
  | [] => none
  | cqe :: _ =>
      match engine.inflight.lookup cqe.userData with
      | some (.write op) =>
          if 0 ≤ cqe.result ∧ op.data.out.length ≤ op.done + cqe.result.toNat then some op.data
          else none
      | _ => none

/-- The desk sees the line only up to order. -/
theorem desk_congr (hline : List.Perm after.line engine.line)
    (hmsgRx : after.msgRx = engine.msgRx) (hawaiting : after.awaitingFsync = engine.awaitingFsync)
    (houtbox : after.outbox = engine.outbox) (hpool : after.recycleTx = engine.recycleTx)
    (hreturned : after.returned = engine.returned) (hqueued : after.queued = engine.queued) :
    after.desk = engine.desk := by
  have hitems : (↑(after.line.filterMap IoWork.items?) : Multiset (List Request)) =
      ↑(engine.line.filterMap IoWork.items?) :=
    Multiset.coe_eq_coe.mpr (hline.filterMap _)
  simp only [desk, hitems, hmsgRx, hawaiting, houtbox, hpool, hreturned, hqueued]

/-- Operations without requests at the end of the line. -/
theorem desk_pending {works : List IoWork} (hworks : works.filterMap IoWork.items? = [])
    (hline : after.line = engine.line ++ works) (hmsgRx : after.msgRx = engine.msgRx)
    (hawaiting : after.awaitingFsync = engine.awaitingFsync)
    (houtbox : after.outbox = engine.outbox) (hpool : after.recycleTx = engine.recycleTx)
    (hreturned : after.returned = engine.returned) (hqueued : after.queued = engine.queued) :
    after.desk = engine.desk := by
  simp only [desk, hline, List.filterMap_append, hworks, List.append_nil, hmsgRx, hawaiting,
    houtbox, hpool, hreturned, hqueued]

/-- What `inflight.remove` does to the desk. -/
theorem waiting_pop (hkeyed : engine.Keyed) {cqe : Cqe} {rest : List Cqe} {ret : Return}
    {work : IoWork} (hpc : engine.pc = .reaping (cqe :: rest) ret)
    (hwork : engine.inflight.lookup cqe.userData = some work) :
    engine.desk.waiting = (work.items?.toList : Multiset (List Request)) +
      (engine.pop cqe rest ret).desk.waiting := by
  simp only [desk, line_pop hkeyed hpc hwork]
  cases hitems : work.items? with
  | none =>
      rw [List.filterMap_cons_none hitems]
      simp [pop]
  | some items =>
      rw [List.filterMap_cons_some hitems]
      simp [pop]

/-- `handle_batch` moves a batch from the channel into the line. -/
theorem desk_enqueue {batch : Batch} {rest : List WalMsg}
    (hmsg : engine.msgRx = .write batch :: rest)
    (hbatch : { engine with msgRx := rest }.handleBatch batch = .ok after) :
    batch.items ∈ engine.desk.waiting ∧
      after.desk = { engine.desk with logged := engine.desk.logged ++ [batch.items] } := by
  obtain ⟨-, -, out, -, rfl⟩ := handleBatch_inv hbatch
  have hmsgs : engine.msgRx.filterMap WalMsg.items? =
      batch.items :: rest.filterMap WalMsg.items? := by
    rw [hmsg]
    rfl
  constructor
  · simp [desk, hmsgs]
  · refine Desk.ext ?_ rfl rfl rfl rfl ?_
    · change (((engine.worksAt engine.tickets ++ (engine.pending ++ [IoWork.ofBatch
        { batch with out := out } engine.seg.offset])).filterMap IoWork.items? :
          List (List Request)) : Multiset (List Request)) + _ = engine.desk.waiting
      have hlast : [IoWork.ofBatch { batch with out := out } engine.seg.offset].filterMap
          IoWork.items? = [batch.items] := rfl
      rw [← List.append_assoc, List.filterMap_append, hlast, desk, hmsgs]
      simp only [line, ← Multiset.coe_add, ← Multiset.cons_coe, Multiset.coe_nil,
        ← Multiset.singleton_add]
      abel
    · simp [desk]

theorem desk_retry (hkeyed : engine.Keyed) {cqe : Cqe} {rest : List Cqe} {ret : Return}
    {op : WriteOp} (done : ℕ) (planner : FsyncPlanner)
    (hpc : engine.pc = .reaping (cqe :: rest) ret)
    (hwork : engine.inflight.lookup cqe.userData = some (.write op)) :
    { engine.pop cqe rest ret with
      fsyncPlanner := planner
      pending := IoWork.write { op with done := done } :: engine.pending }.desk =
      engine.desk := by
  have hwaiting : (({ engine.pop cqe rest ret with
      fsyncPlanner := planner
      pending := IoWork.write { op with done := done } :: engine.pending }.line.filterMap
        IoWork.items? : List (List Request)) : Multiset (List Request)) =
      engine.line.filterMap IoWork.items? := by
    rw [line_pop hkeyed hpc hwork]
    exact Multiset.coe_eq_coe.mpr ((line_retry (engine.pop cqe rest ret) planner _).filterMap _)
  simp only [desk, hwaiting]
  rfl

/-- What one move of the thread does to the desk. -/
theorem inner_move {permit : Kind → WalEngine → Prop} (hkeyed : engine.Keyed)
    (harrive : ¬ permit .arrive engine) (hsend : ¬ permit .send engine)
    (hlend : ¬ permit .lend engine) (hmove : Move permit engine after) :
    Desk.Inner engine.ack
      (fun batch => permit .written engine ∧ engine.nextWritten = some batch)
      engine.desk after.desk := by
  cases hmove with
  | arrive msg hpermit hfeed => exact absurd hpermit harrive
  | send hpermit houtbox => exact absurd hpermit hsend
  | giveBack hpermit houtbox => exact absurd hpermit hsend
  | lend hpermit hpool => exact absurd hpermit hlend
  | quiet spinBudget pc vacant htodo =>
      have htickets := @tickets_frame engine
        { engine with spinBudget := spinBudget, pc := pc, vacant := vacant } htodo rfl
      rw [desk_congr (List.Perm.of_eq (line_congr htickets rfl rfl)) rfl rfl rfl rfl rfl rfl]
      exact Desk.Inner.still _
  | @discard msg rest hpermit hmsg hkind =>
      have hnone : msg.items? = none := by
        cases msg with
        | write batch => exact absurd rfl (hkind batch)
        | rotate boundaryLsn => rfl
        | retire boundaryLsn => rfl
      have hsame : { engine with msgRx := rest }.desk = engine.desk := by
        simp only [desk, hmsg, List.filterMap_cons_none hnone]
        rfl
      rw [hsame]
      exact Desk.Inner.still _
  | enqueue hmsg hbatch =>
      obtain ⟨hmem, hdesk⟩ := desk_enqueue hmsg hbatch
      rw [hdesk]
      exact Desk.Inner.log _ hmem
  | schedule starts hpermit hstarts =>
      have hremoves : (starts.map IoWork.remove).filterMap IoWork.items? = [] := by
        simp [List.filterMap_map, Function.comp_def, IoWork.items?]
      have hline : { engine with pending := engine.pending ++ starts.map IoWork.remove }.line =
          engine.line ++ starts.map IoWork.remove := (List.append_assoc _ _ _).symm
      rw [desk_pending hremoves hline rfl rfl rfl rfl rfl rfl]
      exact Desk.Inner.still _
  | arm hdue =>
      rw [@desk_pending engine { engine with
          fsyncPlanner := { engine.fsyncPlanner with dirtyBytes := 0, flushRunning := true }
          pending := engine.pending ++ [IoWork.fsync engine.lastIngestedLsn] }
        [IoWork.fsync engine.lastIngestedLsn] rfl (List.append_assoc _ _ _).symm rfl rfl rfl rfl
        rfl rfl]
      exact Desk.Inner.still _
  | push hpending =>
      rw [desk_congr (List.Perm.of_eq (line_push hkeyed hpending)) rfl rfl rfl rfl rfl rfl]
      exact Desk.Inner.still _
  | beginReap ret htodo =>
      rw [desk_congr (List.Perm.of_eq (line_congr (tickets_beginReap _ _ htodo) rfl rfl))
        rfl rfl rfl rfl rfl rfl]
      exact Desk.Inner.still _
  | submit =>
      rw [desk_congr (List.Perm.of_eq (line_congr (tickets_submitRing _) rfl rfl))
        rfl rfl rfl rfl rfl rfl]
      exact Desk.Inner.still _
  | @reapRemoved cqe rest ret startLsn hpc hwork =>
      have hwaiting := waiting_pop hkeyed hpc hwork
      simp only [IoWork.items?, Option.toList_none, Multiset.coe_nil, zero_add] at hwaiting
      have hsame : (engine.pop cqe rest ret).desk = engine.desk :=
        Desk.ext hwaiting.symm rfl rfl rfl rfl rfl
      rw [hsame]
      exact Desk.Inner.still _
  | @reapWritten cqe rest ret op hpermit hpc hwork hres hdone =>
      have hwaiting := waiting_pop hkeyed hpc hwork
      have hdesk : ((engine.pop cqe rest ret).reapWritten op.data).desk =
          engine.desk.written engine.ack op.data (engine.pop cqe rest ret).desk.waiting := by
        rw [reapWritten_eq]
        rfl
      have hnext : engine.nextWritten = some op.data := by
        simp only [nextWritten, todo, hpc, Pc.todo, hwork, hres, hdone, and_self, if_true]
      rw [hdesk]
      refine Desk.Inner.written _ ⟨hpermit, hnext⟩ ?_
      simpa [IoWork.items?] using hwaiting
  | @reapRetry cqe rest ret op done hpc hwork hdone =>
      rw [desk_retry hkeyed done _ hpc hwork]
      exact Desk.Inner.still _
  | @reapDurable cqe rest ret target hpermit hpc hwork hres =>
      have hwaiting := waiting_pop hkeyed hpc hwork
      simp only [IoWork.items?, Option.toList_none, Multiset.coe_nil, zero_add] at hwaiting
      have hdesk : { (engine.pop cqe rest ret).releaseDurable with
          fsyncPlanner := engine.fsyncPlanner.onFsyncCompleted }.desk =
          engine.desk.release engine.ack :=
        Desk.ext hwaiting.symm rfl rfl rfl rfl rfl
      rw [hdesk]
      exact Desk.Inner.release _
  | sealed boundaryLsn hpermit hpending hinflight htodo =>
      have htickets := @tickets_frame engine (engine.sealSegment boundaryLsn) htodo.symm rfl
      have hline : (engine.sealSegment boundaryLsn).line = engine.line :=
        line_congr htickets rfl rfl
      have hdesk : (engine.sealSegment boundaryLsn).desk = engine.desk.release engine.ack := by
        rw [desk, hline]
        rfl
      rw [hdesk]
      exact Desk.Inner.release _
  | start hstart =>
      rw [desk_congr (List.Perm.of_eq (line_congr (tickets_start _ hstart) rfl rfl))
        rfl rfl rfl rfl rfl rfl]
      exact Desk.Inner.still _
  | complete hcomplete =>
      rw [desk_congr (line_complete hcomplete) rfl rfl rfl rfl rfl rfl]
      exact Desk.Inner.still _

theorem ack_move {permit : Kind → WalEngine → Prop} (hmove : Move permit engine after) :
    after.ack = engine.ack := by
  cases hmove with
  | enqueue hmsg hbatch =>
      obtain ⟨-, -, out, -, rfl⟩ := handleBatch_inv hbatch
      rfl
  | reapWritten hpermit hpc hwork hres hdone =>
      rw [reapWritten_eq]
      rfl
  | _ => rfl

/-- Actions of the engine thread and of the kernel that neither take anything
from another thread nor hand anything over. -/
def Act.inner : Act → Prop
  | .arrive _ => False
  | .send => False
  | .lend => False
  | _ => True

/-- The engine refines the desk: an inner step is a sequence of desk steps, and
a write it reaps is the next completion. -/
theorem step_desk {act : Act} (hkeyed : engine.Keyed) (hinner : act.inner)
    (hstep : engine.step act = some after) :
    after.Keyed ∧ after.ack = engine.ack ∧
      ReflTransGen (Desk.Inner engine.ack
        fun batch => act = .reap ∧ engine.nextWritten = some batch) engine.desk after.desk := by
  have hfeeds : Feeds engine act := by
    cases act with
    | arrive msg => exact hinner.elim
    | _ => trivial
  have hmoves := step_moves hfeeds hstep
  clear hstep
  induction hmoves with
  | refl => exact ⟨hkeyed, rfl, ReflTransGen.refl⟩
  | @tail current last _ hmove ih =>
      obtain ⟨hkeyed', hack, hdesk⟩ := ih
      refine ⟨keyed_move hkeyed' hmove, (ack_move hmove).trans hack, hdesk.tail ?_⟩
      have hlast : Desk.Inner current.ack
          (fun batch => engine.Permits act .written current ∧ current.nextWritten = some batch)
          current.desk last.desk := by
        refine inner_move hkeyed' ?_ ?_ ?_ hmove
        · rintro ⟨msg, rfl⟩
          exact hinner
        · rintro rfl
          exact hinner
        · rintro rfl
          exact hinner
      rw [hack] at hlast
      refine hlast.mono ?_
      rintro batch ⟨⟨rfl, hact⟩, hnext⟩
      exact ⟨hact, hnext⟩

end WalEngine

end Stage3

end InMemoryDb
