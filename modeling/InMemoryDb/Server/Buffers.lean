import InMemoryDb.Server.Flow

/-!
# The ring of buffers

The batches are preallocated and circulate.  Each buffer is in one place at any
time, and comes back to stage 2 with nothing in it.
-/

namespace InMemoryDb

open Wire Recover Stage2 Stage3

/-- The buffer of a write message. -/
def WalMsg.buf? : WalMsg → Option ℕ
  | .write batch => some batch.buf
  | _ => none

namespace Stage3

/-- The buffer of a queued write. -/
def IoWork.buf? : IoWork → Option ℕ
  | .write op => some op.data.buf
  | _ => none

/-- The buffer the thread is about to give back. -/
def Out.buf? : Out → Option ℕ
  | .reply _ => none
  | .recycle batch => some batch.buf

namespace WalEngine

variable {engine after : WalEngine}

/-- The buffers of the operations in flight. -/
def inflightBufs (engine : WalEngine) : Multiset ℕ :=
  engine.inflight.keys.val.filterMap fun key => (engine.inflight.lookup key).bind IoWork.buf?

/-- The buffers of the operations in line, in flight and pending. -/
def lineBufs (engine : WalEngine) : Multiset ℕ := (engine.line.filterMap IoWork.buf? : List ℕ)

/-- The buffers in stage 3's custody: the free pool, the channel, the line, the
batches that wait for an fsync, and those the thread is giving back. -/
def custody (engine : WalEngine) : Multiset ℕ :=
  (engine.recycleTx.map Batch.buf : List ℕ) + (engine.msgRx.filterMap WalMsg.buf? : List ℕ) +
    engine.lineBufs + (engine.awaitingFsync.map Batch.buf : List ℕ) +
    (engine.outbox.filterMap Out.buf? : List ℕ)

theorem lineBufs_eq (hkeyed : engine.Keyed) :
    engine.lineBufs = engine.inflightBufs + (engine.pending.filterMap IoWork.buf? : List ℕ) := by
  have hkeys : engine.inflight.keys.val = (engine.tickets : Multiset ℕ) := by
    refine (Multiset.Nodup.ext engine.inflight.keys.nodup
      (Multiset.coe_nodup.mpr hkeyed.nodup)).mpr fun key => ?_
    rw [Finset.mem_val, Finmap.mem_keys, Multiset.mem_coe, hkeyed.mem_iff]
  rw [lineBufs, line, List.filterMap_append, ← Multiset.coe_add, inflightBufs, hkeys, worksAt,
    List.filterMap_filterMap]
  rfl

theorem filterMap_buf_sends (advanced : Batch × List Reply) :
    (sends advanced).filterMap Out.buf? = [] := by
  rw [sends, List.filterMap_map]
  exact List.filterMap_eq_nil_iff.mpr fun _ _ => rfl

/-- The batches an fsync releases are given back, all of them. -/
theorem filterMap_buf_released (ack : Acker) (batches : List Batch) :
    ((batches.flatMap fun batch => sends (ack.advance batch .durable) ++
      [Out.recycle (ack.advance batch .durable).1]).filterMap Out.buf?) =
      batches.map Batch.buf := by
  induction batches with
  | nil => rfl
  | cons batch batches ih =>
      rw [List.flatMap_cons, List.filterMap_append, List.filterMap_append, filterMap_buf_sends, ih]
      rfl

/-- A batch whose write is done is given back or waits on. -/
theorem bufs_settled (batch : Batch) (ack : Acker) :
    ((if Acker.isSettled (ack.advance batch .written).1 then []
        else [(ack.advance batch .written).1]).map Batch.buf : Multiset ℕ) +
      ((if Acker.isSettled (ack.advance batch .written).1 then
        [Out.recycle (ack.advance batch .written).1] else []).filterMap Out.buf? : List ℕ) =
      {batch.buf} := by
  split_ifs
  · rfl
  · rfl

theorem custody_congr (hpool : after.recycleTx = engine.recycleTx)
    (hmsgRx : after.msgRx = engine.msgRx) (hline : List.Perm after.line engine.line)
    (hawaiting : after.awaitingFsync = engine.awaitingFsync)
    (houtbox : after.outbox = engine.outbox) : after.custody = engine.custody := by
  have hbufs : after.lineBufs = engine.lineBufs :=
    Multiset.coe_eq_coe.mpr (hline.filterMap _)
  rw [custody, custody, hpool, hmsgRx, hbufs, hawaiting, houtbox]

/-- Operations without a batch at the end of the line. -/
theorem custody_pending {works : List IoWork} (hworks : works.filterMap IoWork.buf? = [])
    (hpool : after.recycleTx = engine.recycleTx) (hmsgRx : after.msgRx = engine.msgRx)
    (hline : after.line = engine.line ++ works)
    (hawaiting : after.awaitingFsync = engine.awaitingFsync)
    (houtbox : after.outbox = engine.outbox) : after.custody = engine.custody := by
  have hbufs : after.lineBufs = engine.lineBufs := by
    rw [lineBufs, lineBufs, hline, List.filterMap_append, hworks, List.append_nil]
  rw [custody, custody, hpool, hmsgRx, hbufs, hawaiting, houtbox]

/-- What `inflight.remove` takes out of the line. -/
theorem lineBufs_pop (hkeyed : engine.Keyed) {cqe : Cqe} {rest : List Cqe} {ret : Return}
    {work : IoWork} (hpc : engine.pc = .reaping (cqe :: rest) ret)
    (hwork : engine.inflight.lookup cqe.userData = some work) :
    engine.lineBufs = (work.buf?.toList : Multiset ℕ) + (engine.pop cqe rest ret).lineBufs := by
  rw [lineBufs, line_pop hkeyed hpc hwork, lineBufs]
  cases hbuf : work.buf? with
  | none =>
      rw [List.filterMap_cons_none hbuf]
      simp
  | some buf =>
      rw [List.filterMap_cons_some hbuf]
      simp

theorem custody_enqueue {batch : Batch} {rest : List WalMsg}
    (hmsg : engine.msgRx = .write batch :: rest)
    (hbatch : { engine with msgRx := rest }.handleBatch batch = .ok after) :
    after.custody = engine.custody := by
  obtain ⟨-, -, out, -, rfl⟩ := handleBatch_inv hbatch
  change (engine.recycleTx.map Batch.buf : Multiset ℕ) + (rest.filterMap WalMsg.buf? : List ℕ) +
    (((engine.worksAt engine.tickets ++ (engine.pending ++ [IoWork.ofBatch
      { batch with out := out } engine.seg.offset])).filterMap IoWork.buf? : List ℕ) :
        Multiset ℕ) + (engine.awaitingFsync.map Batch.buf : List ℕ) +
    (engine.outbox.filterMap Out.buf? : List ℕ) = engine.custody
  have hlast : [IoWork.ofBatch { batch with out := out } engine.seg.offset].filterMap
      IoWork.buf? = [batch.buf] := rfl
  have hmsgs : engine.msgRx.filterMap WalMsg.buf? =
      batch.buf :: rest.filterMap WalMsg.buf? := by
    rw [hmsg]
    rfl
  rw [custody, hmsgs, lineBufs, line, ← List.append_assoc, List.filterMap_append, hlast,
    ← Multiset.coe_add]
  simp only [← Multiset.cons_coe, ← Multiset.singleton_add, Multiset.coe_nil, add_zero]
  abel

/-- Reaping a written batch takes it out of the line. -/
theorem custody_reapWritten (hkeyed : engine.Keyed) {cqe : Cqe} {rest : List Cqe} {ret : Return}
    {op : WriteOp} (hpc : engine.pc = .reaping (cqe :: rest) ret)
    (hwork : engine.inflight.lookup cqe.userData = some (.write op)) :
    ((engine.pop cqe rest ret).reapWritten op.data).custody = engine.custody := by
  have hline := lineBufs_pop hkeyed hpc hwork
  have hsettled := bufs_settled op.data engine.ack
  rw [reapWritten_eq]
  change (engine.recycleTx.map Batch.buf : Multiset ℕ) +
    (engine.msgRx.filterMap WalMsg.buf? : List ℕ) + (engine.pop cqe rest ret).lineBufs +
    ((engine.awaitingFsync ++ if Acker.isSettled (engine.ack.advance op.data .written).1 then []
      else [(engine.ack.advance op.data .written).1]).map Batch.buf : List ℕ) +
    ((engine.outbox ++ sends (engine.ack.advance op.data .written) ++
      if Acker.isSettled (engine.ack.advance op.data .written).1 then
        [Out.recycle (engine.ack.advance op.data .written).1] else []).filterMap
          Out.buf? : List ℕ) = engine.custody
  rw [custody, hline, List.map_append, List.filterMap_append, List.filterMap_append,
    filterMap_buf_sends, List.append_nil, ← Multiset.coe_add, ← Multiset.coe_add]
  change _ = _ + ({op.data.buf} + _) + _ + _
  rw [← hsettled]
  abel

/-- A retried write goes back to the head of the pending operations. -/
theorem custody_retry (hkeyed : engine.Keyed) {cqe : Cqe} {rest : List Cqe} {ret : Return}
    {op : WriteOp} (done : ℕ) (planner : FsyncPlanner)
    (hpc : engine.pc = .reaping (cqe :: rest) ret)
    (hwork : engine.inflight.lookup cqe.userData = some (.write op)) :
    { engine.pop cqe rest ret with
      fsyncPlanner := planner
      pending := IoWork.write { op with done := done } :: engine.pending }.custody =
      engine.custody := by
  have hline : { engine.pop cqe rest ret with
      fsyncPlanner := planner
      pending := IoWork.write { op with done := done } :: engine.pending }.lineBufs =
      engine.lineBufs := by
    rw [lineBufs, lineBufs, line_pop hkeyed hpc hwork]
    exact Multiset.coe_eq_coe.mpr ((line_retry (engine.pop cqe rest ret) planner _).filterMap _)
  rw [custody, custody, hline]
  rfl

/-- The release of the waiting batches, behind an fsync or a rotation. -/
theorem custody_release (hpool : after.recycleTx = engine.recycleTx)
    (hmsgRx : after.msgRx = engine.msgRx) (hline : after.lineBufs = engine.lineBufs)
    (hawaiting : after.awaitingFsync = [])
    (houtbox : after.outbox = engine.outbox ++ engine.awaitingFsync.flatMap fun batch =>
      sends (engine.ack.advance batch .durable) ++
        [Out.recycle (engine.ack.advance batch .durable).1]) :
    after.custody = engine.custody := by
  rw [custody, custody, hpool, hmsgRx, hline, hawaiting, houtbox, List.filterMap_append,
    filterMap_buf_released, ← Multiset.coe_add, List.map_nil, Multiset.coe_nil]
  abel

/-- No step of the thread or of the kernel loses or duplicates a buffer. -/
theorem custody_move {permit : Kind → WalEngine → Prop} (hkeyed : engine.Keyed)
    (harrive : ¬ permit .arrive engine) (hlend : ¬ permit .lend engine)
    (hmove : Move permit engine after) : after.custody = engine.custody := by
  cases hmove with
  | arrive msg hpermit hfeed => exact absurd hpermit harrive
  | lend hpermit hpool => exact absurd hpermit hlend
  | @send reply rest hpermit houtbox =>
      have hsame : rest.filterMap Out.buf? = engine.outbox.filterMap Out.buf? := by
        rw [houtbox]
        rfl
      rw [custody, custody, ← hsame]
      rfl
  | @giveBack batch rest hpermit houtbox =>
      have hhead : engine.outbox.filterMap Out.buf? = batch.buf :: rest.filterMap Out.buf? := by
        rw [houtbox]
        rfl
      change ((engine.recycleTx ++ [batch.recycle]).map Batch.buf : Multiset ℕ) + _ +
        engine.lineBufs + _ + (rest.filterMap Out.buf? : List ℕ) = _
      rw [custody, hhead, List.map_append, ← Multiset.coe_add, ← Multiset.cons_coe,
        ← Multiset.singleton_add]
      change _ + {batch.buf} + _ + _ + _ + _ = _
      abel
  | quiet spinBudget pc vacant htodo =>
      have htickets := @tickets_frame engine
        { engine with spinBudget := spinBudget, pc := pc, vacant := vacant } htodo rfl
      exact custody_congr rfl rfl (List.Perm.of_eq (line_congr htickets rfl rfl)) rfl rfl
  | @discard msg rest hpermit hmsg hkind =>
      have hsame : rest.filterMap WalMsg.buf? = engine.msgRx.filterMap WalMsg.buf? := by
        rw [hmsg]
        cases msg with
        | write batch => exact absurd rfl (hkind batch)
        | rotate boundaryLsn => rfl
        | retire boundaryLsn => rfl
      rw [custody, custody, ← hsame]
      rfl
  | enqueue hmsg hbatch => exact custody_enqueue hmsg hbatch
  | schedule starts hpermit hstarts =>
      have hremoves : (starts.map IoWork.remove).filterMap IoWork.buf? = [] := by
        simp [List.filterMap_map, Function.comp_def, IoWork.buf?]
      exact custody_pending hremoves rfl rfl (List.append_assoc _ _ _).symm rfl rfl
  | arm hdue =>
      exact @custody_pending engine _ [IoWork.fsync engine.lastIngestedLsn] rfl rfl rfl
        (List.append_assoc _ _ _).symm rfl rfl
  | push hpending =>
      exact custody_congr rfl rfl (List.Perm.of_eq (line_push hkeyed hpending)) rfl rfl
  | beginReap ret htodo =>
      exact custody_congr rfl rfl
        (List.Perm.of_eq (line_congr (tickets_beginReap _ _ htodo) rfl rfl)) rfl rfl
  | submit =>
      exact custody_congr rfl rfl
        (List.Perm.of_eq (line_congr (tickets_submitRing _) rfl rfl)) rfl rfl
  | @reapRemoved cqe rest ret startLsn hpc hwork =>
      have hline : engine.lineBufs = (engine.pop cqe rest ret).lineBufs := by
        rw [lineBufs_pop hkeyed hpc hwork]
        exact zero_add _
      rw [custody, custody, hline]
      rfl
  | reapWritten hpermit hpc hwork hres hdone => exact custody_reapWritten hkeyed hpc hwork
  | @reapRetry cqe rest ret op done hpc hwork hdone =>
      exact custody_retry hkeyed done _ hpc hwork
  | @reapDurable cqe rest ret target hpermit hpc hwork hres =>
      refine custody_release rfl rfl ?_ rfl rfl
      rw [lineBufs_pop hkeyed hpc hwork]
      exact (zero_add _).symm
  | sealed boundaryLsn hpermit hpending hinflight htodo =>
      have htickets := @tickets_frame engine (engine.sealSegment boundaryLsn) htodo.symm rfl
      refine custody_release rfl rfl ?_ rfl rfl
      rw [lineBufs, line_congr htickets rfl rfl]
      rfl
  | start hstart =>
      exact custody_congr rfl rfl
        (List.Perm.of_eq (line_congr (tickets_start _ hstart) rfl rfl)) rfl rfl
  | complete hcomplete => exact custody_congr rfl rfl (line_complete hcomplete) rfl rfl

theorem custody_step {act : Act} (hkeyed : engine.Keyed) (hinner : act.inner)
    (hstep : engine.step act = some after) : after.custody = engine.custody := by
  have hfeeds : Feeds engine act := by
    cases act with
    | arrive msg => exact hinner.elim
    | _ => trivial
  have hmove : ∀ current next : WalEngine,
      current.Keyed ∧ current.custody = engine.custody →
        Move (fun kind _ => kind ≠ .arrive ∧ kind ≠ .lend) current next →
          next.Keyed ∧ next.custody = engine.custody := by
    intro current next hcurrent hmove
    refine ⟨keyed_move hcurrent.1 hmove, ?_⟩
    rw [custody_move hcurrent.1 (fun h => h.1 rfl) (fun h => h.2 rfl) hmove, hcurrent.2]
  refine (step_keeps hmove ⟨hkeyed, rfl⟩ hfeeds ?_ hstep).2
  intro kind current hpermit
  constructor
  · rintro rfl
    obtain ⟨msg, rfl⟩ := hpermit
    exact hinner
  · rintro rfl
    obtain rfl : act = .lend := hpermit
    exact hinner

end WalEngine

end Stage3

namespace Pipeline

variable {pipe after : Pipeline}

/-- The buffer of a slot for one batch. -/
def bufIn : Option Batch → Multiset ℕ
  | none => 0
  | some batch => {batch.buf}

/-- A buffer as `recycle` leaves it. -/
def Clean (batch : Batch) : Prop := batch = Batch.withId batch.buf

/-- Every buffer is with stage 3, in the slot or in stage 2's hands, and those
stage 2 can take are clean. -/
structure Conserved (pipe : Pipeline) : Prop where
  ring : pipe.wal.custody + bufIn pipe.recycled + bufIn pipe.hand = Multiset.range nBuffers
  single : pipe.hand ≠ none → pipe.recycled = none
  slot : ∀ batch, pipe.recycled = some batch → Clean batch
  pool : ∀ batch ∈ pipe.wal.recycleTx, Clean batch

theorem conserved_start (mode : Mode) (files : Files) (db : Db) (startLsn : ℕ) :
    (start mode files db startLsn).Conserved := by
  refine ⟨?_, fun h => absurd rfl h, fun batch hbatch => (by cases hbatch), ?_⟩
  · change ((((List.range nBuffers).map Batch.withId).map Batch.buf : List ℕ) : Multiset ℕ) +
      0 + 0 + 0 + 0 + 0 + 0 = _
    rw [List.map_map]
    simp only [add_zero]
    exact congrArg _ (List.map_id _)
  · intro batch hbatch
    obtain ⟨buf, -, rfl⟩ := List.mem_map.mp hbatch
    rfl

theorem conserved_take (hconserved : pipe.Conserved) {count : ℕ} {buffer batch : Batch}
    {pool : List Batch} {db : Db} {lsn : ℕ} (hfree : pipe.hand = none)
    (hbuffer : (pipe.recycled = some buffer ∧ pool = pipe.wal.recycleTx) ∨
      (pipe.recycled = none ∧ pipe.wal.recycleTx = buffer :: pool))
    (hbatch : applyBatch pipe.db
      { buffer with items := buffer.items ++ pipe.items.take count } pipe.lsn =
        .ok (db, batch, lsn)) :
    (pipe.taken count db lsn batch pool).Conserved := by
  unfold taken
  obtain ⟨-, -, -, -, hshape⟩ := applyBatch_inv hbatch
  have hbuf : (pipe.ack.advance batch .applied).1.buf = buffer.buf := by
    rw [hshape]
    rfl
  have hring := hconserved.ring
  rw [hfree, WalEngine.custody] at hring
  refine ⟨?_, fun _ => rfl, fun other hother => (by cases hother), ?_⟩
  · change ((pool.map Batch.buf : List ℕ) : Multiset ℕ) +
      (pipe.wal.msgRx.filterMap WalMsg.buf? : List ℕ) + pipe.wal.lineBufs +
      (pipe.wal.awaitingFsync.map Batch.buf : List ℕ) +
      (pipe.wal.outbox.filterMap Out.buf? : List ℕ) + 0 +
      {(pipe.ack.advance batch .applied).1.buf} = _
    rw [hbuf, ← hring]
    rcases hbuffer with ⟨hslot, rfl⟩ | ⟨hslot, hpool⟩
    · rw [hslot, bufIn, bufIn]
      abel
    · rw [hslot, hpool, List.map_cons, ← Multiset.cons_coe, ← Multiset.singleton_add, bufIn]
      abel
  · intro other hother
    rcases hbuffer with ⟨-, rfl⟩ | ⟨-, hpool⟩
    · exact hconserved.pool other hother
    · refine hconserved.pool other ?_
      rw [hpool]
      exact List.mem_cons_of_mem _ hother

/-- A message at the end of the channel. -/
theorem custody_arrive (engine : WalEngine) (msg : WalMsg) :
    { engine with msgRx := engine.msgRx ++ [msg] }.custody =
      engine.custody + (msg.buf?.toList : Multiset ℕ) := by
  change _ + (((engine.msgRx ++ [msg]).filterMap WalMsg.buf? : List ℕ) : Multiset ℕ) +
    engine.lineBufs + _ + _ = _
  have hlast : [msg].filterMap WalMsg.buf? = msg.buf?.toList := by
    cases msg <;> rfl
  rw [List.filterMap_append, hlast, ← Multiset.coe_add, WalEngine.custody]
  abel

theorem conserved_control (hconserved : pipe.Conserved) {msg : WalMsg} (hmsg : msg.buf? = none) :
    { pipe with wal := { pipe.wal with msgRx := pipe.wal.msgRx ++ [msg] } }.Conserved := by
  refine ⟨?_, hconserved.single, hconserved.slot, hconserved.pool⟩
  rw [custody_arrive, hmsg, Option.toList_none, Multiset.coe_nil, add_zero]
  exact hconserved.ring

theorem conserved_change (hflow : pipe.Flow) (hconserved : pipe.Conserved) {act : Act}
    (hchange : Change pipe act after) : after.Conserved := by
  cases hchange with
  | accept conn data =>
      exact ⟨hconserved.ring, hconserved.single, hconserved.slot, hconserved.pool⟩
  | take hfree hsent hcount hbuffer hbatch => exact conserved_take hconserved hfree hbuffer hbatch
  | reply houtbox => exact ⟨hconserved.ring, hconserved.single, hconserved.slot, hconserved.pool⟩
  | @toLog batch hhand hsent hwork =>
      have hring := hconserved.ring
      rw [hhand] at hring
      refine ⟨?_, fun h => absurd rfl h, hconserved.slot, hconserved.pool⟩
      rw [custody_arrive, ← hring]
      change pipe.wal.custody + {batch.buf} + bufIn pipe.recycled + 0 =
        pipe.wal.custody + bufIn pipe.recycled + {batch.buf}
      abel
  | @toSlot batch hhand hsent hwork =>
      have hempty : pipe.recycled = none := by
        apply hconserved.single
        rw [hhand]
        exact Option.some_ne_none batch
      have hring := hconserved.ring
      rw [hhand, hempty] at hring
      refine ⟨?_, fun h => absurd rfl h, ?_, hconserved.pool⟩
      · rw [← hring]
        change pipe.wal.custody + {batch.buf} + 0 = pipe.wal.custody + 0 + {batch.buf}
        abel
      · intro other hother
        simp only [Option.some.injEq] at hother
        rw [← hother]
        rfl
  | rotate boundaryLsn => exact conserved_control hconserved rfl
  | retire boundaryLsn => exact conserved_control hconserved rfl
  | walReply houtbox =>
      have hmove : WalEngine.Move (fun kind _ => kind = .send) pipe.wal _ :=
        WalEngine.Move.send pipe.wal rfl houtbox
      refine ⟨?_, hconserved.single, hconserved.slot, hconserved.pool⟩
      rw [WalEngine.custody_move hflow.keyed (by simp) (by simp) hmove]
      exact hconserved.ring
  | walRecycle houtbox =>
      have hmove : WalEngine.Move (fun kind _ => kind = .send) pipe.wal _ :=
        WalEngine.Move.giveBack pipe.wal rfl houtbox
      refine ⟨?_, hconserved.single, hconserved.slot, ?_⟩
      · rw [WalEngine.custody_move hflow.keyed (by simp) (by simp) hmove]
        exact hconserved.ring
      · intro other hother
        rcases List.mem_append.mp hother with hold | hnew
        · exact hconserved.pool other hold
        · rw [List.mem_singleton.mp hnew]
          rfl
  | @wal act wal hinner hstep =>
      obtain ⟨-, -, hrun⟩ := WalEngine.step_desk hflow.keyed hinner hstep
      have hpool : wal.recycleTx = pipe.wal.recycleTx := (held_run hrun).2
      refine ⟨?_, hconserved.single, hconserved.slot, ?_⟩
      · rw [WalEngine.custody_step hflow.keyed hinner hstep]
        exact hconserved.ring
      · rw [hpool]
        exact hconserved.pool

/-- In every state of every run, with any rotate and retire messages: each of the
buffers is in exactly one place (the free pool, the slot, stage 2's hands, the
channel, pending, in flight, waiting for an fsync, or being given back), and the
buffer stage 2 takes next is empty. -/
theorem buffers_conserved {mode : Mode} {segs : SortedMap ℕ Bytes} {db : Db} {startLsn : ℕ}
    (hreach : Machine.Reach step (fun _ _ => True) (start mode (Files.ofSegs segs) db startLsn)
      pipe) :
    (pipe.wal.recycleTx.map Batch.buf : List ℕ) + bufIn pipe.recycled + bufIn pipe.hand +
        (pipe.wal.msgRx.filterMap WalMsg.buf? : List ℕ) +
        (pipe.wal.pending.filterMap IoWork.buf? : List ℕ) + pipe.wal.inflightBufs +
        (pipe.wal.awaitingFsync.map Batch.buf : List ℕ) +
        (pipe.wal.outbox.filterMap Out.buf? : List ℕ) = Multiset.range nBuffers ∧
      ∀ buffer rest, pipe.takeBuffer = some (buffer, rest) →
        buffer.items = [] ∧ buffer.out = [] ∧ buffer.lsnLow = 0 ∧ buffer.lsnHi = 0 := by
  obtain ⟨hflow, hconserved⟩ := reach_keeps (conserved_start mode (Files.ofSegs segs) db startLsn)
    (fun _ _ _ hflow hconserved _ hchange => conserved_change hflow hconserved hchange) hreach
  constructor
  · have hring := hconserved.ring
    rw [WalEngine.custody, WalEngine.lineBufs_eq hflow.keyed] at hring
    rw [← hring]
    abel
  · intro buffer rest htake
    have hclean : Clean buffer := by
      unfold takeBuffer at htake
      split at htake
      next slot hslot =>
        simp only [Option.some.injEq, Prod.mk.injEq] at htake
        rw [← htake.1]
        exact hconserved.slot slot hslot
      next hslot =>
        split at htake
        next => cases htake
        next head pool hpool =>
          simp only [Option.some.injEq, Prod.mk.injEq] at htake
          rw [← htake.1]
          refine hconserved.pool head ?_
          rw [hpool]
          exact List.mem_cons_self
    rw [hclean]
    exact ⟨rfl, rfl, rfl, rfl⟩

/-- A batch of a PUT is in flight, the next one in stage 2's hands. -/
theorem buffers_conserved_two :
    ∃ pipe, Machine.Reach step (fun _ _ => True)
        (start .sync (Files.ofSegs SortedMap.empty) Db.new 1) pipe ∧
      pipe.wal.inflight ≠ ∅ ∧ pipe.hand ≠ none ∧
      (pipe.wal.recycleTx.map Batch.buf : List ℕ) + bufIn pipe.recycled + bufIn pipe.hand +
        (pipe.wal.msgRx.filterMap WalMsg.buf? : List ℕ) +
        (pipe.wal.pending.filterMap IoWork.buf? : List ℕ) + pipe.wal.inflightBufs +
        (pipe.wal.awaitingFsync.map Batch.buf : List ℕ) +
        (pipe.wal.outbox.filterMap Out.buf? : List ℕ) = Multiset.range nBuffers := by
  obtain ⟨pipe, hreach, hdone⟩ := @Machine.exists_reach _ _ step (fun _ _ => True)
    (start .sync (Files.ofSegs SortedMap.empty) Db.new 1) _
    [.accept 7 (.smallPut 65 66), .take 1, .dispatch, .wal .poll, .wal .plan, .wal .reap,
      .accept 7 (.smallPut 65 67), .take 1]
    (fun pipe => decide (pipe.wal.inflight ≠ ∅ ∧ pipe.hand ≠ none)) (by decide +kernel)
  obtain ⟨hinflight, hhand⟩ : pipe.wal.inflight ≠ ∅ ∧ pipe.hand ≠ none := of_decide_eq_true hdone
  exact ⟨pipe, hreach, hinflight, hhand, (buffers_conserved hreach).1⟩

end Pipeline

end InMemoryDb
