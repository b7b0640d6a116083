import InMemoryDb.Server.Stage3.Desk
import InMemoryDb.Server.Stage3.Layout

/-!
# What a response stands for

`Acker::advance` sends the responses of a batch when its write, or an fsync behind
it, is done.  So each response that leaves stage 3 is of a request in a batch that was
acknowledged, and that batch carries the numbers and the requests stage 2 gave it.
-/

namespace InMemoryDb

/-- What no stage changes in a batch: its place in the numbering, and its requests. -/
def Batch.label (batch : Batch) : ℕ × List (ℕ × Payload) :=
  (batch.lsnLow, batch.items.map fun req => (req.tag, req.data))

@[simp]
theorem label_advance (ack : Acker) (batch : Batch) (reached : AckPoint) :
    (ack.advance batch reached).1.label = batch.label := by
  simp [Acker.advance, Batch.label]

/-- Records are made of the payloads. -/
theorem records_eq_of_data {first second : List Request}
    (hdata : first.map (fun req => (req.tag, req.data)) =
      second.map fun req => (req.tag, req.data)) (lsn : ℕ) :
    records lsn first = records lsn second := by
  induction first generalizing second lsn with
  | nil =>
      rw [List.map_nil, eq_comm, List.map_eq_nil_iff] at hdata
      rw [hdata]
  | cons req first ih =>
      cases second with
      | nil => cases hdata
      | cons other second =>
          obtain ⟨hhead, hrest⟩ := List.cons.inj hdata
          have hsame : req.data = other.data := (Prod.mk.inj hhead).2
          have hop : req.op = other.op := congrArg Payload.op hsame
          simp only [records, hop, hsame, ih hrest]

namespace Stage3.WalEngine

variable {engine after : WalEngine} {permit : Kind → WalEngine → Prop}

/-- The response was sent for a batch that was acknowledged. -/
def Receipt (engine : WalEngine) (reply : Reply) : Prop :=
  ∃ ack ∈ engine.acked, ∃ req ∈ ack.batch.items, engine.ack.released ack.point req = some reply

theorem acked_move (hmove : Move permit engine after) :
    ∀ ack ∈ engine.acked, ack ∈ after.acked := by
  cases hmove with
  | enqueue hmsg hbatch =>
      obtain ⟨-, -, out, -, rfl⟩ := handleBatch_inv hbatch
      exact fun _ h => h
  | reapWritten hpermit hpc hwork hres hdone =>
      rw [reapWritten_eq]
      exact fun _ h => List.mem_append_left _ h
  | reapDurable hpermit hpc hwork hres => exact fun _ h => List.mem_append_left _ h
  | sealed boundaryLsn hpermit hpending hinflight htodo => exact fun _ h => List.mem_append_left _ h
  | _ => exact fun _ h => h

theorem Receipt.move {reply : Reply} (hreceipt : engine.Receipt reply)
    (hmove : Move permit engine after) : after.Receipt reply := by
  obtain ⟨ack, hack, req, hreq, hreleased⟩ := hreceipt
  refine ⟨ack, acked_move hmove ack hack, req, hreq, ?_⟩
  rw [ack_move hmove]
  exact hreleased

/-- Every batch of stage 3 has a label of a kind, and every response it is sending has
its receipt. -/
structure Receipted (Good : ℕ × List (ℕ × Payload) → Prop) (engine : WalEngine) : Prop where
  inbox : ∀ batch, .write batch ∈ engine.msgRx → Good batch.label
  line : ∀ op, .write op ∈ engine.line → Good op.data.label
  awaiting : ∀ batch ∈ engine.awaitingFsync, Good batch.label
  acked : ∀ ack ∈ engine.acked, Good ack.batch.label
  sent : ∀ reply, .reply reply ∈ engine.outbox → engine.Receipt reply
  /-- Below Sync nothing waits for an fsync, so nothing is acknowledged behind one. -/
  eager : engine.ack.level ≤ .written →
    engine.awaitingFsync = [] ∧ ∀ ack ∈ engine.acked, ack.point ≤ .written

variable {Good : ℕ × List (ℕ × Payload) → Prop}

theorem receipted_new (depth : ℕ) (files : Files) (startLsn : ℕ) (mode : Mode) (pool : List Batch) :
    Receipted Good (new depth files startLsn mode pool) := by
  refine ⟨?_, ?_, ?_, ?_, ?_, fun _ => ⟨rfl, ?_⟩⟩
  all_goals exact fun _ h => by cases h

theorem Receipted.mono {Good' : ℕ × List (ℕ × Payload) → Prop} (hreceipted : Receipted Good engine)
    (himp : ∀ label, Good label → Good' label) : Receipted Good' engine := by
  refine ⟨?_, ?_, ?_, ?_, hreceipted.sent, hreceipted.eager⟩
  · exact fun batch hbatch => himp _ (hreceipted.inbox batch hbatch)
  · exact fun op hop => himp _ (hreceipted.line op hop)
  · exact fun batch hbatch => himp _ (hreceipted.awaiting batch hbatch)
  · exact fun ack hack => himp _ (hreceipted.acked ack hack)

/-- A move that acknowledges nothing. -/
theorem Receipted.frame (hreceipted : Receipted Good engine) (hack : after.ack = engine.ack)
    (hinbox : ∀ msg ∈ after.msgRx, msg ∈ engine.msgRx)
    (hline : ∀ op, .write op ∈ after.line →
      ∃ op', .write op' ∈ engine.line ∧ op'.data.label = op.data.label)
    (hawaiting : after.awaitingFsync = engine.awaitingFsync) (hacked : after.acked = engine.acked)
    (houtbox : ∀ out ∈ after.outbox, out ∈ engine.outbox) : Receipted Good after := by
  refine ⟨fun batch hbatch => hreceipted.inbox batch (hinbox _ hbatch), ?_, ?_, ?_, ?_, ?_⟩
  · intro op hop
    obtain ⟨op', hop', hlabel⟩ := hline op hop
    rw [← hlabel]
    exact hreceipted.line op' hop'
  · rw [hawaiting]
    exact hreceipted.awaiting
  · rw [hacked]
    exact hreceipted.acked
  · intro reply hreply
    have hreceipt := hreceipted.sent reply (houtbox _ hreply)
    rw [Receipt, ← hacked, ← hack] at hreceipt
    exact hreceipt
  · rw [hack, hawaiting, hacked]
    exact hreceipted.eager

/-- A move that touches neither the line nor the channels. -/
theorem Receipted.same (hreceipted : Receipted Good engine) (hack : after.ack = engine.ack)
    (hinbox : after.msgRx = engine.msgRx) (hline : ∀ work, work ∈ after.line ↔ work ∈ engine.line)
    (hawaiting : after.awaitingFsync = engine.awaitingFsync) (hacked : after.acked = engine.acked)
    (houtbox : after.outbox = engine.outbox) : Receipted Good after := by
  refine hreceipted.frame hack ?_ ?_ hawaiting hacked ?_
  · rw [hinbox]
    exact fun _ h => h
  · exact fun op hop => ⟨op, (hline _).mp hop, rfl⟩
  · rw [houtbox]
    exact fun _ h => h

theorem receipt_of_advance {reply : Reply} {batch : Batch} {reached : AckPoint} {ack : Ack}
    (hack : ack ∈ engine.acked) (hpoint : ack.point = reached) (hbatch : ack.batch = batch)
    (hreply : .reply reply ∈ sends (engine.ack.advance batch reached)) : engine.Receipt reply := by
  obtain ⟨sent, hsent, hout⟩ := List.mem_map.mp hreply
  obtain rfl : sent = reply := Out.reply.inj hout
  obtain ⟨req, hreq, hreleased⟩ := List.mem_filterMap.mp hsent
  refine ⟨ack, hack, req, ?_, ?_⟩
  · rw [hbatch]
    exact hreq
  · rw [hpoint]
    exact hreleased

/-- A batch is taken from the channel and queued. -/
theorem receipted_enqueue (hreceipted : Receipted Good engine) {batch : Batch}
    {rest : List WalMsg} (hmsg : engine.msgRx = .write batch :: rest)
    (hbatch : { engine with msgRx := rest }.handleBatch batch = .ok after) :
    Receipted Good after := by
  obtain ⟨-, -, out, -, rfl⟩ := handleBatch_inv hbatch
  refine ⟨?_, ?_, hreceipted.awaiting, hreceipted.acked, hreceipted.sent, hreceipted.eager⟩
  · intro other hother
    refine hreceipted.inbox other ?_
    rw [hmsg]
    exact List.mem_cons_of_mem _ hother
  · intro op hop
    rcases List.mem_append.mp hop with hring | hpend
    · exact hreceipted.line op (List.mem_append_left _ hring)
    · rcases List.mem_append.mp hpend with hpending | hnew
      · exact hreceipted.line op (List.mem_append_right _ hpending)
      · simp only [IoWork.ofBatch, List.mem_singleton, IoWork.write.injEq] at hnew
        subst hnew
        exact hreceipted.inbox batch (by rw [hmsg]; exact List.mem_cons_self)

/-- The batch of a completed write is acknowledged. -/
theorem receipted_written (hkeyed : engine.Keyed) (hreceipted : Receipted Good engine) {cqe : Cqe}
    {rest : List Cqe} {ret : Return} {op : WriteOp}
    (hpc : engine.pc = .reaping (cqe :: rest) ret)
    (hwork : engine.inflight.lookup cqe.userData = some (.write op)) :
    Receipted Good ((engine.pop cqe rest ret).reapWritten op.data) := by
  have hline := line_pop hkeyed hpc hwork
  have hlabel := hreceipted.line op (mem_line_of_lookup hkeyed hwork)
  have hmove : ∀ ack ∈ engine.acked,
      ack ∈ ((engine.pop cqe rest ret).reapWritten op.data).acked := by
    rw [reapWritten_eq]
    exact fun _ h => List.mem_append_left _ h
  rw [reapWritten_eq] at hmove ⊢
  refine ⟨hreceipted.inbox, ?_, ?_, ?_, ?_, ?_⟩
  · intro other hother
    refine hreceipted.line other ?_
    rw [hline]
    exact List.mem_cons_of_mem _ hother
  · intro batch hbatch
    rcases List.mem_append.mp hbatch with hold | hnew
    · exact hreceipted.awaiting batch hold
    · split_ifs at hnew
      · cases hnew
      · rw [List.mem_singleton.mp hnew, label_advance]
        exact hlabel
  · intro ack hack
    rcases List.mem_append.mp hack with hold | hnew
    · exact hreceipted.acked ack hold
    · rw [List.mem_singleton.mp hnew]
      exact hlabel
  · intro reply hreply
    rcases List.mem_append.mp hreply with hsent | hrecycle
    · rcases List.mem_append.mp hsent with hold | hnew
      · obtain ⟨ack, hack, hreceipt⟩ := hreceipted.sent reply hold
        exact ⟨ack, hmove ack hack, hreceipt⟩
      · exact receipt_of_advance (List.mem_append_right _ (List.mem_singleton_self _)) rfl rfl hnew
    · split_ifs at hrecycle
      · cases List.mem_singleton.mp hrecycle
      · cases hrecycle
  · intro hlevel
    obtain ⟨hnone, hpoints⟩ := hreceipted.eager hlevel
    have hsettled : Acker.isSettled
        ((engine.pop cqe rest ret).ack.advance op.data .written).1 = true :=
      Acker.settled_of_level hlevel op.data
    constructor
    · change engine.awaitingFsync ++ _ = []
      rw [hnone, if_pos hsettled]
      rfl
    · intro ack hack
      rcases List.mem_append.mp hack with hold | hnew
      · exact hpoints ack hold
      · rw [List.mem_singleton.mp hnew]
        exact Nat.le_refl _

/-- The batches that waited for an fsync are acknowledged. -/
theorem receipted_release (hreceipted : Receipted Good engine) :
    Receipted Good engine.releaseDurable := by
  refine ⟨hreceipted.inbox, hreceipted.line, ?_, ?_, ?_, ?_⟩
  · exact fun _ h => by cases h
  · intro ack hack
    rcases List.mem_append.mp hack with hold | hnew
    · exact hreceipted.acked ack hold
    · obtain ⟨batch, hbatch, rfl⟩ := List.mem_map.mp hnew
      exact hreceipted.awaiting batch hbatch
  · intro reply hreply
    rcases List.mem_append.mp hreply with hold | hnew
    · obtain ⟨ack, hack, hreceipt⟩ := hreceipted.sent reply hold
      exact ⟨ack, List.mem_append_left _ hack, hreceipt⟩
    · obtain ⟨batch, hbatch, hout⟩ := List.mem_flatMap.mp hnew
      rcases List.mem_append.mp hout with hsent | hrecycle
      · exact @receipt_of_advance engine.releaseDurable reply batch .durable
          (Ack.mk .durable engine.seg.startLsn engine.disk batch)
          (List.mem_append_right _ (List.mem_map_of_mem hbatch)) rfl rfl hsent
      · cases List.mem_singleton.mp hrecycle
  · intro hlevel
    obtain ⟨hnone, hpoints⟩ := hreceipted.eager hlevel
    refine ⟨rfl, ?_⟩
    change ∀ ack ∈ engine.acked ++ engine.awaitingFsync.map _, _
    rw [hnone, List.map_nil, List.append_nil]
    exact hpoints

/-- Batches are labelled in stage 2, and answered when they are acknowledged. -/
theorem receipted_move (hkeyed : engine.Keyed) (harrive : ¬ permit .arrive engine)
    (hreceipted : Receipted Good engine) (hmove : Move permit engine after) :
    Receipted Good after := by
  cases hmove with
  | arrive msg hpermit hfeed => exact absurd hpermit harrive
  | send hpermit houtbox =>
      refine hreceipted.frame rfl (fun _ h => h) (fun op hop => ⟨op, hop, rfl⟩) rfl rfl ?_
      rw [houtbox]
      exact fun _ h => List.mem_cons_of_mem _ h
  | giveBack hpermit houtbox =>
      refine hreceipted.frame rfl (fun _ h => h) (fun op hop => ⟨op, hop, rfl⟩) rfl rfl ?_
      rw [houtbox]
      exact fun _ h => List.mem_cons_of_mem _ h
  | lend hpermit hpool => exact hreceipted.same rfl rfl (fun _ => Iff.rfl) rfl rfl rfl
  | quiet spinBudget pc vacant htodo =>
      have htickets := @tickets_frame engine
        { engine with spinBudget := spinBudget, pc := pc, vacant := vacant } htodo rfl
      have hline := line_congr htickets rfl rfl
      exact hreceipted.same rfl rfl (fun _ => by rw [hline]) rfl rfl rfl
  | discard hpermit hmsg hkind =>
      refine hreceipted.frame rfl ?_ (fun op hop => ⟨op, hop, rfl⟩) rfl rfl (fun _ h => h)
      rw [hmsg]
      exact fun _ h => List.mem_cons_of_mem _ h
  | enqueue hmsg hbatch => exact receipted_enqueue hreceipted hmsg hbatch
  | schedule starts hpermit hstarts =>
      refine hreceipted.frame rfl (fun _ h => h) ?_ rfl rfl (fun _ h => h)
      intro op hop
      exact ⟨op, by simpa [line, worksAt, tickets, todo] using hop, rfl⟩
  | arm hdue =>
      refine hreceipted.frame rfl (fun _ h => h) ?_ rfl rfl (fun _ h => h)
      intro op hop
      exact ⟨op, by simpa [line, worksAt, tickets, todo] using hop, rfl⟩
  | push hpending =>
      have hline := line_push hkeyed hpending
      exact hreceipted.same rfl rfl (fun _ => by rw [hline]) rfl rfl rfl
  | beginReap ret htodo =>
      have hline := @line_congr engine (engine.beginReap ret) (tickets_beginReap _ _ htodo) rfl rfl
      exact hreceipted.same rfl rfl (fun _ => by rw [hline]) rfl rfl rfl
  | submit =>
      have hline := @line_congr engine engine.submitRing (tickets_submitRing _) rfl rfl
      exact hreceipted.same rfl rfl (fun _ => by rw [hline]) rfl rfl rfl
  | reapRemoved hpc hwork =>
      have hline := line_pop hkeyed hpc hwork
      refine hreceipted.frame rfl (fun _ h => h) ?_ rfl rfl (fun _ h => h)
      intro op hop
      exact ⟨op, by rw [hline]; exact List.mem_cons_of_mem _ hop, rfl⟩
  | reapWritten hpermit hpc hwork hres hdone => exact receipted_written hkeyed hreceipted hpc hwork
  | @reapRetry cqe rest ret op done hpc hwork hdone =>
      refine hreceipted.frame rfl (fun _ h => h) ?_ rfl rfl (fun _ h => h)
      intro other hother
      obtain ⟨op', hop', -, hdata⟩ := retry_comes hkeyed hpc hwork hother
      exact ⟨op', hop', congrArg Batch.label hdata⟩
  | @reapDurable cqe rest ret target hpermit hpc hwork hres =>
      have hline := line_pop hkeyed hpc hwork
      have hpopped : Receipted Good (engine.pop cqe rest ret) := by
        refine hreceipted.frame rfl (fun _ h => h) ?_ rfl rfl (fun _ h => h)
        intro op hop
        exact ⟨op, by rw [hline]; exact List.mem_cons_of_mem _ hop, rfl⟩
      exact (receipted_release hpopped).same rfl rfl (fun _ => Iff.rfl) rfl rfl rfl
  | sealed boundaryLsn hpermit hpending hinflight htodo =>
      have htickets := @tickets_frame engine (engine.sealSegment boundaryLsn) htodo.symm rfl
      have hline : (engine.sealSegment boundaryLsn).line = engine.line :=
        line_congr htickets rfl rfl
      have hsynced : Receipted Good { engine with
          files := engine.files.insert engine.seg.startLsn (engine.disk.flush engine.disk.cache)
          fsyncPlanner := engine.fsyncPlanner.onFsyncCompleted } :=
        hreceipted.same rfl rfl (fun _ => Iff.rfl) rfl rfl rfl
      exact (receipted_release hsynced).same rfl rfl (fun _ => by rw [hline]; rfl) rfl rfl rfl
  | start hstart =>
      have hline := line_congr (tickets_start _ hstart) rfl rfl
      exact hreceipted.same rfl rfl (fun _ => by rw [hline]) rfl rfl rfl
  | complete hcomplete =>
      exact hreceipted.same rfl rfl (fun _ => (line_complete hcomplete).mem_iff) rfl rfl rfl

theorem receipted_step {act : Act} (hkeyed : engine.Keyed) (hreceipted : Receipted Good engine)
    (hinner : act.inner) (hstep : engine.step act = some after) :
    Receipted Good after ∧ ∀ reply, engine.Receipt reply → after.Receipt reply := by
  have hfeeds : Feeds engine act := by
    cases act with
    | arrive msg => exact hinner.elim
    | _ => trivial
  have hkeep : ∀ current next : WalEngine,
      (current.Keyed ∧ Receipted Good current ∧
        ∀ reply, engine.Receipt reply → current.Receipt reply) →
      Move (fun kind _ => kind ≠ .arrive) current next →
      next.Keyed ∧ Receipted Good next ∧ ∀ reply, engine.Receipt reply → next.Receipt reply :=
    fun _ _ h hmove => ⟨keyed_move h.1 hmove, receipted_move h.1 (fun h => h rfl) h.2.1 hmove,
      fun reply hreply => (h.2.2 reply hreply).move hmove⟩
  refine (step_keeps hkeep ⟨hkeyed, hreceipted, fun _ h => h⟩ hfeeds ?_ hstep).2
  rintro kind current hpermit rfl
  obtain ⟨msg, rfl⟩ := hpermit
  exact hinner

end Stage3.WalEngine

end InMemoryDb
