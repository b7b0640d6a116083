import InMemoryDb.Server.Stage3.Submission

/-!
# One fsync at a time

In Sync mode `flush_running` stands for the fsync under way.  It is set where the
fsync is armed, and cleared where its completion is reaped and by the blocking
fsync of `rotate`; in between the operation is in `pending` or in the slab.
-/

namespace InMemoryDb.Stage3.WalEngine

/-- The fsyncs in `pending` and in `inflight`. -/
def fsyncsUnderWay (engine : WalEngine) : ℕ :=
  engine.pending.countP IoWork.isFsync +
    (engine.inflight.keys.filter fun key => engine.drains key).card

/-- What the flag says about the line, in Sync mode. -/
structure OneFsync (engine : WalEngine) : Prop where
  cadence : engine.fsyncPlanner.cadence = .consistently
  count : engine.line.countP IoWork.isFsync =
    if engine.fsyncPlanner.flushRunning then 1 else 0

variable {engine after : WalEngine}

/-- The line holds what is pending and what is in flight, each once. -/
theorem fsyncsUnderWay_eq (hkeyed : engine.Keyed) :
    engine.fsyncsUnderWay = engine.line.countP IoWork.isFsync := by
  have hkeys : engine.inflight.keys = engine.tickets.toFinset := by
    ext key
    rw [Finmap.mem_keys, List.mem_toFinset, hkeyed.mem_iff]
  have hcard : (engine.inflight.keys.filter fun key => engine.drains key).card =
      engine.tickets.countP engine.drains := by
    rw [hkeys, ← List.toFinset_filter, List.toFinset_card_of_nodup (hkeyed.nodup.filter _),
      List.countP_eq_length_filter]
  have hdrains : (fun key => ((engine.inflight.lookup key).map IoWork.isFsync).getD false) =
      engine.drains := by
    funext key
    rw [drains]
    cases engine.inflight.lookup key with
    | none => rfl
    | some work => rfl
  rw [fsyncsUnderWay, hcard, line, List.countP_append, worksAt, List.countP_filterMap, hdrains,
    Nat.add_comm]

/-! ## Moves -/

/-- Moves that leave the planner alone and only reorder the line. -/
theorem OneFsync.congr (hone : engine.OneFsync) (hline : after.line.Perm engine.line)
    (hplanner : after.fsyncPlanner = engine.fsyncPlanner) : after.OneFsync := by
  constructor
  · rw [hplanner]
    exact hone.cadence
  · rw [hplanner, hline.countP_eq]
    exact hone.count

/-- Operations other than fsyncs join or leave the line, and the flag stays. -/
theorem OneFsync.others (hone : engine.OneFsync)
    (hline : after.line.countP IoWork.isFsync = engine.line.countP IoWork.isFsync)
    (hcadence : after.fsyncPlanner.cadence = engine.fsyncPlanner.cadence)
    (hrunning : after.fsyncPlanner.flushRunning = engine.fsyncPlanner.flushRunning) :
    after.OneFsync := by
  constructor
  · rw [hcadence]
    exact hone.cadence
  · rw [hline, hrunning]
    exact hone.count

theorem oneFsync_enqueue (hone : engine.OneFsync) {batch : Batch} {rest : List WalMsg}
    (hbatch : { engine with msgRx := rest }.handleBatch batch = .ok after) : after.OneFsync := by
  obtain ⟨-, -, out, -, rfl⟩ := handleBatch_inv hbatch
  refine hone.others ?_ rfl rfl
  rw [line, line, ← List.append_assoc, List.countP_append]
  rfl

theorem oneFsync_schedule (hone : engine.OneFsync) (starts : List ℕ) :
    { engine with pending := engine.pending ++ starts.map IoWork.remove }.OneFsync := by
  refine hone.others ?_ rfl rfl
  have hremoves : (starts.map IoWork.remove).countP IoWork.isFsync = 0 := by
    rw [List.countP_eq_zero]
    intro work hwork
    obtain ⟨start, -, rfl⟩ := List.mem_map.mp hwork
    exact Bool.false_ne_true
  rw [line, line, ← List.append_assoc, List.countP_append, hremoves]
  rfl

/-- An fsync is armed only when the flag is down. -/
theorem oneFsync_arm (hone : engine.OneFsync) (hdue : engine.fsyncPlanner.due = true) :
    { engine with
      fsyncPlanner := { engine.fsyncPlanner with dirtyBytes := 0, flushRunning := true }
      pending := engine.pending ++ [IoWork.fsync engine.lastIngestedLsn] }.OneFsync := by
  have hidle : engine.fsyncPlanner.flushRunning = false := by
    rw [FsyncPlanner.due, hone.cadence] at hdue
    split_ifs at hdue with hclean
    simpa using hdue
  have hnone : engine.line.countP IoWork.isFsync = 0 := by
    rw [hone.count, hidle]
    rfl
  refine ⟨hone.cadence, ?_⟩
  calc
    { engine with
        fsyncPlanner := { engine.fsyncPlanner with dirtyBytes := 0, flushRunning := true }
        pending := engine.pending ++ [IoWork.fsync engine.lastIngestedLsn] }.line.countP
          IoWork.isFsync =
        (engine.line ++ [IoWork.fsync engine.lastIngestedLsn]).countP IoWork.isFsync := by
      rw [line, line, List.append_assoc]
      rfl
    _ = engine.line.countP IoWork.isFsync + 1 := by
      rw [List.countP_append]
      rfl
    _ = 1 := by rw [hnone]

/-- The fsync under way is the only one, so none is left when it is reaped. -/
theorem OneFsync.pop_fsync (hone : engine.OneFsync) {target : ℕ} {rest : List IoWork}
    (hline : engine.line = .fsync target :: rest) : rest.countP IoWork.isFsync = 0 := by
  have hcount := hone.count
  rw [hline, List.countP_cons_of_pos rfl] at hcount
  split_ifs at hcount with hrunning
  omega

theorem oneFsync_move {permit : Kind → WalEngine → Prop} (hsound : engine.Sound)
    (hone : engine.OneFsync) (hmove : Move permit engine after) : after.OneFsync := by
  have hkeyed := hsound.ringed.keyed
  cases hmove with
  | arrive msg hpermit hfeed => exact hone.congr (List.Perm.refl _) rfl
  | send hpermit houtbox => exact hone.congr (List.Perm.refl _) rfl
  | giveBack hpermit houtbox => exact hone.congr (List.Perm.refl _) rfl
  | lend hpermit hpool => exact hone.congr (List.Perm.refl _) rfl
  | quiet spinBudget pc vacant htodo =>
      have htickets := @tickets_frame engine
        { engine with spinBudget := spinBudget, pc := pc, vacant := vacant } htodo rfl
      exact hone.congr (List.Perm.of_eq (line_congr htickets rfl rfl)) rfl
  | discard hpermit hmsg hkind => exact hone.congr (List.Perm.refl _) rfl
  | enqueue hmsg hbatch => exact oneFsync_enqueue hone hbatch
  | schedule starts hpermit hstarts => exact oneFsync_schedule hone starts
  | arm hdue => exact oneFsync_arm hone hdue
  | push hpending => exact hone.congr (List.Perm.of_eq (line_push hkeyed hpending)) rfl
  | beginReap ret htodo =>
      exact hone.congr (List.Perm.of_eq (line_congr (tickets_beginReap _ _ htodo) rfl rfl)) rfl
  | submit => exact hone.congr (List.Perm.of_eq (line_congr (tickets_submitRing _) rfl rfl)) rfl
  | start hstart =>
      exact hone.congr (List.Perm.of_eq (line_congr (tickets_start _ hstart) rfl rfl)) rfl
  | complete hcomplete => exact hone.congr (line_complete hcomplete) rfl
  | reapRemoved hpc hwork =>
      refine hone.others ?_ rfl rfl
      rw [line_pop hkeyed hpc hwork]
      rfl
  | reapWritten hpermit hpc hwork hres hdone =>
      rw [reapWritten_eq]
      refine hone.others ?_ rfl rfl
      rw [line_pop hkeyed hpc hwork]
      rfl
  | @reapRetry cqe rest ret op done hpc hwork hdone =>
      have hline := line_retry (engine.pop cqe rest ret)
        (engine.fsyncPlanner.onWriteQueued (op.data.out.length - done))
        (.write { op with done := done })
      refine hone.others ((hline.countP_eq _).trans ?_) rfl rfl
      rw [line_pop hkeyed hpc hwork]
      rfl
  | reapDurable hpermit hpc hwork hres =>
      exact ⟨hone.cadence, hone.pop_fsync (line_pop hkeyed hpc hwork)⟩
  | sealed boundaryLsn hpermit hpending hinflight htodo =>
      have htickets := @tickets_frame engine (engine.sealSegment boundaryLsn) htodo.symm rfl
      have hline : (engine.sealSegment boundaryLsn).line = engine.line :=
        line_congr htickets rfl rfl
      refine ⟨hone.cadence, ?_⟩
      rw [hline, line, tickets_eq_nil hkeyed hinflight, hpending]
      rfl

/-! ## Runs -/

/-- In Sync mode, in every state of every run, with any messages, completion orders,
retries and rotates: one fsync is pending or in flight if `flush_running` is set,
and none is if it is not. -/
theorem fsyncsUnderWay_eq_flushRunning {depth : ℕ} {segs : SortedMap ℕ Bytes} {startLsn : ℕ}
    {pool : List Batch}
    (hreach : Machine.Reach step Feeds (new depth (Files.ofSegs segs) startLsn .sync pool)
      engine) :
    engine.fsyncsUnderWay = if engine.fsyncPlanner.flushRunning then 1 else 0 := by
  have hstart : (new depth (Files.ofSegs segs) startLsn .sync pool).OneFsync := ⟨rfl, rfl⟩
  obtain ⟨hsound, hone⟩ := reach_keeps hstart
    (fun _ _ hsound hone hmove => oneFsync_move hsound hone hmove) hreach
  rw [fsyncsUnderWay_eq hsound.ringed.keyed]
  exact hone.count

/-- Back at the top of the loop: the fsync of one PUT is in flight, its write has
come back short and is pending again. -/
theorem fsyncsUnderWay_eq_flushRunning_short :
    ∃ engine, Machine.Reach step Feeds (new 128 (Files.ofSegs SortedMap.empty) 1 .sync [])
        engine ∧
      engine.pc = .top ∧ engine.fsyncPlanner.flushRunning = true ∧ engine.fsyncsUnderWay = 1 := by
  let batch : Batch := ⟨[⟨.smallPut 65 66, 7, some .ok, 0⟩], [], 1, 2, 0⟩
  obtain ⟨engine, hreach, hdone⟩ := @Machine.exists_reach _ _ step Feeds
    (new 128 (Files.ofSegs SortedMap.empty) 1 .sync []) _
    [.arrive (.write batch), .poll, .plan, .reap, .start 0, .complete 0 5, .poll, .plan, .reap,
      .reap]
    (fun engine => engine.pc = .top ∧ engine.fsyncPlanner.flushRunning = true)
    (by decide +kernel)
  obtain ⟨hpc, hrunning⟩ : engine.pc = .top ∧ engine.fsyncPlanner.flushRunning = true :=
    of_decide_eq_true hdone
  refine ⟨engine, hreach, hpc, hrunning, ?_⟩
  rw [fsyncsUnderWay_eq_flushRunning hreach, hrunning]
  rfl

end InMemoryDb.Stage3.WalEngine
