import InMemoryDb.Server.Stage3.Sound

/-!
# Group commit

One fsync releases every batch that waits for one.  Whatever was in
`awaiting_fsync` when the completion is reaped, the flush had seen its bytes.
-/

namespace InMemoryDb.Stage3

open SparseFile WalFormat Recover

namespace WalEngine

variable {engine after : WalEngine}

/-- Every byte of the batch's own records stands in the part of the segment that
completed fsyncs have saved, at the place `handle_batch` gave the batch. -/
def Committed (queued : List Queued) (ack : Ack) : Prop :=
  ack.batch.out = encodeAll ack.batch.redo ∧
    ∃ place ∈ queued, place.seg = ack.seg ∧ place.batch.redo = ack.batch.redo ∧
      ∀ index, index < ack.batch.out.length → ∃ byte, ack.batch.out[index]? = some byte ∧
        Holds ack.disk.stable (place.offset + index) byte

theorem Committed.mono {queued : List Queued} {ack : Ack} (hcommitted : Committed queued ack)
    (more : List Queued) : Committed (queued ++ more) ack := by
  obtain ⟨hencoded, place, hplace, hrest⟩ := hcommitted
  exact ⟨hencoded, place, List.mem_append_left _ hplace, hrest⟩

/-- A waiting batch whose place is saved may be acknowledged. -/
theorem Placed.committed {batch : Batch} {offset : ℕ} {disk : File}
    (hplaced : engine.Placed batch offset) (hgrows : Grows disk.stable disk.cache)
    (hagrees : Agrees disk.cache engine.image)
    (hcovers : Covers disk.stable offset batch.out.length) :
    Committed engine.queued ⟨.durable, engine.seg.startLsn, disk, batch⟩ := by
  obtain ⟨place, hplace, hseg, hoffset, hredo, -⟩ := hplaced.queued
  refine ⟨hplaced.encoded, place, hplace, hseg, hredo, ?_⟩
  rw [hoffset]
  exact hcovers.holds (fun index value hold => hagrees.2 index value (hgrows index value hold))
    hplaced.located

/-- The log of acknowledgements is covered. -/
def Covered (engine : WalEngine) : Prop :=
  ∀ ack ∈ engine.acked, ack.point = .durable → Committed engine.queued ack

theorem Covered.frame (hcovered : engine.Covered) (hacked : after.acked = engine.acked)
    {more : List Queued} (hqueued : after.queued = engine.queued ++ more) :
    after.Covered := by
  intro ack hack hpoint
  rw [hacked] at hack
  rw [hqueued]
  exact (hcovered ack hack hpoint).mono more

theorem Covered.append (hcovered : engine.Covered) {news : List Ack}
    (hacked : after.acked = engine.acked ++ news) (hqueued : after.queued = engine.queued)
    (hnews : ∀ ack ∈ news, ack.point = .durable → Committed engine.queued ack) :
    after.Covered := by
  intro ack hack hpoint
  rw [hacked] at hack
  rw [hqueued]
  rcases List.mem_append.mp hack with hold | hnew
  · exact hcovered ack hold hpoint
  · exact hnews ack hnew hpoint

theorem covered_reapDurable (hsound : engine.Sound) (hcovered : engine.Covered) {cqe : Cqe}
    {rest : List Cqe} {ret : Return} {target : ℕ}
    (hpc : engine.pc = .reaping (cqe :: rest) ret)
    (hwork : engine.inflight.lookup cqe.userData = some (.fsync target))
    (hres : 0 ≤ cqe.result) :
    { (engine.pop cqe rest ret).releaseDurable with
      fsyncPlanner := engine.fsyncPlanner.onFsyncCompleted }.Covered := by
  have hflushed : engine.Flushed :=
    ⟨cqe, by rw [posted_pop hpc]; exact List.mem_cons_self, hres, target, hwork⟩
  refine hcovered.append rfl rfl ?_
  intro ack hack _
  obtain ⟨batch, hbatch, rfl⟩ := List.mem_map.mp hack
  obtain ⟨offset, hplaced, -, hstable⟩ := hsound.tracked.awaits batch hbatch
  have hcommitted := hplaced.committed (disk_grows hsound.stored) hsound.stored.agrees
    (hstable hflushed)
  exact hcommitted

/-- The blocking fsync of `rotate` saves the whole segment. -/
theorem covered_sealSegment (hsound : engine.Sound) (hcovered : engine.Covered)
    (boundaryLsn : ℕ) : (engine.sealSegment boundaryLsn).Covered := by
  refine hcovered.append rfl rfl ?_
  intro ack hack _
  obtain ⟨batch, hbatch, rfl⟩ := List.mem_map.mp hack
  obtain ⟨offset, hplaced, hcovers, -⟩ := hsound.tracked.awaits batch hbatch
  have hdisk : (SortedMap.lookup (engine.files.insert engine.seg.startLsn
      (engine.disk.flush engine.disk.cache)) engine.seg.startLsn).getD File.empty =
      engine.disk.flush engine.disk.cache := by
    rw [SortedMap.lookup_insert_self]
    rfl
  have hcommitted : Committed engine.queued
      ⟨.durable, engine.seg.startLsn, engine.disk.flush engine.disk.cache, batch⟩ :=
    hplaced.committed (Grows.refl _) hsound.stored.agrees hcovers
  rw [← hdisk] at hcommitted
  exact hcommitted

theorem covered_move {permit : Kind → WalEngine → Prop} (hsound : engine.Sound)
    (hcovered : engine.Covered) (hmove : Move permit engine after) : after.Covered := by
  cases hmove with
  | enqueue hmsg hbatch =>
      obtain ⟨-, -, out, -, rfl⟩ := handleBatch_inv hbatch
      exact hcovered.frame rfl rfl
  | reapWritten hpermit hpc hwork hres hdone =>
      rw [reapWritten_eq]
      refine hcovered.append rfl rfl ?_
      intro ack hack hpoint
      rw [List.mem_singleton.mp hack] at hpoint
      cases hpoint
  | reapDurable hpermit hpc hwork hres => exact covered_reapDurable hsound hcovered hpc hwork hres
  | sealed boundaryLsn hpermit hpending hinflight htodo =>
      exact covered_sealSegment hsound hcovered boundaryLsn
  | _ => exact hcovered.frame rfl (List.append_nil _).symm

/-- In every run, with any mix of write, rotate and retire messages, whatever is
acknowledged at `Durable` was in the segment before an fsync of that segment
that has completed. -/
theorem durable_ack_committed {depth : ℕ} {segs : SortedMap ℕ Bytes} {startLsn : ℕ}
    {pool : List Batch} (hreach : Machine.Reach step Feeds
      (new depth (Files.ofSegs segs) startLsn .sync pool) engine) :
    ∀ ack ∈ engine.acked, ack.point = .durable → Committed engine.queued ack := by
  have hkeep : engine.Sound ∧ engine.Covered :=
    reach_keeps (by simp [Covered, new]) (fun _ _ => covered_move) hreach
  exact hkeep.2

/-- One PUT, written and flushed. -/
theorem durable_ack_committed_one :
    ∃ engine, Machine.Reach step Feeds
        (new 128 (Files.ofSegs SortedMap.empty) 1 .sync []) engine ∧
      ∃ ack ∈ engine.acked, ack.point = .durable ∧ Committed engine.queued ack := by
  let batch : Batch := ⟨[⟨.smallPut 65 66, 7, some .ok, 0⟩], [], 1, 2, 0⟩
  obtain ⟨engine, hreach, hdone⟩ := @Machine.exists_reach _ _ step Feeds
    (new 128 (Files.ofSegs SortedMap.empty) 1 .sync []) _
    [.arrive (.write batch), .poll, .plan, .reap, .start 0, .complete 0 27, .start 0,
      .complete 0 0, .poll, .plan, .reap, .reap]
    (fun engine => engine.acked.any fun ack => ack.point = .durable) (by decide +kernel)
  obtain ⟨ack, hack, hpoint⟩ := List.any_eq_true.mp hdone
  have hdurable : ack.point = .durable := by simpa using hpoint
  exact ⟨engine, hreach, ack, hack, hdurable, durable_ack_committed hreach ack hack hdurable⟩

end WalEngine

end InMemoryDb.Stage3
