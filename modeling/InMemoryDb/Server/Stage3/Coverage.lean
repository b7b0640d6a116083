import InMemoryDb.Lib.Barrier
import InMemoryDb.Server.Stage3.Submission

/-!
# What the fsyncs cover

`dirty_bytes` is set to zero when an fsync is armed, long before it runs, and
grows again only when a batch is queued or the rest of a short write is put back.
The submission log, read together with `pending`, says for every queued byte
whether a completed fsync has saved it or one still to come will.  Whatever is not
covered is on the dirty account.
-/

namespace InMemoryDb.Stage3

open Barrier

namespace WalEngine

/-! ## Covered bytes -/

/-- Everything the engine has pushed or is about to, in submission order. -/
def sequence (engine : WalEngine) (log : List Attempt) : List Attempt :=
  log ++ engine.pending.map Attempt.queued

/-- The queued bytes that no completed fsync has saved and no fsync in flight or
pending will. -/
def uncovered (engine : WalEngine) (log : List Attempt) : ℕ :=
  exposed Attempt.weight Attempt.barrier (engine.sequence log)

/-- The attempt that carries the batch, as it was written or as it waits now. -/
def Carries (ack : Acker) (batch : Batch) (attempt : Attempt) : Prop :=
  ∃ op, attempt.work = .write op ∧ (op.data = batch ∨ (ack.advance op.data .written).1 = batch)

/-- A batch whose write is in line, or that waits for an fsync. -/
def Unacknowledged (engine : WalEngine) (batch : Batch) : Prop :=
  batch ∈ engine.awaitingFsync ∨ ∃ op, .write op ∈ engine.line ∧ op.data = batch

/-! ## The invariant -/

/-- The last attempt of a batch that waits: written, and not saved. -/
def Unsaved (ack : Acker) (batch : Batch) (attempt : Attempt) : Prop :=
  attempt.flushed = false ∧ (∃ count, attempt.reaped = some count ∧ 0 < count) ∧
    ∃ op, attempt.work = .write op ∧ (ack.advance op.data .written).1 = batch

structure Audit (engine : WalEngine) (log : List Attempt) : Prop where
  lined : engine.Lined log
  bound : engine.uncovered log ≤ engine.fsyncPlanner.dirtyBytes
  /-- Every queued byte is carried by one operation. -/
  total : ((engine.sequence log).map Attempt.bytes).sum =
    (engine.queued.map fun entry => entry.batch.out.length).sum
  awaits : ∀ batch ∈ engine.awaitingFsync, ∃ attempt ∈ log, Unsaved engine.ack batch attempt

variable {engine after : WalEngine} {log : List Attempt}

/-- Something is added at the end of `pending`. -/
theorem Audit.append {works : List IoWork} {places : List Queued} (haudit : Audit engine log)
    (hlined : after.Lined log) (hpending : after.pending = engine.pending ++ works)
    (hqueued : after.queued = engine.queued ++ places)
    (hawaiting : after.awaitingFsync = engine.awaitingFsync) (hack : after.ack = engine.ack)
    (hbound : exposed Attempt.weight Attempt.barrier
      (engine.sequence log ++ works.map Attempt.queued) ≤ after.fsyncPlanner.dirtyBytes)
    (htotal : ((works.map Attempt.queued).map Attempt.bytes).sum =
      (places.map fun entry => entry.batch.out.length).sum) : Audit after log := by
  have hsequence : after.sequence log = engine.sequence log ++ works.map Attempt.queued := by
    rw [sequence, sequence, hpending, List.map_append, List.append_assoc]
  refine ⟨hlined, ?_, ?_, ?_⟩
  · rw [uncovered, hsequence]
    exact hbound
  · rw [hsequence, hqueued, List.map_append, List.map_append, List.sum_append, List.sum_append,
      haudit.total, htotal]
  · rw [hawaiting, hack]
    exact haudit.awaits

/-- Moves that touch neither the line nor the account. -/
theorem Audit.frame (haudit : Audit engine log) (hlined : after.Lined log)
    (hpending : after.pending = engine.pending)
    (hplanner : after.fsyncPlanner = engine.fsyncPlanner) (hqueued : after.queued = engine.queued)
    (hawaiting : after.awaitingFsync = engine.awaitingFsync) (hack : after.ack = engine.ack) :
    Audit after log := by
  refine @Audit.append engine after log [] [] haudit hlined ?_ ?_ hawaiting hack ?_ rfl
  · rw [hpending, List.append_nil]
  · rw [hqueued, List.append_nil]
  · rw [List.map_nil, List.append_nil, hplanner]
    exact haudit.bound

theorem audit_enqueue {batch : Batch} (haudit : Audit engine log)
    (hbatch : engine.handleBatch batch = .ok after) : Audit after log := by
  obtain ⟨-, -, out, -, rfl⟩ := handleBatch_inv hbatch
  refine haudit.append (haudit.lined.frame rfl rfl) rfl rfl rfl rfl ?_ rfl
  rw [List.map_singleton, exposed_concat _ rfl]
  exact Nat.add_le_add_right haudit.bound _

/-- Removals carry nothing. -/
theorem audit_schedule (haudit : Audit engine log) (starts : List ℕ) :
    Audit { engine with pending := engine.pending ++ starts.map IoWork.remove } log := by
  refine @Audit.append engine _ log (starts.map IoWork.remove) [] haudit
    (haudit.lined.frame rfl rfl) rfl (List.append_nil _).symm rfl rfl ?_ ?_
  · rw [exposed_append_light]
    · exact haudit.bound
    · simp [Attempt.barrier, Attempt.queued, Attempt.pushed, IoWork.isFsync]
    · simp [Attempt.weight, Attempt.queued, Attempt.pushed, Attempt.bytes, IoWork.unwritten]
  · simp [Attempt.queued, Attempt.pushed, Attempt.bytes, IoWork.unwritten, Function.comp_def]

/-- An armed fsync covers everything queued so far. -/
theorem audit_armFsync (haudit : Audit engine log) : Audit engine.armFsync log := by
  by_cases hdue : engine.fsyncPlanner.due = true
  · rw [armFsync_due hdue]
    refine @Audit.append engine _ log [IoWork.fsync engine.lastIngestedLsn] [] haudit
      (haudit.lined.frame rfl rfl) rfl (List.append_nil _).symm rfl rfl ?_ rfl
    have hcovered : exposed Attempt.weight Attempt.barrier (engine.sequence log ++
        [Attempt.queued (IoWork.fsync engine.lastIngestedLsn)]) = 0 :=
      exposed_concat_barrier rfl rfl
    rw [List.map_singleton, hcovered]
  · rw [armFsync_idle hdue]
    exact haudit

/-! ## Pushing -/

theorem audit_push (haudit : Audit engine log) (hkeyed : engine.Keyed) {work : IoWork}
    {rest : List IoWork} (hpending : engine.pending = work :: rest) :
    Audit (engine.push work rest)
      (log ++ [Attempt.pushed engine.vacantKey work]) := by
  have hbefore : engine.sequence log =
      log ++ Attempt.queued work :: rest.map Attempt.queued := by
    rw [sequence, hpending, List.map_cons]
  have hafter : (engine.push work rest).sequence
      (log ++ [Attempt.pushed engine.vacantKey work]) =
      log ++ Attempt.pushed engine.vacantKey work :: rest.map Attempt.queued := by
    rw [sequence, List.append_assoc]
    rfl
  refine ⟨lined_push haudit.lined hkeyed work rest, ?_, ?_, ?_⟩
  · refine le_trans ?_ haudit.bound
    rw [uncovered, uncovered, hbefore, hafter]
    exact exposed_replace _ _ le_rfl rfl
  · have htotal := haudit.total
    rw [hbefore, List.map_append, List.map_cons] at htotal
    rw [hafter, List.map_append, List.map_cons]
    exact htotal
  · intro batch hbatch
    obtain ⟨attempt, hattempt, hunsaved⟩ := haudit.awaits batch hbatch
    exact ⟨attempt, List.mem_append_left _ hattempt, hunsaved⟩

/-- `handle_pending`: what was pending is in the log. -/
theorem audit_pullLoop (fuel : ℕ) (haudit : Audit engine log) (hkeyed : engine.Keyed) :
    Audit (pullLoop fuel engine) (log ++ pushes fuel engine) ∧ (pullLoop fuel engine).Keyed := by
  induction fuel generalizing engine log with
  | zero =>
      rw [pullLoop, pushes, List.append_nil]
      exact ⟨haudit, hkeyed⟩
  | succ fuel ih =>
      cases hpending : engine.pending with
      | nil =>
          simp only [pullLoop, pushes, hpending, List.append_nil]
          exact ⟨haudit, hkeyed⟩
      | cons work rest =>
          simp only [pullLoop, pushes, hpending]
          split_ifs with hroom
          · have hpushed := ih (audit_push haudit hkeyed hpending) (hkeyed.push work rest)
            rwa [List.append_assoc] at hpushed
          · rw [List.append_nil]
            exact ⟨haudit, hkeyed⟩

/-! ## Reaping -/

section Reaping

variable {cqe : Cqe} {rest : List Cqe} {ret : Return} {work : IoWork}
  {front back : List Attempt} {attempt : Attempt} {count : ℕ}

/-- A batch that waits keeps its attempt when another one is reaped. -/
theorem unsaved_reap (hflying : attempt.flying = true) {ack : Acker} {batch : Batch}
    (hwaits : ∃ other ∈ front ++ attempt :: back, Unsaved ack batch other) (count : ℕ) :
    ∃ other ∈ front ++ attempt.reap count :: back, Unsaved ack batch other := by
  obtain ⟨other, hother, hunsaved⟩ := hwaits
  refine ⟨other, ?_, hunsaved⟩
  rcases List.mem_append.mp hother with hfront | hrest
  · exact List.mem_append_left _ hfront
  · rcases List.mem_cons.mp hrest with rfl | hback
    · obtain ⟨-, ⟨count, hreaped, -⟩, -⟩ := hunsaved
      rw [Attempt.flying, hreaped] at hflying
      cases hflying
    · exact List.mem_append_right _ (List.mem_cons_of_mem _ hback)

/-- What an operation has written weighs no more than what it carried. -/
theorem exposed_reap {rest : List Attempt} (hflying : attempt.flying = true)
    (hfsync : attempt.work.isFsync = false) (hcount : count ≤ attempt.work.unwritten) :
    exposed Attempt.weight Attempt.barrier (front ++ attempt.reap count :: back ++ rest) ≤
      exposed Attempt.weight Attempt.barrier (front ++ attempt :: back ++ rest) := by
  rw [List.append_assoc, List.append_assoc, List.cons_append, List.cons_append]
  apply exposed_replace
  · have hnone : attempt.reaped = none := by simpa [Attempt.flying] using hflying
    by_cases hflushed : attempt.flushed = true
    · simp [Attempt.weight, Attempt.reap, hflushed]
    · simpa [Attempt.weight, Attempt.reap, Attempt.bytes, hnone, hflushed] using hcount
  · simp [Attempt.barrier, Attempt.reap, hfsync]

theorem bytes_of_flying (hflying : attempt.flying = true) :
    attempt.bytes = attempt.work.unwritten := by
  have hnone : attempt.reaped = none := by simpa [Attempt.flying] using hflying
  rw [Attempt.bytes, hnone, Option.getD_none]

/-- An operation other than an fsync is reaped; what it has not written is put
back as `retried`. -/
theorem audit_reap {retried : List IoWork} (haudit : Audit engine (front ++ attempt :: back))
    (hlined : after.Lined (front ++ attempt.reap count :: back))
    (hflying : attempt.flying = true) (hfsync : attempt.work.isFsync = false)
    (hretried : ∀ work ∈ retried, work.isFsync = false)
    (hcount : count + ((retried.map Attempt.queued).map Attempt.bytes).sum =
      attempt.work.unwritten)
    (hpending : after.pending = retried ++ engine.pending)
    (hdirty : after.fsyncPlanner.dirtyBytes = engine.fsyncPlanner.dirtyBytes +
      ((retried.map Attempt.queued).map Attempt.bytes).sum)
    (hqueued : after.queued = engine.queued)
    (hawaits : ∀ batch ∈ after.awaitingFsync,
      ∃ other ∈ front ++ attempt.reap count :: back, Unsaved after.ack batch other) :
    Audit after (front ++ attempt.reap count :: back) := by
  have hsequence : after.sequence (front ++ attempt.reap count :: back) =
      front ++ attempt.reap count :: back ++
        (retried.map Attempt.queued ++ engine.pending.map Attempt.queued) := by
    rw [sequence, hpending, List.map_append]
  refine ⟨hlined, ?_, ?_, hawaits⟩
  · have hbarrier : ∀ item ∈ retried.map Attempt.queued, item.barrier = false := by
      intro item hitem
      obtain ⟨work, hwork, rfl⟩ := List.mem_map.mp hitem
      exact hretried work hwork
    have hbound : exposed Attempt.weight Attempt.barrier (front ++ attempt.reap count :: back ++
        engine.pending.map Attempt.queued) ≤ engine.fsyncPlanner.dirtyBytes :=
      le_trans (exposed_reap hflying hfsync (hcount ▸ Nat.le_add_right _ _)) haudit.bound
    have hweights : (retried.map Attempt.queued).map Attempt.weight =
        (retried.map Attempt.queued).map Attempt.bytes := by
      rw [List.map_map, List.map_map]
      rfl
    rw [uncovered, hsequence, hdirty, ← hweights]
    exact le_trans (exposed_insert _ _ hbarrier) (Nat.add_le_add_right hbound _)
  · have htotal := haudit.total
    rw [sequence, List.append_assoc, List.cons_append] at htotal
    rw [hsequence, hqueued, ← htotal, List.append_assoc, List.cons_append]
    simp only [List.map_append, List.map_cons, List.sum_append, List.sum_cons,
      bytes_of_flying hflying, ← hcount]
    have hreap : (attempt.reap count).bytes = count := rfl
    rw [hreap]
    omega

theorem audit_reapRemoved (haudit : Audit engine log) (hkeyed : engine.Keyed) {startLsn : ℕ}
    (hpc : engine.pc = .reaping (cqe :: rest) ret)
    (hwork : engine.inflight.lookup cqe.userData = some (.remove startLsn)) :
    Audit (engine.pop cqe rest ret) (noteReaped cqe log (.remove startLsn)) := by
  obtain ⟨front, attempt, back, rfl, hholds, hremove, -, hnone⟩ :=
    haudit.lined.exists_attempt hkeyed hwork
  obtain ⟨hflying, -⟩ := Attempt.flying_of_holds hholds
  rw [noteReaped, reapKey_split hholds hnone]
  refine @audit_reap engine _ front back attempt 0 [] haudit
    (lined_reap haudit.lined hkeyed hpc hholds rfl fun _ hold _ => hold) hflying
    (by rw [hremove]; rfl) (by simp) ?_ rfl rfl rfl ?_
  · rw [hremove]
    rfl
  · exact fun batch hbatch => unsaved_reap hflying (haudit.awaits batch hbatch) 0

/-- A write that is done in full has written everything it carried. -/
theorem audit_reapWritten (haudit : Audit engine log) (hsound : engine.Sound) {op : WriteOp}
    (hpc : engine.pc = .reaping (cqe :: rest) ret)
    (hwork : engine.inflight.lookup cqe.userData = some (.write op)) (hres : 0 ≤ cqe.result)
    (hdone : op.data.out.length ≤ op.done + cqe.result.toNat) :
    Audit ((engine.pop cqe rest ret).reapWritten op.data) (noteReaped cqe log (.write op)) := by
  have hkeyed := hsound.ringed.keyed
  obtain ⟨front, attempt, back, rfl, hholds, hwrite, hflushed, hnone⟩ :=
    haudit.lined.exists_attempt hkeyed hwork
  obtain ⟨hflying, -⟩ := Attempt.flying_of_holds hholds
  have hposted : cqe ∈ engine.posted := by
    rw [posted_pop hpc]
    exact List.mem_cons_self
  have hexact := (hsound.tracked.reported cqe hposted op hwork hres).1
  have hsome := (hsound.tracked.writes op (mem_line_of_lookup hkeyed hwork)).2.1
  rw [noteReaped, reapKey_split hholds hnone, reapWritten_eq]
  refine @audit_reap engine _ front back attempt cqe.result.toNat [] haudit
    ((lined_reap haudit.lined hkeyed hpc hholds rfl fun _ hold _ => hold).frame rfl rfl) hflying
    (by rw [hwrite]; rfl) (by simp) ?_ rfl rfl rfl ?_
  · rw [hwrite, IoWork.unwritten]
    simp only [List.map_nil, List.sum_nil]
    omega
  · intro batch hbatch
    rcases List.mem_append.mp hbatch with hold | hnew
    · exact unsaved_reap hflying (haudit.awaits batch hold) _
    · split_ifs at hnew with hsettled
      · cases hnew
      · refine ⟨attempt.reap cqe.result.toNat, by simp, hflushed,
          ⟨cqe.result.toNat, rfl, by omega⟩, op, hwrite, ?_⟩
        exact (List.mem_singleton.mp hnew).symm

/-- The rest of a short write goes back to the front of `pending`, and on the dirty
account. -/
theorem audit_reapRetry (haudit : Audit engine log) (hsound : engine.Sound) {op : WriteOp}
    {done : ℕ} (hpc : engine.pc = .reaping (cqe :: rest) ret)
    (hwork : engine.inflight.lookup cqe.userData = some (.write op))
    (hdone : (done = op.done ∧ cqe.result < 0) ∨
      (done = op.done + cqe.result.toNat ∧ 0 ≤ cqe.result ∧ done < op.data.out.length)) :
    Audit
      { engine.pop cqe rest ret with
        fsyncPlanner := engine.fsyncPlanner.onWriteQueued (op.data.out.length - done)
        pending := IoWork.write { op with done := done } :: engine.pending }
      (noteReaped cqe log (.write op)) := by
  have hkeyed := hsound.ringed.keyed
  obtain ⟨front, attempt, back, rfl, hholds, hwrite, -, hnone⟩ :=
    haudit.lined.exists_attempt hkeyed hwork
  obtain ⟨hflying, -⟩ := Attempt.flying_of_holds hholds
  have hsome := (hsound.tracked.writes op (mem_line_of_lookup hkeyed hwork)).2.1
  rw [noteReaped, reapKey_split hholds hnone]
  refine @audit_reap engine _ front back attempt cqe.result.toNat
    [.write { op with done := done }] haudit
    ((lined_reap haudit.lined hkeyed hpc hholds rfl fun _ hold _ => hold).frame rfl rfl) hflying
    (by rw [hwrite]; rfl) (by simp [IoWork.isFsync]) ?_ rfl rfl rfl ?_
  · rw [hwrite, IoWork.unwritten]
    change cqe.result.toNat + (op.data.out.length - done + 0) = _
    omega
  · exact fun batch hbatch => unsaved_reap hflying (haudit.awaits batch hbatch) _

/-- A completed fsync has saved everything submitted before it, so that nothing is
uncovered by its leaving. -/
theorem audit_reapDurable (haudit : Audit engine log) (hkeyed : engine.Keyed) {target : ℕ}
    (hpc : engine.pc = .reaping (cqe :: rest) ret)
    (hwork : engine.inflight.lookup cqe.userData = some (.fsync target)) :
    Audit
      { (engine.pop cqe rest ret).releaseDurable with
        fsyncPlanner := engine.fsyncPlanner.onFsyncCompleted }
      (noteReaped cqe log (.fsync target)) := by
  obtain ⟨front, attempt, back, rfl, hholds, hfsync, -, hnone⟩ :=
    haudit.lined.exists_attempt hkeyed hwork
  obtain ⟨hflying, -⟩ := Attempt.flying_of_holds hholds
  have hreaped := haudit.lined.reaped_before hkeyed hpc hholds hwork
  rw [noteReaped_fsync hholds hnone]
  have hlined : (engine.pop cqe rest ret).Lined
      (front.map Attempt.flush ++ attempt.reap 0 :: back) :=
    lined_reap haudit.lined hkeyed hpc hholds (flights_flush front)
      fun other hother hfly => mem_of_flush_flying hother hfly
  refine ⟨hlined.frame rfl rfl, ?_, ?_, fun batch hbatch => absurd hbatch List.not_mem_nil⟩
  · refine le_trans ?_ haudit.bound
    have hlight : exposed Attempt.weight Attempt.barrier
        (front.map Attempt.flush ++ [attempt.reap 0]) = 0 := by
      apply exposed_eq_zero
      intro item hitem
      rcases List.mem_append.mp hitem with hfront | hself
      · obtain ⟨other, hother, rfl⟩ := List.mem_map.mp hfront
        exact Attempt.weight_flush (hreaped other hother)
      · rw [List.mem_singleton.mp hself]
        exact ite_self 0
    change exposed _ _ (front.map Attempt.flush ++ attempt.reap 0 :: back ++
      engine.pending.map Attempt.queued) ≤ exposed _ _ (front ++ attempt :: back ++
      engine.pending.map Attempt.queued)
    rw [List.append_cons (front.map Attempt.flush), List.append_assoc, exposed_append, hlight,
      ite_self, Nat.zero_add, List.append_cons front, List.append_assoc]
    exact exposed_le_append _ _
  · have htotal := haudit.total
    have hnothing : attempt.bytes = 0 := by
      rw [bytes_of_flying hflying, hfsync]
      rfl
    have hreap : (attempt.reap 0).bytes = 0 := rfl
    change ((front.map Attempt.flush ++ attempt.reap 0 :: back ++
      engine.pending.map Attempt.queued).map Attempt.bytes).sum = _
    rw [sequence] at htotal
    simp only [List.map_append, List.map_cons, List.sum_append, List.sum_cons, hnothing, hreap]
      at htotal ⊢
    rw [sum_bytes_flush]
    exact htotal

end Reaping

/-! ## The other moves -/

/-- The blocking fsync of `rotate` saves everything: nothing is in flight. -/
theorem audit_sealSegment (haudit : Audit engine log) (hkeyed : engine.Keyed) (boundaryLsn : ℕ)
    (hpending : engine.pending = []) (hinflight : engine.inflight = ∅)
    (htodo : engine.todo = []) :
    Audit (engine.sealSegment boundaryLsn) (log.map Attempt.flush) := by
  have htickets := @tickets_frame engine (engine.sealSegment boundaryLsn) htodo.symm rfl
  have hlined : engine.Lined (log.map Attempt.flush) := by
    refine ⟨?_, ?_, ?_⟩
    · exact fun attempt hattempt hflying =>
        haudit.lined.listed attempt (mem_of_flush_flying hattempt hflying) hflying
    · rw [flights_flush]
      exact haudit.lined.perm
    · rw [flights_flush]
      exact haudit.lined.ordered
  have hsequence : (engine.sealSegment boundaryLsn).sequence (log.map Attempt.flush) =
      log.map Attempt.flush := by
    change log.map Attempt.flush ++ engine.pending.map Attempt.queued = _
    rw [hpending, List.map_nil, List.append_nil]
  refine ⟨hlined.frame htickets rfl, ?_, ?_, fun batch hbatch => absurd hbatch List.not_mem_nil⟩
  · rw [uncovered, hsequence, exposed_eq_zero]
    · exact Nat.zero_le _
    · intro item hitem
      obtain ⟨attempt, hattempt, rfl⟩ := List.mem_map.mp hitem
      apply Attempt.weight_flush
      by_contra hflying
      have hkey := haudit.lined.perm.mem_iff.mp
        (mem_flights hattempt (Bool.eq_true_of_not_eq_false hflying))
      rw [tickets_eq_nil hkeyed hinflight] at hkey
      cases hkey
  · have htotal := haudit.total
    rw [sequence, hpending, List.map_nil, List.append_nil] at htotal
    rw [hsequence, sum_bytes_flush]
    exact htotal

/-! ## Steps -/

theorem audit_poll (haudit : Audit engine log) (hpc : engine.pc = .top)
    (hpoll : engine.poll = some after) : Audit after log := by
  have htodo : engine.todo = [] := by simp [todo, hpc, Pc.todo]
  have hquiet : ∀ (current : WalEngine) (pc : Pc), Audit current log → current.todo = [] →
      pc.todo = [] → Audit { current with pc := pc } log := by
    intro current pc hcurrent hnone hpc'
    exact hcurrent.frame (hcurrent.lined.frame (tickets_frame (hpc'.trans hnone.symm) rfl) rfl)
      rfl rfl rfl rfl rfl
  have hread : ∀ rest, Audit
      { engine with msgRx := rest, spinBudget := defaultSpinBudget } log := fun rest =>
    haudit.frame (haudit.lined.frame rfl rfl) rfl rfl rfl rfl rfl
  rcases poll_inv hpoll with ⟨-, -, rfl⟩ | ⟨batch, rest, middle, -, hbatch, rfl⟩ |
    ⟨boundaryLsn, rest, -, rfl⟩ | ⟨boundaryLsn, rest, -, -, rfl⟩
  · exact hquiet { engine with spinBudget := engine.spinBudget - 1 } .plan
      (haudit.frame (haudit.lined.frame rfl rfl) rfl rfl rfl rfl rfl) htodo rfl
  · have hmiddle : middle.todo = [] := by
      obtain ⟨-, -, out, -, rfl⟩ := handleBatch_inv hbatch
      exact htodo
    exact hquiet middle .plan (audit_enqueue (hread rest) hbatch) hmiddle rfl
  · exact hquiet _ (.draining boundaryLsn) (hread rest) htodo rfl
  · exact hquiet _ .plan (audit_schedule (hread rest) _) htodo rfl

theorem audit_beginReap (haudit : Audit engine log) (ret : Return) (htodo : engine.todo = []) :
    Audit (engine.beginReap ret) log :=
  haudit.frame (haudit.lined.frame (tickets_beginReap engine ret htodo) rfl) rfl rfl rfl rfl rfl

theorem audit_plan (haudit : Audit engine log) (hkeyed : engine.Keyed) (hpc : engine.pc = .plan) :
    Audit engine.plan (note engine log .plan) := by
  have harmed : engine.armFsync.Keyed := hkeyed.congr (List.Perm.refl _) rfl
  obtain ⟨hpulled, -⟩ :=
    audit_pullLoop engine.armFsync.pending.length (audit_armFsync haudit) harmed
  refine audit_beginReap hpulled _ ?_
  simp [todo, pullLoop_todo, armFsync_pc, hpc, Pc.todo]

theorem audit_reapCqe (haudit : Audit engine log) (hsound : engine.Sound) {cqe : Cqe}
    {rest : List Cqe} {ret : Return} (hpc : engine.pc = .reaping (cqe :: rest) ret)
    (hreap : { engine with pc := .reaping rest ret }.reapCqe cqe = .ok after) :
    Audit after (note engine log .reap) := by
  have hkeyed := hsound.ringed.keyed
  rcases reapCqe_inv hreap with ⟨startLsn, hwork, rfl⟩ | ⟨op, hwork, hres, hdone, rfl⟩ |
    ⟨op, done, hwork, hdone, rfl⟩ | ⟨target, hwork, hres, rfl⟩
  · simp only [note, hpc, hwork]
    exact audit_reapRemoved haudit hkeyed hpc hwork
  · simp only [note, hpc, hwork]
    exact audit_reapWritten haudit hsound hpc hwork hres hdone
  · simp only [note, hpc, hwork]
    exact audit_reapRetry haudit hsound hpc hwork hdone
  · simp only [note, hpc, hwork]
    exact audit_reapDurable haudit hkeyed hpc hwork

theorem audit_finishLoop (haudit : Audit engine log) (needSubmit : Bool)
    (htodo : engine.todo = []) : Audit (engine.finishLoop needSubmit) log := by
  unfold finishLoop
  split_ifs with hsubmit
  · have htickets : ({ engine.submitRing with pc := .top } : WalEngine).tickets =
        engine.tickets :=
      (@tickets_frame engine.submitRing { engine.submitRing with pc := .top }
        htodo.symm rfl).trans (tickets_submitRing engine)
    exact haudit.frame (haudit.lined.frame htickets rfl) rfl rfl rfl rfl rfl
  · exact haudit.frame (haudit.lined.frame (tickets_frame htodo.symm rfl) rfl) rfl rfl rfl
      rfl rfl

theorem audit_drain (haudit : Audit engine log) (hkeyed : engine.Keyed) {boundaryLsn : ℕ}
    (hpc : engine.pc = .draining boundaryLsn) :
    Audit (engine.drain boundaryLsn) (note engine log .drain) := by
  have htodo : engine.todo = [] := by simp [todo, hpc, Pc.todo]
  unfold drain note
  split_ifs with hpark
  · simp only [shouldPark, decide_eq_true_eq] at hpark
    exact audit_sealSegment haudit hkeyed boundaryLsn hpark.1 hpark.2 htodo
  · obtain ⟨hpulled, -⟩ := audit_pullLoop engine.pending.length haudit hkeyed
    have hnone : (pullLoop engine.pending.length engine).todo = [] := by
      simp [todo, pullLoop_todo, hpc, Pc.todo]
    have htickets : ({ engine.handlePending.1.submitRing with
        pc := .drainWait boundaryLsn } : WalEngine).tickets = engine.handlePending.1.tickets :=
      (@tickets_frame engine.handlePending.1.submitRing
        { engine.handlePending.1.submitRing with pc := .drainWait boundaryLsn }
        hnone.symm rfl).trans (tickets_submitRing _)
    exact hpulled.frame (hpulled.lined.frame htickets rfl) rfl rfl rfl rfl rfl

theorem audit_step {act : Act} (haudit : Audit engine log) (hsound : engine.Sound)
    (hstep : engine.step act = some after) : Audit after (note engine log act) := by
  have hkeyed := hsound.ringed.keyed
  cases stepped hstep with
  | arrive msg => exact haudit.frame (haudit.lined.frame rfl rfl) rfl rfl rfl rfl rfl
  | poll hpc hpoll => exact audit_poll haudit hpc hpoll
  | plan hpc => exact audit_plan haudit hkeyed hpc
  | reapCqe hpc hreap => exact audit_reapCqe haudit hsound hpc hreap
  | reapLoop hpc =>
      simp only [note, hpc]
      exact audit_finishLoop haudit _ (by simp [todo, hpc, Pc.todo])
  | reapRotate hpc =>
      have htodo : engine.todo = [] := by simp [todo, hpc, Pc.todo]
      simp only [note, hpc]
      exact haudit.frame (haudit.lined.frame (tickets_frame htodo.symm rfl) rfl) rfl rfl rfl rfl rfl
  | drain hpc => exact audit_drain haudit hkeyed hpc
  | wake hpc => exact audit_beginReap haudit _ (by simp [todo, hpc, Pc.todo])
  | start hstart =>
      exact haudit.frame (haudit.lined.frame (tickets_start engine hstart) rfl) rfl rfl rfl rfl rfl
  | complete hcomplete =>
      exact haudit.frame (lined_complete haudit.lined hsound.ringed hcomplete) rfl rfl rfl rfl rfl
  | reply houtbox => exact haudit.frame (haudit.lined.frame rfl rfl) rfl rfl rfl rfl rfl
  | recycle houtbox => exact haudit.frame (haudit.lined.frame rfl rfl) rfl rfl rfl rfl rfl
  | lend hpool => exact haudit.frame (haudit.lined.frame rfl rfl) rfl rfl rfl rfl rfl
  | slab keys => exact haudit.frame (haudit.lined.frame rfl rfl) rfl rfl rfl rfl rfl

/-! ## Unacknowledged batches -/

/-- The attempt of a write in line. -/
theorem Audit.exists_write (haudit : Audit engine log) {op : WriteOp}
    (hop : .write op ∈ engine.line) :
    ∃ attempt ∈ engine.sequence log, attempt.work = .write op ∧ attempt.reaped = none ∧
      attempt.flushed = false := by
  rcases List.mem_append.mp hop with hflight | hpending
  · obtain ⟨key, hkey, hlookup⟩ := List.mem_filterMap.mp hflight
    obtain ⟨attempt, hattempt, rfl⟩ := List.mem_map.mp (haudit.lined.perm.mem_iff.mpr hkey)
    obtain ⟨hmem, hflying⟩ := List.mem_filter.mp hattempt
    obtain ⟨hwork, hflushed⟩ := haudit.lined.listed attempt hmem hflying
    rw [hlookup] at hwork
    exact ⟨attempt, List.mem_append_left _ hmem, (Option.some.inj hwork).symm,
      by simpa [Attempt.flying] using hflying, hflushed⟩
  · exact ⟨Attempt.queued (.write op),
      List.mem_append_right _ (List.mem_map_of_mem hpending), rfl, rfl, rfl⟩

/-- An unacknowledged batch has bytes that no completed fsync has saved. -/
theorem Audit.exists_carrier (haudit : Audit engine log) (hsound : engine.Sound) {batch : Batch}
    (hbatch : engine.Unacknowledged batch) :
    ∃ attempt ∈ engine.sequence log, Carries engine.ack batch attempt ∧ 0 < attempt.weight := by
  rcases hbatch with hwaits | ⟨op, hop, hdata⟩
  · obtain ⟨attempt, hattempt, hflushed, ⟨count, hreaped, hcount⟩, op, hwork, hadvanced⟩ :=
      haudit.awaits batch hwaits
    refine ⟨attempt, List.mem_append_left _ hattempt, ⟨op, hwork, Or.inr hadvanced⟩, ?_⟩
    simpa [Attempt.weight, Attempt.bytes, hflushed, hreaped] using hcount
  · obtain ⟨attempt, hattempt, hwork, hreaped, hflushed⟩ := haudit.exists_write hop
    refine ⟨attempt, hattempt, ⟨op, hwork, Or.inl hdata⟩, ?_⟩
    have hmore := (hsound.tracked.writes op hop).2.1
    simpa [Attempt.weight, Attempt.bytes, hflushed, hreaped, hwork, IoWork.unwritten] using hmore

end WalEngine

/-! ## Runs -/

/-- The engine with its log. -/
structure Audited where
  engine : WalEngine
  log : List Attempt

namespace Audited

open WalEngine

/-- A new engine, with any cadence. -/
def start (depth : ℕ) (segs : SortedMap ℕ Bytes) (startLsn : ℕ) (mode : Mode)
    (cadence : FsyncCadence) (pool : List Batch) : Audited :=
  ⟨{ new depth (Files.ofSegs segs) startLsn mode pool with
      fsyncPlanner := FsyncPlanner.new cadence }, []⟩

def step (audited : Audited) (act : Act) : Option Audited :=
  (audited.engine.step act).map fun after => ⟨after, note audited.engine audited.log act⟩

/-- The guard of the engine. -/
def Fed (audited : Audited) (act : Act) : Prop := Feeds audited.engine act

instance (audited : Audited) (act : Act) : Decidable (audited.Fed act) :=
  inferInstanceAs (Decidable (Feeds audited.engine act))

variable {depth : ℕ} {segs : SortedMap ℕ Bytes} {startLsn : ℕ} {mode : Mode}
  {cadence : FsyncCadence} {pool : List Batch}

/-- Every run of the engine has a log. -/
theorem exists_log {first : Audited} {engine : WalEngine}
    (hreach : Machine.Reach WalEngine.step Feeds first.engine engine) :
    ∃ log, Machine.Reach step Fed first ⟨engine, log⟩ := by
  induction hreach with
  | start => exact ⟨first.log, Machine.Reach.start⟩
  | @next state after act _ hfeeds hstep ih =>
      obtain ⟨log, hlogged⟩ := ih
      refine ⟨note state log act, hlogged.next hfeeds ?_⟩
      rw [step, hstep]
      rfl

theorem audit_start :
    Audit (start depth segs startLsn mode cadence pool).engine [] ∧
      (start depth segs startLsn mode cadence pool).engine.Sound := by
  have hkeyed : (start depth segs startLsn mode cadence pool).engine.Keyed :=
    (keyed_new depth (Files.ofSegs segs) startLsn mode pool).congr (List.Perm.refl _) rfl
  refine ⟨⟨⟨?_, ?_, ?_⟩, le_rfl, rfl, ?_⟩, ?_⟩
  · intro attempt hattempt
    cases hattempt
  · exact List.Perm.refl []
  · exact List.Pairwise.nil
  · intro batch hbatch
    cases hbatch
  · have hsound := sound_new depth segs startLsn mode pool
    exact hsound.frame rfl rfl rfl rfl rfl rfl rfl rfl rfl hsound.fed

theorem audit_reach {audited : Audited}
    (hreach : Machine.Reach step Fed (start depth segs startLsn mode cadence pool) audited) :
    Audit audited.engine audited.log ∧ audited.engine.Sound := by
  induction hreach with
  | start => exact audit_start
  | @next state after act _ hfed hstep ih =>
      obtain ⟨engine, hengine, rfl⟩ := Option.map_eq_some_iff.mp hstep
      refine ⟨audit_step ih.1 ih.2 hengine, ?_⟩
      exact step_keeps (fun _ _ hsound hmove => sound_move hsound hmove) ih.2 hfed
        (fun _ _ _ => trivial) hengine

/-- For every cadence, in every state of every run, with any messages, completion
orders, short writes, transient errors and rotates: the uncovered bytes are at most
`dirty_bytes`, where the log and `pending` carry exactly the bytes queued.  So a
batch that is not acknowledged has `dirty_bytes` above zero or an fsync behind the
write that carries it. -/
theorem uncovered_le_dirtyBytes :
    (∀ engine, Machine.Reach WalEngine.step Feeds
        (start depth segs startLsn mode cadence pool).engine engine →
      ∃ log, Machine.Reach step Fed (start depth segs startLsn mode cadence pool)
        ⟨engine, log⟩) ∧
    ∀ audited, Machine.Reach step Fed (start depth segs startLsn mode cadence pool) audited →
      audited.engine.uncovered audited.log ≤ audited.engine.fsyncPlanner.dirtyBytes ∧
      ((audited.engine.sequence audited.log).map Attempt.bytes).sum =
        (audited.engine.queued.map fun entry => entry.batch.out.length).sum ∧
      ∀ batch, audited.engine.Unacknowledged batch →
        0 < audited.engine.fsyncPlanner.dirtyBytes ∨
          ∃ front attempt back, audited.engine.sequence audited.log = front ++ attempt :: back ∧
            Carries audited.engine.ack batch attempt ∧ back.any Attempt.barrier = true := by
  refine ⟨fun engine hreach => exists_log hreach, ?_⟩
  intro audited hreach
  obtain ⟨haudit, hsound⟩ := audit_reach hreach
  refine ⟨haudit.bound, haudit.total, ?_⟩
  intro batch hbatch
  obtain ⟨attempt, hattempt, hcarries, hweight⟩ := haudit.exists_carrier hsound hbatch
  obtain ⟨front, back, hsplit⟩ := List.append_of_mem hattempt
  have hbound := haudit.bound
  rw [uncovered, hsplit] at hbound
  rcases @le_exposed_or_barrier _ Attempt.weight Attempt.barrier front back attempt with
    hexposed | hbehind
  · exact Or.inl (by omega)
  · exact Or.inr ⟨front, attempt, back, hsplit, hcarries, hbehind⟩

/-- An fsync is armed behind a write that comes back short: five bytes are saved,
the other twenty-two are dirty again. -/
theorem uncovered_le_dirtyBytes_short :
    ∃ audited, Machine.Reach step Fed (start 128 SortedMap.empty 1 .sync .consistently [])
        audited ∧
      audited.engine.uncovered audited.log = 22 ∧
      22 ≤ audited.engine.fsyncPlanner.dirtyBytes ∧
      ((audited.engine.sequence audited.log).map Attempt.bytes).sum = 27 := by
  let batch : Batch := ⟨[⟨.smallPut 65 66, 7, some .ok, 0⟩], [], 1, 2, 0⟩
  obtain ⟨audited, hreach, hdone⟩ := @Machine.exists_reach _ _ step Fed
    (start 128 SortedMap.empty 1 .sync .consistently []) _
    [.arrive (.write batch), .poll, .plan, .reap, .start 0, .complete 0 5, .start 0,
      .complete 0 0, .poll, .plan, .reap, .reap]
    (fun audited => decide (audited.engine.uncovered audited.log = 22 ∧
      (audited.engine.queued.map fun entry => entry.batch.out.length).sum = 27))
    (by decide +kernel)
  obtain ⟨huncovered, hqueued⟩ : audited.engine.uncovered audited.log = 22 ∧
      (audited.engine.queued.map fun entry => entry.batch.out.length).sum = 27 :=
    of_decide_eq_true hdone
  obtain ⟨hbound, htotal, -⟩ := uncovered_le_dirtyBytes.2 audited hreach
  exact ⟨audited, hreach, huncovered, huncovered ▸ hbound, htotal.trans hqueued⟩

end Audited

end InMemoryDb.Stage3
