import InMemoryDb.Server.Stage3.Sound

/-!
# When the engine goes to sleep

`should_park` looks at `pending` and `inflight` only.  A batch in
`awaiting_fsync` is safe as long as an fsync is somewhere in line or the planner
still has dirty bytes to arm one for, and the latter helps only if the loop gets
to `should_fsync` before it parks.
-/

namespace InMemoryDb.Stage3

/-- An fsync is among the operations. -/
def HasFsync (works : List IoWork) : Prop := ∃ target, .fsync target ∈ works

/-- Every write has an fsync somewhere behind it. -/
def Followed : List IoWork → Prop
  | [] => True
  | .write _ :: rest => HasFsync rest ∧ Followed rest
  | _ :: rest => Followed rest

theorem hasFsync_append (front back : List IoWork) :
    HasFsync (front ++ back) ↔ HasFsync front ∨ HasFsync back := by
  simp only [HasFsync, List.mem_append]
  exact exists_or

theorem hasFsync_cons_write (op : WriteOp) (rest : List IoWork) :
    HasFsync (.write op :: rest) ↔ HasFsync rest := by
  simp [HasFsync]

theorem hasFsync_cons_remove (start : ℕ) (rest : List IoWork) :
    HasFsync (.remove start :: rest) ↔ HasFsync rest := by
  simp [HasFsync]

theorem followed_append (front back : List IoWork) :
    Followed (front ++ back) ↔ Followed back ∧ (HasFsync back ∨ Followed front) := by
  induction front with
  | nil => simp [Followed]
  | cons work front ih =>
      cases work with
      | write op =>
          simp only [List.cons_append, Followed, ih, hasFsync_append]
          tauto
      | fsync target =>
          simp only [List.cons_append, Followed, ih]
      | remove start =>
          simp only [List.cons_append, Followed, ih]

theorem followed_of_no_write {works : List IoWork}
    (hnone : ∀ work ∈ works, ∀ op, work ≠ .write op) : Followed works := by
  induction works with
  | nil => trivial
  | cons work works ih =>
      have htail := ih fun other hother => hnone other (List.mem_cons_of_mem _ hother)
      cases work with
      | write op => exact absurd rfl (hnone _ (by simp) op)
      | fsync target => exact htail
      | remove start => exact htail

/-- An operation other than an fsync may overtake whatever stands before it. -/
theorem Followed.overtake {ahead front back : List IoWork} {work : IoWork}
    (hkind : HasFsync [work] → front = [])
    (h : Followed (ahead ++ (front ++ work :: back))) :
    Followed (ahead ++ (work :: (front ++ back))) := by
  cases work with
  | fsync target =>
      have hfront : front = [] := hkind ⟨target, by simp⟩
      subst hfront
      exact h
  | write op =>
      simp only [followed_append, hasFsync_append, hasFsync_cons_write, Followed] at h ⊢
      tauto
  | remove start =>
      simp only [followed_append, hasFsync_append, hasFsync_cons_remove, Followed] at h ⊢
      tauto

/-- When there is an fsync and no write stands behind one, every write has an
fsync behind it. -/
theorem followed_of_ordered {α : Type*} (look : α → Option IoWork) {items : List α}
    (hfsync : HasFsync (items.filterMap look))
    (hordered : items.Pairwise fun early late => ∀ target op,
      look early = some (.fsync target) → look late ≠ some (.write op)) :
    Followed (items.filterMap look) := by
  induction items with
  | nil => trivial
  | cons item items ih =>
      obtain ⟨hhead, hrest⟩ := List.pairwise_cons.mp hordered
      cases hlook : look item with
      | none =>
          rw [List.filterMap_cons_none hlook] at hfsync ⊢
          exact ih hfsync hrest
      | some work =>
          rw [List.filterMap_cons_some hlook] at hfsync ⊢
          cases work with
          | write op =>
              rw [hasFsync_cons_write] at hfsync
              exact ⟨hfsync, ih hfsync hrest⟩
          | remove start =>
              rw [hasFsync_cons_remove] at hfsync
              exact ih hfsync hrest
          | fsync target =>
              by_cases hmore : HasFsync (items.filterMap look)
              · exact ih hmore hrest
              · -- no write is left behind the last fsync
                have hnone : ∀ work ∈ items.filterMap look, ∀ op, work ≠ .write op := by
                  intro work hwork op heq
                  obtain ⟨late, hlate, hfound⟩ := List.mem_filterMap.mp hwork
                  exact hhead late hlate target op hlook (heq ▸ hfound)
                have htail : Followed (items.filterMap look) := followed_of_no_write hnone
                exact htail

namespace WalEngine

variable {engine after : WalEngine}

/-- Everything written or about to be written has an fsync ahead of it. -/
def Settling (engine : WalEngine) : Prop :=
  Followed engine.line ∧ (engine.awaitingFsync ≠ [] → HasFsync engine.line)

/-- What the planner's two fields say about the line, in Sync mode. -/
structure Planned (engine : WalEngine) : Prop where
  cadence : engine.fsyncPlanner.cadence = .consistently
  running : engine.fsyncPlanner.flushRunning = true → HasFsync engine.line
  settling : 0 < engine.fsyncPlanner.dirtyBytes ∨ engine.Settling

/-! ## Moves -/

/-- The line before and after a completion; an fsync completes only when it is
the oldest entry. -/
theorem line_complete_split (hsound : engine.Sound) {position : ℕ} {res : ℤ} {files : Files}
    {ring : IoUring}
    (hcomplete : completeEntry engine.files engine.ring position res = some (files, ring)) :
    ∃ ahead front work back, engine.line = ahead ++ (front ++ work :: back) ∧
      { engine with files := files, ring := ring }.line = ahead ++ (work :: (front ++ back)) ∧
      (HasFsync [work] → front = []) := by
  obtain ⟨front, idx, sqe, seen, back, hentries, -, -, rfl⟩ := completeEntry_inv hcomplete
  obtain ⟨work, hwork, hsqe⟩ := hsound.ringed.built ⟨idx, sqe, .running seen⟩
    (by simp [hentries])
  simp only at hwork hsqe
  refine ⟨engine.worksAt (engine.posted.map Cqe.userData),
    engine.worksAt (front.map Entry.idx), work,
    engine.worksAt (back.map Entry.idx ++ engine.ring.sq.map Entry.idx) ++ engine.pending,
    ?_, ?_, ?_⟩
  · simp [line, tickets, worksAt, posted, hentries, hwork]
  · simp [line, tickets, worksAt, posted, todo, hwork]
  · rintro ⟨target, htarget⟩
    have hfsync : work = .fsync target := (List.mem_singleton.mp htarget).symm
    subst hfsync
    have hnone : front = [] := by
      apply List.eq_nil_iff_forall_not_mem.mpr
      intro entry hentry
      have hbarrier := hsound.ringed.barrier
      rw [hentries] at hbarrier
      have hqueued := (List.pairwise_append.mp hbarrier).2.2 entry hentry _ List.mem_cons_self
        (Or.inr (by simp [hsqe, IoWork.sqe, Sqe.drains]))
      cases hqueued
    rw [hnone]
    rfl

theorem Settling.pop_write {op : WriteOp} {rest : List IoWork} (hsettling : engine.Settling)
    (hline : engine.line = .write op :: rest) (hafter : after.line = rest) :
    after.Settling := by
  have hfollowed := hsettling.1
  rw [hline] at hfollowed
  rw [Settling, hafter]
  exact ⟨hfollowed.2, fun _ => hfollowed.1⟩

theorem Settling.pop_remove {start : ℕ} {rest : List IoWork} (hsettling : engine.Settling)
    (hline : engine.line = .remove start :: rest) (hafter : after.line = rest)
    (hawaiting : after.awaitingFsync = engine.awaitingFsync) : after.Settling := by
  rw [Settling, hline, hasFsync_cons_remove] at hsettling
  rw [Settling, hafter, hawaiting]
  exact hsettling

theorem Settling.pop_fsync {target : ℕ} {rest : List IoWork} (hsettling : engine.Settling)
    (hline : engine.line = .fsync target :: rest) (hafter : after.line = rest)
    (hawaiting : after.awaitingFsync = []) : after.Settling := by
  have hfollowed := hsettling.1
  rw [hline] at hfollowed
  rw [Settling, hafter, hawaiting]
  exact ⟨hfollowed, fun hne => absurd rfl hne⟩

theorem Settling.congr (hsettling : engine.Settling) (hline : after.line = engine.line)
    (hawaiting : after.awaitingFsync = engine.awaitingFsync) : after.Settling := by
  rw [Settling, hline, hawaiting]
  exact hsettling

theorem Planned.congr (hplanned : engine.Planned) (hline : after.line = engine.line)
    (hawaiting : after.awaitingFsync = engine.awaitingFsync)
    (hplanner : after.fsyncPlanner = engine.fsyncPlanner) : after.Planned := by
  refine ⟨?_, ?_, ?_⟩
  · rw [hplanner]
    exact hplanned.cadence
  · rw [hplanner, hline]
    exact hplanned.running
  · rw [hplanner]
    exact hplanned.settling.imp_right fun h => h.congr hline hawaiting

theorem planned_enqueue (hsound : engine.Sound) (hplanned : engine.Planned) {batch : Batch}
    {rest : List WalMsg} (hmsg : engine.msgRx = .write batch :: rest)
    (hbatch : { engine with msgRx := rest }.handleBatch batch = .ok after) : after.Planned := by
  have hafter := sound_enqueue hsound hmsg hbatch
  obtain ⟨-, -, out, -, rfl⟩ := handleBatch_inv hbatch
  have hnonempty : 0 < out.length := by
    have hop := (hafter.tracked.writes ⟨{ batch with out := out }, engine.seg.offset, 0⟩
      (List.mem_append_right _ (List.mem_append_right _ (List.mem_singleton_self _)))).2.1
    exact hop
  refine ⟨hplanned.cadence, ?_, Or.inl (Nat.add_pos_right _ hnonempty)⟩
  intro hrunning
  obtain ⟨target, htarget⟩ := hplanned.running hrunning
  refine ⟨target, ?_⟩
  rcases List.mem_append.mp htarget with hring | hpending
  · exact List.mem_append_left _ hring
  · exact List.mem_append_right _ (List.mem_append_left _ hpending)

theorem planned_append (hplanned : engine.Planned) (starts : List ℕ) :
    { engine with pending := engine.pending ++ starts.map IoWork.remove }.Planned := by
  have hline : { engine with pending := engine.pending ++ starts.map IoWork.remove }.line =
      engine.line ++ starts.map IoWork.remove := (List.append_assoc _ _ _).symm
  have hremoves : Followed (starts.map IoWork.remove) :=
    followed_of_no_write fun work hwork op heq => by
      obtain ⟨start, -, hstart⟩ := List.mem_map.mp hwork
      rw [← hstart] at heq
      cases heq
  refine ⟨hplanned.cadence, ?_, ?_⟩
  · intro hrunning
    rw [hline, hasFsync_append]
    exact Or.inl (hplanned.running hrunning)
  · refine hplanned.settling.imp_right fun hsettling => ?_
    rw [Settling, hline, followed_append, hasFsync_append]
    exact ⟨⟨hremoves, Or.inr hsettling.1⟩, fun hne => Or.inl (hsettling.2 hne)⟩

theorem planned_arm (hplanned : engine.Planned) :
    { engine with
      fsyncPlanner := { engine.fsyncPlanner with dirtyBytes := 0, flushRunning := true }
      pending := engine.pending ++ [IoWork.fsync engine.lastIngestedLsn] }.Planned := by
  have hline : { engine with
      fsyncPlanner := { engine.fsyncPlanner with dirtyBytes := 0, flushRunning := true }
      pending := engine.pending ++ [IoWork.fsync engine.lastIngestedLsn] }.line =
      engine.line ++ [.fsync engine.lastIngestedLsn] := (List.append_assoc _ _ _).symm
  have hfsync : HasFsync [.fsync engine.lastIngestedLsn] := ⟨_, List.mem_singleton_self _⟩
  refine ⟨hplanned.cadence, ?_, Or.inr ?_⟩
  · intro _
    rw [hline, hasFsync_append]
    exact Or.inr hfsync
  · rw [Settling, hline, followed_append, hasFsync_append]
    exact ⟨⟨trivial, Or.inl hfsync⟩, fun _ => Or.inr hfsync⟩

theorem planned_move {permit : Kind → WalEngine → Prop} (hsound : engine.Sound)
    (hplanned : engine.Planned) (hmove : Move permit engine after) : after.Planned := by
  have hkeyed := hsound.ringed.keyed
  cases hmove with
  | arrive msg hpermit hfeed => exact hplanned.congr rfl rfl rfl
  | send hpermit houtbox => exact hplanned.congr rfl rfl rfl
  | giveBack hpermit houtbox => exact hplanned.congr rfl rfl rfl
  | lend hpermit hpool => exact hplanned.congr rfl rfl rfl
  | quiet spinBudget pc vacant htodo =>
      have htickets := @tickets_frame engine
        { engine with spinBudget := spinBudget, pc := pc, vacant := vacant } htodo rfl
      exact hplanned.congr (line_congr htickets rfl rfl) rfl rfl
  | discard hpermit hmsg hkind => exact hplanned.congr rfl rfl rfl
  | enqueue hmsg hbatch => exact planned_enqueue hsound hplanned hmsg hbatch
  | schedule starts hpermit hstarts => exact planned_append hplanned starts
  | arm hdue => exact planned_arm hplanned
  | push hpending => exact hplanned.congr (line_push hkeyed hpending) rfl rfl
  | beginReap ret htodo =>
      exact hplanned.congr (line_congr (tickets_beginReap _ _ htodo) rfl rfl) rfl rfl
  | submit => exact hplanned.congr (line_congr (tickets_submitRing _) rfl rfl) rfl rfl
  | start hstart => exact hplanned.congr (line_congr (tickets_start _ hstart) rfl rfl) rfl rfl
  | reapRemoved hpc hwork =>
      have hline := line_pop hkeyed hpc hwork
      refine ⟨hplanned.cadence, ?_, ?_⟩
      · intro hrunning
        have hfsync := hplanned.running hrunning
        rwa [hline, hasFsync_cons_remove] at hfsync
      · exact hplanned.settling.imp_right fun h => h.pop_remove hline rfl rfl
  | reapWritten hpermit hpc hwork hres hdone =>
      have hline := line_pop hkeyed hpc hwork
      rw [reapWritten_eq]
      refine ⟨hplanned.cadence, ?_, ?_⟩
      · intro hrunning
        have hfsync := hplanned.running hrunning
        rwa [hline, hasFsync_cons_write] at hfsync
      · exact hplanned.settling.imp_right fun h => h.pop_write hline rfl
  | @reapRetry cqe rest ret op done hpc hwork hdone =>
      have hline := line_pop hkeyed hpc hwork
      have hless := (hsound.tracked.writes op (mem_line_of_lookup hkeyed hwork)).2.1
      have hleft : done < op.data.out.length := by
        rcases hdone with ⟨rfl, -⟩ | ⟨-, -, hlt⟩
        · exact hless
        · exact hlt
      refine ⟨hplanned.cadence, ?_, Or.inl ?_⟩
      · intro hrunning
        have hfsync := hplanned.running hrunning
        rw [hline, hasFsync_cons_write] at hfsync
        obtain ⟨target, htarget⟩ := hfsync
        exact ⟨target, mem_line_retry.mpr (Or.inr htarget)⟩
      · exact Nat.add_pos_right _ (Nat.sub_pos_of_lt hleft)
  | reapDurable hpermit hpc hwork hres =>
      have hline := line_pop hkeyed hpc hwork
      refine ⟨hplanned.cadence, (fun hrunning => by cases hrunning), ?_⟩
      exact hplanned.settling.imp_right fun h => h.pop_fsync hline rfl rfl
  | sealed boundaryLsn hpermit hpending hinflight htodo =>
      have hnone : engine.line = [] := by
        rw [line, tickets_eq_nil hkeyed hinflight, hpending]
        rfl
      have htickets := @tickets_frame engine (engine.sealSegment boundaryLsn) htodo.symm rfl
      have hline : (engine.sealSegment boundaryLsn).line = [] :=
        (line_congr htickets rfl rfl).trans hnone
      refine ⟨hplanned.cadence, (fun hrunning => by cases hrunning), Or.inr ?_⟩
      rw [Settling, hline]
      exact ⟨trivial, fun hne => absurd rfl hne⟩
  | @complete position res files ring hcomplete =>
      obtain ⟨ahead, front, work, back, hbefore, hafter, hkind⟩ :=
        line_complete_split hsound hcomplete
      have hperm := line_complete hcomplete
      have hsame : HasFsync engine.line →
          HasFsync { engine with files := files, ring := ring }.line := by
        rintro ⟨target, htarget⟩
        exact ⟨target, hperm.mem_iff.mpr htarget⟩
      refine ⟨hplanned.cadence, fun hrunning => hsame (hplanned.running hrunning), ?_⟩
      refine hplanned.settling.imp_right fun hsettling => ⟨?_, fun hne => hsame (hsettling.2 hne)⟩
      rw [hafter]
      have hfollowed := hsettling.1
      rw [hbefore] at hfollowed
      exact hfollowed.overtake hkind

/-! ## Steps -/

/-- Something is in line behind the completions being reaped. -/
def Behind (engine : WalEngine) : Prop :=
  engine.ring.cq ≠ [] ∨ engine.ring.entries ≠ [] ∨ engine.ring.sq ≠ [] ∨ engine.pending ≠ []

/-- A completion being reaped leaves its write unfinished. -/
def Unfinished (engine : WalEngine) : Prop :=
  ∃ cqe ∈ engine.todo, ∃ op,
    engine.inflight.lookup cqe.userData = some (.write op) ∧ ¬ Full op cqe

/-- The loop will not park on waiting batches. -/
def Restful (engine : WalEngine) : Prop :=
  match engine.pc with
  | .top => engine.Behind ∨ engine.awaitingFsync = []
  | .reaping _ (.loop _) => engine.Behind ∨ engine.Unfinished ∨ engine.Settling
  | _ => True

/-- The completion is that of a write that is now done, or of no write. -/
def finishes (engine : WalEngine) (cqe : Cqe) : Bool :=
  match engine.inflight.lookup cqe.userData with
  | some (.write op) => Full op cqe
  | _ => true

/-- The completion is that of a write. -/
def stores (engine : WalEngine) (cqe : Cqe) : Bool :=
  match engine.inflight.lookup cqe.userData with
  | some (.write _) => true
  | _ => false

/-- The state in which the next call of `reap_cqes` strands a batch: the
completion queue holds all that is left of the line, every write in it is done,
no fsync is due, and a write stands behind an fsync. -/
def Stalls (engine : WalEngine) : Prop :=
  engine.pending = [] ∧ engine.ring.sq = [] ∧ engine.ring.entries = [] ∧
    engine.fsyncPlanner.due = false ∧ (∀ cqe ∈ engine.ring.cq, engine.finishes cqe) ∧
    ¬ engine.ring.cq.Pairwise fun early late => engine.flushes early → ¬ engine.stores late

instance (engine : WalEngine) : Decidable engine.Stalls :=
  inferInstanceAs (Decidable (_ ∧ _))

/-- `should_park()` holds and the thread calls `recv`. -/
def Parks (engine : WalEngine) : Prop :=
  engine.pc = .top ∧ engine.outbox = [] ∧ engine.shouldPark = true

instance (engine : WalEngine) : Decidable engine.Parks :=
  inferInstanceAs (Decidable (_ ∧ _))

theorem behind_start {position : ℕ} {ring : IoUring}
    (hstart : startEntry engine.files engine.ring position = some ring) :
    { engine with ring := ring }.Behind := by
  obtain ⟨front, entry, back, -, -, -, rfl⟩ := startEntry_inv hstart
  exact Or.inr (Or.inl (by simp))

theorem behind_complete {position : ℕ} {res : ℤ} {files : Files} {ring : IoUring}
    (hcomplete : completeEntry engine.files engine.ring position res = some (files, ring)) :
    { engine with files := files, ring := ring }.Behind := by
  obtain ⟨front, idx, sqe, seen, back, -, -, -, rfl⟩ := completeEntry_inv hcomplete
  exact Or.inl (by simp)

theorem not_shouldPark_of_behind (hkeyed : engine.Keyed) (hbehind : engine.Behind) :
    engine.shouldPark = false := by
  by_contra hpark
  simp only [shouldPark, Bool.not_eq_false, decide_eq_true_eq] at hpark
  have htickets := tickets_eq_nil hkeyed hpark.2
  simp only [tickets, List.append_eq_nil_iff, List.map_eq_nil_iff] at htickets
  obtain ⟨⟨⟨-, hcq⟩, hentries⟩, hsq⟩ := htickets
  rcases hbehind with h | h | h | h
  · exact h hcq
  · exact h hentries
  · exact h hsq
  · exact h hpark.1

/-- `handle_pending` leaves both queues empty only if it found them so. -/
theorem pullLoop_nil (fuel : ℕ) (engine : WalEngine)
    (hsq : (pullLoop fuel engine).ring.sq = []) (hpending : (pullLoop fuel engine).pending = []) :
    engine.ring.sq = [] ∧ engine.pending = [] ∧ pullLoop fuel engine = engine := by
  induction fuel generalizing engine with
  | zero => exact ⟨hsq, hpending, rfl⟩
  | succ fuel ih =>
      cases hwork : engine.pending with
      | nil =>
          simp only [pullLoop, hwork] at hsq hpending ⊢
          exact ⟨hsq, trivial, trivial⟩
      | cons work rest =>
          simp only [pullLoop, hwork] at hsq hpending
          split_ifs at hsq hpending with hroom
          · have hpush := (ih _ hsq hpending).1
            simp [push] at hpush
          · rw [hwork] at hpending
            cases hpending

/-- Reaping starts well unless the state stalls. -/
theorem restful_plan (hplanned : engine.Planned)
    (hpc : engine.pc = .plan) (hstall : ¬ engine.Stalls) : engine.plan.Restful := by
  have htodo : engine.todo = [] := by simp [todo, hpc, Pc.todo]
  change (engine.armFsync.handlePending.1.beginReap _).Behind ∨ _ ∨ _
  by_cases hleft : engine.armFsync.handlePending.1.ring.entries ≠ [] ∨
      engine.armFsync.handlePending.1.ring.sq ≠ [] ∨
      engine.armFsync.handlePending.1.pending ≠ []
  · exact Or.inl (Or.inr hleft)
  simp only [ne_eq, not_or, not_not] at hleft
  obtain ⟨hentries, hsq, hpending⟩ := hleft
  obtain ⟨hsq', hpending', hsame⟩ := pullLoop_nil _ _ hsq hpending
  have hdue : engine.fsyncPlanner.due = false := by
    by_contra hdue
    simp [armFsync, FsyncPlanner.shouldFsync, Bool.not_eq_false _ ▸ hdue] at hpending'
  have harm : engine.armFsync = engine := by
    simp [armFsync, FsyncPlanner.shouldFsync, hdue]
  have hpulled : engine.armFsync.handlePending.1 = engine := by
    rw [handlePending, hsame, harm]
  rw [plan, hpulled]
  rw [hpulled] at hentries hsq hpending
  right
  by_cases hunfinished : ∃ cqe ∈ engine.ring.cq, ∃ op,
      engine.inflight.lookup cqe.userData = some (.write op) ∧ ¬ Full op cqe
  · exact Or.inl hunfinished
  right
  have hline : (engine.beginReap (.loop engine.armFsync.handlePending.2)).line = engine.line :=
    line_congr (tickets_beginReap _ _ htodo) rfl rfl
  have hqueue : engine.line =
      engine.ring.cq.filterMap fun cqe => engine.inflight.lookup cqe.userData := by
    simp [line, tickets, worksAt, htodo, hentries, hsq, hpending, List.filterMap_map]
  have hordered : engine.ring.cq.Pairwise fun early late => ∀ target op,
      engine.inflight.lookup early.userData = some (.fsync target) →
        engine.inflight.lookup late.userData ≠ some (.write op) := by
    by_contra hnot
    refine hstall ⟨hpending, hsq, hentries, hdue, ?_, ?_⟩
    · intro cqe hcqe
      unfold finishes
      split
      next op hlookup =>
        by_contra hfull
        exact hunfinished ⟨cqe, hcqe, op, hlookup, by simpa using hfull⟩
      next => rfl
    · intro hpairs
      refine hnot (hpairs.imp ?_)
      intro early late hpair target op hearly hlate
      exact hpair (by simp [flushes, hearly]) (by simp [stores, hlate])
  refine Settling.congr ?_ hline rfl
  rcases hplanned.settling with hdirty | hsettling
  · -- dirty bytes with no fsync due: one is running, and no write is behind it
    have hrunning : engine.fsyncPlanner.flushRunning = true := by
      simpa [FsyncPlanner.due, hdirty.ne', hplanned.cadence] using hdue
    have hfsync := hplanned.running hrunning
    refine ⟨?_, fun _ => hfsync⟩
    rw [hqueue] at hfsync ⊢
    exact followed_of_ordered _ hfsync hordered
  · exact hsettling

/-- An unfinished write among the completions stays there until it is reaped. -/
theorem Unfinished.pop (hunfinished : engine.Unfinished) (hkeyed : engine.Keyed) {cqe : Cqe}
    {rest : List Cqe} {ret : Return} (hpc : engine.pc = .reaping (cqe :: rest) ret)
    (hhead : ∀ op, engine.inflight.lookup cqe.userData = some (.write op) → Full op cqe) :
    (engine.pop cqe rest ret).Unfinished := by
  obtain ⟨other, hother, op, hlookup, hnot⟩ := hunfinished
  simp only [todo, hpc, Pc.todo, List.mem_cons] at hother
  rcases hother with rfl | hrest
  · exact absurd (hhead op hlookup) hnot
  · have hposted : other ∈ (engine.pop cqe rest ret).posted := List.mem_append_left _ hrest
    refine ⟨other, hrest, op, ?_, hnot⟩
    rw [lookup_pop hkeyed hpc (userData_mem_tickets hposted)]
    exact hlookup

theorem restful_of_behind (hbehind : engine.Behind) : engine.Restful := by
  unfold Restful
  split
  · exact Or.inl hbehind
  · exact Or.inl hbehind
  · trivial

theorem restful_finishLoop {needSubmit : Bool}
    (hpc : engine.pc = .reaping [] (.loop needSubmit)) (hrestful : engine.Restful) :
    (engine.finishLoop needSubmit).Restful := by
  have htodo : engine.todo = [] := by simp [todo, hpc, Pc.todo]
  simp only [Restful, hpc] at hrestful
  have hrest : engine.Behind ∨ engine.awaitingFsync = [] := by
    rcases hrestful with hbehind | ⟨cqe, hcqe, -⟩ | hsettling
    · exact Or.inl hbehind
    · rw [htodo] at hcqe
      cases hcqe
    · by_cases hbehind : engine.Behind
      · exact Or.inl hbehind
      · right
        by_contra hawaiting
        obtain ⟨target, htarget⟩ := hsettling.2 hawaiting
        simp only [Behind, ne_eq, not_or, not_not] at hbehind
        obtain ⟨hcq, hentries, hsq, hpending⟩ := hbehind
        simp [line, tickets, worksAt, htodo, hcq, hentries, hsq, hpending] at htarget
  unfold finishLoop
  split_ifs with hsubmit
  · refine hrest.imp_left fun hbehind => ?_
    simp only [Behind, submitRing, IoUring.submit, ne_eq, List.append_eq_nil_iff] at hbehind ⊢
    tauto
  · exact hrest

/-- One round of `reap_cqes`, called from the main loop. -/
theorem restful_reapCqe (hsound : engine.Sound) (hrestful : engine.Restful) {cqe : Cqe}
    {rest : List Cqe} {needSubmit : Bool}
    (hpc : engine.pc = .reaping (cqe :: rest) (.loop needSubmit))
    (hreap : { engine with pc := .reaping rest (.loop needSubmit) }.reapCqe cqe = .ok after) :
    after.Restful := by
  have hkeyed := hsound.ringed.keyed
  simp only [Restful, hpc] at hrestful
  rcases reapCqe_inv hreap with ⟨startLsn, hwork, rfl⟩ | ⟨op, hwork, hres, hdone, rfl⟩ |
    ⟨op, done, hwork, hdone, rfl⟩ | ⟨target, hwork, hres, rfl⟩
  · rcases hrestful with hbehind | hunfinished | hsettling
    · exact Or.inl hbehind
    · exact Or.inr (Or.inl (hunfinished.pop hkeyed hpc fun op heq => by simp [hwork] at heq))
    · exact Or.inr (Or.inr (hsettling.pop_remove (line_pop hkeyed hpc hwork) rfl rfl))
  · rw [reapWritten_eq]
    rcases hrestful with hbehind | hunfinished | hsettling
    · exact Or.inl hbehind
    · refine Or.inr (Or.inl (hunfinished.pop hkeyed hpc ?_))
      intro other hother
      rw [hwork, Option.some.injEq, IoWork.write.injEq] at hother
      exact hother ▸ ⟨hres, hdone⟩
    · exact Or.inr (Or.inr (hsettling.pop_write (line_pop hkeyed hpc hwork) rfl))
  · exact Or.inl (Or.inr (Or.inr (Or.inr (by simp))))
  · rcases hrestful with hbehind | hunfinished | hsettling
    · exact Or.inl hbehind
    · exact Or.inr (Or.inl (hunfinished.pop hkeyed hpc fun op heq => by simp [hwork] at heq))
    · exact Or.inr (Or.inr (hsettling.pop_fsync (line_pop hkeyed hpc hwork) rfl rfl))

theorem restful_step {act : Act} (hsound : engine.Sound) (hplanned : engine.Planned)
    (hrestful : engine.Restful) (hstall : ¬ (act = .plan ∧ engine.Stalls))
    (hstep : engine.step act = some after) : after.Restful := by
  cases stepped hstep with
  | arrive msg => exact hrestful
  | poll hpc hpoll =>
      unfold Restful
      rcases poll_pc hpoll with hplan | ⟨boundaryLsn, hdraining⟩
      · rw [hplan]
        trivial
      · rw [hdraining]
        trivial
  | plan hpc => exact restful_plan hplanned hpc fun h => hstall ⟨rfl, h⟩
  | @reapCqe cqe rest ret _ hpc hreap =>
      cases ret with
      | loop needSubmit => exact restful_reapCqe hsound hrestful hpc hreap
      | rotate boundaryLsn =>
          have hpcs : after.pc = .reaping rest (.rotate boundaryLsn) := reapCqe_pc hreap
          unfold Restful
          rw [hpcs]
          trivial
  | reapLoop hpc => exact restful_finishLoop hpc hrestful
  | reapRotate hpc => trivial
  | drain hpc =>
      unfold drain
      split_ifs <;> trivial
  | wake hpc => trivial
  | start hstart => exact restful_of_behind (behind_start hstart)
  | complete hcomplete => exact restful_of_behind (behind_complete hcomplete)
  | reply houtbox => exact hrestful
  | recycle houtbox => exact hrestful
  | lend hpool => exact hrestful
  | slab keys => exact hrestful

/-- In Sync mode the engine never sleeps on a batch that waits for an fsync, in
every run that never calls `reap_cqes` in a stalling state. -/
theorem parks_nothing_awaited {depth : ℕ} {segs : SortedMap ℕ Bytes} {startLsn : ℕ}
    {pool : List Batch} (hreach : Machine.Reach step
      (fun engine act => Feeds engine act ∧ ¬ (act = .plan ∧ engine.Stalls))
      (new depth (Files.ofSegs segs) startLsn .sync pool) engine)
    (hparks : engine.Parks) : engine.awaitingFsync = [] := by
  have hkeep : engine.Sound ∧ engine.Planned ∧ engine.Restful := by
    clear hparks
    induction hreach with
    | start =>
        refine ⟨sound_new _ _ _ _ _, ⟨rfl, (fun h => by cases h), Or.inr ?_⟩, Or.inr rfl⟩
        exact ⟨trivial, fun hne => absurd rfl hne⟩
    | next _ hguard hstep ih =>
        have hmoves : ∀ engine after : WalEngine, engine.Sound ∧ engine.Planned →
            Move Anything engine after → after.Sound ∧ after.Planned :=
          fun _ _ h hmove => ⟨sound_move h.1 hmove, planned_move h.1 h.2 hmove⟩
        obtain ⟨hsound, hplanned⟩ := step_keeps hmoves ⟨ih.1, ih.2.1⟩ hguard.1
          (fun _ _ _ => trivial) hstep
        exact ⟨hsound, hplanned, restful_step ih.1 ih.2.1 ih.2.2 hguard.2 hstep⟩
  obtain ⟨hsound, -, hrestful⟩ := hkeep
  obtain ⟨hpc, -, hpark⟩ := hparks
  simp only [Restful, hpc] at hrestful
  rcases hrestful with hbehind | hnone
  · rw [not_shouldPark_of_behind hsound.ringed.keyed hbehind] at hpark
    cases hpark
  · exact hnone

/-- One PUT is committed, then the engine sleeps. -/
theorem parks_nothing_awaited_one :
    ∃ engine, Machine.Reach step
        (fun engine act => Feeds engine act ∧ ¬ (act = .plan ∧ engine.Stalls))
        (new 128 (Files.ofSegs SortedMap.empty) 1 .sync []) engine ∧
      engine.Parks ∧ engine.acked ≠ [] ∧ engine.awaitingFsync = [] := by
  let batch : Batch := ⟨[⟨.smallPut 65 66, 7, some .ok, 0⟩], [], 1, 2, 0⟩
  obtain ⟨engine, hreach, hdone⟩ := @Machine.exists_reach _ _ step
    (fun engine act => Feeds engine act ∧ ¬ (act = .plan ∧ engine.Stalls))
    (new 128 (Files.ofSegs SortedMap.empty) 1 .sync []) _
    [.arrive (.write batch), .poll, .plan, .reap, .start 0, .complete 0 27, .start 0,
      .complete 0 0, .poll, .plan, .reap, .reap, .send, .send, .reap]
    (fun engine => engine.Parks ∧ engine.acked ≠ []) (by decide +kernel)
  obtain ⟨hparks, hacked⟩ : engine.Parks ∧ engine.acked ≠ [] := by simpa using hdone
  exact ⟨engine, hreach, hparks, hacked, parks_nothing_awaited hreach hparks⟩

/-- The second batch is queued while the first fsync is in line.  Its write and
that fsync are reaped together, and the engine sleeps on it. -/
theorem parks_with_awaiting :
    ∃ engine, Machine.Reach step Feeds (new 128 (Files.ofSegs SortedMap.empty) 1 .sync [])
        engine ∧ engine.Parks ∧ engine.awaitingFsync ≠ [] := by
  let first : Batch := ⟨[⟨.smallPut 65 66, 7, some .ok, 0⟩], [], 1, 2, 0⟩
  let second : Batch := ⟨[⟨.smallPut 65 67, 7, some .ok, 1⟩], [], 2, 3, 1⟩
  obtain ⟨engine, hreach, hdone⟩ := @Machine.exists_reach _ _ step Feeds
    (new 128 (Files.ofSegs SortedMap.empty) 1 .sync []) _
    [.arrive (.write first), .poll, .plan, .reap, .start 0, .complete 0 27,
      .arrive (.write second), .poll, .plan, .reap, .reap,
      .start 0, .complete 0 0, .start 0, .complete 0 27,
      .poll, .plan, .reap, .send, .send, .reap, .reap]
    (fun engine => engine.Parks ∧ engine.awaitingFsync ≠ []) (by decide +kernel)
  exact ⟨engine, hreach, by simpa using hdone⟩

end WalEngine

end InMemoryDb.Stage3
