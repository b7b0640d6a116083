import InMemoryDb.Server.Stage3.Slots
import Mathlib.Data.Prod.Lex

/-!
# What is left to do

How far the engine is from having done everything it was asked for.  A message
counts for more than the bytes it brings, a byte that is not written for more than
the places an operation has to pass, and these for more than the responses that
wait.  While no message arrives and every completed write has made progress, no
step adds to it, and a step that leaves it alone moves the thread only.
-/

namespace InMemoryDb.Stage3

def Phase.left : Phase → ℕ
  | .queued => 3
  | .running _ => 2

def Sqe.isWrite : Sqe → Bool
  | .write _ _ _ => true
  | _ => false

namespace WalEngine

variable {engine after : WalEngine}

/-- The completion sends its write back to `pending` with nothing written. -/
def stalled (engine : WalEngine) (cqe : Cqe) : Bool :=
  match engine.inflight.lookup cqe.userData with
  | some (.write _) => cqe.result ≤ 0
  | _ => false

/-- Bytes that are not written, and completions that wrote none. -/
def debt (engine : WalEngine) : ℕ :=
  (engine.line.map IoWork.unwritten).sum + engine.posted.countP engine.stalled

/-- The places operations have to pass, those of the fsync that may be armed included. -/
def places (engine : WalEngine) : ℕ :=
  5 * engine.pending.length + 4 * engine.ring.sq.length +
    (engine.ring.entries.map fun entry => entry.phase.left).sum + engine.posted.length +
    if engine.fsyncPlanner.dirtyBytes = 0 then 0 else 6

/-- What the outbox holds, and what the batches that wait for an fsync will put there. -/
def replies (engine : WalEngine) : ℕ :=
  engine.outbox.length + (engine.awaitingFsync.map fun batch => batch.owed.length + 2).sum

def effort (engine : WalEngine) : ℕ ×ₗ ℕ ×ₗ ℕ ×ₗ ℕ :=
  toLex (engine.msgRx.length, toLex (engine.debt, toLex (engine.places, engine.replies)))

/-- A write that completes has made progress. -/
def Progresses (engine : WalEngine) : Act → Prop
  | .complete position res => ∀ entry, engine.ring.entries[position]? = some entry →
      entry.sqe.isWrite = true → 0 < res
  | _ => True

instance (engine : WalEngine) (act : Act) : Decidable (engine.Progresses act) :=
  match act with
  | .complete position res =>
      decidable_of_iff
        ((engine.ring.entries[position]?).all
          (fun entry => !entry.sqe.isWrite || decide (0 < res)) = true)
        (by simp [Progresses, Option.all_eq_true, imp_iff_not_or])
  | .arrive _ | .poll | .plan | .reap | .drain | .wake | .start _ | .send | .lend | .slab _ =>
      isTrue trivial

/-! ## Comparing -/

theorem effort_lt_of_messages (hmsgRx : after.msgRx.length < engine.msgRx.length) :
    after.effort < engine.effort :=
  Prod.Lex.toLex_lt_toLex.mpr (Or.inl hmsgRx)

theorem effort_lt_of_debt (hmsgRx : after.msgRx = engine.msgRx) (hdebt : after.debt < engine.debt) :
    after.effort < engine.effort :=
  Prod.Lex.toLex_lt_toLex.mpr
    (Or.inr ⟨congrArg List.length hmsgRx, Prod.Lex.toLex_lt_toLex.mpr (Or.inl hdebt)⟩)

theorem effort_lt_of_places (hmsgRx : after.msgRx = engine.msgRx)
    (hdebt : after.debt ≤ engine.debt) (hplaces : after.places < engine.places) :
    after.effort < engine.effort := by
  rcases hdebt.lt_or_eq with hless | hsame
  · exact effort_lt_of_debt hmsgRx hless
  · refine Prod.Lex.toLex_lt_toLex.mpr (Or.inr ⟨congrArg List.length hmsgRx, ?_⟩)
    refine Prod.Lex.toLex_lt_toLex.mpr (Or.inr ⟨hsame, ?_⟩)
    exact Prod.Lex.toLex_lt_toLex.mpr (Or.inl hplaces)

theorem effort_lt_of_replies (hmsgRx : after.msgRx = engine.msgRx)
    (hdebt : after.debt = engine.debt) (hplaces : after.places = engine.places)
    (hreplies : after.replies < engine.replies) : after.effort < engine.effort := by
  refine Prod.Lex.toLex_lt_toLex.mpr (Or.inr ⟨congrArg List.length hmsgRx, ?_⟩)
  refine Prod.Lex.toLex_lt_toLex.mpr (Or.inr ⟨hdebt, ?_⟩)
  exact Prod.Lex.toLex_lt_toLex.mpr (Or.inr ⟨hplaces, hreplies⟩)

theorem effort_congr (hmsgRx : after.msgRx = engine.msgRx) (hdebt : after.debt = engine.debt)
    (hplaces : after.places = engine.places) (hreplies : after.replies = engine.replies) :
    after.effort = engine.effort := by
  rw [effort, hmsgRx, hdebt, hplaces, hreplies]
  rfl

/-- The debt depends on the line up to order, and on what is posted. -/
theorem debt_congr (hline : after.line.Perm engine.line) (hposted : after.posted = engine.posted)
    (hlookup : ∀ cqe ∈ engine.posted,
      after.inflight.lookup cqe.userData = engine.inflight.lookup cqe.userData) :
    after.debt = engine.debt := by
  have hstalled : engine.posted.countP after.stalled = engine.posted.countP engine.stalled := by
    refine List.countP_congr fun cqe hcqe => ?_
    rw [stalled, stalled, hlookup cqe hcqe]
  rw [debt, hposted, hstalled, (hline.map _).sum_eq]
  rfl

theorem debt_frame (htickets : after.tickets = engine.tickets)
    (hposted : after.posted = engine.posted) (hinflight : after.inflight = engine.inflight)
    (hpending : after.pending = engine.pending) : after.debt = engine.debt :=
  debt_congr (List.Perm.of_eq (line_congr htickets hinflight hpending)) hposted
    fun _ _ => by rw [hinflight]

/-- A change of the control point, and of nothing that counts. -/
theorem effort_quiet {spinBudget : ℤ} {pc : Pc} (htodo : pc.todo = engine.todo) :
    { engine with spinBudget := spinBudget, pc := pc }.effort = engine.effort := by
  have hposted : { engine with spinBudget := spinBudget, pc := pc }.posted = engine.posted :=
    congrArg (fun todo => todo ++ engine.ring.cq) htodo
  refine effort_congr rfl ?_ ?_ rfl
  · exact debt_frame (tickets_frame htodo rfl) hposted rfl rfl
  · rw [places, hposted]
    rfl

/-! ## The thread -/

theorem effort_arm : engine.armFsync = engine ∨ engine.armFsync.effort < engine.effort := by
  by_cases hdue : engine.fsyncPlanner.due = true
  · have hdirty : engine.fsyncPlanner.dirtyBytes ≠ 0 := by
      intro hzero
      rw [FsyncPlanner.due, if_pos hzero] at hdue
      cases hdue
    rw [armFsync_due hdue]
    refine Or.inr (effort_lt_of_places rfl ?_ ?_)
    · have hline : { engine with
          fsyncPlanner := { engine.fsyncPlanner with dirtyBytes := 0, flushRunning := true }
          pending := engine.pending ++ [IoWork.fsync engine.lastIngestedLsn] }.line =
          engine.line ++ [.fsync engine.lastIngestedLsn] := (List.append_assoc _ _ _).symm
      rw [debt, hline, List.map_append, List.sum_append]
      exact le_rfl
    · simp only [places, posted, todo, List.length_append, List.length_singleton, if_pos,
        if_neg hdirty]
      omega
  · exact Or.inl (armFsync_idle hdue)

theorem effort_push (hkeyed : engine.Keyed) {work : IoWork} {rest : List IoWork}
    (hpending : engine.pending = work :: rest) :
    (engine.push work rest).effort < engine.effort := by
  refine effort_lt_of_places rfl ?_ ?_
  · refine (debt_congr (List.Perm.of_eq (line_push hkeyed hpending)) rfl ?_).le
    exact fun cqe hcqe => lookup_push hkeyed work rest (userData_mem_tickets hcqe)
  · have hsq : (engine.push work rest).ring.sq.length = engine.ring.sq.length + 1 :=
      List.length_append
    have hlength : engine.pending.length = (engine.push work rest).pending.length + 1 :=
      congrArg List.length hpending
    change 5 * (engine.push work rest).pending.length + 4 * (engine.push work rest).ring.sq.length +
      (engine.ring.entries.map fun entry => entry.phase.left).sum + engine.posted.length +
      (if engine.fsyncPlanner.dirtyBytes = 0 then 0 else 6) < engine.places
    rw [hsq, places, hlength]
    omega

/-- `handle_pending` pushes something, or there is nothing to push, or no room. -/
theorem effort_handlePending (hkeyed : engine.Keyed) :
    (engine.handlePending.1 = engine ∧ (engine.pending = [] ∨ engine.hasRoom = false)) ∨
      engine.handlePending.1.effort < engine.effort := by
  have hcase := (@pullLoop_keeps engine
    (fun after => after.Keyed ∧ (after = engine ∨ after.effort < engine.effort))
    (fun middle work rest hmiddle hpending _ => ⟨hmiddle.1.push _ _, Or.inr (by
      have hless := effort_push hmiddle.1 hpending
      rcases hmiddle.2 with rfl | hbefore
      · exact hless
      · exact hless.trans hbefore)⟩) engine.pending.length ⟨hkeyed, Or.inl rfl⟩).2
  rcases hcase with hsame | hless
  · have hstops := handlePending_stops engine
    change engine.handlePending.1 = engine at hsame
    rw [hsame] at hstops
    exact Or.inl ⟨hsame, hstops⟩
  · exact Or.inr hless

theorem effort_beginReap (ret : Return) (htodo : engine.todo = []) :
    (engine.beginReap ret).effort = engine.effort := by
  have hposted : (engine.beginReap ret).posted = engine.posted := by
    simp only [posted, htodo]
    exact List.append_nil _
  refine effort_congr rfl ?_ ?_ rfl
  · exact debt_frame (tickets_beginReap _ _ htodo) hposted rfl rfl
  · rw [places, hposted]
    rfl

theorem effort_submit (hwaiting : ∀ entry ∈ engine.ring.sq, entry.phase = .queued) :
    engine.submitRing = engine ∨ engine.submitRing.effort < engine.effort := by
  by_cases hsq : engine.ring.sq = []
  · left
    have hring : engine.ring.submit = engine.ring := by
      rw [IoUring.submit, hsq, List.append_nil, ← hsq]
    rw [submitRing, hring]
  · right
    refine effort_lt_of_places rfl (debt_frame (tickets_submitRing _) rfl rfl rfl).le ?_
    have hleft : (engine.ring.sq.map fun entry => entry.phase.left).sum =
        3 * engine.ring.sq.length := by
      have hthree : engine.ring.sq.map (fun entry => entry.phase.left) =
          engine.ring.sq.map fun _ => 3 := by
        apply List.map_congr_left
        intro entry hentry
        rw [hwaiting entry hentry]
        rfl
      rw [hthree, List.map_const', List.sum_replicate, smul_eq_mul, Nat.mul_comm]
    have hpos := List.length_pos_iff.mpr hsq
    change 5 * engine.pending.length + 4 * 0 +
      ((engine.ring.entries ++ engine.ring.sq).map fun entry => entry.phase.left).sum +
      engine.posted.length + (if engine.fsyncPlanner.dirtyBytes = 0 then 0 else 6) < engine.places
    rw [List.map_append, List.sum_append, hleft, places]
    omega

/-! ## What is reaped -/

/-- One completion less to reap, and no debt but its own. -/
theorem pop_counts (hkeyed : engine.Keyed) {cqe : Cqe} {rest : List Cqe} {ret : Return}
    {work : IoWork} (hpc : engine.pc = .reaping (cqe :: rest) ret)
    (hwork : engine.inflight.lookup cqe.userData = some work) :
    engine.debt = work.unwritten + (if engine.stalled cqe = true then 1 else 0) +
        (engine.pop cqe rest ret).debt ∧
      engine.posted.length = (engine.pop cqe rest ret).posted.length + 1 := by
  have hposted := posted_pop hpc
  have hstalled : (engine.pop cqe rest ret).posted.countP engine.stalled =
      (engine.pop cqe rest ret).posted.countP (engine.pop cqe rest ret).stalled := by
    refine List.countP_congr fun other hother => ?_
    rw [stalled, stalled, lookup_pop hkeyed hpc (userData_mem_tickets hother)]
  constructor
  · rw [debt, line_pop hkeyed hpc hwork, List.map_cons, List.sum_cons, hposted, List.countP_cons,
      hstalled, debt]
    omega
  · rw [hposted, List.length_cons]

theorem effort_reapRetry (hsound : engine.Sound) {cqe : Cqe} {rest : List Cqe} {ret : Return}
    {op : WriteOp} {done : ℕ} (planner : FsyncPlanner)
    (hpc : engine.pc = .reaping (cqe :: rest) ret)
    (hwork : engine.inflight.lookup cqe.userData = some (.write op))
    (hdone : (done = op.done ∧ cqe.result < 0) ∨
      (done = op.done + cqe.result.toNat ∧ 0 ≤ cqe.result ∧ done < op.data.out.length)) :
    { engine.pop cqe rest ret with
      fsyncPlanner := planner
      pending := IoWork.write { op with done := done } :: engine.pending }.effort <
      engine.effort := by
  have hkeyed := hsound.ringed.keyed
  obtain ⟨-, hunfinished, -⟩ :=
    hsound.tracked.writes op (mem_line_of_lookup hkeyed hwork)
  have hline := (line_retry (engine.pop cqe rest ret) planner
    (.write { op with done := done })).map IoWork.unwritten
  have hdebt : { engine.pop cqe rest ret with
      fsyncPlanner := planner
      pending := IoWork.write { op with done := done } :: engine.pending }.debt =
      op.data.out.length - done + (engine.pop cqe rest ret).debt := by
    rw [debt]
    refine (congrArg (fun sum => sum + _) hline.sum_eq).trans ?_
    exact Nat.add_assoc _ _ _
  refine effort_lt_of_debt rfl ?_
  rw [hdebt, (pop_counts hkeyed hpc hwork).1, stalled, hwork]
  change op.data.out.length - done + _ < op.data.out.length - op.done + _ + _
  rcases hdone with ⟨rfl, hneg⟩ | ⟨rfl, hres, hless⟩
  · simp only [decide_eq_true_eq, hneg.le, if_true]
    omega
  · split_ifs with hzero
    · omega
    · simp only [decide_eq_true_eq] at hzero
      omega

/-- Every completion that is reaped brings the engine closer. -/
theorem effort_reapCqe (hsound : engine.Sound) {cqe : Cqe} {rest : List Cqe} {ret : Return}
    (hpc : engine.pc = .reaping (cqe :: rest) ret)
    (hreap : { engine with pc := .reaping rest ret }.reapCqe cqe = .ok after) :
    after.effort < engine.effort := by
  have hkeyed := hsound.ringed.keyed
  have hpopped : ∀ middle : WalEngine, ∀ work,
      engine.inflight.lookup cqe.userData = some work →
      middle.msgRx = engine.msgRx → middle.debt = (engine.pop cqe rest ret).debt →
      middle.places = (engine.pop cqe rest ret).places → middle.effort < engine.effort := by
    intro middle work hwork hmsgRx hdebt hplaces
    obtain ⟨hbefore, hposted⟩ := pop_counts hkeyed hpc hwork
    refine effort_lt_of_places hmsgRx ?_ ?_
    · rw [hdebt, hbefore]
      exact Nat.le_add_left _ _
    · rw [hplaces, places, places, hposted]
      change 5 * engine.pending.length + 4 * engine.ring.sq.length +
        (engine.ring.entries.map fun entry => entry.phase.left).sum +
        (engine.pop cqe rest ret).posted.length +
        (if engine.fsyncPlanner.dirtyBytes = 0 then 0 else 6) < _
      omega
  rcases reapCqe_inv hreap with ⟨startLsn, hwork, rfl⟩ | ⟨op, hwork, hres, hdone, rfl⟩ |
    ⟨op, done, hwork, hdone, rfl⟩ | ⟨target, hwork, hres, rfl⟩
  · exact hpopped _ _ hwork rfl rfl rfl
  · rw [reapWritten_eq]
    exact hpopped _ _ hwork rfl rfl rfl
  · exact effort_reapRetry hsound _ hpc hwork hdone
  · exact hpopped _ _ hwork rfl rfl rfl

/-! ## The kernel -/

theorem effort_start {position : ℕ} {ring : IoUring}
    (hstart : startEntry engine.files engine.ring position = some ring) :
    { engine with ring := ring }.effort < engine.effort := by
  have htickets := tickets_start engine hstart
  obtain ⟨front, entry, back, hentries, hqueued, -, rfl⟩ := startEntry_inv hstart
  refine effort_lt_of_places rfl (debt_frame htickets rfl rfl rfl).le ?_
  simp only [places, posted, todo, hentries, List.map_append, List.map_cons, List.sum_append,
    List.sum_cons, hqueued, Phase.left]
  omega

/-- The entry a completion takes out, by its position. -/
theorem completeEntry_at {files files' : Files} {ring ring' : IoUring} {position : ℕ} {res : ℤ}
    (hcomplete : completeEntry files ring position res = some (files', ring')) :
    ∃ idx sqe seen, ring.entries[position]? = some ⟨idx, sqe, .running seen⟩ ∧
      ring' = { ring with
        entries := ring.entries.eraseIdx position, cq := ring.cq ++ [⟨idx, res⟩] } := by
  unfold completeEntry at hcomplete
  split at hcomplete
  next idx sqe seen hentry =>
    split_ifs at hcomplete with hmay
    simp only [Option.some.injEq, Prod.mk.injEq] at hcomplete
    exact ⟨idx, sqe, seen, hentry, hcomplete.2.symm⟩
  next => cases hcomplete

theorem effort_complete (hsound : engine.Sound) {position : ℕ} {res : ℤ} {files : Files}
    {ring : IoUring} (hprogress : engine.Progresses (.complete position res))
    (hcomplete : completeEntry engine.files engine.ring position res = some (files, ring)) :
    { engine with files := files, ring := ring }.effort < engine.effort := by
  have hline := line_complete hcomplete
  obtain ⟨idx, sqe, seen, hentry, rfl⟩ := completeEntry_at hcomplete
  obtain ⟨hlt, hget⟩ := List.getElem?_eq_some_iff.mp hentry
  have hmem : (⟨idx, sqe, .running seen⟩ : Entry) ∈ engine.ring.entries :=
    List.mem_of_getElem? hentry
  obtain ⟨work, hwork, hsqe⟩ := hsound.ringed.built _ (List.mem_append_left _ hmem)
  have hfresh : engine.stalled ⟨idx, res⟩ = false := by
    change engine.inflight.lookup idx = some work at hwork
    rw [stalled, hwork]
    cases work with
    | write op =>
        have hpos := hprogress _ hentry (by rw [hsqe]; rfl)
        simpa using hpos
    | fsync target => rfl
    | remove startLsn => rfl
  refine effort_lt_of_places rfl ?_ ?_
  · rw [debt, (hline.map _).sum_eq, debt]
    refine Nat.add_le_add_left ?_ _
    change (engine.todo ++ (engine.ring.cq ++ [Cqe.mk idx res])).countP engine.stalled ≤
      (engine.todo ++ engine.ring.cq).countP engine.stalled
    rw [← List.append_assoc, List.countP_append, List.countP_singleton, hfresh]
    exact le_rfl
  · have hperm := (List.getElem_cons_eraseIdx_perm hlt).map fun entry : Entry => entry.phase.left
    have hsum := hperm.sum_eq
    rw [hget, List.map_cons, List.sum_cons] at hsum
    simp only [places, posted, todo, List.length_append, List.length_singleton]
    change _ + ((engine.ring.entries.eraseIdx position).map fun entry => entry.phase.left).sum +
      _ + _ < _
    rw [← hsum]
    simp only [Phase.left]
    omega

end WalEngine

end InMemoryDb.Stage3
