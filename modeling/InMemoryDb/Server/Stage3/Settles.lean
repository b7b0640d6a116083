import InMemoryDb.Lib.LeadsTo
import InMemoryDb.Server.Stage3.Desk
import InMemoryDb.Server.Stage3.Effort

/-!
# The engine comes to rest

When no message arrives any more, a scheduler that is fair to the steps of the engine
brings the thread to where it cannot go on: it waits with nothing left to do, or it has
panicked.  Where the kernel has nothing to do either, a rank of the control points shows
that the thread comes to the next step that counts.
-/

namespace InMemoryDb.Stage3

/-- How far the thread is from the next step that counts, with nothing to do. -/
def Pc.idleRank : Pc → ℕ
  | .reaping _ (.rotate _) => 4
  | .draining _ => 3
  | .plan => 2
  | .reaping _ (.loop _) => 1
  | .top | .drainWait _ => 0

/-- How far the thread is from the next step that counts, with something pending or
in flight. -/
def Pc.busyRank : Pc → ℕ
  | .reaping [] _ => 3
  | .top | .draining _ => 2
  | .plan | .drainWait _ => 1
  | .reaping (_ :: _) _ => 0

namespace WalEngine

variable {engine after : WalEngine}

def rank (engine : WalEngine) : ℕ :=
  if engine.shouldPark then engine.pc.idleRank else engine.pc.busyRank

/-- The drain loop waits only for something in flight. -/
def Restless (engine : WalEngine) : Prop :=
  ∀ boundaryLsn, engine.pc = .drainWait boundaryLsn → engine.inflight ≠ ∅

theorem shouldPark_iff (engine : WalEngine) :
    engine.shouldPark = true ↔ engine.pending = [] ∧ engine.inflight = ∅ :=
  decide_eq_true_iff

theorem hasRoom_iff (engine : WalEngine) : engine.hasRoom = true ↔
    engine.ring.sq.length < engine.depth ∧ engine.inflight.keys.card < engine.depth :=
  decide_eq_true_iff

/-- With the submission queue empty, no room means that something is in flight. -/
theorem inflight_of_no_room (hdepth : 0 < engine.depth) (hsq : engine.ring.sq = [])
    (hroom : engine.hasRoom = false) : engine.inflight ≠ ∅ := by
  intro hempty
  have hfits : engine.hasRoom = true := by
    rw [hasRoom_iff, hsq, hempty]
    exact ⟨hdepth, hdepth⟩
  rw [hroom] at hfits
  cases hfits

/-- What is in flight, and neither submitted nor pushed nor being reaped, is posted. -/
theorem cq_ne_nil (hkeyed : engine.Keyed) (htodo : engine.todo = [])
    (hentries : engine.ring.entries = []) (hsq : engine.ring.sq = [])
    (hinflight : engine.inflight ≠ ∅) : engine.ring.cq ≠ [] := by
  intro hcq
  refine hinflight (inflight_eq_empty hkeyed ?_)
  rw [tickets, htodo, hcq, hentries, hsq]
  rfl

/-! ## The drain loop -/

/-- `handle_pending` of the drain loop leaves something in flight. -/
theorem inflight_handlePending (hkeyed : engine.Keyed) (hdepth : 0 < engine.depth)
    (hsq : engine.ring.sq = []) (hpark : engine.shouldPark = false) :
    engine.handlePending.1.inflight ≠ ∅ := by
  have hpulled := pulled_handlePending hkeyed
  intro hempty
  have htickets := tickets_eq_nil hpulled.keyed hempty
  have hafter : engine.handlePending.1.ring.sq = [] := by
    simp only [tickets, List.append_eq_nil_iff, List.map_eq_nil_iff] at htickets
    exact htickets.2
  have hstays := hpulled.pushed
  rw [hafter, htickets, hsq] at hstays
  have hbefore : engine.tickets = [] := List.eq_nil_of_length_eq_zero (by simpa using hstays)
  have hpending : engine.handlePending.1.pending = [] := by
    rcases handlePending_stops engine with hnone | hfull
    · exact hnone
    · exact absurd hempty (inflight_of_no_room (hpulled.depth ▸ hdepth) hafter hfull)
  have htaken := hpulled.taken
  rw [hpending, htickets, hbefore] at htaken
  have hnone : engine.pending = [] := List.eq_nil_of_length_eq_zero (by simpa using htaken.symm)
  rw [(shouldPark_iff engine).mpr ⟨hnone, inflight_eq_empty hkeyed hbefore⟩] at hpark
  cases hpark

theorem restless_step {act : Act} (hslotted : engine.Slotted) (hdepth : 0 < engine.depth)
    (hrestless : engine.Restless) (hstep : engine.step act = some after) : after.Restless := by
  cases stepped hstep with
  | poll hpc hpoll =>
      intro boundaryLsn hafter
      rcases poll_pc hpoll with hplan | ⟨other, hdraining⟩
      · rw [hplan] at hafter
        cases hafter
      · rw [hdraining] at hafter
        cases hafter
  | plan hpc => exact fun _ hafter => by cases hafter
  | reapCqe hpc hreap =>
      intro boundaryLsn hafter
      rw [reapCqe_pc hreap] at hafter
      cases hafter
  | reapLoop hpc =>
      intro boundaryLsn hafter
      unfold finishLoop at hafter
      split_ifs at hafter
  | reapRotate hpc => exact fun _ hafter => by cases hafter
  | drain hpc =>
      intro boundaryLsn hafter
      unfold drain at hafter ⊢
      split_ifs at hafter ⊢ with hpark
      · cases hafter
      · exact inflight_handlePending hslotted.keyed hdepth (hslotted.submitted (by rw [hpc]; rfl))
          (Bool.eq_false_of_not_eq_true hpark)
  | wake hpc => exact fun _ hafter => by cases hafter
  | _ => exact hrestless

theorem length_released (ack : Acker) (batches : List Batch) :
    (batches.flatMap fun batch => sends (ack.advance batch .durable) ++
      [Out.recycle (ack.advance batch .durable).1]).length + batches.length =
      (batches.map fun batch => batch.owed.length + 2).sum := by
  induction batches with
  | nil => rfl
  | cons batch batches ih =>
      rw [List.flatMap_cons, List.length_append, List.length_append, List.map_cons, List.sum_cons,
        ← ih, sends, List.length_map, Acker.advance_durable, List.length_singleton,
        List.length_cons]
      omega

theorem replies_seal (boundaryLsn : ℕ) :
    (engine.sealSegment boundaryLsn).replies + engine.awaitingFsync.length = engine.replies := by
  have hreleased := length_released engine.ack engine.awaitingFsync
  have houtbox : (engine.sealSegment boundaryLsn).replies =
      (engine.outbox ++ engine.awaitingFsync.flatMap fun batch =>
        sends (engine.ack.advance batch .durable) ++
          [Out.recycle (engine.ack.advance batch .durable).1]).length := rfl
  rw [houtbox, List.length_append, replies, ← hreleased]
  omega

theorem effort_seal (boundaryLsn : ℕ) (htodo : engine.todo = []) :
    (engine.awaitingFsync = [] ∧
        (engine.sealSegment boundaryLsn).effort = engine.effort) ∨
      (engine.sealSegment boundaryLsn).effort < engine.effort := by
  have hposted : (engine.sealSegment boundaryLsn).posted = engine.posted :=
    congrArg (fun todo => todo ++ engine.ring.cq) htodo.symm
  have hdebt : (engine.sealSegment boundaryLsn).debt = engine.debt :=
    debt_frame (tickets_frame htodo.symm rfl) hposted rfl rfl
  have hplaces : (engine.sealSegment boundaryLsn).places = engine.places := by
    rw [places, hposted]
    rfl
  have hreplies := @replies_seal engine boundaryLsn
  cases hawaiting : engine.awaitingFsync with
  | nil =>
      rw [hawaiting] at hreplies
      exact Or.inl ⟨rfl, effort_congr rfl hdebt hplaces hreplies⟩
  | cons batch rest =>
      rw [hawaiting, List.length_cons] at hreplies
      exact Or.inr (effort_lt_of_replies rfl hdebt hplaces (by omega))

/-! ## The rank -/

/-- The step counts, or it leaves the kernel's entries alone and, where there are none,
brings the thread closer to a step that counts. -/
def Closer (engine after : WalEngine) : Prop :=
  after.effort < engine.effort ∨ after.effort = engine.effort ∧ after.outbox = [] ∧
    after.ring.entries = engine.ring.entries ∧
    (engine.ring.entries = [] → after.rank < engine.rank)

theorem closer_of_rank (heffort : after.effort = engine.effort) (houtbox : after.outbox = [])
    (hentries : after.ring.entries = engine.ring.entries)
    (hpending : after.pending = engine.pending) (hinflight : after.inflight = engine.inflight)
    (hidle : engine.shouldPark = true → after.pc.idleRank < engine.pc.idleRank)
    (hbusy : engine.shouldPark = false → engine.ring.entries = [] →
      after.pc.busyRank < engine.pc.busyRank) : Closer engine after := by
  refine Or.inr ⟨heffort, houtbox, hentries, fun hnone => ?_⟩
  have hpark : after.shouldPark = engine.shouldPark := by
    rw [shouldPark, shouldPark, hpending, hinflight]
  rw [rank, rank, hpark]
  split_ifs with hcase
  · exact hidle hcase
  · exact hbusy (Bool.eq_false_of_not_eq_true hcase) hnone

theorem closer_beginReap (hkeyed : engine.Keyed) (houtbox : engine.outbox = [])
    (hsq : engine.ring.sq = []) (htodo : engine.todo = []) {ret : Return}
    (hbefore : engine.pc.busyRank = 1)
    (hidle : engine.shouldPark = true →
      (Pc.reaping engine.ring.cq ret).idleRank < engine.pc.idleRank)
    (hbusy : engine.shouldPark = false → engine.inflight ≠ ∅) :
    Closer engine (engine.beginReap ret) := by
  refine closer_of_rank (effort_beginReap ret htodo) houtbox rfl rfl rfl hidle ?_
  intro hpark hentries
  have hcq := cq_ne_nil hkeyed htodo hentries hsq (hbusy hpark)
  obtain ⟨cqe, rest, hposted⟩ := List.exists_cons_of_ne_nil hcq
  change (Pc.reaping engine.ring.cq ret).busyRank < _
  rw [hposted, hbefore]
  exact Nat.one_pos

theorem closer_poll (houtbox : engine.outbox = [])
    (hpc : engine.pc = .top) (hpoll : engine.poll = some after) : Closer engine after := by
  have htodo : engine.todo = [] := by simp [todo, hpc, Pc.todo]
  have hless : ∀ msg rest, engine.msgRx = msg :: rest → rest.length < engine.msgRx.length := by
    intro msg rest hmsg
    rw [hmsg]
    exact Nat.lt_succ_self _
  rcases poll_inv hpoll with ⟨-, hpark, rfl⟩ | ⟨batch, rest, middle, hmsg, hbatch, rfl⟩ |
    ⟨boundaryLsn, rest, hmsg, rfl⟩ | ⟨boundaryLsn, rest, hmsg, -, rfl⟩
  · refine closer_of_rank (effort_quiet (by rw [htodo]; rfl)) houtbox rfl rfl rfl ?_ ?_
    · rw [hpark]
      exact fun h => by cases h
    · intro _ _
      rw [hpc]
      exact Nat.lt_succ_self _
  · obtain ⟨-, -, out, -, rfl⟩ := handleBatch_inv hbatch
    exact Or.inl (effort_lt_of_messages (hless _ _ hmsg))
  · exact Or.inl (effort_lt_of_messages (hless _ _ hmsg))
  · exact Or.inl (effort_lt_of_messages (hless _ _ hmsg))

theorem closer_plan (hslotted : engine.Slotted) (hdepth : 0 < engine.depth)
    (houtbox : engine.outbox = [])
    (hpc : engine.pc = .plan) : Closer engine engine.plan := by
  have htodo : engine.todo = [] := by simp [todo, hpc, Pc.todo]
  have hsq : engine.ring.sq = [] := hslotted.submitted (by rw [hpc]; rfl)
  have harmed : engine.armFsync.Keyed := hslotted.keyed.congr (List.Perm.refl _) rfl
  have hpulled := pulled_handlePending harmed
  have hreaped : engine.plan.effort = engine.armFsync.handlePending.1.effort := by
    refine effort_beginReap _ ?_
    rw [todo, hpulled.pc, armFsync_pc, hpc]
    rfl
  rcases effort_handlePending harmed with ⟨hsame, hstops⟩ | hless
  · rcases @effort_arm engine with hidle | hless
    · have hplan : engine.plan = engine.beginReap (.loop engine.armFsync.handlePending.2) := by
        change engine.armFsync.handlePending.1.beginReap _ = _
        rw [hsame, hidle]
      rw [hidle] at hstops
      rw [hplan]
      refine closer_beginReap hslotted.keyed houtbox hsq htodo (by rw [hpc]; rfl) ?_ ?_
      · intro _
        rw [hpc]
        exact Nat.lt_succ_self _
      · intro hpark
        rcases hstops with hpending | hfull
        · intro hinflight
          rw [(shouldPark_iff engine).mpr ⟨hpending, hinflight⟩] at hpark
          cases hpark
        · exact inflight_of_no_room hdepth hsq hfull
    · refine Or.inl ?_
      rw [hreaped, hsame]
      exact hless
  · refine Or.inl ?_
    rw [hreaped]
    rcases @effort_arm engine with hidle | harm
    · rwa [hidle] at hless ⊢
    · exact hless.trans harm

theorem closer_finishLoop (hsound : engine.Sound) (houtbox : engine.outbox = [])
    {needSubmit : Bool}
    (hpc : engine.pc = .reaping [] (.loop needSubmit)) :
    Closer engine (engine.finishLoop needSubmit) := by
  have htodo : engine.todo = [] := by simp [todo, hpc, Pc.todo]
  have hstay : Closer engine { engine with pc := .top } := by
    refine closer_of_rank (effort_quiet (by rw [htodo]; rfl)) houtbox rfl rfl rfl ?_ ?_
    · intro _
      rw [hpc]
      exact Nat.one_pos
    · intro _ _
      rw [hpc]
      exact Nat.lt_succ_self _
  unfold finishLoop
  split_ifs with hsubmit
  · rcases effort_submit hsound.ringed.waiting with hnone | hless
    · rw [hnone]
      exact hstay
    · have hquiet : { engine.submitRing with pc := .top }.effort = engine.submitRing.effort :=
        effort_quiet (by rw [show engine.submitRing.todo = [] from htodo]; rfl)
      exact Or.inl (hquiet.trans_lt hless)
  · exact hstay

theorem closer_drain (hsound : engine.Sound) (hslotted : engine.Slotted)
    (houtbox : engine.outbox = []) {boundaryLsn : ℕ}
    (hpc : engine.pc = .draining boundaryLsn) : Closer engine (engine.drain boundaryLsn) := by
  have htodo : engine.todo = [] := by simp [todo, hpc, Pc.todo]
  have hsq : engine.ring.sq = [] := hslotted.submitted (by rw [hpc]; rfl)
  unfold drain
  split_ifs with hpark
  · rcases effort_seal boundaryLsn htodo with ⟨hawaiting, hsame⟩ | hless
    · refine closer_of_rank hsame ?_ rfl rfl rfl ?_ ?_
      · change engine.outbox ++ engine.awaitingFsync.flatMap _ = []
        rw [houtbox, hawaiting]
        rfl
      · intro _
        rw [hpc]
        exact Nat.lt_succ_self _
      · rw [hpark]
        exact fun h => by cases h
    · exact Or.inl hless
  · have hpulled := pulled_handlePending hslotted.keyed
    have hwaiting : ∀ entry ∈ engine.handlePending.1.ring.sq, entry.phase = .queued :=
      (@pullLoop_keeps engine Sound (fun _ _ _ h hpending _ => sound_push h hpending) _
        hsound).ringed.waiting
    have hsubmitted : ∀ middle : WalEngine, middle.todo = [] →
        { middle.submitRing with pc := .drainWait boundaryLsn }.effort =
          middle.submitRing.effort := by
      intro middle hnone
      exact effort_quiet (by rw [show middle.submitRing.todo = [] from hnone]; rfl)
    have hnone : engine.handlePending.1.todo = [] := by
      rw [todo, hpulled.pc, hpc]
      rfl
    rcases effort_handlePending hslotted.keyed with ⟨hsame, -⟩ | hless
    · have hring : engine.submitRing = engine := by
        rw [submitRing, IoUring.submit, hsq, List.append_nil, ← hsq]
      rw [hsame, hring]
      refine closer_of_rank (effort_quiet (by rw [htodo]; rfl)) houtbox rfl rfl rfl ?_ ?_
      · exact fun h => absurd h hpark
      · intro _ _
        rw [hpc]
        exact Nat.lt_succ_self _
    · refine Or.inl ?_
      rw [hsubmitted _ hnone]
      rcases effort_submit hwaiting with hstay | hmore
      · rwa [hstay]
      · exact hmore.trans hless

/-- With nothing to send, every step of the thread counts or comes closer. -/
theorem closer_step {act : Act} (hsound : engine.Sound) (hslotted : engine.Slotted)
    (hdepth : 0 < engine.depth) (hrestless : engine.Restless) (houtbox : engine.outbox = [])
    (hthread : act.byThread = true)
    (hstep : engine.step act = some after) : Closer engine after := by
  cases stepped hstep with
  | poll hpc hpoll => exact closer_poll houtbox hpc hpoll
  | plan hpc => exact closer_plan hslotted hdepth houtbox hpc
  | reapCqe hpc hreap => exact Or.inl (effort_reapCqe hsound hpc hreap)
  | reapLoop hpc => exact closer_finishLoop hsound houtbox hpc
  | @reapRotate boundaryLsn hpc =>
      have htodo : engine.todo = [] := by simp [todo, hpc, Pc.todo]
      refine closer_of_rank (effort_quiet (by rw [htodo]; rfl)) houtbox rfl rfl rfl ?_ ?_
      · intro _
        rw [hpc]
        exact Nat.lt_succ_self _
      · intro _ _
        rw [hpc]
        exact Nat.lt_succ_self _
  | drain hpc => exact closer_drain hsound hslotted houtbox hpc
  | @wake boundaryLsn hpc =>
      have htodo : engine.todo = [] := by simp [todo, hpc, Pc.todo]
      have hsq : engine.ring.sq = [] := hslotted.submitted (by rw [hpc]; rfl)
      have hinflight := hrestless boundaryLsn hpc
      refine closer_beginReap hslotted.keyed houtbox hsq htodo (by rw [hpc]; rfl) ?_
        fun _ => hinflight
      intro hpark
      exact absurd ((shouldPark_iff engine).mp hpark).2 hinflight
  | reply hsend =>
      rw [houtbox] at hsend
      cases hsend
  | recycle hsend =>
      rw [houtbox] at hsend
      cases hsend
  | arrive => cases hthread
  | start => cases hthread
  | complete => cases hthread
  | lend => cases hthread
  | slab => cases hthread

/-! ## Rest -/

/-- The actions of the kernel. -/
def Act.byKernel : Act → Bool
  | .start _ | .complete _ _ => true
  | _ => false

theorem Act.byThread_of_byKernel {act : Act} (hkernel : act.byKernel = true) :
    act.byThread = false := by
  cases act with
  | start => rfl
  | complete => rfl
  | _ => cases hkernel

/-- The oldest entry can start, or it can complete. -/
theorem entries_of_blocked (hblocked : Machine.Blocked step Act.byKernel engine) :
    engine.ring.entries = [] := by
  cases hentries : engine.ring.entries with
  | nil => rfl
  | cons entry rest =>
      obtain ⟨idx, sqe, phase⟩ := entry
      cases phase with
      | queued =>
          have hstart := hblocked (.start 0) rfl
          simp [step, startEntry, hentries, mayStart] at hstart
      | running seen =>
          have hcomplete := hblocked (.complete 0 0) rfl
          cases sqe <;> simp [step, completeEntry, hentries, Sqe.mayReturn] at hcomplete

theorem outbox_of_blocked (hblocked : Machine.Blocked step Act.byThread engine) :
    engine.outbox = [] := by
  cases houtbox : engine.outbox with
  | nil => rfl
  | cons out rest =>
      have hsend := hblocked .send rfl
      cases out <;> simp [step, houtbox] at hsend

/-- While there is something to send, the thread does nothing else. -/
theorem outbox_of_step {act : Act} (hthread : act.byThread = true) (hsend : act ≠ .send)
    (hstep : engine.step act = some after) : engine.outbox = [] := by
  by_contra houtbox
  cases act with
  | drain =>
      simp only [step] at hstep
      split at hstep <;> simp [houtbox] at hstep
  | wake =>
      simp only [step] at hstep
      split at hstep <;> simp [houtbox] at hstep
  | send => exact hsend rfl
  | arrive => cases hthread
  | start => cases hthread
  | complete => cases hthread
  | lend => cases hthread
  | slab => cases hthread
  | _ => simp [step, houtbox] at hstep

/-- What one step can do while no message arrives. -/
theorem effort_step {act : Act} (hsound : engine.Sound) (hslotted : engine.Slotted)
    (hdepth : 0 < engine.depth) (hrestless : engine.Restless)
    (harrive : ∀ msg, act ≠ .arrive msg) (hprogress : engine.Progresses act)
    (hstep : engine.step act = some after) :
    after.effort < engine.effort ∨ ((act.byThread = false ∧ act.byKernel = false) ∧
        after.effort = engine.effort ∧ after.outbox = engine.outbox ∧
        after.ring = engine.ring ∧ after.rank = engine.rank) ∨
      act.byThread = true ∧ engine.outbox = [] ∧ Closer engine after := by
  cases stepped hstep with
  | arrive msg => exact absurd rfl (harrive msg)
  | start hstart => exact Or.inl (effort_start hstart)
  | complete hcomplete => exact Or.inl (effort_complete hsound hprogress hcomplete)
  | reply houtbox =>
      refine Or.inl (effort_lt_of_replies rfl rfl rfl ?_)
      rw [replies, replies, houtbox, List.length_cons]
      exact Nat.add_lt_add_right (Nat.lt_succ_self _) _
  | recycle houtbox =>
      refine Or.inl (effort_lt_of_replies rfl rfl rfl ?_)
      rw [replies, replies, houtbox, List.length_cons]
      exact Nat.add_lt_add_right (Nat.lt_succ_self _) _
  | lend hpool => exact Or.inr (Or.inl ⟨⟨rfl, rfl⟩, rfl, rfl, rfl, rfl⟩)
  | slab keys => exact Or.inr (Or.inl ⟨⟨rfl, rfl⟩, rfl, rfl, rfl, rfl⟩)
  | _ =>
      have houtbox := outbox_of_step rfl (by simp) hstep
      exact Or.inr (Or.inr ⟨rfl, houtbox,
        closer_step hsound hslotted hdepth hrestless houtbox rfl hstep⟩)

/-! ## Executions -/

/-- Actions that bring nothing in. -/
def Act.closed : Act → Bool
  | .arrive _ => false
  | _ => true

/-- No message arrives, every completed write has made progress, and neither the thread
nor the kernel stops for good while it can act. -/
structure Undisturbed (run : Machine.Execution step) : Prop where
  closed : ∀ n msg, run.act n ≠ some (.arrive msg)
  progresses : ∀ n act, run.act n = some act → (run.state n).Progresses act
  thread : run.Fair Act.byThread
  kernel : run.Fair Act.byKernel

section

variable {depth : ℕ} {segs : SortedMap ℕ Bytes} {startLsn : ℕ} {mode : Mode}
  {pool : List Batch} {run : Machine.Execution step}

theorem restless_reach (hdepth : 0 < depth)
    (hreach : Machine.Reach step Feeds (new depth (Files.ofSegs segs) startLsn mode pool)
      engine) : engine.Restless := by
  induction hreach with
  | start => exact fun _ hpc => by cases hpc
  | next hstate _ hstep ih =>
      obtain ⟨hslotted, hsame⟩ := slotted_reach hstate
      exact restless_step hslotted (hsame ▸ hdepth) ih hstep

theorem feeds_of_closed {act : Act} (hclosed : ∀ msg, act ≠ .arrive msg) :
    Feeds engine act := by
  cases act with
  | arrive msg => exact absurd rfl (hclosed msg)
  | _ => trivial

theorem reach_execution
    (hstart : Machine.Reach step Feeds (new depth (Files.ofSegs segs) startLsn mode pool)
      (run.state 0)) (hclosed : ∀ n msg, run.act n ≠ some (.arrive msg)) (n : ℕ) :
    Machine.Reach step Feeds (new depth (Files.ofSegs segs) startLsn mode pool)
      (run.state n) := by
  refine Machine.Execution.keeps hstart (fun n act hact hreach => ?_) n
  have hnot : ∀ msg, act ≠ .arrive msg := fun msg heq => hclosed n msg (heq ▸ hact)
  exact hreach.next (feeds_of_closed hnot) (Machine.Execution.step_of_act hact)

/-- What one step of the execution can do. -/
theorem effort_act (hdepth : 0 < depth) (hundisturbed : Undisturbed run)
    (hstart : Machine.Reach step Feeds (new depth (Files.ofSegs segs) startLsn mode pool)
      (run.state 0)) {n : ℕ} {act : Act} (hact : run.act n = some act) :
    (run.state (n + 1)).effort < (run.state n).effort ∨
      ((act.byThread = false ∧ act.byKernel = false) ∧
        (run.state (n + 1)).effort = (run.state n).effort ∧
        (run.state (n + 1)).outbox = (run.state n).outbox ∧
        (run.state (n + 1)).ring = (run.state n).ring ∧
        (run.state (n + 1)).rank = (run.state n).rank) ∨
      act.byThread = true ∧ (run.state n).outbox = [] ∧
        Closer (run.state n) (run.state (n + 1)) := by
  have hreach := reach_execution hstart hundisturbed.closed n
  obtain ⟨hsound, -⟩ := reach_keeps trivial (fun _ _ _ _ _ => trivial) hreach
  obtain ⟨hslotted, hsame⟩ := slotted_reach hreach
  exact effort_step hsound hslotted (hsame ▸ hdepth) (restless_reach hdepth hreach)
    (fun msg heq => hundisturbed.closed n msg (heq ▸ hact)) (hundisturbed.progresses n act hact)
    (Machine.Execution.step_of_act hact)

/-- What is to be sent is sent. -/
theorem leadsTo_send (hdepth : 0 < depth) (hundisturbed : Undisturbed run)
    (hstart : Machine.Reach step Feeds (new depth (Files.ofSegs segs) startLsn mode pool)
      (run.state 0)) (bound : ℕ ×ₗ ℕ ×ₗ ℕ ×ₗ ℕ) :
    run.LeadsTo (fun engine => engine.effort = bound ∧ engine.outbox ≠ [])
      fun engine => engine.effort < bound := by
  refine Machine.Execution.leadsTo_of_fair hundisturbed.thread ?_ ?_ ?_
  · intro n hbefore hblocked
    exact absurd (outbox_of_blocked hblocked) hbefore.2
  · rintro n act hact ⟨rfl, houtbox⟩
    rcases effort_act hdepth hundisturbed hstart hact with
      hless | ⟨-, hsame, hsent, -, -⟩ | ⟨-, hnone, -⟩
    · exact Or.inr hless
    · exact Or.inl ⟨hsame, hsent ▸ houtbox⟩
    · exact absurd hnone houtbox
  · rintro n act hact hthread ⟨rfl, houtbox⟩
    rcases effort_act hdepth hundisturbed hstart hact with
      hless | ⟨⟨hnot, -⟩, -⟩ | ⟨-, hnone, -⟩
    · exact hless
    · rw [hnot] at hthread
      cases hthread
    · exact absurd hnone houtbox

/-- What the kernel has is started, and completed. -/
theorem leadsTo_kernel (hdepth : 0 < depth) (hundisturbed : Undisturbed run)
    (hstart : Machine.Reach step Feeds (new depth (Files.ofSegs segs) startLsn mode pool)
      (run.state 0)) (bound : ℕ ×ₗ ℕ ×ₗ ℕ ×ₗ ℕ) :
    run.LeadsTo (fun engine => engine.effort = bound ∧ engine.ring.entries ≠ [])
      fun engine => engine.effort < bound := by
  refine Machine.Execution.leadsTo_of_fair hundisturbed.kernel ?_ ?_ ?_
  · intro n hbefore hblocked
    exact absurd (entries_of_blocked hblocked) hbefore.2
  · rintro n act hact ⟨rfl, hentries⟩
    rcases effort_act hdepth hundisturbed hstart hact with
      hless | ⟨-, hsame, -, hring, -⟩ | ⟨-, -, hless | ⟨hsame, -, hring, -⟩⟩
    · exact Or.inr hless
    · exact Or.inl ⟨hsame, hring ▸ hentries⟩
    · exact Or.inr hless
    · exact Or.inl ⟨hsame, hring ▸ hentries⟩
  · rintro n act hact hkernel ⟨rfl, hentries⟩
    rcases effort_act hdepth hundisturbed hstart hact with
      hless | ⟨⟨-, hnot⟩, -⟩ | ⟨hthread, -⟩
    · exact hless
    · rw [hnot] at hkernel
      cases hkernel
    · rw [Act.byThread_of_byKernel hkernel] at hthread
      cases hthread

/-- With nothing to send and nothing with the kernel, the thread comes to a step that
counts, or cannot go on. -/
theorem leadsTo_thread (hdepth : 0 < depth) (hundisturbed : Undisturbed run)
    (hstart : Machine.Reach step Feeds (new depth (Files.ofSegs segs) startLsn mode pool)
      (run.state 0)) (bound : ℕ ×ₗ ℕ ×ₗ ℕ ×ₗ ℕ) :
    run.LeadsTo
      (fun engine => engine.effort = bound ∧ engine.outbox = [] ∧ engine.ring.entries = [])
      fun engine => Machine.Blocked step Act.byThread engine ∨ engine.effort < bound := by
  refine Machine.Execution.leadsTo_of_variant rank fun height => ?_
  refine Machine.Execution.leadsTo_of_fair hundisturbed.thread ?_ ?_ ?_
  · exact fun n _ hblocked => Or.inl (Or.inl hblocked)
  · rintro n act hact ⟨⟨rfl, houtbox, hentries⟩, rfl⟩
    rcases effort_act hdepth hundisturbed hstart hact with
      hless | ⟨-, hsame, hsent, hring, hrank⟩ | ⟨-, -, hless | ⟨hsame, hsent, hring, hrank⟩⟩
    · exact Or.inr (Or.inl (Or.inr hless))
    · exact Or.inl ⟨⟨hsame, hsent.trans houtbox, by rw [hring, hentries]⟩, hrank⟩
    · exact Or.inr (Or.inl (Or.inr hless))
    · exact Or.inr (Or.inr ⟨⟨hsame, hsent, hring.trans hentries⟩, hrank hentries⟩)
  · rintro n act hact hthread ⟨⟨rfl, houtbox, hentries⟩, rfl⟩
    rcases effort_act hdepth hundisturbed hstart hact with
      hless | ⟨⟨hnot, -⟩, -⟩ | ⟨-, -, hless | ⟨hsame, hsent, hring, hrank⟩⟩
    · exact Or.inl (Or.inr hless)
    · rw [hnot] at hthread
      cases hthread
    · exact Or.inl (Or.inr hless)
    · exact Or.inr ⟨⟨hsame, hsent, hring.trans hentries⟩, hrank hentries⟩

theorem leadsTo_blocked (hdepth : 0 < depth) (hundisturbed : Undisturbed run)
    (hstart : Machine.Reach step Feeds (new depth (Files.ofSegs segs) startLsn mode pool)
      (run.state 0)) :
    run.LeadsTo (fun _ => True) (Machine.Blocked step Act.byThread) := by
  refine Machine.Execution.leadsTo_of_variant effort fun bound => ?_
  rintro n ⟨-, hbound⟩
  by_cases houtbox : (run.state n).outbox = []
  · by_cases hentries : (run.state n).ring.entries = []
    · obtain ⟨m, hle, hblocked | hless⟩ :=
        leadsTo_thread hdepth hundisturbed hstart bound n ⟨hbound, houtbox, hentries⟩
      · exact ⟨m, hle, Or.inl hblocked⟩
      · exact ⟨m, hle, Or.inr ⟨trivial, hless⟩⟩
    · obtain ⟨m, hle, hless⟩ :=
        leadsTo_kernel hdepth hundisturbed hstart bound n ⟨hbound, hentries⟩
      exact ⟨m, hle, Or.inr ⟨trivial, hless⟩⟩
  · obtain ⟨m, hle, hless⟩ :=
      leadsTo_send hdepth hundisturbed hstart bound n ⟨hbound, houtbox⟩
    exact ⟨m, hle, Or.inr ⟨trivial, hless⟩⟩

/-! ## What is left at rest -/

/-- Below Sync no batch waits for an fsync. -/
def Eager (engine : WalEngine) : Prop :=
  engine.ack.level ≤ .written → engine.awaitingFsync = []

theorem eager_move {permit : Kind → WalEngine → Prop} (heager : engine.Eager)
    (hmove : Move permit engine after) : after.Eager := by
  intro hlevel
  rw [ack_move hmove] at hlevel
  have hnone := heager hlevel
  cases hmove with
  | enqueue hmsg hbatch =>
      obtain ⟨-, -, out, -, rfl⟩ := handleBatch_inv hbatch
      exact hnone
  | @reapWritten cqe rest ret op hpermit hpc hwork hres hdone =>
      rw [reapWritten_eq]
      have hsettled : Acker.isSettled
          ((engine.pop cqe rest ret).ack.advance op.data .written).1 = true :=
        Acker.settled_of_level hlevel op.data
      change engine.awaitingFsync ++ _ = []
      rw [hnone, if_pos hsettled]
      rfl
  | reapDurable hpermit hpc hwork hres => rfl
  | sealed boundaryLsn hpermit hpending hinflight htodo => rfl
  | _ => exact hnone

theorem awaiting_of_mode (hmode : mode ≠ .sync)
    (hreach : Machine.Reach step Feeds (new depth (Files.ofSegs segs) startLsn mode pool)
      engine) : engine.awaitingFsync = [] := by
  obtain ⟨-, heager, hack⟩ := @reach_keeps engine
    (fun engine => engine.Eager ∧ engine.ack = Acker.new mode) _ _ _ _ _ ⟨fun _ => rfl, rfl⟩
    (fun _ _ _ h hmove => ⟨eager_move h.1 hmove, (ack_move hmove).trans h.2⟩) hreach
  refine heager ?_
  rw [hack]
  cases mode with
  | sync => exact absurd rfl hmode
  | noFsync => decide
  | async => decide

theorem line_of_waiting (hkeyed : engine.Keyed) (hwaiting : engine.Waiting) :
    engine.line = [] := by
  obtain ⟨hpending, hinflight⟩ := (shouldPark_iff engine).mp hwaiting.2.2
  rw [line, tickets_eq_nil hkeyed hinflight, hpending]
  rfl

/-- At rest, with no batch waiting for an fsync, every response has been sent. -/
theorem held_of_awaiting (hkeyed : engine.Keyed) (hawaiting : engine.awaitingFsync = [])
    (houtbox : engine.outbox = []) (hwaiting : engine.Waiting) : engine.desk.held = 0 := by
  have hdesk : engine.desk.waiting = 0 := by
    rw [desk, line_of_waiting hkeyed hwaiting, hwaiting.2.1]
    rfl
  have hheld : engine.desk.held = (engine.outbox.filterMap Out.reply? : Multiset Reply) +
      (engine.awaitingFsync.flatMap Batch.owed : Multiset Reply) +
      engine.desk.waiting.bind fun items => (owedOf items : Multiset Reply) := rfl
  rw [hheld, houtbox, hawaiting, hdesk]
  rfl

/-- The thread has sent everything, and waits for a message with nothing to do or panics
on what it has been given. -/
def Stopped (engine : WalEngine) : Prop :=
  engine.outbox = [] ∧ (engine.Waiting ∨ engine.RetiresActive ∨ engine.ReapsFatal)

theorem Stopped.blocked (hstopped : engine.Stopped) : Machine.Blocked step Act.byThread engine := by
  obtain ⟨houtbox, hwaiting | hretire | hfatal⟩ := hstopped
  · exact fun _ => thread_stuck houtbox (Or.inl ⟨hwaiting.1, poll_waiting hwaiting⟩)
  · exact fun _ => thread_stuck houtbox (Or.inl ⟨hretire.1, poll_active hretire⟩)
  · exact fun _ => thread_stuck houtbox (Or.inr hfatal)

/-- A thread that has stopped stays so until a message arrives. -/
theorem stopped_step {act : Act} (hstopped : engine.Stopped) (hclosed : act.closed = true)
    (hstep : engine.step act = some after) : after.Stopped ∧ act.byThread = false := by
  have hthread : act.byThread = false := by
    by_contra hthread
    rw [hstopped.blocked act (Bool.eq_true_of_not_eq_false hthread)] at hstep
    cases hstep
  refine ⟨?_, hthread⟩
  cases stepped hstep with
  | arrive msg => cases hclosed
  | start hstart => exact hstopped
  | complete hcomplete => exact hstopped
  | lend hpool => exact hstopped
  | slab keys => exact hstopped
  | _ => cases hthread

theorem blocked_of_entries (hentries : engine.ring.entries = []) :
    Machine.Blocked step Act.byKernel engine := by
  intro act hact
  cases act with
  | start position => simp [step, startEntry, hentries]
  | complete position res => simp [step, completeEntry, hentries]
  | _ => cases hact

end

end WalEngine

end InMemoryDb.Stage3
