import InMemoryDb.Server.Blocking

/-!
# Every request is answered

When nothing comes in any more, and the writers of the connections go on taking what
their channels hold, the waits end: a parked thread is woken, since the kernel has an
entry and completes it; and a full channel gets room for good, since only finitely many
responses are left to send.  The pipeline then runs under a fair schedule, and comes to
where every request has its response unless a stage has panicked.
-/

namespace InMemoryDb.Server

open Wire Recover Stage2 Stage3

variable {server after : Server}

/-- The writer of the connection takes a response. -/
def Act.delivers (conn : ℕ) : Act → Bool
  | .deliver other => other = conn
  | _ => false

/-- Nothing comes in, every completed write has made progress, none of stage 2, stage 3 and
the kernel stops for good while it can act, and no writer while its channel holds
something. -/
structure Undisturbed (run : Machine.Execution step) : Prop where
  closed : ∀ n act, run.act n = some (.pipe act) →
    act.closed = true ∧ Pipeline.Progresses (run.state n).pipe act
  stage2 : run.Fair Act.byStage2
  wal : run.Fair Act.byWal
  kernel : run.Fair Act.byKernel
  writers : ∀ conn, run.Fair (Act.delivers conn)

/-! ## A parked thread -/

/-- What the kernel has to do before the next completion. -/
def left (server : Server) : ℕ :=
  (server.pipe.wal.ring.entries.map fun entry => entry.phase.left).sum

theorem kernel_step {pipe next : Pipeline} {act : Pipeline.Act} (hact : act.byKernel = true)
    (hstep : pipe.step act = some next) :
    next.wal.ring.cq ≠ [] ∨ next.wal.ring.cq = pipe.wal.ring.cq ∧
      (next.wal.ring.entries.map fun entry => entry.phase.left).sum <
        (pipe.wal.ring.entries.map fun entry => entry.phase.left).sum := by
  cases Pipeline.step_change hstep with
  | wal hinner hwal =>
      cases WalEngine.stepped hwal with
      | start hstart =>
          obtain ⟨front, entry, back, hentries, hqueued, -, rfl⟩ := startEntry_inv hstart
          refine Or.inr ⟨rfl, ?_⟩
          simp [hentries, hqueued, Phase.left]
      | complete hcomplete =>
          obtain ⟨front, idx, sqe, seen, back, -, -, -, rfl⟩ := completeEntry_inv hcomplete
          exact Or.inl (List.append_ne_nil_of_right_ne_nil _ (List.cons_ne_nil _ _))
      | _ => cases hact
  | _ => cases hact

/-- While the thread is parked a completion stays posted, and until one is the kernel
alone touches the ring. -/
theorem parked_step {act : Act} (hparked : server.parked = true)
    (hstep : server.step act = some after) :
    after.parked = false ∨ after.parked = true ∧ act.byWal = false ∧
      (server.pipe.wal.ring.cq ≠ [] → after.pipe.wal.ring.cq ≠ []) ∧
      (after.pipe.wal.ring.cq ≠ [] ∨ after.left < server.left ∨
        act.byKernel = false ∧ after.left = server.left) := by
  cases step_change hstep with
  | @pipe act pipe hgoes hpipe =>
      have hother : act.byWal = false := by
        by_contra hact
        simp [waits, hparked, hact] at hgoes
      obtain ⟨-, hring⟩ := Pipeline.apart_step hother hpipe
      refine Or.inr ⟨by simp [hparked], hother, ?_⟩
      cases hkernel : act.byKernel with
      | false =>
          have hsame := hring hkernel
          exact ⟨fun hcq => hsame.symm ▸ hcq, Or.inr (Or.inr ⟨hkernel, by rw [left, left, hsame]⟩)⟩
      | true =>
          rcases kernel_step hkernel hpipe with hcq | ⟨hcq, hless⟩
          · exact ⟨fun _ => hcq, Or.inl hcq⟩
          · exact ⟨fun hposted => hcq.symm ▸ hposted, Or.inr (Or.inl hless)⟩
  | unpark => exact Or.inl rfl
  | interrupt => exact Or.inl rfl
  | deliver => exact Or.inr ⟨hparked, rfl, id, Or.inr (Or.inr ⟨rfl, rfl⟩)⟩
  | close => exact Or.inr ⟨hparked, rfl, id, Or.inr (Or.inr ⟨rfl, rfl⟩)⟩

theorem parked_of_unpark (hstep : server.step .unpark = some after) : server.parked = true := by
  cases step_change hstep with
  | unpark hparked => exact hparked

/-- The thread parks by actions of its own only. -/
theorem unparked_step {act : Act} (hparked : server.parked = false)
    (hquiet : ∀ inner, act = .pipe inner → inner.byWal = false)
    (hstep : server.step act = some after) : after.parked = false := by
  cases step_change hstep with
  | @pipe act pipe hgoes hpipe =>
      have hparks : server.pipe.parks act = false := by
        by_contra hparks
        have hwal := Pipeline.byWal_of_parks (Bool.eq_true_of_not_eq_false hparks)
        rw [hquiet act rfl] at hwal
        cases hwal
      rw [hparked, hparks]
      rfl
  | unpark => rfl
  | interrupt => rfl
  | deliver => exact hparked
  | close => exact hparked

/-! ## A channel with room -/

theorem room_of_blocked {conn : ℕ} (hblocked : Machine.Blocked step (Act.delivers conn) server) :
    server.hasRoom conn = true := by
  have hdeliver := hblocked (.deliver conn) (decide_eq_true rfl)
  simp only [step] at hdeliver
  split_ifs at hdeliver with hqueued
  rw [hasRoom, hqueued]
  exact decide_eq_true (Or.inr (by decide))

theorem room_of_delivers {conn : ℕ} {act : Act} (hbounded : server.queued conn ≤ respBound)
    (hdelivers : act.delivers conn = true) (hstep : server.step act = some after) :
    after.hasRoom conn = true := by
  cases step_change hstep with
  | @deliver other hqueued =>
      obtain rfl : other = conn := of_decide_eq_true hdelivers
      obtain ⟨reply, hreply, hconn⟩ := List.countP_pos_iff.mp (Nat.pos_of_ne_zero hqueued)
      obtain ⟨taken, front, back, -, htaken, hsplit, herased⟩ :=
        @List.exists_of_eraseP _ (fun reply => decide (reply.conn = other)) _ _ hreply hconn
      refine decide_eq_true (Or.inr ?_)
      change (server.respRx.eraseP _).countP _ < respBound
      have hless : server.queued other =
          (front ++ back).countP (fun reply => reply.conn = other) + 1 := by
        rw [queued, hsplit, List.countP_append, List.countP_append, List.countP_cons, if_pos htaken]
        omega
      rw [herased]
      omega
  | _ => cases hdelivers

/-- Room is lost only to a response. -/
theorem room_step {act : Act} {conn : ℕ} (hroom : server.hasRoom conn = true)
    (hquiet : ∀ inner, act = .pipe inner → server.pipe.handed inner = none)
    (hstep : server.step act = some after) : after.hasRoom conn = true := by
  have hcase : conn ∈ server.gone ∨ server.queued conn < respBound := of_decide_eq_true hroom
  cases step_change hstep with
  | @pipe act pipe hgoes hpipe =>
      rw [hquiet act rfl, Option.toList_none, List.filter_nil, List.append_nil]
      exact hroom
  | unpark => exact hroom
  | interrupt => exact hroom
  | deliver =>
      exact decide_eq_true (hcase.imp_right fun hless =>
        (List.Sublist.countP_le List.eraseP_sublist).trans_lt hless)
  | close other =>
      exact decide_eq_true (hcase.imp (List.mem_cons_of_mem _) fun hless =>
        (List.Sublist.countP_le List.filter_sublist).trans_lt hless)

/-- A thread whose channels have room is stopped by the pipeline alone. -/
theorem step_of_room {act : Pipeline.Act} (hnone : server.step (.pipe act) = none)
    (hfree : (server.parked && act.byWal) = false)
    (hroom : ∀ sent, server.pipe.handed act = some sent → server.hasRoom sent.conn = true) :
    server.pipe.step act = none := by
  rcases step_pipe_eq_none hfree hnone with ⟨sent, hhanded, hfull⟩ | hpipe
  · rw [hroom sent hhanded] at hfull
    cases hfull
  · exact hpipe

theorem blocked_kernel (hblocked : Machine.Blocked step Act.byKernel server) :
    Machine.Blocked Pipeline.step Pipeline.Act.byKernel server.pipe := by
  intro act hact
  have hnone := hblocked (.pipe act) hact
  have hgoes : server.waits act = false := by
    cases act with
    | wal act =>
        cases act with
        | start => simp [waits, Pipeline.Act.byWal, WalEngine.Act.byThread, Pipeline.handed]
        | complete => simp [waits, Pipeline.Act.byWal, WalEngine.Act.byThread, Pipeline.handed]
        | _ => cases hact
    | _ => cases hact
  simpa [step, hgoes] using hnone

section

variable {mode : Mode} {segs : SortedMap ℕ Bytes} {db : Db} {startLsn : ℕ}
  {run : Machine.Execution step}

theorem kept_execution
    (hstart : Machine.Reach step (fun _ _ => True) (start mode (Files.ofSegs segs) db startLsn)
      (run.state 0)) (n : ℕ) : Kept mode segs db startLsn (run.state n) :=
  kept_reach (Machine.Execution.keeps hstart
    (fun _ _ hact hreach => hreach.next trivial (Machine.Execution.step_of_act hact)) n)

/-- The kernel comes to a completion while the thread waits for one. -/
theorem leadsTo_completion (hundisturbed : Undisturbed run)
    (hkept : ∀ n, Kept mode segs db startLsn (run.state n)) :
    run.LeadsTo (fun server => server.parked = true) fun server =>
      (server.parked = true ∧ server.pipe.wal.ring.cq ≠ []) ∨ server.parked = false := by
  refine Machine.Execution.leadsTo_of_variant left fun bound => ?_
  refine Machine.Execution.leadsTo_of_fair hundisturbed.kernel ?_ ?_ ?_
  · rintro n ⟨hparked, -⟩ hblocked
    refine Or.inl (Or.inl ⟨hparked, fun hcq => ?_⟩)
    exact ((hkept n).attended.parking hparked).entries_ne_nil (hkept n).slotted.1 hcq
      (WalEngine.entries_of_blocked (Pipeline.blocked_kernel (blocked_kernel hblocked)))
  · rintro n act hact ⟨hparked, rfl⟩
    rcases parked_step hparked (Machine.Execution.step_of_act hact) with
      hfree | ⟨hstill, -, -, hcq | hless | ⟨-, hsame⟩⟩
    · exact Or.inr (Or.inl (Or.inr hfree))
    · exact Or.inr (Or.inl (Or.inl ⟨hstill, hcq⟩))
    · exact Or.inr (Or.inr ⟨hstill, hless⟩)
    · exact Or.inl ⟨hstill, hsame⟩
  · rintro n act hact hkernel ⟨hparked, rfl⟩
    rcases parked_step hparked (Machine.Execution.step_of_act hact) with
      hfree | ⟨hstill, -, -, hcq | hless | ⟨hnot, -⟩⟩
    · exact Or.inl (Or.inr hfree)
    · exact Or.inl (Or.inl ⟨hstill, hcq⟩)
    · exact Or.inr ⟨hstill, hless⟩
    · rw [hnot] at hkernel
      cases hkernel

/-- A parked thread is woken. -/
theorem leadsTo_unparked (hundisturbed : Undisturbed run)
    (hkept : ∀ n, Kept mode segs db startLsn (run.state n)) :
    run.LeadsTo (fun server => server.parked = true) fun server => server.parked = false := by
  refine (leadsTo_completion hundisturbed hkept).cancel ?_
  refine Machine.Execution.leadsTo_of_fair hundisturbed.wal ?_ ?_ ?_
  · rintro n ⟨hparked, hcq⟩ hblocked
    have hunpark := hblocked .unpark rfl
    rw [step, if_pos ⟨hparked, hcq⟩] at hunpark
    cases hunpark
  · rintro n act hact ⟨hparked, hcq⟩
    rcases parked_step hparked (Machine.Execution.step_of_act hact) with
      hfree | ⟨hstill, -, hstays, -⟩
    · exact Or.inr hfree
    · exact Or.inl ⟨hstill, hstays hcq⟩
  · rintro n act hact hwal ⟨hparked, -⟩
    rcases parked_step hparked (Machine.Execution.step_of_act hact) with hfree | ⟨-, hnot, -⟩
    · exact hfree
    · rw [hnot] at hwal
      cases hwal

/-- A thread that does nothing is not parked for ever. -/
theorem exists_unparked (hundisturbed : Undisturbed run)
    (hkept : ∀ n, Kept mode segs db startLsn (run.state n)) {n : ℕ}
    (hquiet : ∀ m, n ≤ m → ∀ act, run.act m = some (.pipe act) → act.byWal = false) :
    ∃ m, n ≤ m ∧ ∀ k, m ≤ k → (run.state k).parked = false := by
  obtain ⟨m, hle, hparked⟩ : ∃ m, n ≤ m ∧ (run.state m).parked = false := by
    cases hcase : (run.state n).parked with
    | true => exact leadsTo_unparked hundisturbed hkept n hcase
    | false => exact ⟨n, le_rfl, hcase⟩
  refine ⟨m, hle, fun k hk => ?_⟩
  refine @Machine.Execution.keeps_from _ _ step run (fun server => server.parked = false) m hparked
    (fun i act hi hact hfree => ?_) k hk
  exact unparked_step hfree (fun inner heq => hquiet i (hle.trans hi) inner (heq ▸ hact))
    (Machine.Execution.step_of_act hact)

/-! ## A full channel -/

/-- There is only so much to send. -/
theorem exists_sent (hundisturbed : Undisturbed run)
    (hkept : ∀ n, Kept mode segs db startLsn (run.state n)) :
    ∃ first, ∀ n, first ≤ n → ∀ act, run.act n = some (.pipe act) →
      (run.state n).pipe.handed act = none := by
  let unsent (server : Server) : ℕ := server.pipe.admitted.length - server.pipe.chan.length
  have hact : ∀ n act, run.act n = some (.pipe act) →
      (run.state (n + 1)).pipe.admitted = (run.state n).pipe.admitted ∧
        (run.state (n + 1)).pipe.chan =
          (run.state n).pipe.chan ++ ((run.state n).pipe.handed act).toList := fun n act hact =>
    Pipeline.chan_step (hundisturbed.closed n act hact).1
      (moves_pipe (Machine.Execution.step_of_act hact))
  obtain ⟨first, hconstant⟩ := @Machine.Execution.eventually_constant _ _ step run _ _ _ unsent
    fun n => by
      cases hcase : run.act n with
      | none => rw [Machine.Execution.state_of_idle hcase]
      | some act =>
          cases act with
          | pipe act =>
              obtain ⟨hadmitted, hchan⟩ := hact n act hcase
              simp only [unsent, hadmitted, hchan, List.length_append]
              omega
          | _ =>
              have hsame := moves_pipe (Machine.Execution.step_of_act hcase)
              simp only [unsent]
              rw [show (run.state (n + 1)).pipe = (run.state n).pipe from hsame]
  refine ⟨first, fun n hle act hcase => ?_⟩
  cases hhanded : (run.state n).pipe.handed act with
  | none => rfl
  | some sent =>
      obtain ⟨hadmitted, hchan⟩ := hact n act hcase
      have hsent := (hkept (n + 1)).flow.length_chan_le
      have hsame := (hconstant n hle).trans (hconstant (n + 1) (by omega)).symm
      simp only [unsent, hadmitted, hchan, hhanded, List.length_append, Option.toList_some,
        List.length_singleton] at hsent hsame
      omega

/-- From some point on, a channel has room for good. -/
theorem room_comes (hundisturbed : Undisturbed run)
    (hkept : ∀ n, Kept mode segs db startLsn (run.state n)) (conn n : ℕ) :
    ∃ m, n ≤ m ∧ ∀ k, m ≤ k → (run.state k).hasRoom conn = true := by
  obtain ⟨first, hsent⟩ := exists_sent hundisturbed hkept
  obtain ⟨m, hle, hcase⟩ := hundisturbed.writers conn (max n first)
  have hroom : ∃ m, max n first ≤ m ∧ (run.state m).hasRoom conn = true := by
    rcases hcase with hblocked | ⟨act, hact, hdelivers⟩
    · exact ⟨m, hle, room_of_blocked hblocked⟩
    · refine ⟨m + 1, by omega, ?_⟩
      exact room_of_delivers ((hkept m).attended.bounded conn) hdelivers
        (Machine.Execution.step_of_act hact)
  obtain ⟨m, hle, hroom⟩ := hroom
  refine ⟨m, by omega, fun k hk => ?_⟩
  refine @Machine.Execution.keeps_from _ _ step run (fun server => server.hasRoom conn = true) m
    hroom (fun i act hi hact hstill => ?_) k hk
  exact room_step hstill (fun inner heq => hsent i (by omega) inner (heq ▸ hact))
    (Machine.Execution.step_of_act hact)

/-- A thread that does not act is held up for a while only: what it has to send next stays
the same, and the channel gets room. -/
theorem held_up (hundisturbed : Undisturbed run)
    (hkept : ∀ n, Kept mode segs db startLsn (run.state n)) {out : Pipeline → Option Reply}
    {mine : Pipeline.Act → Bool}
    (hframe : ∀ {pipe next : Pipeline} {act : Pipeline.Act}, mine act = false →
      pipe.step act = some next → out next = out pipe) {n : ℕ}
    (hquiet : ∀ m, n ≤ m → ∀ act, run.act m = some (.pipe act) → mine act = false) :
    ∃ m, n ≤ m ∧ ∀ k, m ≤ k → ∀ sent, out (run.state k).pipe = some sent →
      (run.state k).hasRoom sent.conn = true := by
  have hsame : ∀ k, n ≤ k → out (run.state k).pipe = out (run.state n).pipe := by
    intro k hk
    refine @Machine.Execution.keeps_from _ _ step run
      (fun server => out server.pipe = out (run.state n).pipe) n rfl
      (fun i act hi hact hstill => ?_) k hk
    have hmoves := moves_pipe (Machine.Execution.step_of_act hact)
    rw [← hstill]
    cases act with
    | pipe act => exact hframe (hquiet i hi act hact) hmoves
    | _ => exact congrArg out hmoves
  cases hout : out (run.state n).pipe with
  | none =>
      refine ⟨n, le_rfl, fun k hk sent hsent => ?_⟩
      rw [hsame k hk, hout] at hsent
      cases hsent
  | some sent =>
      obtain ⟨m, hle, hroom⟩ := room_comes hundisturbed hkept sent.conn n
      refine ⟨m, hle, fun k hk other hother => ?_⟩
      rw [hsame k (hle.trans hk), hout] at hother
      cases hother
      exact hroom k hk

/-! ## The pipeline's schedule -/

/-- What the pipeline does in an execution. -/
def pipeRun (run : Machine.Execution step) : Machine.Execution Pipeline.step where
  state n := (run.state n).pipe
  act n := (run.act n).bind Act.pipe?
  moves n := by
    cases hact : run.act n with
    | none => exact congrArg Server.pipe (Machine.Execution.state_of_idle hact)
    | some act => exact moves_pipe (Machine.Execution.step_of_act hact)

theorem pipeRun_act {n : ℕ} {act : Pipeline.Act} :
    (pipeRun run).act n = some act ↔ run.act n = some (.pipe act) := by
  constructor
  · intro hact
    obtain ⟨outer, houter, hinner⟩ := Option.bind_eq_some_iff.mp hact
    cases outer with
    | pipe inner =>
        cases hinner
        exact houter
    | _ => cases hinner
  · intro hact
    change (run.act n).bind Act.pipe? = some act
    rw [hact]
    rfl

/-- A thread that does nothing in the pipeline for good is not kept from it for good, so its
schedule is fair there. -/
theorem fair_pipe {thread : Act → Bool} {mine : Pipeline.Act → Bool} (hfair : run.Fair thread)
    (hfree : ∀ n, (∀ m, n ≤ m → ∀ act, run.act m = some (.pipe act) → mine act = false) →
      ∃ m, n ≤ m ∧ ∀ k, m ≤ k →
        (Machine.Blocked step thread (run.state k) →
          Machine.Blocked Pipeline.step mine (run.state k).pipe) ∧
        ∀ act, run.act k = some act → thread act = false) :
    (pipeRun run).Fair mine := by
  intro n
  by_contra hnever
  push Not at hnever
  have hquiet : ∀ m, n ≤ m → ∀ act, run.act m = some (.pipe act) → mine act = false :=
    fun m hle act hact => Bool.eq_false_of_not_eq_true
      ((hnever m hle).2 act (pipeRun_act.mpr hact))
  obtain ⟨m, hle, hrest⟩ := hfree n hquiet
  obtain ⟨k, hk, hblocked | ⟨act, hact, hthread⟩⟩ := hfair m
  · exact (hnever k (hle.trans hk)).1 ((hrest k hk).1 hblocked)
  · rw [(hrest k hk).2 act hact] at hthread
    cases hthread

theorem fair_stage2 (hundisturbed : Undisturbed run)
    (hkept : ∀ n, Kept mode segs db startLsn (run.state n)) :
    (pipeRun run).Fair Pipeline.Act.byStage2 := by
  apply fair_pipe hundisturbed.stage2
  intro n hquiet
  obtain ⟨m, hle, hroom⟩ := @held_up _ _ _ _ run hundisturbed hkept
    (fun pipe => pipe.outbox.head?) Pipeline.Act.byStage2
    (fun hact hstep => congrArg List.head? (Pipeline.outbox_frame hact hstep)) n hquiet
  refine ⟨m, hle, fun k hk => ⟨fun hblocked act hact => ?_, fun act hact => ?_⟩⟩
  · refine step_of_room (hblocked (.pipe act) hact) ?_ fun sent hsent => hroom k hk sent ?_
    · rw [Pipeline.byWal_of_byStage2 hact, Bool.and_false]
    · cases act with
      | reply => exact hsent
      | take => cases hsent
      | dispatch => cases hsent
      | _ => cases hact
  · cases act with
    | pipe act => exact hquiet k (hle.trans hk) act hact
    | _ => rfl

theorem fair_wal (hundisturbed : Undisturbed run)
    (hkept : ∀ n, Kept mode segs db startLsn (run.state n)) :
    (pipeRun run).Fair Pipeline.Act.byWal := by
  apply fair_pipe hundisturbed.wal
  intro n hquiet
  obtain ⟨free, hfree, hparked⟩ := exists_unparked hundisturbed hkept hquiet
  obtain ⟨m, hle, hroom⟩ := @held_up _ _ _ _ run hundisturbed hkept
    (fun pipe => pipe.handed (.wal .send)) Pipeline.Act.byWal
    (fun hact hstep => Pipeline.handed_frame hact hstep) free
    fun m hle => hquiet m (hfree.trans hle)
  refine ⟨m, hfree.trans hle, fun k hk => ⟨fun hblocked act hact => ?_, fun act hact => ?_⟩⟩
  · refine step_of_room (hblocked (.pipe act) hact) ?_ fun sent hsent => hroom k hk sent ?_
    · rw [hparked k (hle.trans hk), Bool.false_and]
    · exact Pipeline.handed_of_byWal hact hsent
  · cases act with
    | pipe act => exact hquiet k (hfree.trans (hle.trans hk)) act hact
    | unpark =>
        have hstill := parked_of_unpark (Machine.Execution.step_of_act hact)
        rw [hparked k (hle.trans hk)] at hstill
        cases hstill
    | _ => rfl

theorem fair_kernel (hundisturbed : Undisturbed run) :
    (pipeRun run).Fair Pipeline.Act.byKernel := by
  apply fair_pipe hundisturbed.kernel
  intro n hquiet
  refine ⟨n, le_rfl, fun k hk => ⟨blocked_kernel, fun act hact => ?_⟩⟩
  cases act with
  | pipe act => exact hquiet k hk act hact
  | _ => rfl

/-- No thread of the pipeline waits for ever. -/
theorem pipe_undisturbed (hundisturbed : Undisturbed run)
    (hkept : ∀ n, Kept mode segs db startLsn (run.state n)) :
    Pipeline.Undisturbed (pipeRun run) where
  closed n act hact := hundisturbed.closed n act (pipeRun_act.mp hact)
  stage2 := fair_stage2 hundisturbed hkept
  wal := fair_wal hundisturbed hkept
  kernel := fair_kernel hundisturbed

/-! ## Rest -/

/-- The WAL thread stops for good, and stage 2 does nothing more. -/
theorem rests (hundisturbed : Undisturbed run)
    (hstart : Machine.Reach step (fun _ _ => True) (start mode (Files.ofSegs segs) db startLsn)
      (run.state 0)) :
    ∃ n, ∀ m, n ≤ m → (run.state m).WalStopped ∧
      ∀ act, run.act m = some (.pipe act) → act.byStage2 = false := by
  have hkept := kept_execution hstart
  have hpipe := @pipe_reach _ _ _ _ _ (fun _ _ => True) (fun _ _ => True)
    (fun _ _ _ => trivial) hstart
  obtain ⟨n, hstopped⟩ := Pipeline.stops (pipe_undisturbed hundisturbed hkept) hpipe
  have hquiet : ∀ m, n ≤ m → ∀ act, run.act m = some (.pipe act) →
      act.byWal = false ∧ act.byStage2 = false := by
    intro m hle act hact
    obtain ⟨inner, rfl, hthread⟩ := (hstopped m hle).2 act (pipeRun_act.mpr hact)
    exact ⟨hthread, rfl⟩
  obtain ⟨free, hfree, hparked⟩ := exists_unparked hundisturbed hkept
    fun m hle act hact => (hquiet m hle act hact).1
  refine ⟨free, fun m hle => ⟨⟨hparked m hle, (hstopped m (hfree.trans hle)).1⟩, ?_⟩⟩
  exact fun act hact => (hquiet m (hfree.trans hle) act hact).2

/-! ## Executions that end -/

/-- Nothing is left for anyone to do. -/
structure Done (server : Server) : Prop where
  pipe : server.pipe.Done
  parked : server.parked = false
  respRx : server.respRx = []

/-- An execution that ends there is fair to all. -/
theorem Done.undisturbed (hdone : server.Done)
    (hclosed : ∀ n act, run.act n = some (.pipe act) →
      act.closed = true ∧ Pipeline.Progresses (run.state n).pipe act)
    (hfair : ∀ helpful, Machine.Blocked step helpful server → run.Fair helpful) :
    Undisturbed run := by
  refine ⟨hclosed, hfair _ fun act hact => ?_, hfair _ ?_, hfair _ fun act hact => ?_, fun conn =>
    hfair _ fun act hact => ?_⟩
  · cases act with
    | pipe act => exact step_pipe_of_none (hdone.pipe.stage2 act hact)
    | _ => cases hact
  · exact blocked_of_pipe hdone.parked fun act hact =>
      step_pipe_of_none (hdone.pipe.wal (.wal act) hact)
  · cases act with
    | pipe act => exact step_pipe_of_none (hdone.pipe.kernel act hact)
    | _ => cases hact
  · cases act with
    | deliver other => simp [step, queued, hdone.respRx]
    | _ => cases hact

instance (server : Server) : Decidable server.Done :=
  decidable_of_iff
    (server.pipe.items = [] ∧ server.pipe.outbox = [] ∧ server.pipe.hand = none ∧
      server.pipe.wal.outbox = [] ∧ server.pipe.wal.ring.entries = [] ∧
      server.pipe.wal.pc = .top ∧ server.pipe.wal.msgRx = [] ∧
      server.pipe.wal.shouldPark = true ∧ server.parked = false ∧ server.respRx = [])
    ⟨fun ⟨hitems, houtbox, hhand, hsent, hentries, hpc, hmsgRx, hpark, hparked, hrespRx⟩ =>
        ⟨⟨hitems, houtbox, hhand, hsent, hentries, hpc, hmsgRx, hpark⟩, hparked, hrespRx⟩,
      fun ⟨⟨hitems, houtbox, hhand, hsent, hentries, hpc, hmsgRx, hpark⟩, hparked, hrespRx⟩ =>
        ⟨hitems, houtbox, hhand, hsent, hentries, hpc, hmsgRx, hpark, hparked, hrespRx⟩⟩

/-- The steps of an execution that ends. -/
def Ending (pipe : Pipeline) (act : Pipeline.Act) : Prop :=
  (act.closed = true ∧ Pipeline.Progresses pipe act) ∧ Pipeline.Prompt pipe act

instance (pipe : Pipeline) (act : Pipeline.Act) : Decidable (Ending pipe act) :=
  inferInstanceAs (Decidable (_ ∧ _))

/-- A run that can be evaluated, first with requests coming in and then without, gives an
undisturbed execution if it ends where nothing is left to do. -/
theorem exists_undisturbed (opening acts : List Act) (property : Server → Bool)
    (hrun : (((Machine.run (Machine.guarded step (Guards Pipeline.Prompt))
      (start mode (Files.ofSegs segs) db startLsn) opening).filter property).bind fun before =>
        Machine.run (Machine.guarded step (Guards Ending)) before acts).any
          (fun last => decide last.Done) = true) :
    ∃ run : Machine.Execution step, property (run.state 0) = true ∧ Undisturbed run ∧
      Machine.Reach step (Guards Pipeline.Prompt) (start mode (Files.ofSegs segs) db startLsn)
        (run.state 0) ∧
      ∀ n act, run.act n = some act → Guards Pipeline.Prompt (run.state n) act := by
  obtain ⟨last, hlast, hdone⟩ := (Option.any_eq_true _ _).mp hrun
  obtain ⟨before, hbefore, hacts⟩ := Option.bind_eq_some_iff.mp hlast
  obtain ⟨hopening, hproperty⟩ := Option.filter_eq_some_iff.mp hbefore
  obtain ⟨final, hfinal, run, hstart, hguard, hfair⟩ := @Machine.exists_execution _ _ step
    (Guards Ending) _ before acts (fun last => decide last.Done)
    ((Option.any_eq_true _ _).mpr ⟨last, hacts, hdone⟩)
  refine ⟨run, hstart ▸ hproperty, ?_, ?_, fun n act hact => ?_⟩
  · exact (of_decide_eq_true hfinal).undisturbed (fun n act hact => (hguard n _ hact).1) hfair
  · rw [hstart]
    exact Machine.reach_of_run Machine.Reach.start hopening
  · have hending := hguard n act hact
    cases act with
    | pipe act => exact hending.2
    | _ => trivial

/-! ## Results -/

/-- Once no request, rotate or retire comes in any more, every completed write makes
progress, and the writers take what their channels hold, a fair schedule brings the WAL
thread to where it waits for good, neither parked nor held up by a full channel: for a
message, with nothing pending or in flight, all of its messages taken and, below Sync,
every response sent; or it panics, on a retire of its active segment or on an error it
cannot retry. -/
theorem settles (hundisturbed : Undisturbed run)
    (hstart : Machine.Reach step (fun _ _ => True) (start mode (Files.ofSegs segs) db startLsn)
      (run.state 0)) :
    ∃ n, ∀ m, n ≤ m → (run.state m).parked = false ∧ (run.state m).pipe.wal.outbox = [] ∧
      ((run.state m).pipe.wal.Waiting ∧
          (mode ≠ .sync → (run.state m).pipe.wal.desk.held = 0) ∨
        (run.state m).pipe.wal.RetiresActive ∨ (run.state m).pipe.wal.ReapsFatal) := by
  obtain ⟨n, hrests⟩ := rests hundisturbed hstart
  refine ⟨n, fun m hle => ?_⟩
  obtain ⟨⟨hparked, houtbox, hcause⟩, -⟩ := hrests m hle
  refine ⟨hparked, houtbox, hcause.imp_left fun hwaiting => ⟨hwaiting, fun hmode => ?_⟩⟩
  have hkept := kept_execution hstart m
  exact WalEngine.held_of_awaiting hkept.flow.keyed
    (WalEngine.awaiting_of_mode hmode hkept.agreed.engine) houtbox hwaiting

/-- A write cut short in front of a rotate: the thread parks three times, and comes back
once with EINTR only. -/
theorem settles_rotated :
    ∃ run : Machine.Execution step, Undisturbed run ∧ (run.state 0).pipe.wal.msgRx.length = 2 ∧
      ∃ n, ∀ m, n ≤ m → (run.state m).parked = false ∧ (run.state m).pipe.wal.outbox = [] ∧
        ((run.state m).pipe.wal.Waiting ∧
            (Mode.async ≠ .sync → (run.state m).pipe.wal.desk.held = 0) ∨
          (run.state m).pipe.wal.RetiresActive ∨ (run.state m).pipe.wal.ReapsFatal) := by
  obtain ⟨run, hlength, hundisturbed, hreach, -⟩ := @exists_undisturbed .async SortedMap.empty
    Db.new 1
    [.pipe (.accept 7 (.smallPut 65 66)), .pipe (.take 1), .pipe .dispatch, .pipe (.rotate 2)]
    [.pipe (.wal (.slab [5])), .pipe (.wal .poll), .pipe (.wal .plan), .pipe (.wal .reap),
      .pipe (.wal .poll), .pipe (.wal .drain), .pipe (.wal (.start 0)),
      .pipe (.wal (.complete 0 20)), .unpark, .pipe (.wal .wake), .pipe (.wal .reap),
      .pipe (.wal .reap), .pipe (.wal .drain), .interrupt, .pipe (.wal .wake),
      .pipe (.wal .reap), .pipe (.wal .drain), .pipe (.wal (.start 0)),
      .pipe (.wal (.complete 0 7)), .unpark, .pipe (.wal .wake), .pipe (.wal .reap),
      .pipe (.wal .send), .deliver 7, .pipe (.wal .send), .pipe (.wal .reap),
      .pipe (.wal .drain), .pipe (.wal .plan), .pipe (.wal .reap)]
    (fun before => before.pipe.wal.msgRx.length = 2) (by decide +kernel)
  exact ⟨run, hundisturbed, of_decide_eq_true hlength,
    settles hundisturbed (hreach.weaken fun _ _ _ => trivial)⟩

/-- Once nothing comes in any more, every completed write makes progress, and the writers
take what their channels hold, a fair schedule answers every request ever admitted,
exactly once; or stage 2 stands before a request it cannot take apart; or stage 3 panics,
on a retire of its active segment or on an error it cannot retry.  No response is dropped
and no batch stranded on the way where the guard rules these out. -/
theorem answers (hundisturbed : Undisturbed run)
    (hstart : Machine.Reach step (Guards Pipeline.Prompt)
      (start mode (Files.ofSegs segs) db startLsn) (run.state 0))
    (hprompt : ∀ n act, run.act n = some act → Guards Pipeline.Prompt (run.state n) act) :
    ∃ n, (∀ req ∈ (run.state n).pipe.admitted, (run.state n).pipe.responses req = 1) ∨
      (∃ req rest, (run.state n).pipe.items = req :: rest ∧ ¬ Admissible req.data) ∨
        (run.state n).parked = false ∧
          ((run.state n).pipe.wal.RetiresActive ∨ (run.state n).pipe.wal.ReapsFatal) := by
  have hany := Machine.Reach.weaken (fun _ _ _ => trivial) hstart
  obtain ⟨n, hrests⟩ := rests hundisturbed hany
  -- stage 2 does nothing more, so its fairness says that it is blocked
  obtain ⟨m, hle, hblocked | ⟨act, hact, hstage2⟩⟩ :=
    (pipe_undisturbed hundisturbed (kept_execution hany)).stage2 n
  · obtain ⟨hparked, houtbox, hwaiting | hpanic⟩ := (hrests m hle).1
    · have hgood : Pipeline.Good mode segs db startLsn (run.state m).pipe :=
        Pipeline.good_reach (pipe_reach (fun _ _ hguard => hguard)
          (Machine.Execution.keeps hstart (fun n act hact hreach =>
            hreach.next (hprompt n act hact) (Machine.Execution.step_of_act hact)) m))
      obtain ⟨hsent, hfree, hitems | hbad⟩ := hgood.items_of_blocked hwaiting houtbox hblocked
      · exact ⟨m, Or.inl (hgood.answered hwaiting houtbox hsent hfree hitems)⟩
      · exact ⟨m, Or.inr (Or.inl hbad)⟩
    · exact ⟨m, Or.inr (Or.inr ⟨hparked, hpanic⟩)⟩
  · have hnot := (hrests m hle).2 act (pipeRun_act.mp hact)
    rw [hnot] at hstage2
    cases hstage2

/-- Two batches in Sync mode, the first with a GET beside its PUT, and a connection whose
writer is over. -/
theorem answers_three :
    ∃ run : Machine.Execution step, Undisturbed run ∧ (run.state 0).pipe.items.length = 3 ∧
      ∃ n, (∀ req ∈ (run.state n).pipe.admitted, (run.state n).pipe.responses req = 1) ∨
        (∃ req rest, (run.state n).pipe.items = req :: rest ∧ ¬ Admissible req.data) ∨
          (run.state n).parked = false ∧
            ((run.state n).pipe.wal.RetiresActive ∨ (run.state n).pipe.wal.ReapsFatal) := by
  obtain ⟨run, hlength, hundisturbed, hreach, hprompt⟩ := @exists_undisturbed .sync
    SortedMap.empty Db.new 1
    [.pipe (.accept 7 (.smallPut 65 66)), .pipe (.accept 8 (.smallGet 65)),
      .pipe (.accept 7 (.smallPut 65 67))]
    [.pipe (.take 2), .close 8, .pipe .reply, .pipe .dispatch, .pipe (.wal .poll),
      .pipe (.wal .plan), .pipe (.wal .reap), .pipe (.take 1), .pipe (.wal (.start 0)),
      .pipe .dispatch, .pipe (.wal (.complete 0 27)), .pipe (.wal (.start 0)),
      .pipe (.wal (.complete 0 0)), .pipe (.wal .poll), .pipe (.wal .plan), .pipe (.wal .reap),
      .pipe (.wal .reap), .pipe (.wal .send), .deliver 7, .pipe (.wal .send),
      .pipe (.wal .reap), .pipe (.wal (.start 0)), .pipe (.wal (.complete 0 27)),
      .pipe (.wal .poll), .pipe (.wal .plan), .pipe (.wal .reap), .pipe (.wal .reap),
      .pipe (.wal (.start 0)), .pipe (.wal (.complete 0 0)), .pipe (.wal .poll),
      .pipe (.wal .plan), .pipe (.wal .reap), .pipe (.wal .send), .deliver 7,
      .pipe (.wal .send), .pipe (.wal .reap)]
    (fun before => before.pipe.items.length = 3) (by decide +kernel)
  exact ⟨run, hundisturbed, of_decide_eq_true hlength, answers hundisturbed hreach hprompt⟩

end

end InMemoryDb.Server
