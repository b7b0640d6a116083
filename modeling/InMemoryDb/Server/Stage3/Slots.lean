import InMemoryDb.Server.Stage3.Sound

/-!
# The slots of the ring

The engine bounds what the ring holds by the slab alone: an entry is pushed only
while fewer than `depth` operations are in flight.  The operations in the slab are
those with a slot, one each, from the push to the reaping of its completion, so
neither queue of the ring can overflow and every completion finds its operation; and
whenever the thread may wait, nothing it has pushed is left unsubmitted.
-/

namespace InMemoryDb.Stage3

/-- `handle_pending` has filled the submission queue, and it is not submitted yet. -/
def Pc.filled : Pc → Bool
  | .reaping _ (.loop needSubmit) => needSubmit
  | _ => false

namespace WalEngine

variable {engine after : WalEngine}

/-! ## Counting -/

theorem keys_eq (hkeyed : engine.Keyed) : engine.inflight.keys = engine.tickets.toFinset := by
  ext key
  rw [Finmap.mem_keys, List.mem_toFinset]
  exact (hkeyed.mem_iff key).symm

/-- Every operation in the slab has one slot. -/
theorem card_keys (hkeyed : engine.Keyed) :
    engine.inflight.keys.card = engine.tickets.length := by
  rw [keys_eq hkeyed]
  exact List.toFinset_card_of_nodup hkeyed.nodup

theorem length_tickets (engine : WalEngine) :
    engine.tickets.length =
      engine.posted.length + engine.ring.entries.length + engine.ring.sq.length := by
  simp [tickets, posted, Nat.add_assoc]

theorem inflight_eq_empty (hkeyed : engine.Keyed) (htickets : engine.tickets = []) :
    engine.inflight = ∅ := by
  refine Finmap.ext_lookup fun key => ?_
  rw [Finmap.lookup_empty, Finmap.lookup_eq_none, ← hkeyed.mem_iff, htickets]
  exact List.not_mem_nil

/-! ## What `handle_pending` pushes -/

/-- `handle_pending` moves operations from `pending` into the submission queue. -/
structure Pulled (engine after : WalEngine) : Prop where
  keyed : after.Keyed
  pushed : after.ring.sq.length + engine.tickets.length =
    engine.ring.sq.length + after.tickets.length
  taken : after.pending.length + after.tickets.length =
    engine.pending.length + engine.tickets.length
  fits : engine.tickets.length ≤ engine.depth → after.tickets.length ≤ engine.depth
  depth : after.depth = engine.depth
  cq : after.ring.cq = engine.ring.cq
  entries : after.ring.entries = engine.ring.entries
  pc : after.pc = engine.pc

theorem pulled_refl (hkeyed : engine.Keyed) : Pulled engine engine :=
  ⟨hkeyed, rfl, rfl, id, rfl, rfl, rfl, rfl⟩

theorem Pulled.push {middle : WalEngine} (hpulled : Pulled engine middle) {work : IoWork}
    {rest : List IoWork} (hpending : middle.pending = work :: rest)
    (hroom : middle.hasRoom = true) : Pulled engine (middle.push work rest) := by
  have htickets : (middle.push work rest).tickets.length = middle.tickets.length + 1 := by
    rw [tickets_push, List.length_append]
    rfl
  have hsq : (middle.push work rest).ring.sq.length = middle.ring.sq.length + 1 :=
    List.length_append
  refine ⟨hpulled.keyed.push _ _, ?_, ?_, ?_, hpulled.depth, hpulled.cq, hpulled.entries,
    hpulled.pc⟩
  · have hpushed := hpulled.pushed
    omega
  · have htaken := hpulled.taken
    rw [hpending, List.length_cons] at htaken
    rw [htickets]
    change rest.length + _ = _
    omega
  · intro _
    rw [hasRoom, decide_eq_true_eq, card_keys hpulled.keyed, hpulled.depth] at hroom
    omega

/-- What every push keeps, `handle_pending` keeps. -/
theorem pullLoop_keeps {Inv : WalEngine → Prop}
    (hpush : ∀ engine work rest, Inv engine → engine.pending = work :: rest →
      engine.hasRoom = true → Inv (engine.push work rest))
    (fuel : ℕ) (hinv : Inv engine) : Inv (pullLoop fuel engine) := by
  induction fuel generalizing engine with
  | zero => exact hinv
  | succ fuel ih =>
      cases hpending : engine.pending with
      | nil =>
          simp only [pullLoop, hpending]
          exact hinv
      | cons work rest =>
          simp only [pullLoop, hpending]
          split_ifs with hroom
          · exact ih (hpush engine work rest hinv hpending hroom)
          · exact hinv

/-- `handle_pending` stops only when there is nothing left to push, or no room. -/
theorem handlePending_stops (engine : WalEngine) :
    engine.handlePending.1.pending = [] ∨ engine.handlePending.1.hasRoom = false := by
  change (pullLoop engine.pending.length engine).pending = [] ∨
    (pullLoop engine.pending.length engine).hasRoom = false
  generalize hfuel : engine.pending.length = fuel
  induction fuel generalizing engine with
  | zero => exact Or.inl (List.eq_nil_of_length_eq_zero hfuel)
  | succ fuel ih =>
      cases hpending : engine.pending with
      | nil =>
          simp only [pullLoop, hpending]
          exact Or.inl trivial
      | cons work rest =>
          simp only [pullLoop, hpending]
          split_ifs with hroom
          · rw [hpending, List.length_cons, Nat.succ_inj] at hfuel
            exact ih (engine.push work rest) hfuel
          · exact Or.inr (Bool.eq_false_of_not_eq_true hroom)

theorem pulled_handlePending (hkeyed : engine.Keyed) : Pulled engine engine.handlePending.1 :=
  pullLoop_keeps (fun _ _ _ hpulled => hpulled.push) _ (pulled_refl hkeyed)

/-- The answer of `handle_pending` tells whether anything was pushed. -/
theorem handlePending_false (hkeyed : engine.Keyed) (hanswer : engine.handlePending.2 = false) :
    engine.handlePending.1.ring.sq.length = engine.ring.sq.length := by
  have hpulled := pulled_handlePending hkeyed
  have hcard : engine.inflight.keys.card = engine.handlePending.1.inflight.keys.card := by
    simpa [handlePending] using hanswer
  rw [card_keys hkeyed, card_keys hpulled.keyed] at hcard
  have := hpulled.pushed
  omega

/-! ## The invariant -/

/-- The ring has room for everything in it, and nothing is left unsubmitted where the
thread may wait. -/
structure Slotted (engine : WalEngine) : Prop where
  keyed : engine.Keyed
  fits : engine.tickets.length ≤ engine.depth
  submitted : engine.pc.filled = false → engine.ring.sq = []

/-- A step that neither pushes nor adds a key. -/
theorem Slotted.frame (hslotted : engine.Slotted) (hkeyed : after.Keyed)
    (hlength : after.tickets.length ≤ engine.tickets.length)
    (hdepth : after.depth = engine.depth)
    (hsq : after.pc.filled = false →
      engine.pc.filled = false ∧ after.ring.sq = engine.ring.sq) :
    after.Slotted := by
  refine ⟨hkeyed, ?_, ?_⟩
  · rw [hdepth]
    exact hlength.trans hslotted.fits
  · intro hfilled
    obtain ⟨hbefore, hsame⟩ := hsq hfilled
    rw [hsame]
    exact hslotted.submitted hbefore

theorem Slotted.same (hslotted : engine.Slotted) (hkeyed : after.Keyed)
    (htodo : after.todo = engine.todo) (hring : after.ring = engine.ring)
    (hdepth : after.depth = engine.depth)
    (hfilled : after.pc.filled = false → engine.pc.filled = false) : after.Slotted :=
  hslotted.frame hkeyed (by rw [tickets_frame htodo hring]) hdepth
    fun hafter => ⟨hfilled hafter, by rw [hring]⟩

theorem poll_slots (hpc : engine.pc = .top) (hpoll : engine.poll = some after) :
    after.todo = engine.todo ∧ after.ring = engine.ring ∧ after.depth = engine.depth := by
  have htodo : engine.todo = [] := by simp [todo, hpc, Pc.todo]
  rw [htodo]
  rcases poll_inv hpoll with ⟨-, -, rfl⟩ | ⟨batch, rest, middle, -, hbatch, rfl⟩ |
    ⟨boundaryLsn, rest, -, rfl⟩ | ⟨boundaryLsn, rest, -, -, rfl⟩
  · exact ⟨rfl, rfl, rfl⟩
  · obtain ⟨-, -, out, -, rfl⟩ := handleBatch_inv hbatch
    exact ⟨rfl, rfl, rfl⟩
  · exact ⟨rfl, rfl, rfl⟩
  · exact ⟨rfl, rfl, rfl⟩

theorem reapCqe_slots {cqe : Cqe} {rest : List Cqe} {ret : Return}
    (hreap : { engine with pc := .reaping rest ret }.reapCqe cqe = .ok after) :
    after.ring = engine.ring ∧ after.depth = engine.depth := by
  rcases reapCqe_inv hreap with ⟨startLsn, -, rfl⟩ | ⟨op, -, -, -, rfl⟩ |
    ⟨op, done, -, -, rfl⟩ | ⟨target, -, -, rfl⟩
  · exact ⟨rfl, rfl⟩
  · rw [reapWritten_eq]
    exact ⟨rfl, rfl⟩
  · exact ⟨rfl, rfl⟩
  · exact ⟨rfl, rfl⟩

theorem slotted_plan (hslotted : engine.Slotted) (hpc : engine.pc = .plan)
    (hkeyed : engine.plan.Keyed) : engine.plan.Slotted := by
  have harmed : engine.armFsync.Keyed := hslotted.keyed.congr (List.Perm.refl _) rfl
  have hpulled := pulled_handlePending harmed
  have htodo : engine.armFsync.handlePending.1.todo = [] := by
    rw [todo, hpulled.pc, armFsync_pc, hpc]
    rfl
  have hplan : engine.plan =
      engine.armFsync.handlePending.1.beginReap (.loop engine.armFsync.handlePending.2) := rfl
  refine ⟨hkeyed, ?_, ?_⟩
  · rw [hplan, tickets_beginReap _ _ htodo]
    have hdepth : engine.plan.depth = engine.depth := hpulled.depth
    change _ ≤ engine.plan.depth
    rw [hdepth]
    exact hpulled.fits hslotted.fits
  · intro hanswer
    have hsame := handlePending_false harmed hanswer
    have hempty : engine.armFsync.ring.sq = [] := hslotted.submitted (by rw [hpc]; rfl)
    rw [hempty] at hsame
    exact List.eq_nil_of_length_eq_zero hsame

theorem slotted_drain (hslotted : engine.Slotted) {boundaryLsn : ℕ}
    (hpc : engine.pc = .draining boundaryLsn) (hkeyed : (engine.drain boundaryLsn).Keyed) :
    (engine.drain boundaryLsn).Slotted := by
  have htodo : engine.todo = [] := by simp [todo, hpc, Pc.todo]
  have hempty : engine.ring.sq = [] := hslotted.submitted (by rw [hpc]; rfl)
  unfold drain at hkeyed ⊢
  split_ifs at hkeyed ⊢ with hpark
  · exact hslotted.same hkeyed htodo.symm rfl rfl fun _ => by rw [hpc]; rfl
  · have hpulled := pulled_handlePending hslotted.keyed
    refine ⟨hkeyed, ?_, fun _ => rfl⟩
    have hsubmit := tickets_submitRing engine.handlePending.1
    have htickets : { engine.handlePending.1.submitRing with
        pc := .drainWait boundaryLsn }.tickets = engine.handlePending.1.tickets := by
      rw [← hsubmit]
      refine tickets_frame ?_ rfl
      change [] = engine.handlePending.1.pc.todo
      rw [hpulled.pc, hpc]
      rfl
    rw [htickets]
    change _ ≤ engine.handlePending.1.depth
    rw [hpulled.depth]
    exact hpulled.fits hslotted.fits

theorem slotted_finishLoop (hslotted : engine.Slotted) {needSubmit : Bool}
    (hpc : engine.pc = .reaping [] (.loop needSubmit))
    (hkeyed : (engine.finishLoop needSubmit).Keyed) :
    (engine.finishLoop needSubmit).Slotted := by
  have htodo : engine.todo = [] := by simp [todo, hpc, Pc.todo]
  unfold finishLoop at hkeyed ⊢
  split_ifs at hkeyed ⊢ with hsubmit
  · refine ⟨hkeyed, ?_, fun _ => rfl⟩
    have htickets : { engine.submitRing with pc := .top }.tickets = engine.submitRing.tickets :=
      tickets_frame htodo.symm rfl
    rw [htickets, tickets_submitRing]
    exact hslotted.fits
  · -- nothing was pushed, or the entries would have been submitted
    refine hslotted.same hkeyed htodo.symm rfl rfl fun _ => ?_
    rw [hpc]
    have hanswer : ¬ needSubmit = true := fun h => hsubmit (Or.inr (Or.inr h))
    simpa [Pc.filled] using hanswer

theorem slotted_step {act : Act} (hslotted : engine.Slotted) (hfeeds : Feeds engine act)
    (hstep : engine.step act = some after) : after.Slotted := by
  have hkeyed : after.Keyed :=
    @step_keeps Keyed Anything (fun _ _ => keyed_move) _ _ _ hslotted.keyed hfeeds
      (fun _ _ _ => trivial) hstep
  cases stepped hstep with
  | arrive msg => exact hslotted.same hkeyed rfl rfl rfl id
  | poll hpc hpoll =>
      obtain ⟨htodo, hring, hdepth⟩ := poll_slots hpc hpoll
      exact hslotted.same hkeyed htodo hring hdepth fun _ => by rw [hpc]; rfl
  | plan hpc => exact slotted_plan hslotted hpc hkeyed
  | @reapCqe cqe rest ret _ hpc hreap =>
      obtain ⟨hring, hdepth⟩ := reapCqe_slots hreap
      have hpc' := reapCqe_pc hreap
      have htickets : after.tickets = (engine.pop cqe rest ret).tickets :=
        tickets_frame (by rw [todo, hpc']; rfl) hring
      refine hslotted.frame hkeyed ?_ hdepth fun hfilled => ⟨?_, by rw [hring]⟩
      · rw [htickets, engine.tickets_pop hpc, List.length_cons]
        exact Nat.le_succ _
      · rw [hpc'] at hfilled
        rw [hpc]
        cases ret with
        | loop needSubmit => exact hfilled
        | rotate boundaryLsn => rfl
  | reapLoop hpc => exact slotted_finishLoop hslotted hpc hkeyed
  | reapRotate hpc =>
      exact hslotted.same hkeyed (by simp [todo, hpc, Pc.todo]) rfl rfl fun _ => by rw [hpc]; rfl
  | drain hpc => exact slotted_drain hslotted hpc hkeyed
  | @wake boundaryLsn hpc =>
      have htodo : engine.todo = [] := by simp [todo, hpc, Pc.todo]
      refine hslotted.frame hkeyed ?_ rfl fun _ => ⟨by rw [hpc]; rfl, rfl⟩
      exact (congrArg List.length (tickets_beginReap engine (.rotate boundaryLsn) htodo)).le
  | start hstart =>
      refine hslotted.frame hkeyed (congrArg List.length (tickets_start _ hstart)).le rfl ?_
      obtain ⟨front, entry, back, -, -, -, rfl⟩ := startEntry_inv hstart
      exact fun h => ⟨h, rfl⟩
  | complete hcomplete =>
      obtain ⟨ahead, front, key, back, hbefore, hafter⟩ := tickets_complete _ hcomplete
      refine hslotted.frame hkeyed ?_ rfl ?_
      · rw [hbefore, hafter]
        simp only [List.length_append, List.length_cons]
        omega
      · obtain ⟨_, _, _, _, _, -, -, -, rfl⟩ := completeEntry_inv hcomplete
        exact fun h => ⟨h, rfl⟩
  | reply houtbox => exact hslotted.same hkeyed rfl rfl rfl id
  | recycle houtbox => exact hslotted.same hkeyed rfl rfl rfl id
  | lend hpool => exact hslotted.same hkeyed rfl rfl rfl id
  | slab keys => exact hslotted.same hkeyed rfl rfl rfl id

theorem slotted_new (depth : ℕ) (files : Files) (startLsn : ℕ) (mode : Mode)
    (pool : List Batch) : (new depth files startLsn mode pool).Slotted :=
  ⟨keyed_new _ _ _ _ _, Nat.zero_le _, fun _ => rfl⟩

theorem depth_move {permit : Kind → WalEngine → Prop} (hmove : Move permit engine after) :
    after.depth = engine.depth := by
  cases hmove with
  | enqueue hmsg hbatch =>
      obtain ⟨-, -, out, -, rfl⟩ := handleBatch_inv hbatch
      rfl
  | reapWritten hpermit hpc hwork hres hdone => rw [reapWritten_eq]; rfl
  | _ => rfl

theorem slotted_reach {depth : ℕ} {files : Files} {startLsn : ℕ} {mode : Mode}
    {pool : List Batch}
    (hreach : Machine.Reach step Feeds (new depth files startLsn mode pool) engine) :
    engine.Slotted ∧ engine.depth = depth := by
  induction hreach with
  | start => exact ⟨slotted_new _ _ _ _ _, rfl⟩
  | next _ hfeeds hstep ih =>
      refine ⟨slotted_step ih.1 hfeeds hstep, ?_⟩
      exact @step_keeps (fun engine => engine.depth = depth) Anything
        (fun _ _ h hmove => (depth_move hmove).trans h) _ _ _ ih.2 hfeeds (fun _ _ _ => trivial)
        hstep

/-- In every run, whatever the messages, completions, rotates and retries: the
operations in the slab are exactly those with a slot of the ring, one slot each; at
most `depth` are taken, so that no push and no completion finds its queue full; each
completion finds its operation; and nothing pushed is left unsubmitted, except between
`handle_pending` and the end of its round. -/
theorem ring_safe {depth : ℕ} {files : Files} {startLsn : ℕ} {mode : Mode} {pool : List Batch}
    (hreach : Machine.Reach step Feeds (new depth files startLsn mode pool) engine) :
    engine.inflight.keys = engine.tickets.toFinset ∧ engine.tickets.Nodup ∧
      engine.ring.sq.length + engine.ring.entries.length + engine.posted.length =
        engine.inflight.keys.card ∧
      engine.inflight.keys.card ≤ depth ∧
      (∀ cqe ∈ engine.posted, ∃ work, engine.inflight.lookup cqe.userData = some work) ∧
      (engine.pc.filled = false → engine.ring.sq = []) := by
  obtain ⟨hslotted, hdepth⟩ := slotted_reach hreach
  have hcard := card_keys hslotted.keyed
  refine ⟨keys_eq hslotted.keyed, hslotted.keyed.nodup, ?_, ?_, ?_, hslotted.submitted⟩
  · rw [hcard, length_tickets]
    omega
  · rw [hcard, ← hdepth]
    exact hslotted.fits
  · intro cqe hcqe
    have hmem := (hslotted.keyed.mem_iff _).mp (userData_mem_tickets hcqe)
    exact Option.isSome_iff_exists.mp (Finmap.lookup_isSome.mpr hmem)

/-- A ring of depth one, full, with a second write pending. -/
theorem ring_safe_full :
    ∃ engine, Machine.Reach step Feeds
        (new 1 (Files.ofSegs SortedMap.empty) 1 .sync []) engine ∧
      engine.pending ≠ [] ∧
      engine.inflight.keys = engine.tickets.toFinset ∧ engine.tickets.Nodup ∧
      engine.ring.sq.length + engine.ring.entries.length + engine.posted.length = 1 ∧
      engine.inflight.keys.card ≤ 1 := by
  let first : Batch := ⟨[⟨.smallPut 65 66, 7, some .ok, 0⟩], [], 1, 2, 0⟩
  let second : Batch := ⟨[⟨.smallPut 65 67, 7, some .ok, 1⟩], [], 2, 3, 1⟩
  obtain ⟨engine, hreach, hdone⟩ := @Machine.exists_reach _ _ step Feeds
    (new 1 (Files.ofSegs SortedMap.empty) 1 .sync []) _
    [.arrive (.write first), .arrive (.write second), .poll, .plan, .reap, .poll, .plan, .reap]
    (fun engine => engine.pending ≠ [] ∧ engine.inflight.keys.card = 1) (by decide +kernel)
  obtain ⟨hpending, hcard⟩ : engine.pending ≠ [] ∧ engine.inflight.keys.card = 1 :=
    of_decide_eq_true hdone
  obtain ⟨hkeys, hnodup, hslots, hfits, -⟩ := ring_safe hreach
  exact ⟨engine, hreach, hpending, hkeys, hnodup, hslots.trans hcard, hfits⟩

/-! ## When the thread cannot go on -/

/-- The actions of the engine thread. -/
def Act.byThread : Act → Bool
  | .poll | .plan | .reap | .drain | .wake | .send => true
  | _ => false

/-- `msg_rx.recv` blocks: there is nothing to do. -/
def Waiting (engine : WalEngine) : Prop :=
  engine.pc = .top ∧ engine.msgRx = [] ∧ engine.shouldPark = true

/-- `handle_batch` finds a gap in the numbering. -/
def FindsGap (engine : WalEngine) : Prop :=
  engine.pc = .top ∧ ∃ batch rest, engine.msgRx = .write batch :: rest ∧
    batch.lsnLow ≠ engine.lastIngestedLsn

/-- `retire` would unlink the active segment. -/
def RetiresActive (engine : WalEngine) : Prop :=
  engine.pc = .top ∧ ∃ boundaryLsn rest, engine.msgRx = .retire boundaryLsn :: rest ∧
    engine.seg.startLsn < boundaryLsn

/-- `reap_cqes` comes to a completion that cannot be retried. -/
def ReapsFatal (engine : WalEngine) : Prop :=
  ∃ cqe rest ret work code, engine.pc = .reaping (cqe :: rest) ret ∧
    engine.inflight.lookup cqe.userData = some work ∧ work.complete cqe.result = .fatal code

/-- A poll that does not come back. -/
theorem poll_eq_none (hfed : engine.Fed) (hpc : engine.pc = .top) (hpoll : engine.poll = none) :
    engine.Waiting ∨ engine.FindsGap ∨ engine.RetiresActive := by
  unfold poll at hpoll
  split at hpoll
  next hmsg =>
    split_ifs at hpoll with hpark
    exact Or.inl ⟨hpc, hmsg, hpark⟩
  next msg rest hmsg =>
    cases msg with
    | write batch =>
        refine Or.inr (Or.inl ⟨hpc, batch, rest, hmsg, ?_⟩)
        intro hlow
        have hhi := (hfed batch (by simp [hmsg])).lsnHi
        simp [handleBatch, hlow, encodeItems_eq, hhi, Except.toOption] at hpoll
    | rotate boundaryLsn => cases hpoll
    | retire boundaryLsn =>
        refine Or.inr (Or.inr ⟨hpc, boundaryLsn, rest, hmsg, ?_⟩)
        by_contra hactive
        simp [retire, hactive, Except.toOption] at hpoll

/-- A completion that is not reaped. -/
theorem reap_eq_none (hkeyed : engine.Keyed) {cqe : Cqe} {rest : List Cqe} {ret : Return}
    (hpc : engine.pc = .reaping (cqe :: rest) ret) (hreap : engine.reap = none) :
    engine.ReapsFatal := by
  have hmem : cqe.userData ∈ engine.inflight := by
    rw [← hkeyed.mem_iff, engine.tickets_pop hpc]
    exact List.mem_cons_self
  obtain ⟨work, hwork⟩ := Option.isSome_iff_exists.mp (Finmap.lookup_isSome.mpr hmem)
  rw [reap, hpc] at hreap
  simp only [reapCqe, hwork] at hreap
  cases hverdict : work.complete cqe.result with
  | fatal code => exact ⟨cqe, rest, ret, work, code, hpc, hwork, hverdict⟩
  | ok batch =>
      rw [hverdict] at hreap
      cases batch <;> cases hreap
  | retry again =>
      rw [hverdict] at hreap
      cases hreap
  | durable =>
      rw [hverdict] at hreap
      cases hreap

theorem poll_waiting (hwaiting : engine.Waiting) : engine.poll = none := by
  obtain ⟨-, hmsg, hpark⟩ := hwaiting
  simp [poll, hmsg, hpark]

theorem poll_active (hactive : engine.RetiresActive) : engine.poll = none := by
  obtain ⟨-, boundaryLsn, rest, hmsg, hlow⟩ := hactive
  simp [poll, hmsg, retire, hlow, Except.toOption]

theorem thread_stuck (houtbox : engine.outbox = [])
    (hcause : engine.pc = .top ∧ engine.poll = none ∨ engine.ReapsFatal) {act : Act}
    (hact : act.byThread = true) : engine.step act = none := by
  rcases hcause with ⟨hpc, hpoll⟩ | ⟨cqe, rest, ret, work, code, hpc, hwork, hfatal⟩
  · cases act with
    | poll => rw [step, hpoll, ite_self]
    | reap => simp [step, reap, hpc]
    | arrive => cases hact
    | start => cases hact
    | complete => cases hact
    | lend => cases hact
    | slab => cases hact
    | _ => simp [step, hpc, houtbox]
  · cases act with
    | reap => simp [step, houtbox, reap, hpc, reapCqe, hwork, hfatal, Except.toOption]
    | arrive => cases hact
    | start => cases hact
    | complete => cases hact
    | lend => cases hact
    | slab => cases hact
    | _ => simp [step, hpc, houtbox]

/-- Why a thread that cannot go on has stopped. -/
theorem cause_of_stuck (hfed : engine.Fed) (hkeyed : engine.Keyed)
    (hstuck : ∀ act, act.byThread = true → engine.step act = none) :
    engine.outbox = [] ∧ (engine.Waiting ∨ engine.FindsGap ∨ engine.RetiresActive ∨
      engine.ReapsFatal) := by
  have houtbox : engine.outbox = [] := by
    cases hcase : engine.outbox with
    | nil => rfl
    | cons out rest =>
        have hsend := hstuck .send rfl
        cases out <;> simp [step, hcase] at hsend
  refine ⟨houtbox, ?_⟩
  cases hpc : engine.pc with
  | top =>
      have hpoll := hstuck .poll rfl
      rw [step, if_pos ⟨hpc, houtbox⟩] at hpoll
      rcases poll_eq_none hfed hpc hpoll with hwaiting | hgap | hretire
      · exact Or.inl hwaiting
      · exact Or.inr (Or.inl hgap)
      · exact Or.inr (Or.inr (Or.inl hretire))
  | plan =>
      have hplan := hstuck .plan rfl
      rw [step, if_pos ⟨hpc, houtbox⟩] at hplan
      cases hplan
  | reaping todo ret =>
      have hreap := hstuck .reap rfl
      rw [step, if_pos houtbox] at hreap
      cases todo with
      | cons cqe rest => exact Or.inr (Or.inr (Or.inr (reap_eq_none hkeyed hpc hreap)))
      | nil => cases ret <;> simp [reap, hpc] at hreap
  | draining boundaryLsn =>
      have hdrain := hstuck .drain rfl
      simp [step, hpc, houtbox] at hdrain
  | drainWait boundaryLsn =>
      have hwake := hstuck .wake rfl
      simp [step, hpc, houtbox] at hwake

end WalEngine

end InMemoryDb.Stage3
