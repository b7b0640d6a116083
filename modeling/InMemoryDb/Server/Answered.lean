import InMemoryDb.Server.Buffers
import InMemoryDb.Server.Numbering
import InMemoryDb.Server.OneReply
import InMemoryDb.Server.Stage3.Parking
import InMemoryDb.Server.Stage3.Settles

/-!
# The pipeline comes to rest

When no request arrives any more, a scheduler that is fair to the steps of the pipeline
brings stage 3 to a stop.  Stage 2 has finitely many steps left; from its last one on,
stage 3 runs undisturbed.  A stage 3 at rest has given back all buffers, so that stage 2
can only have stopped for want of requests, and then every request has its response.
-/

namespace InMemoryDb

open Wire Recover Stage2 Stage3

namespace Pipeline

variable {pipe after : Pipeline}

/-! ## The threads -/

def Act.byStage2 : Act → Bool
  | .take _ | .reply | .dispatch => true
  | _ => false

def Act.byWal : Act → Bool
  | .wal act => act.byThread
  | _ => false

def Act.byKernel : Act → Bool
  | .wal act => act.byKernel
  | _ => false

/-- The action of stage 3. -/
def Act.inner? : Act → Option WalEngine.Act
  | .wal act => some act
  | _ => none

/-- Actions that bring nothing into the process. -/
def Act.closed : Act → Bool
  | .accept _ _ | .rotate _ | .retire _ => false
  | _ => true

/-- Guard of the runs in which no response is dropped and, in Sync mode, no `reap_cqes`
strands a batch. -/
def Prompt (pipe : Pipeline) (act : Act) : Prop :=
  CutsAnswerable pipe act ∧
    (pipe.wal.ack.level = .durable → ¬ (act = .wal .plan ∧ pipe.wal.Stalls))

instance (pipe : Pipeline) (act : Act) : Decidable (Prompt pipe act) :=
  inferInstanceAs (Decidable (_ ∧ _))

/-- A write that completes has made progress. -/
def Progresses (pipe : Pipeline) : Act → Prop
  | .wal act => pipe.wal.Progresses act
  | _ => True

instance (pipe : Pipeline) : (act : Act) → Decidable (Progresses pipe act)
  | .wal act => inferInstanceAs (Decidable (pipe.wal.Progresses act))
  | .accept _ _ | .take _ | .reply | .dispatch | .rotate _ | .retire _ => isTrue trivial

theorem step_wal {act : WalEngine.Act} (hact : act.byThread = true ∨ act.byKernel = true) :
    pipe.step (.wal act) = none ↔ pipe.wal.step act = none := by
  cases act with
  | arrive => simp [WalEngine.Act.byThread, WalEngine.Act.byKernel] at hact
  | lend => simp [WalEngine.Act.byThread, WalEngine.Act.byKernel] at hact
  | slab => simp [WalEngine.Act.byThread, WalEngine.Act.byKernel] at hact
  | _ => exact Option.map_eq_none_iff

theorem blocked_wal (hblocked : Machine.Blocked step Act.byWal pipe) :
    Machine.Blocked WalEngine.step WalEngine.Act.byThread pipe.wal := fun act hact =>
  (step_wal (Or.inl hact)).mp (hblocked (.wal act) hact)

theorem blocked_kernel (hblocked : Machine.Blocked step Act.byKernel pipe) :
    Machine.Blocked WalEngine.step WalEngine.Act.byKernel pipe.wal := fun act hact =>
  (step_wal (Or.inr hact)).mp (hblocked (.wal act) hact)

/-- What stage 2 has left: the requests it has not taken, then what it holds. -/
def left (pipe : Pipeline) : ℕ ×ₗ ℕ :=
  toLex (pipe.items.length, pipe.outbox.length + pipe.hand.toList.length)

theorem left_change {act : Act} (hclosed : act.closed = true) (hchange : Change pipe act after) :
    (act.byStage2 = true ∧ after.left < pipe.left) ∨
      (∃ inner, act = .wal inner ∧ pipe.wal.step inner = some after.wal) ∧
        after.left = pipe.left := by
  cases hchange with
  | accept => cases hclosed
  | rotate => cases hclosed
  | retire => cases hclosed
  | @take count buffer batch pool db lsn hfree hsent hcount hbuffer hbatch =>
      refine Or.inl ⟨rfl, Prod.Lex.toLex_lt_toLex.mpr (Or.inl ?_)⟩
      change (pipe.items.drop count).length < pipe.items.length
      rw [List.length_drop]
      omega
  | reply houtbox =>
      refine Or.inl ⟨rfl, Prod.Lex.toLex_lt_toLex.mpr (Or.inr ⟨rfl, ?_⟩)⟩
      rw [houtbox, List.length_cons]
      exact Nat.add_lt_add_right (Nat.lt_succ_self _) _
  | toLog hhand hsent hwork =>
      refine Or.inl ⟨rfl, Prod.Lex.toLex_lt_toLex.mpr (Or.inr ⟨rfl, ?_⟩)⟩
      rw [hhand]
      exact Nat.lt_succ_self _
  | toSlot hhand hsent hwork =>
      refine Or.inl ⟨rfl, Prod.Lex.toLex_lt_toLex.mpr (Or.inr ⟨rfl, ?_⟩)⟩
      rw [hhand]
      exact Nat.lt_succ_self _
  | walReply houtbox =>
      refine Or.inr ⟨⟨.send, rfl, ?_⟩, rfl⟩
      simp only [WalEngine.step, houtbox]
  | walRecycle houtbox =>
      refine Or.inr ⟨⟨.send, rfl, ?_⟩, rfl⟩
      simp only [WalEngine.step, houtbox]
  | wal hinner hstep => exact Or.inr ⟨⟨_, rfl, hstep⟩, rfl⟩

/-! ## Stage 3 at rest -/

/-- A stage 3 that waits has no batch in `awaiting_fsync`: in Sync mode by the
planner, below it because no batch ever is. -/
structure Calm (wal : WalEngine) : Prop where
  sync : wal.ack.level = .durable → wal.Planned ∧ wal.Restful
  below : wal.Eager

theorem calm_change {act : Act} (hsound : pipe.wal.Sound) (hcalm : Calm pipe.wal)
    (hprompt : Prompt pipe act) (hchange : Change pipe act after) : Calm after.wal := by
  cases hchange with
  | @wal inner wal hinner hstep =>
      have hfeeds : Feeds pipe.wal inner := by
        cases inner with
        | arrive msg => exact hinner.elim
        | _ => trivial
      obtain ⟨-, hack, -⟩ := WalEngine.step_desk hsound.ringed.keyed hinner hstep
      constructor
      · intro hlevel
        change wal.ack.level = .durable at hlevel
        rw [hack] at hlevel
        obtain ⟨hplanned, hrestful⟩ := hcalm.sync hlevel
        have hmoves : ∀ engine after : WalEngine, engine.Sound ∧ engine.Planned →
            WalEngine.Move WalEngine.Anything engine after → after.Sound ∧ after.Planned :=
          fun _ _ h hmove =>
            ⟨WalEngine.sound_move h.1 hmove, WalEngine.planned_move h.1 h.2 hmove⟩
        refine ⟨(WalEngine.step_keeps hmoves ⟨hsound, hplanned⟩ hfeeds
          (fun _ _ _ => trivial) hstep).2, ?_⟩
        refine WalEngine.restful_step hsound hplanned hrestful ?_ hstep
        rintro ⟨rfl, hstalls⟩
        exact hprompt.2 hlevel ⟨rfl, hstalls⟩
      · exact @WalEngine.step_keeps WalEngine.Eager WalEngine.Anything
          (fun _ _ => WalEngine.eager_move) _ _ _ hcalm.below hfeeds (fun _ _ _ => trivial) hstep
  | _ => exact ⟨fun hlevel =>
      ⟨(hcalm.sync hlevel).1.congr rfl rfl rfl, (hcalm.sync hlevel).2⟩, hcalm.below⟩

theorem calm_start (mode : Mode) (files : Files) (db : Db) (startLsn : ℕ) :
    Calm (start mode files db startLsn).wal := by
  constructor
  · intro hlevel
    cases mode with
    | sync =>
        refine ⟨⟨rfl, (fun h => by cases h), Or.inr ?_⟩, Or.inr rfl⟩
        exact ⟨trivial, fun hne => absurd rfl hne⟩
    | noFsync => cases hlevel
    | async => cases hlevel
  · exact fun _ => rfl

theorem Calm.awaiting (hcalm : Calm pipe.wal) (hkeyed : pipe.wal.Keyed)
    (hwaiting : pipe.wal.Waiting) : pipe.wal.awaitingFsync = [] := by
  obtain ⟨hpc, -, hpark⟩ := hwaiting
  by_cases hlevel : pipe.wal.ack.level = .durable
  · obtain ⟨-, hrestful⟩ := hcalm.sync hlevel
    simp only [WalEngine.Restful, hpc] at hrestful
    rcases hrestful with hbehind | hnone
    · rw [WalEngine.not_shouldPark_of_behind hkeyed hbehind] at hpark
      cases hpark
    · exact hnone
  · refine hcalm.below ?_
    cases hcase : pipe.wal.ack.level with
    | durable => exact absurd hcase hlevel
    | applied => decide
    | written => decide

/-! ## The invariant -/

structure Good (mode : Mode) (segs : SortedMap ℕ Bytes) (db : Db) (startLsn : ℕ)
    (pipe : Pipeline) : Prop where
  flow : pipe.Flow
  agreed : Agreed mode segs db startLsn pipe
  conserved : pipe.Conserved
  telling : pipe.Telling
  calm : Calm pipe.wal

section

variable {mode : Mode} {segs : SortedMap ℕ Bytes} {db : Db} {startLsn : ℕ}

theorem Agreed.sound (hagreed : Agreed mode segs db startLsn pipe) : pipe.wal.Sound :=
  (WalEngine.reach_keeps trivial (fun _ _ _ _ _ => trivial) hagreed.engine).1

/-- What stage 2 numbers is what `handle_batch` expects. -/
theorem Agreed.not_findsGap (hagreed : Agreed mode segs db startLsn pipe) :
    ¬ pipe.wal.FindsGap := by
  rintro ⟨-, batch, rest, hmsg, hgap⟩
  have hchain := hagreed.chained
  rw [unread, hmsg] at hchain
  exact hgap hchain.1

theorem Agreed.stopped (hagreed : Agreed mode segs db startLsn pipe)
    (hblocked : Machine.Blocked WalEngine.step WalEngine.Act.byThread pipe.wal) :
    pipe.wal.Stopped := by
  obtain ⟨houtbox, hwaiting | hgap | hpanic⟩ :=
    WalEngine.cause_of_stuck hagreed.sound.fed hagreed.sound.ringed.keyed hblocked
  · exact ⟨houtbox, Or.inl hwaiting⟩
  · exact absurd hgap hagreed.not_findsGap
  · exact ⟨houtbox, Or.inr hpanic⟩

theorem good_reach
    (hreach : Machine.Reach step Prompt (start mode (Files.ofSegs segs) db startLsn) pipe) :
    Good mode segs db startLsn pipe := by
  induction hreach with
  | start =>
      exact ⟨(reach_keeps trivial (fun _ _ _ _ _ _ _ => trivial)
        (@Machine.Reach.start _ _ step Prompt _)).1, agreed_start _ _ _ _,
        conserved_start _ _ _ _, telling_start _ _ _ _, calm_start _ _ _ _⟩
  | next _ hprompt hstep ih =>
      have hchange := step_change hstep
      exact ⟨flow_change ih.flow hchange, agreed_change ih.flow ih.agreed hchange,
        conserved_change ih.flow ih.conserved hchange,
        telling_change ih.flow ih.telling hprompt.1 hchange,
        calm_change ih.agreed.sound ih.calm hprompt hchange⟩

/-- A stage 3 that waits has given back every buffer. -/
theorem Good.takeBuffer (hgood : Good mode segs db startLsn pipe) (hwaiting : pipe.wal.Waiting)
    (houtbox : pipe.wal.outbox = []) (hfree : pipe.hand = none) :
    ∃ buffer middle, pipe.takeBuffer = some (buffer, middle) ∧ buffer.items = [] ∧
      middle.items = pipe.items := by
  cases hslot : pipe.recycled with
  | some buffer =>
      refine ⟨buffer, { pipe with recycled := none }, ?_, (hgood.flow.slot buffer hslot).1, rfl⟩
      simp only [Pipeline.takeBuffer, hslot]
  | none =>
      cases hpool : pipe.wal.recycleTx with
      | cons buffer pool =>
          refine ⟨buffer, { pipe with wal := { pipe.wal with recycleTx := pool } }, ?_, ?_, rfl⟩
          · simp only [Pipeline.takeBuffer, hslot, hpool]
          · exact (hgood.flow.pool buffer (by simp [WalEngine.desk, hpool])).1
      | nil =>
          have hring := hgood.conserved.ring
          have hline := WalEngine.line_of_waiting hgood.flow.keyed hwaiting
          have hawaiting := hgood.calm.awaiting hgood.flow.keyed hwaiting
          rw [hslot, hfree, WalEngine.custody, hpool, hwaiting.2.1, WalEngine.lineBufs, hline,
            hawaiting, houtbox] at hring
          have hcard := congrArg Multiset.card hring
          rw [Multiset.card_range] at hcard
          cases hcard

theorem take_isSome {buffer : Batch} {middle : Pipeline} {req : Request} {rest : List Request}
    (hfree : pipe.hand = none) (hsent : pipe.outbox = [])
    (hbuffer : pipe.takeBuffer = some (buffer, middle)) (hblank : buffer.items = [])
    (hsame : middle.items = pipe.items) (hitems : pipe.items = req :: rest)
    (hreq : Admissible req.data) : (pipe.take 1).isSome := by
  have hcut : buffer.items ++ middle.items.take 1 = [req] := by
    rw [hblank, hsame, hitems]
    rfl
  obtain ⟨executed, -, hexecuted⟩ := @applyItems_ok middle.db middle.lsn [req]
    fun other hother => List.mem_singleton.mp hother ▸ hreq
  have hready : pipe.hand = none ∧ pipe.outbox = [] ∧ 0 < 1 ∧ 1 ≤ maxBatch ∧
      1 ≤ pipe.items.length := by
    refine ⟨hfree, hsent, Nat.one_pos, by decide, ?_⟩
    rw [hitems]
    exact Nat.succ_le_succ (Nat.zero_le _)
  rw [take, if_pos hready, hbuffer, Option.bind_some]
  simp only [applyBatch, hcut, hexecuted, ok_bind, pure_eq_ok]
  rfl

/-- Where stage 3 waits and stage 2 cannot go on either, there is nothing left to take, or
the next request cannot be taken apart. -/
theorem Good.items_of_blocked (hgood : Good mode segs db startLsn pipe)
    (hwaiting : pipe.wal.Waiting) (houtbox : pipe.wal.outbox = [])
    (hblocked : Machine.Blocked step Act.byStage2 pipe) :
    pipe.outbox = [] ∧ pipe.hand = none ∧
      (pipe.items = [] ∨ ∃ req rest, pipe.items = req :: rest ∧ ¬ Admissible req.data) := by
  have hsent : pipe.outbox = [] := by
    cases hcase : pipe.outbox with
    | nil => rfl
    | cons reply rest =>
        have hreply := hblocked .reply rfl
        simp [step, hcase] at hreply
  have hfree : pipe.hand = none := by
    cases hcase : pipe.hand with
    | none => rfl
    | some batch =>
        have hdispatch := hblocked .dispatch rfl
        simp only [step, dispatch, hcase, hsent, if_true] at hdispatch
        split_ifs at hdispatch
  refine ⟨hsent, hfree, ?_⟩
  cases hitems : pipe.items with
  | nil => exact Or.inl rfl
  | cons req rest =>
      refine Or.inr ⟨req, rest, rfl, fun hreq => ?_⟩
      obtain ⟨buffer, middle, hbuffer, hblank, hsame⟩ := hgood.takeBuffer hwaiting houtbox hfree
      have htake := take_isSome hfree hsent hbuffer hblank hsame hitems hreq
      rw [show pipe.take 1 = none from hblocked (.take 1) rfl] at htake
      cases htake

/-- Where both have nothing left, every request has its response. -/
theorem Good.answered (hgood : Good mode segs db startLsn pipe) (hwaiting : pipe.wal.Waiting)
    (hout : pipe.wal.outbox = []) (hsent : pipe.outbox = []) (hfree : pipe.hand = none)
    (hitems : pipe.items = []) : ∀ req ∈ pipe.admitted, pipe.responses req = 1 := by
  have hall : pipe.computed.length = pipe.admitted.length := by
    have hdrop := hgood.flow.items
    rw [hitems] at hdrop
    exact le_antisymm hgood.flow.computed_le (List.drop_eq_nil_iff.mp hdrop.symm)
  have hheld : pipe.wal.desk.held = 0 := WalEngine.held_of_awaiting hgood.flow.keyed
    (hgood.calm.awaiting hgood.flow.keyed hwaiting) hout hwaiting
  have hlost : pipe.lost = [] :=
    List.flatMap_eq_nil_iff.mpr fun batch hbatch => (hgood.telling.returned batch hbatch).1
  have hledger := hgood.flow.ledger
  rw [hsent, handOwed, hfree, hheld, hlost] at hledger
  have hperm : pipe.computed.Perm pipe.chan := by
    refine Multiset.coe_eq_coe.mp ?_
    simpa using hledger
  intro req hreq
  refine responses_eq_one hgood.flow.nodup_sent ?_
  have hcomputed := hgood.flow.computed
  rw [hall, List.take_length] at hcomputed
  have htags : pipe.computed.map Reply.tag = pipe.admitted.map Request.tag := by
    have hsnd := congrArg (List.map Prod.snd) hcomputed
    rwa [List.map_map, List.map_map] at hsnd
  have hmem : req.tag ∈ pipe.computed.map Reply.tag := by
    rw [htags]
    exact List.mem_map_of_mem hreq
  exact (hperm.map Reply.tag).mem_iff.mp hmem

/-! ## Executions -/

/-- Nothing comes in, every completed write has made progress, and none of stage 2,
stage 3 and the kernel stops for good while it can act. -/
structure Undisturbed (run : Machine.Execution step) : Prop where
  closed : ∀ n act, run.act n = some act → act.closed = true ∧ Progresses (run.state n) act
  stage2 : run.Fair Act.byStage2
  wal : run.Fair Act.byWal
  kernel : run.Fair Act.byKernel

variable {run : Machine.Execution step}

/-- What is left for stage 2 never grows, and each of its actions lessens it. -/
theorem left_act (hundisturbed : Undisturbed run) {n : ℕ} {act : Act}
    (hact : run.act n = some act) :
    (act.byStage2 = true ∧ (run.state (n + 1)).left < (run.state n).left) ∨
      (∃ inner, act = .wal inner ∧
        (run.state n).wal.step inner = some (run.state (n + 1)).wal) ∧
          (run.state (n + 1)).left = (run.state n).left :=
  left_change (hundisturbed.closed n act hact).1
    (step_change (Machine.Execution.step_of_act hact))

/-- Stage 2 acts for the last time. -/
theorem exists_last (hundisturbed : Undisturbed run) :
    ∃ first, ∀ n, first ≤ n → ∀ act, run.act n = some act → ∃ inner, act = .wal inner ∧
      (run.state n).wal.step inner = some (run.state (n + 1)).wal := by
  obtain ⟨first, hconstant⟩ := @Machine.Execution.eventually_constant _ _ step run _ _ _ left
    fun n => by
      cases hact : run.act n with
      | none => rw [Machine.Execution.state_of_idle hact]
      | some act =>
          rcases left_act hundisturbed hact with ⟨-, hless⟩ | ⟨-, hsame⟩
          · exact hless.le
          · exact hsame.le
  refine ⟨first, fun n hle act hact => ?_⟩
  rcases left_act hundisturbed hact with ⟨-, hless⟩ | ⟨hinner, -⟩
  · rw [hconstant n hle, hconstant (n + 1) (by omega)] at hless
    exact absurd hless (lt_irrefl _)
  · exact hinner

/-- From then on stage 3 has a schedule of its own. -/
theorem wal_moves {first : ℕ}
    (hlast : ∀ n, first ≤ n → ∀ act, run.act n = some act → ∃ inner, act = .wal inner ∧
      (run.state n).wal.step inner = some (run.state (n + 1)).wal) (n : ℕ) (hle : first ≤ n) :
    Machine.Moves WalEngine.step (run.state n).wal ((run.act n).bind Act.inner?)
      (run.state (n + 1)).wal := by
  cases hact : run.act n with
  | none => exact congrArg Pipeline.wal (Machine.Execution.state_of_idle hact)
  | some act =>
      obtain ⟨inner, rfl, hstep⟩ := hlast n hle act hact
      exact hstep

theorem inner_eq {act : Option Act} {inner : WalEngine.Act}
    (hinner : act.bind Act.inner? = some inner) : act = some (.wal inner) := by
  obtain ⟨outer, rfl, houter⟩ := Option.bind_eq_some_iff.mp hinner
  cases outer with
  | wal act =>
      cases houter
      rfl
  | _ => cases houter

/-- Stage 3 is undisturbed behind the last action of stage 2. -/
theorem wal_undisturbed (hundisturbed : Undisturbed run) {first : ℕ}
    (hlast : ∀ n, first ≤ n → ∀ act, run.act n = some act → ∃ inner, act = .wal inner ∧
      (run.state n).wal.step inner = some (run.state (n + 1)).wal) :
    WalEngine.Undisturbed (run.component wal Act.inner? first (wal_moves hlast)) := by
  refine ⟨?_, ?_, ?_, ?_⟩
  · intro n msg hact
    have hstep := Machine.Execution.step_of_act (inner_eq hact)
    cases hstep
  · intro n act hact
    exact (hundisturbed.closed _ _ (inner_eq hact)).2
  · refine hundisturbed.wal.component (fun _ => blocked_wal) fun act hact => ?_
    cases act with
    | wal act => exact ⟨act, rfl, hact⟩
    | _ => cases hact
  · refine hundisturbed.kernel.component (fun _ => blocked_kernel) fun act hact => ?_
    cases act with
    | wal act => exact ⟨act, rfl, hact⟩
    | _ => cases hact

theorem closed_of_step {inner : WalEngine.Act} (hstep : pipe.step (.wal inner) = some after) :
    inner.closed = true := by
  cases inner with
  | arrive msg => cases hstep
  | _ => rfl

/-- Stage 3 comes to a stop, and neither it nor stage 2 acts any more. -/
theorem stops (hundisturbed : Undisturbed run)
    (hstart : Machine.Reach step (fun _ _ => True) (start mode (Files.ofSegs segs) db startLsn)
      (run.state 0)) :
    ∃ n, ∀ m, n ≤ m → (run.state m).wal.Stopped ∧
      ∀ act, run.act m = some act → ∃ inner, act = .wal inner ∧ inner.byThread = false := by
  have hagreed := fun n => (agreed_reach (Machine.Execution.keeps hstart
    (fun _ _ hact hreach => hreach.next trivial (Machine.Execution.step_of_act hact)) n)).2
  obtain ⟨first, hlast⟩ := exists_last hundisturbed
  obtain ⟨m, -, hblocked⟩ := WalEngine.leadsTo_blocked (show 0 < ringDepth by decide)
    (wal_undisturbed hundisturbed hlast) (hagreed first).engine 0 trivial
  have hstopped := (hagreed (first + m)).stopped hblocked
  have hact : ∀ k act, first + m ≤ k → run.act k = some act → (run.state k).wal.Stopped →
      (run.state (k + 1)).wal.Stopped ∧ ∃ inner, act = .wal inner ∧ inner.byThread = false := by
    intro k act hle hact hk
    obtain ⟨inner, rfl, hstep⟩ := hlast k (by omega) act hact
    obtain ⟨hnext, hthread⟩ := WalEngine.stopped_step hk
      (closed_of_step (Machine.Execution.step_of_act hact)) hstep
    exact ⟨hnext, inner, rfl, hthread⟩
  have hstays : ∀ k, first + m ≤ k → (run.state k).wal.Stopped := fun k hle =>
    @Machine.Execution.keeps_from _ _ step run (fun pipe => pipe.wal.Stopped) (first + m) hstopped
      (fun k act hle hcase hk => (hact k act hle hcase hk).1) k hle
  exact ⟨first + m, fun k hle => ⟨hstays k hle, fun act hcase =>
    (hact k act hle hcase (hstays k hle)).2⟩⟩

/-- Nothing is left for anyone to do. -/
structure Done (pipe : Pipeline) : Prop where
  items : pipe.items = []
  outbox : pipe.outbox = []
  hand : pipe.hand = none
  sent : pipe.wal.outbox = []
  entries : pipe.wal.ring.entries = []
  pc : pipe.wal.pc = .top
  msgRx : pipe.wal.msgRx = []
  park : pipe.wal.shouldPark = true

theorem Done.stage2 (hdone : pipe.Done) : Machine.Blocked step Act.byStage2 pipe := by
  intro act hact
  cases act with
  | take count =>
      refine if_neg ?_
      rintro ⟨-, -, hpos, -, hcount⟩
      rw [hdone.items] at hcount
      exact absurd (hpos.trans_le hcount) (lt_irrefl _)
  | reply => simp [step, hdone.outbox]
  | dispatch => simp [step, dispatch, hdone.hand]
  | _ => cases hact

theorem Done.wal (hdone : pipe.Done) : Machine.Blocked step Act.byWal pipe := by
  intro act hact
  cases act with
  | wal act =>
      exact (step_wal (Or.inl hact)).mpr (WalEngine.thread_stuck hdone.sent
        (Or.inl ⟨hdone.pc, WalEngine.poll_waiting ⟨hdone.pc, hdone.msgRx, hdone.park⟩⟩) hact)
  | _ => cases hact

theorem Done.kernel (hdone : pipe.Done) : Machine.Blocked step Act.byKernel pipe := by
  intro act hact
  cases act with
  | wal act =>
      exact (step_wal (Or.inr hact)).mpr (WalEngine.blocked_of_entries hdone.entries act hact)
  | _ => cases hact

end

end Pipeline

end InMemoryDb
