import InMemoryDb.Lib.Machine
import InMemoryDb.Server.Stage3.Engine
import Mathlib.Logic.Relation

/-!
# What a step can do

Every action of the engine is a short sequence of moves, each of which touches
one part of the state.  Invariants are proved move by move; `step_moves` and
`reach_invariant` lift them to steps and to runs.
-/

namespace InMemoryDb

/-- The LSN reached behind a message. -/
def WalMsg.reach (lsn : ℕ) : WalMsg → ℕ
  | .write batch => batch.lsnHi
  | _ => lsn

namespace Stage3

open SparseFile WalFormat

namespace Pc

/-- The completions the iterator of `reap_cqes` still has. -/
def todo : Pc → List Cqe
  | .reaping todo _ => todo
  | _ => []

/-- The boundary of the rotate that is under way. -/
def boundary : Pc → Option ℕ
  | .draining boundaryLsn => some boundaryLsn
  | .drainWait boundaryLsn => some boundaryLsn
  | .reaping _ (.rotate boundaryLsn) => some boundaryLsn
  | _ => none

end Pc

namespace WalEngine

def todo (engine : WalEngine) : List Cqe := engine.pc.todo

/-- `inflight.remove` of the next completion. -/
def pop (engine : WalEngine) (cqe : Cqe) (rest : List Cqe) (ret : Return) : WalEngine :=
  { engine with pc := .reaping rest ret, inflight := engine.inflight.erase cqe.userData }

/-- The moves a run may be restricted in. -/
inductive Kind where
  /-- A message arrives. -/
  | arrive
  /-- A response or a batch leaves. -/
  | send
  /-- Stage 2 takes a free batch. -/
  | lend
  /-- A rotate or retire message is taken. -/
  | control
  /-- The completion of a whole write is reaped. -/
  | written
  /-- The completion of an fsync is reaped. -/
  | durable
  /-- The tail of `rotate`. -/
  | sealed

/-- The moves; `permit` says in which states the restricted ones may happen. -/
inductive Move (permit : Kind → WalEngine → Prop) : WalEngine → WalEngine → Prop
  | arrive (engine : WalEngine) (msg : WalMsg) (hpermit : permit .arrive engine)
      (hfeed : ∀ batch, msg = .write batch → FromStage2 engine.ack batch) :
      Move permit engine { engine with msgRx := engine.msgRx ++ [msg] }
  | send (engine : WalEngine) {reply : Reply} {rest : List Out}
      (hpermit : permit .send engine) (houtbox : engine.outbox = .reply reply :: rest) :
      Move permit engine { engine with outbox := rest }
  | giveBack (engine : WalEngine) {batch : Batch} {rest : List Out}
      (hpermit : permit .send engine) (houtbox : engine.outbox = .recycle batch :: rest) :
      Move permit engine
        { engine with
          outbox := rest
          recycleTx := engine.recycleTx ++ [batch.recycle]
          returned := engine.returned ++ [batch] }
  | lend (engine : WalEngine) {batch : Batch} {pool : List Batch}
      (hpermit : permit .lend engine) (hpool : engine.recycleTx = batch :: pool) :
      Move permit engine { engine with recycleTx := pool }
  | quiet (engine : WalEngine) (spinBudget : ℤ) (pc : Pc) (vacant : List ℕ)
      (htodo : pc.todo = engine.todo) :
      Move permit engine { engine with spinBudget := spinBudget, pc := pc, vacant := vacant }
  | discard (engine : WalEngine) {msg : WalMsg} {rest : List WalMsg}
      (hpermit : permit .control engine) (hmsg : engine.msgRx = msg :: rest)
      (hkind : ∀ batch, msg ≠ .write batch) :
      Move permit engine { engine with msgRx := rest }
  | enqueue (engine : WalEngine) {batch : Batch} {rest : List WalMsg} {after : WalEngine}
      (hmsg : engine.msgRx = .write batch :: rest)
      (hbatch : { engine with msgRx := rest }.handleBatch batch = .ok after) :
      Move permit engine after
  | schedule (engine : WalEngine) (starts : List ℕ) (hpermit : permit .control engine)
      (hstarts : ∀ start ∈ starts, start < engine.seg.startLsn) :
      Move permit engine
        { engine with pending := engine.pending ++ starts.map IoWork.remove }
  | arm (engine : WalEngine) (hdue : engine.fsyncPlanner.due = true) :
      Move permit engine
        { engine with
          fsyncPlanner := { engine.fsyncPlanner with dirtyBytes := 0, flushRunning := true }
          pending := engine.pending ++ [IoWork.fsync engine.lastIngestedLsn] }
  | push (engine : WalEngine) {work : IoWork} {rest : List IoWork}
      (hpending : engine.pending = work :: rest) :
      Move permit engine (engine.push work rest)
  | beginReap (engine : WalEngine) (ret : Return) (htodo : engine.todo = []) :
      Move permit engine (engine.beginReap ret)
  | submit (engine : WalEngine) : Move permit engine engine.submitRing
  | reapRemoved (engine : WalEngine) {cqe : Cqe} {rest : List Cqe} {ret : Return}
      {startLsn : ℕ} (hpc : engine.pc = .reaping (cqe :: rest) ret)
      (hwork : engine.inflight.lookup cqe.userData = some (.remove startLsn)) :
      Move permit engine (engine.pop cqe rest ret)
  | reapWritten (engine : WalEngine) {cqe : Cqe} {rest : List Cqe} {ret : Return}
      {op : WriteOp} (hpermit : permit .written engine)
      (hpc : engine.pc = .reaping (cqe :: rest) ret)
      (hwork : engine.inflight.lookup cqe.userData = some (.write op))
      (hres : 0 ≤ cqe.result) (hdone : op.data.out.length ≤ op.done + cqe.result.toNat) :
      Move permit engine ((engine.pop cqe rest ret).reapWritten op.data)
  | reapRetry (engine : WalEngine) {cqe : Cqe} {rest : List Cqe} {ret : Return}
      {op : WriteOp} {done : ℕ} (hpc : engine.pc = .reaping (cqe :: rest) ret)
      (hwork : engine.inflight.lookup cqe.userData = some (.write op))
      (hdone : (done = op.done ∧ cqe.result < 0) ∨
        (done = op.done + cqe.result.toNat ∧ 0 ≤ cqe.result ∧ done < op.data.out.length)) :
      Move permit engine
        { engine.pop cqe rest ret with
          fsyncPlanner := engine.fsyncPlanner.onWriteQueued (op.data.out.length - done)
          pending := IoWork.write { op with done := done } :: engine.pending }
  | reapDurable (engine : WalEngine) {cqe : Cqe} {rest : List Cqe} {ret : Return}
      {target : ℕ} (hpermit : permit .durable engine)
      (hpc : engine.pc = .reaping (cqe :: rest) ret)
      (hwork : engine.inflight.lookup cqe.userData = some (.fsync target))
      (hres : 0 ≤ cqe.result) :
      Move permit engine
        { (engine.pop cqe rest ret).releaseDurable with
          fsyncPlanner := engine.fsyncPlanner.onFsyncCompleted }
  | sealed (engine : WalEngine) (boundaryLsn : ℕ) (hpermit : permit .sealed engine)
      (hpending : engine.pending = []) (hinflight : engine.inflight = ∅)
      (htodo : engine.todo = []) :
      Move permit engine (engine.sealSegment boundaryLsn)
  | start (engine : WalEngine) {position : ℕ} {ring : IoUring}
      (hstart : startEntry engine.files engine.ring position = some ring) :
      Move permit engine { engine with ring := ring }
  | complete (engine : WalEngine) {position : ℕ} {res : ℤ} {files : Files} {ring : IoUring}
      (hcomplete : completeEntry engine.files engine.ring position res = some (files, ring)) :
      Move permit engine { engine with files := files, ring := ring }

open Relation

/-- `handle_pending` is a sequence of pushes. -/
theorem pullLoop_moves {permit : Kind → WalEngine → Prop} (fuel : ℕ) (engine : WalEngine) :
    ReflTransGen (Move permit) engine (pullLoop fuel engine) := by
  induction fuel generalizing engine with
  | zero => exact ReflTransGen.refl
  | succ fuel ih =>
      cases hpending : engine.pending with
      | nil =>
          simp only [pullLoop, hpending]
          exact ReflTransGen.refl
      | cons work rest =>
          simp only [pullLoop, hpending]
          split_ifs with hroom
          · exact ReflTransGen.head (Move.push engine hpending) (ih _)
          · exact ReflTransGen.refl

theorem pullLoop_todo (fuel : ℕ) (engine : WalEngine) :
    (pullLoop fuel engine).pc = engine.pc := by
  induction fuel generalizing engine with
  | zero => rfl
  | succ fuel ih =>
      cases hpending : engine.pending with
      | nil => simp only [pullLoop, hpending]
      | cons work rest =>
          simp only [pullLoop, hpending]
          split_ifs with hroom
          · rw [ih]
            rfl
          · rfl

theorem armFsync_due {engine : WalEngine} (hdue : engine.fsyncPlanner.due = true) :
    engine.armFsync = { engine with
      fsyncPlanner := { engine.fsyncPlanner with dirtyBytes := 0, flushRunning := true }
      pending := engine.pending ++ [IoWork.fsync engine.lastIngestedLsn] } := by
  simp [armFsync, FsyncPlanner.shouldFsync, hdue]

theorem armFsync_idle {engine : WalEngine} (hdue : ¬ engine.fsyncPlanner.due = true) :
    engine.armFsync = engine := by
  simp [armFsync, FsyncPlanner.shouldFsync, hdue]

theorem armFsync_moves {permit : Kind → WalEngine → Prop} (engine : WalEngine) :
    ReflTransGen (Move permit) engine engine.armFsync := by
  by_cases hdue : engine.fsyncPlanner.due = true
  · rw [armFsync_due hdue]
    exact ReflTransGen.single (Move.arm engine hdue)
  · rw [armFsync_idle hdue]

theorem armFsync_pc (engine : WalEngine) : engine.armFsync.pc = engine.pc := rfl

/-- The ways a completion ends, when the process survives it. -/
theorem reapCqe_inv {engine after : WalEngine} {cqe : Cqe} {rest : List Cqe} {ret : Return}
    (hreap : { engine with pc := .reaping rest ret }.reapCqe cqe = .ok after) :
    (∃ startLsn, engine.inflight.lookup cqe.userData = some (.remove startLsn) ∧
      after = engine.pop cqe rest ret) ∨
    (∃ op, engine.inflight.lookup cqe.userData = some (.write op) ∧ 0 ≤ cqe.result ∧
      op.data.out.length ≤ op.done + cqe.result.toNat ∧
      after = (engine.pop cqe rest ret).reapWritten op.data) ∨
    (∃ op done, engine.inflight.lookup cqe.userData = some (.write op) ∧
      ((done = op.done ∧ cqe.result < 0) ∨
        (done = op.done + cqe.result.toNat ∧ 0 ≤ cqe.result ∧ done < op.data.out.length)) ∧
      after = { engine.pop cqe rest ret with
        fsyncPlanner := engine.fsyncPlanner.onWriteQueued (op.data.out.length - done)
        pending := IoWork.write { op with done := done } :: engine.pending }) ∨
    (∃ target, engine.inflight.lookup cqe.userData = some (.fsync target) ∧ 0 ≤ cqe.result ∧
      after = { (engine.pop cqe rest ret).releaseDurable with
        fsyncPlanner := engine.fsyncPlanner.onFsyncCompleted }) := by
  unfold reapCqe at hreap
  cases hwork : engine.inflight.lookup cqe.userData with
  | none => simp [hwork] at hreap
  | some work =>
      simp only [hwork] at hreap
      cases work with
      | write op =>
          simp only [IoWork.complete] at hreap
          split_ifs at hreap with htransient hfatal hdone
          · have hneg : cqe.result < 0 := by
              simp only [eIntr, eAgain] at htransient
              omega
            simp only [IoWork.unwritten, Except.ok.injEq] at hreap
            subst hreap
            exact Or.inr (Or.inr (Or.inl ⟨op, op.done, rfl, Or.inl ⟨rfl, hneg⟩, rfl⟩))
          · simp only [IoWork.unwritten, Except.ok.injEq] at hreap
            subst hreap
            exact Or.inr (Or.inr (Or.inl
              ⟨op, op.done + cqe.result.toNat, rfl, Or.inr ⟨rfl, by omega, hdone⟩, rfl⟩))
          · simp only [Except.ok.injEq] at hreap
            exact Or.inr (Or.inl ⟨op, rfl, by omega, by simpa using hdone, hreap.symm⟩)
      | fsync target =>
          simp only [IoWork.complete] at hreap
          split_ifs at hreap with hneg
          simp only [Except.ok.injEq] at hreap
          exact Or.inr (Or.inr (Or.inr ⟨target, rfl, by omega, hreap.symm⟩))
      | remove startLsn =>
          simp only [IoWork.complete, Except.ok.injEq] at hreap
          exact Or.inl ⟨startLsn, rfl, hreap.symm⟩

/-- `reapWritten`, field by field. -/
theorem reapWritten_eq (engine : WalEngine) (batch : Batch) :
    engine.reapWritten batch =
      { engine with
        outbox := engine.outbox ++ sends (engine.ack.advance batch .written) ++
          if Acker.isSettled (engine.ack.advance batch .written).1 then
            [Out.recycle (engine.ack.advance batch .written).1] else []
        acked := engine.acked ++ [Ack.mk .written engine.seg.startLsn engine.disk batch]
        awaitingFsync := engine.awaitingFsync ++
          if Acker.isSettled (engine.ack.advance batch .written).1 then []
          else [(engine.ack.advance batch .written).1] } := by
  by_cases hsettled : Acker.isSettled (engine.ack.advance batch .written).1
  · simp [reapWritten, hsettled]
  · simp [reapWritten, hsettled]

theorem reapCqe_pc {engine after : WalEngine} {cqe : Cqe} {rest : List Cqe} {ret : Return}
    (hreap : { engine with pc := .reaping rest ret }.reapCqe cqe = .ok after) :
    after.pc = .reaping rest ret := by
  rcases reapCqe_inv hreap with ⟨startLsn, -, rfl⟩ | ⟨op, -, -, -, rfl⟩ |
    ⟨op, done, -, -, rfl⟩ | ⟨target, -, -, rfl⟩
  · rfl
  · rw [reapWritten_eq]
    rfl
  · rfl
  · rfl

theorem reap_moves {permit : Kind → WalEngine → Prop} {engine after : WalEngine} {cqe : Cqe}
    {rest : List Cqe} {ret : Return} (hwritten : permit .written engine)
    (hdurable : permit .durable engine) (hpc : engine.pc = .reaping (cqe :: rest) ret)
    (hreap : { engine with pc := .reaping rest ret }.reapCqe cqe = .ok after) :
    Move permit engine after := by
  rcases reapCqe_inv hreap with ⟨startLsn, hwork, rfl⟩ | ⟨op, hwork, hres, hdone, rfl⟩ |
    ⟨op, done, hwork, hdone, rfl⟩ | ⟨target, hwork, hres, rfl⟩
  · exact Move.reapRemoved engine hpc hwork
  · exact Move.reapWritten engine hwritten hpc hwork hres hdone
  · exact Move.reapRetry engine hpc hwork hdone
  · exact Move.reapDurable engine hdurable hpc hwork hres

/-- A rotate or retire message is waiting, or a rotate is under way. -/
def Controlled (engine : WalEngine) : Prop :=
  (∃ msg ∈ engine.msgRx, ∀ batch, msg ≠ .write batch) ∨
    ∃ boundaryLsn, engine.pc = .draining boundaryLsn

/-- Where the restricted moves of one step may happen: responses are released by
the first move of a `reap` or `drain` step only. -/
def Permits (engine : WalEngine) (act : Act) : Kind → WalEngine → Prop
  | .arrive, _ => ∃ msg, act = .arrive msg
  | .send, _ => act = .send
  | .lend, _ => act = .lend
  | .control, _ => engine.Controlled
  | .written, current => current = engine ∧ act = .reap
  | .durable, current => current = engine ∧ act = .reap
  | .sealed, current => current = engine ∧ act = .drain ∧ engine.Controlled

/-- The step is a `poll` that takes a rotate or retire message. -/
def TakesControl (engine : WalEngine) (act : Act) : Prop :=
  act = .poll ∧ ∃ msg rest, engine.msgRx = msg :: rest ∧ ∀ batch, msg ≠ .write batch

/-- The step is the last one of a rotate: it opens the next segment. -/
def Seals (engine : WalEngine) (act : Act) : Prop :=
  act = .drain ∧ engine.shouldPark = true ∧ ∃ boundaryLsn, engine.pc = .draining boundaryLsn

/-- `Permits`, with the step named that does a control move. -/
def Takes (engine : WalEngine) (act : Act) : Kind → WalEngine → Prop
  | .control, _ => engine.TakesControl act
  | .sealed, current => current = engine ∧ engine.Seals act
  | kind, current => engine.Permits act kind current

/-- What `handle_batch` does when its assertions hold. -/
theorem handleBatch_inv {engine after : WalEngine} {batch : Batch}
    (hbatch : engine.handleBatch batch = .ok after) :
    batch.lsnLow = engine.lastIngestedLsn ∧
      (encodeItems batch.out batch.lsnLow batch.items).2 = batch.lsnHi ∧
      ∃ out, out = (encodeItems batch.out batch.lsnLow batch.items).1 ∧
        after = { engine with
          lastIngestedLsn := batch.lsnHi
          seg := { engine.seg with offset := engine.seg.offset + out.length }
          fsyncPlanner := engine.fsyncPlanner.onWriteQueued out.length
          pending := engine.pending ++
            [IoWork.ofBatch { batch with out := out } engine.seg.offset]
          image := engine.image ++ out
          queued := engine.queued ++
            [⟨engine.seg.startLsn, engine.seg.offset, { batch with out := out }⟩] } := by
  unfold handleBatch at hbatch
  split_ifs at hbatch with hgap
  simp only at hbatch
  split_ifs at hbatch with hcount
  simp only [Except.ok.injEq] at hbatch
  exact ⟨not_not.mp hgap, not_not.mp hcount, _, rfl, hbatch.symm⟩

theorem toOption_eq_some {ε α : Type*} {outcome : Except ε α} {value : α}
    (h : outcome.toOption = some value) : outcome = .ok value := by
  cases outcome with
  | error cause => simp [Except.toOption] at h
  | ok result =>
      simp only [Except.toOption, Option.some.injEq] at h
      rw [h]

/-- What a `poll` can do: spin, take a batch, begin a rotate, or schedule what a
retire removes. -/
theorem poll_inv {engine after : WalEngine} (hpoll : engine.poll = some after) :
    (engine.msgRx = [] ∧ engine.shouldPark = false ∧
      after = { engine with spinBudget := engine.spinBudget - 1, pc := .plan }) ∨
    (∃ batch rest middle, engine.msgRx = .write batch :: rest ∧
      { engine with msgRx := rest, spinBudget := defaultSpinBudget }.handleBatch batch =
        .ok middle ∧
      after = { middle with pc := .plan }) ∨
    (∃ boundaryLsn rest, engine.msgRx = .rotate boundaryLsn :: rest ∧
      after = { engine with
        msgRx := rest, spinBudget := defaultSpinBudget, pc := .draining boundaryLsn }) ∨
    (∃ boundaryLsn rest, engine.msgRx = .retire boundaryLsn :: rest ∧
      boundaryLsn ≤ engine.seg.startLsn ∧
      after = { engine with
        msgRx := rest, spinBudget := defaultSpinBudget, pc := .plan
        pending := engine.pending ++
          ((engine.files.entries.map Prod.fst).filter fun lsn => lsn < boundaryLsn).map
            IoWork.remove }) := by
  unfold poll at hpoll
  split at hpoll
  next hmsg =>
      split_ifs at hpoll with hpark
      simp only [Option.some.injEq] at hpoll
      exact Or.inl ⟨hmsg, Bool.eq_false_of_not_eq_true hpark, hpoll.symm⟩
  next msg rest hmsg =>
      right
      cases msg with
      | write batch =>
          simp only [Option.map_eq_some_iff] at hpoll
          obtain ⟨middle, hbatch, hafter⟩ := hpoll
          exact Or.inl ⟨batch, rest, middle, hmsg, toOption_eq_some hbatch, hafter.symm⟩
      | rotate boundaryLsn =>
          simp only [Option.some.injEq] at hpoll
          exact Or.inr (Or.inl ⟨boundaryLsn, rest, hmsg, hpoll.symm⟩)
      | retire boundaryLsn =>
          simp only [Option.map_eq_some_iff] at hpoll
          obtain ⟨middle, hretire, rfl⟩ := hpoll
          unfold retire at hretire
          split_ifs at hretire with hactive
          · simp [Except.toOption] at hretire
          · simp only [Except.toOption, Option.some.injEq] at hretire
            subst hretire
            exact Or.inr (Or.inr ⟨boundaryLsn, rest, hmsg, not_lt.mp hactive, rfl⟩)

theorem poll_moves {engine after : WalEngine} (hpc : engine.pc = .top)
    (hpoll : engine.poll = some after) :
    ReflTransGen (Move (engine.Takes .poll)) engine after := by
  have htodo : engine.todo = [] := by simp [todo, hpc, Pc.todo]
  have hcontrol : ∀ msg rest, engine.msgRx = msg :: rest → (∀ batch, msg ≠ .write batch) →
      engine.TakesControl .poll :=
    fun msg rest hmsg hkind => ⟨rfl, msg, rest, hmsg, hkind⟩
  rcases poll_inv hpoll with ⟨-, -, rfl⟩ | ⟨batch, rest, middle, hmsg, hbatch, rfl⟩ |
    ⟨boundaryLsn, rest, hmsg, rfl⟩ | ⟨boundaryLsn, rest, hmsg, hactive, rfl⟩
  · exact ReflTransGen.single (Move.quiet engine _ .plan _ (by simp [htodo, Pc.todo]))
  · have hquiet : Move (engine.Takes .poll) engine
        { engine with spinBudget := defaultSpinBudget } :=
      Move.quiet engine _ engine.pc _ rfl
    have hmiddle : middle.todo = [] := by
      obtain ⟨-, -, out, -, rfl⟩ := handleBatch_inv hbatch
      simp [todo, hpc, Pc.todo]
    exact ((ReflTransGen.single hquiet).tail
      (Move.enqueue { engine with spinBudget := defaultSpinBudget } hmsg hbatch)).tail
      (Move.quiet middle middle.spinBudget .plan _ (by simp [hmiddle, Pc.todo]))
  · have htakes := hcontrol _ _ hmsg (by simp)
    exact (ReflTransGen.single (Move.discard engine htakes hmsg (by simp))).tail
      (Move.quiet { engine with msgRx := rest } defaultSpinBudget (.draining boundaryLsn) _
        (by simpa [todo, Pc.todo] using htodo.symm))
  · have htakes := hcontrol _ _ hmsg (by simp)
    refine ((ReflTransGen.single (Move.discard engine htakes hmsg (by simp))).tail
      (Move.schedule { engine with msgRx := rest } _ htakes ?_)).tail
      (Move.quiet _ defaultSpinBudget .plan _ (by simpa [todo, Pc.todo] using htodo.symm))
    intro start hstart
    have hlt : start < boundaryLsn := by
      simpa using (List.mem_filter.mp hstart).2
    exact lt_of_lt_of_le hlt hactive

theorem poll_pc {engine after : WalEngine} (hpoll : engine.poll = some after) :
    after.pc = .plan ∨ ∃ boundaryLsn, after.pc = .draining boundaryLsn := by
  rcases poll_inv hpoll with ⟨-, -, rfl⟩ | ⟨batch, rest, middle, -, -, rfl⟩ |
    ⟨boundaryLsn, rest, -, rfl⟩ | ⟨boundaryLsn, rest, -, -, rfl⟩
  · exact Or.inl rfl
  · exact Or.inl rfl
  · exact Or.inr ⟨boundaryLsn, rfl⟩
  · exact Or.inl rfl

/-- What each step does, and when it is taken. -/
inductive Stepped (engine : WalEngine) : Act → WalEngine → Prop where
  | arrive (msg : WalMsg) :
      Stepped engine (.arrive msg) { engine with msgRx := engine.msgRx ++ [msg] }
  | poll {after : WalEngine} (hpc : engine.pc = .top) (hpoll : engine.poll = some after) :
      Stepped engine .poll after
  | plan (hpc : engine.pc = .plan) : Stepped engine .plan engine.plan
  | reapCqe {cqe : Cqe} {rest : List Cqe} {ret : Return} {after : WalEngine}
      (hpc : engine.pc = .reaping (cqe :: rest) ret)
      (hreap : { engine with pc := .reaping rest ret }.reapCqe cqe = .ok after) :
      Stepped engine .reap after
  | reapLoop {needSubmit : Bool} (hpc : engine.pc = .reaping [] (.loop needSubmit)) :
      Stepped engine .reap (engine.finishLoop needSubmit)
  | reapRotate {boundaryLsn : ℕ} (hpc : engine.pc = .reaping [] (.rotate boundaryLsn)) :
      Stepped engine .reap { engine with pc := .draining boundaryLsn }
  | drain {boundaryLsn : ℕ} (hpc : engine.pc = .draining boundaryLsn) :
      Stepped engine .drain (engine.drain boundaryLsn)
  | wake {boundaryLsn : ℕ} (hpc : engine.pc = .drainWait boundaryLsn) :
      Stepped engine .wake (engine.wake boundaryLsn)
  | start {position : ℕ} {ring : IoUring}
      (hstart : startEntry engine.files engine.ring position = some ring) :
      Stepped engine (.start position) { engine with ring := ring }
  | complete {position : ℕ} {res : ℤ} {files : Files} {ring : IoUring}
      (hcomplete : completeEntry engine.files engine.ring position res = some (files, ring)) :
      Stepped engine (.complete position res) { engine with files := files, ring := ring }
  | reply {reply : Reply} {rest : List Out} (houtbox : engine.outbox = .reply reply :: rest) :
      Stepped engine .send { engine with outbox := rest }
  | recycle {batch : Batch} {rest : List Out}
      (houtbox : engine.outbox = .recycle batch :: rest) :
      Stepped engine .send { engine with
        outbox := rest
        recycleTx := engine.recycleTx ++ [batch.recycle]
        returned := engine.returned ++ [batch] }
  | lend {batch : Batch} {pool : List Batch} (hpool : engine.recycleTx = batch :: pool) :
      Stepped engine .lend { engine with recycleTx := pool }
  | slab (keys : List ℕ) : Stepped engine (.slab keys) { engine with vacant := keys }

theorem stepped_reap {engine after : WalEngine} (hreap : engine.reap = some after) :
    Stepped engine .reap after := by
  unfold reap at hreap
  split at hreap
  next cqe rest ret hpc => exact Stepped.reapCqe hpc (toOption_eq_some hreap)
  next needSubmit hpc =>
    cases hreap
    exact Stepped.reapLoop hpc
  next boundaryLsn hpc =>
    cases hreap
    exact Stepped.reapRotate hpc
  next => cases hreap

theorem stepped {engine after : WalEngine} {act : Act} (hstep : engine.step act = some after) :
    Stepped engine act after := by
  cases act with
  | arrive msg =>
      cases hstep
      exact Stepped.arrive msg
  | poll =>
      simp only [step] at hstep
      split_ifs at hstep with hpc
      exact Stepped.poll hpc.1 hstep
  | plan =>
      simp only [step] at hstep
      split_ifs at hstep with hpc
      cases hstep
      exact Stepped.plan hpc.1
  | reap =>
      simp only [step] at hstep
      split_ifs at hstep with houtbox
      exact stepped_reap hstep
  | drain =>
      simp only [step] at hstep
      split at hstep
      next boundaryLsn hpc =>
        split_ifs at hstep with houtbox
        cases hstep
        exact Stepped.drain hpc
      next => cases hstep
  | wake =>
      simp only [step] at hstep
      split at hstep
      next boundaryLsn hpc =>
        split_ifs at hstep with houtbox
        cases hstep
        exact Stepped.wake hpc
      next => cases hstep
  | start position =>
      obtain ⟨ring, hstart, rfl⟩ := Option.map_eq_some_iff.mp hstep
      exact Stepped.start hstart
  | complete position res =>
      obtain ⟨⟨files, ring⟩, hcomplete, rfl⟩ := Option.map_eq_some_iff.mp hstep
      exact Stepped.complete hcomplete
  | send =>
      simp only [step] at hstep
      split at hstep
      next => cases hstep
      next reply rest houtbox =>
        cases hstep
        exact Stepped.reply houtbox
      next batch rest houtbox =>
        cases hstep
        exact Stepped.recycle houtbox
  | lend =>
      simp only [step] at hstep
      split at hstep
      next => cases hstep
      next batch pool hpool =>
        cases hstep
        exact Stepped.lend hpool
  | slab keys =>
      cases hstep
      exact Stepped.slab keys

/-- Every step is a sequence of moves, and only some steps do control moves. -/
theorem step_takes {engine after : WalEngine} {act : Act} (hfeeds : Feeds engine act)
    (hstep : engine.step act = some after) :
    ReflTransGen (Move (engine.Takes act)) engine after := by
  cases stepped hstep with
  | arrive msg =>
      refine ReflTransGen.single (Move.arrive engine msg ⟨msg, rfl⟩ ?_)
      rintro batch rfl
      exact hfeeds
  | poll hpc hpoll => exact poll_moves hpc hpoll
  | plan hpc =>
      refine ((armFsync_moves engine).trans (pullLoop_moves _ _)).tail (Move.beginReap _ _ ?_)
      simp [todo, pullLoop_todo, armFsync_pc, hpc, Pc.todo]
  | reapCqe hpc hreap =>
      exact ReflTransGen.single (reap_moves ⟨rfl, rfl⟩ ⟨rfl, rfl⟩ hpc hreap)
  | reapLoop hpc =>
      have htodo : engine.todo = [] := by simp [todo, hpc, Pc.todo]
      unfold finishLoop
      split_ifs with hsubmit
      · exact (ReflTransGen.single (Move.submit engine)).tail
          (Move.quiet engine.submitRing _ .top _
            (by simpa [todo, Pc.todo, submitRing] using htodo.symm))
      · exact ReflTransGen.single (Move.quiet engine _ .top _ (by simp [htodo, Pc.todo]))
  | @reapRotate boundaryLsn hpc =>
      have htodo : engine.todo = [] := by simp [todo, hpc, Pc.todo]
      exact ReflTransGen.single
        (Move.quiet engine _ (.draining boundaryLsn) _ (by simp [htodo, Pc.todo]))
  | @drain boundaryLsn hpc =>
      have htodo : engine.todo = [] := by simp [todo, hpc, Pc.todo]
      unfold drain
      split_ifs with hpark
      · have hseals : engine.Seals .drain := ⟨rfl, hpark, boundaryLsn, hpc⟩
        simp only [shouldPark, decide_eq_true_eq] at hpark
        exact ReflTransGen.single
          (Move.sealed engine boundaryLsn ⟨rfl, hseals⟩ hpark.1 hpark.2 htodo)
      · refine ((pullLoop_moves _ _).tail (Move.submit _)).tail
          (Move.quiet _ _ (.drainWait boundaryLsn) _ ?_)
        simp [todo, submitRing, pullLoop_todo, hpc, Pc.todo]
  | wake hpc => exact ReflTransGen.single (Move.beginReap engine _ (by simp [todo, hpc, Pc.todo]))
  | start hstart => exact ReflTransGen.single (Move.start engine hstart)
  | complete hcomplete => exact ReflTransGen.single (Move.complete engine hcomplete)
  | reply houtbox => exact ReflTransGen.single (Move.send engine rfl houtbox)
  | recycle houtbox => exact ReflTransGen.single (Move.giveBack engine rfl houtbox)
  | lend hpool => exact ReflTransGen.single (Move.lend engine rfl hpool)
  | slab keys => exact ReflTransGen.single (Move.quiet engine _ engine.pc keys rfl)

theorem Move.mono {permit permit' : Kind → WalEngine → Prop}
    (himp : ∀ kind engine, permit kind engine → permit' kind engine)
    {engine after : WalEngine} (hmove : Move permit engine after) :
    Move permit' engine after := by
  cases hmove with
  | arrive msg hpermit hfeed => exact Move.arrive _ msg (himp _ _ hpermit) hfeed
  | send hpermit houtbox => exact Move.send _ (himp _ _ hpermit) houtbox
  | giveBack hpermit houtbox => exact Move.giveBack _ (himp _ _ hpermit) houtbox
  | lend hpermit hpool => exact Move.lend _ (himp _ _ hpermit) hpool
  | quiet spinBudget pc vacant htodo => exact Move.quiet _ spinBudget pc vacant htodo
  | discard hpermit hmsg hkind => exact Move.discard _ (himp _ _ hpermit) hmsg hkind
  | enqueue hmsg hbatch => exact Move.enqueue _ hmsg hbatch
  | schedule starts hpermit hstarts => exact Move.schedule _ starts (himp _ _ hpermit) hstarts
  | arm hdue => exact Move.arm _ hdue
  | push hpending => exact Move.push _ hpending
  | beginReap ret htodo => exact Move.beginReap _ ret htodo
  | submit => exact Move.submit _
  | reapRemoved hpc hwork => exact Move.reapRemoved _ hpc hwork
  | reapWritten hpermit hpc hwork hres hdone =>
      exact Move.reapWritten _ (himp _ _ hpermit) hpc hwork hres hdone
  | reapRetry hpc hwork hdone => exact Move.reapRetry _ hpc hwork hdone
  | reapDurable hpermit hpc hwork hres =>
      exact Move.reapDurable _ (himp _ _ hpermit) hpc hwork hres
  | sealed boundaryLsn hpermit hpending hinflight htodo =>
      exact Move.sealed _ boundaryLsn (himp _ _ hpermit) hpending hinflight htodo
  | start hstart => exact Move.start _ hstart
  | complete hcomplete => exact Move.complete _ hcomplete

theorem Takes.permits {engine : WalEngine} {act : Act} {kind : Kind} {current : WalEngine}
    (htakes : engine.Takes act kind current) : engine.Permits act kind current := by
  cases kind with
  | control =>
      obtain ⟨-, msg, rest, hmsg, hkind⟩ := htakes
      exact Or.inl ⟨msg, by simp [hmsg], hkind⟩
  | sealed =>
      obtain ⟨hsame, hact, -, hpc⟩ := htakes
      exact ⟨hsame, hact, Or.inr hpc⟩
  | _ => exact htakes

/-- A step that opens no segment does not seal one. -/
theorem Takes.ne_sealed {engine : WalEngine} {act : Act} (hseals : ¬ engine.Seals act)
    {kind : Kind} {current : WalEngine} (htakes : engine.Takes act kind current) :
    kind ≠ .sealed := by
  rintro rfl
  exact hseals htakes.2

/-- Every step is a sequence of moves. -/
theorem step_moves {engine after : WalEngine} {act : Act} (hfeeds : Feeds engine act)
    (hstep : engine.step act = some after) :
    ReflTransGen (Move (engine.Permits act)) engine after := by
  have hpermits : ∀ current next, Move (engine.Takes act) current next →
      Move (engine.Permits act) current next :=
    fun _ _ hmove => hmove.mono fun _ _ => Takes.permits
  exact ReflTransGen.mono hpermits _ _ (step_takes hfeeds hstep)

/-- A property that every permitted move keeps is kept by every step that takes
permitted moves only. -/
theorem takes_keeps {Inv : WalEngine → Prop} {permit : Kind → WalEngine → Prop}
    (hmove : ∀ engine after, Inv engine → Move permit engine after → Inv after)
    {engine after : WalEngine} {act : Act} (hinv : Inv engine) (hfeeds : Feeds engine act)
    (hpermit : ∀ kind current, engine.Takes act kind current → permit kind current)
    (hstep : engine.step act = some after) : Inv after := by
  have hmoves := step_takes hfeeds hstep
  clear hstep
  induction hmoves with
  | refl => exact hinv
  | tail _ hlast ih => exact hmove _ _ ih (hlast.mono hpermit)

theorem step_keeps {Inv : WalEngine → Prop} {permit : Kind → WalEngine → Prop}
    (hmove : ∀ engine after, Inv engine → Move permit engine after → Inv after)
    {engine after : WalEngine} {act : Act} (hinv : Inv engine) (hfeeds : Feeds engine act)
    (hpermit : ∀ kind current, engine.Permits act kind current → permit kind current)
    (hstep : engine.step act = some after) : Inv after :=
  takes_keeps hmove hinv hfeeds (fun kind current htakes => hpermit kind current htakes.permits)
    hstep

/-- No restriction. -/
def Anything (_ : Kind) (_ : WalEngine) : Prop := True

/-! ## The channel and the rotate under way -/

theorem pullLoop_frame (fuel : ℕ) (engine : WalEngine) :
    (pullLoop fuel engine).msgRx = engine.msgRx ∧
      (pullLoop fuel engine).lastIngestedLsn = engine.lastIngestedLsn := by
  induction fuel generalizing engine with
  | zero => exact ⟨rfl, rfl⟩
  | succ fuel ih =>
      cases hpending : engine.pending with
      | nil => simp only [pullLoop, hpending, and_self]
      | cons work rest =>
          simp only [pullLoop, hpending]
          split_ifs with hroom
          · exact ih _
          · exact ⟨rfl, rfl⟩

theorem reapCqe_frame {engine after : WalEngine} {cqe : Cqe} {rest : List Cqe} {ret : Return}
    (hreap : { engine with pc := .reaping rest ret }.reapCqe cqe = .ok after) :
    after.msgRx = engine.msgRx ∧ after.lastIngestedLsn = engine.lastIngestedLsn := by
  rcases reapCqe_inv hreap with ⟨startLsn, -, rfl⟩ | ⟨op, -, -, -, rfl⟩ |
    ⟨op, done, -, -, rfl⟩ | ⟨target, -, -, rfl⟩
  · exact ⟨rfl, rfl⟩
  · rw [reapWritten_eq]
    exact ⟨rfl, rfl⟩
  · exact ⟨rfl, rfl⟩
  · exact ⟨rfl, rfl⟩

theorem poll_channel {engine after : WalEngine} (hpoll : engine.poll = some after) :
    (∃ msg rest, engine.msgRx = msg :: rest ∧ after.msgRx = rest ∧
      after.lastIngestedLsn = msg.reach engine.lastIngestedLsn ∧
      ∀ boundaryLsn, after.pc.boundary = some boundaryLsn → msg = .rotate boundaryLsn) ∨
    (after.msgRx = engine.msgRx ∧ after.lastIngestedLsn = engine.lastIngestedLsn ∧
      ∀ boundaryLsn, after.pc.boundary = some boundaryLsn →
        engine.pc.boundary = some boundaryLsn) := by
  rcases poll_inv hpoll with ⟨-, -, rfl⟩ | ⟨batch, rest, middle, hmsg, hbatch, rfl⟩ |
    ⟨boundaryLsn, rest, hmsg, rfl⟩ | ⟨boundaryLsn, rest, hmsg, -, rfl⟩
  · exact Or.inr ⟨rfl, rfl, fun _ h => by cases h⟩
  · obtain ⟨-, -, out, -, rfl⟩ := handleBatch_inv hbatch
    exact Or.inl ⟨_, rest, hmsg, rfl, rfl, fun _ h => by cases h⟩
  · refine Or.inl ⟨_, rest, hmsg, rfl, rfl, ?_⟩
    intro other hboundary
    cases hboundary
    rfl
  · exact Or.inl ⟨_, rest, hmsg, rfl, rfl, fun _ h => by cases h⟩

/-- What a step does to the channel, to the LSN reached and to the rotate under
way. -/
theorem step_channel {engine after : WalEngine} {act : Act}
    (hstep : engine.step act = some after) :
    (∃ msg, act = .arrive msg ∧ after = { engine with msgRx := engine.msgRx ++ [msg] }) ∨
    (∃ msg rest, act = .poll ∧ engine.msgRx = msg :: rest ∧ after.msgRx = rest ∧
      after.lastIngestedLsn = msg.reach engine.lastIngestedLsn ∧
      ∀ boundaryLsn, after.pc.boundary = some boundaryLsn → msg = .rotate boundaryLsn) ∨
    (after.msgRx = engine.msgRx ∧ after.lastIngestedLsn = engine.lastIngestedLsn ∧
      ∀ boundaryLsn, after.pc.boundary = some boundaryLsn →
        engine.pc.boundary = some boundaryLsn) := by
  cases stepped hstep with
  | arrive msg => exact Or.inl ⟨msg, rfl, rfl⟩
  | poll hpc hpoll =>
      rcases poll_channel hpoll with ⟨msg, rest, htaken⟩ | hsame
      · exact Or.inr (Or.inl ⟨msg, rest, rfl, htaken⟩)
      · exact Or.inr (Or.inr hsame)
  | plan hpc =>
      obtain ⟨hmsgRx, hingested⟩ := pullLoop_frame engine.armFsync.pending.length engine.armFsync
      exact Or.inr (Or.inr ⟨hmsgRx, hingested, fun _ h => by cases h⟩)
  | @reapCqe cqe rest ret _ hpc hreap =>
      obtain ⟨hmsgRx, hingested⟩ := reapCqe_frame hreap
      refine Or.inr (Or.inr ⟨hmsgRx, hingested, ?_⟩)
      intro boundaryLsn hboundary
      rw [reapCqe_pc hreap] at hboundary
      rw [hpc]
      cases ret with
      | loop needSubmit => cases hboundary
      | rotate other => exact hboundary
  | reapLoop hpc =>
      unfold finishLoop
      split_ifs
      · exact Or.inr (Or.inr ⟨rfl, rfl, fun _ h => by cases h⟩)
      · exact Or.inr (Or.inr ⟨rfl, rfl, fun _ h => by cases h⟩)
  | reapRotate hpc =>
      refine Or.inr (Or.inr ⟨rfl, rfl, ?_⟩)
      intro other hboundary
      rw [hpc]
      exact hboundary
  | drain hpc =>
      unfold drain
      split_ifs with hpark
      · exact Or.inr (Or.inr ⟨rfl, rfl, fun _ h => by cases h⟩)
      · obtain ⟨hmsgRx, hingested⟩ := pullLoop_frame engine.pending.length engine
        refine Or.inr (Or.inr ⟨hmsgRx, hingested, ?_⟩)
        intro other hboundary
        rw [hpc]
        exact hboundary
  | wake hpc =>
      refine Or.inr (Or.inr ⟨rfl, rfl, ?_⟩)
      intro other hboundary
      rw [hpc]
      exact hboundary
  | start hstart => exact Or.inr (Or.inr ⟨rfl, rfl, fun _ h => h⟩)
  | complete hcomplete => exact Or.inr (Or.inr ⟨rfl, rfl, fun _ h => h⟩)
  | reply houtbox => exact Or.inr (Or.inr ⟨rfl, rfl, fun _ h => h⟩)
  | recycle houtbox => exact Or.inr (Or.inr ⟨rfl, rfl, fun _ h => h⟩)
  | lend hpool => exact Or.inr (Or.inr ⟨rfl, rfl, fun _ h => h⟩)
  | slab keys => exact Or.inr (Or.inr ⟨rfl, rfl, fun _ h => h⟩)

end WalEngine

end Stage3

end InMemoryDb
