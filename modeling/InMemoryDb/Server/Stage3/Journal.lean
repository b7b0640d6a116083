import InMemoryDb.Server.Stage3.Layout

/-!
# The journal of one segment

Stage 2 sends write messages only, so a process writes one segment from start to
end.  The queued batches tile the segment without a gap, in LSN order, whatever
order their writes land in; every hole of the file lies in the range of a write
that is still in line.
-/

namespace InMemoryDb.Stage3

open SparseFile WalFormat Recover

/-- Not inside `rotate`. -/
def Pc.plain : Pc → Prop
  | .draining _ => False
  | .drainWait _ => False
  | .reaping _ (.rotate _) => False
  | _ => True

theorem Pc.plain_of_boundary {pc : Pc} (hpc : ∀ boundaryLsn, pc.boundary ≠ some boundaryLsn) :
    pc.plain := by
  cases pc with
  | reaping todo ret =>
      cases ret with
      | loop needSubmit => trivial
      | rotate boundaryLsn => exact absurd rfl (hpc boundaryLsn)
  | draining boundaryLsn => exact absurd rfl (hpc boundaryLsn)
  | drainWait boundaryLsn => exact absurd rfl (hpc boundaryLsn)
  | _ => trivial

theorem Pc.boundary_of_plain {pc : Pc} (hpc : pc.plain) (boundaryLsn : ℕ) :
    pc.boundary ≠ some boundaryLsn := by
  intro hboundary
  cases pc with
  | reaping todo ret =>
      cases ret with
      | loop needSubmit => cases hboundary
      | rotate other => exact hpc
  | draining other => exact hpc
  | drainWait other => exact hpc
  | _ => cases hboundary

/-- Guard of the runs stage 2 causes: it sends write messages only. -/
def PlainFeeds (engine : WalEngine) : WalEngine.Act → Prop
  | .arrive (.write batch) => FromStage2 engine.ack batch
  | .arrive _ => False
  | _ => True

instance (engine : WalEngine) : (act : WalEngine.Act) → Decidable (PlainFeeds engine act)
  | .arrive (.write batch) => inferInstanceAs (Decidable (FromStage2 engine.ack batch))
  | .arrive (.rotate _) => isFalse id
  | .arrive (.retire _) => isFalse id
  | .poll => isTrue trivial
  | .plan => isTrue trivial
  | .reap => isTrue trivial
  | .drain => isTrue trivial
  | .wake => isTrue trivial
  | .start _ => isTrue trivial
  | .complete _ _ => isTrue trivial
  | .send => isTrue trivial
  | .lend => isTrue trivial
  | .slab _ => isTrue trivial

theorem PlainFeeds.feeds {engine : WalEngine} {act : WalEngine.Act}
    (h : PlainFeeds engine act) : Feeds engine act := by
  cases act with
  | arrive msg =>
      cases msg with
      | write batch => exact h
      | rotate boundaryLsn => trivial
      | retire boundaryLsn => trivial
  | _ => trivial

/-- What a run of write messages is restricted to. -/
def Writing : WalEngine.Kind → WalEngine → Prop
  | .control, _ => False
  | .sealed, _ => False
  | _, _ => True

/-- What a segment file held when the process opened it. -/
def baseOf (segs : SortedMap ℕ Bytes) (start : ℕ) : Bytes := (segs.lookup start).getD []

namespace WalEngine

variable {engine after : WalEngine} {segs : SortedMap ℕ Bytes} {start : ℕ}

/-- The records queued so far. -/
def history (engine : WalEngine) : List (ℕ × Bytes) :=
  engine.queued.flatMap fun entry => entry.batch.redo

/-- The journal: the rest of the directory is untouched, the segment is its old
contents followed by the queued batches, and only writes in line leave holes. -/
structure Journal (segs : SortedMap ℕ Bytes) (start : ℕ) (engine : WalEngine) : Prop where
  startLsn : engine.seg.startLsn = start
  others : ∀ seg, start ≠ seg → engine.files.lookup seg = (Files.ofSegs segs).lookup seg
  image : engine.image =
    baseOf segs start ++ engine.queued.flatMap fun entry => entry.batch.out
  tiled : Tiled (baseOf segs start).length start engine.queued
  ingested : engine.lastIngestedLsn = start + engine.history.length
  records : ∀ rec ∈ engine.history, GoodPut rec.2 ∧ rec.2.length ≤ maxPayload ∧
    start < rec.1 ∧ rec.1 ≤ engine.lastIngestedLsn
  removes : ∀ lsn, .remove lsn ∉ engine.line
  holes : ∀ index, index < engine.image.length →
    (∃ value, Holds engine.disk.cache index value) ∨
      ∃ op, .write op ∈ engine.line ∧ op.offset ≤ index ∧
        index < op.offset + op.data.out.length

theorem readSeg_ofSegs (segs : SortedMap ℕ Bytes) (start : ℕ) :
    readSeg (Files.ofSegs segs) start = baseOf segs start := by
  rw [readSeg, cacheOf, Files.ofSegs, SortedMap.lookup_mapValues, baseOf]
  cases segs.lookup start with
  | none => rfl
  | some bytes => simp [File.ofBytes]

theorem journal_new (depth : ℕ) (segs : SortedMap ℕ Bytes) (start : ℕ) (mode : Mode)
    (pool : List Batch) : Journal segs start (new depth (Files.ofSegs segs) start mode pool) := by
  have himage : (new depth (Files.ofSegs segs) start mode pool).image = baseOf segs start :=
    readSeg_ofSegs segs start
  obtain ⟨-, himage, htiled, hingested, hrecords⟩ :=
    @laid_open (new depth (Files.ofSegs segs) start mode pool) [] _ _ rfl himage rfl
  refine ⟨Segment.open_startLsn _ _, fun seg hne => Segment.open_others _ hne, himage, htiled,
    hingested, hrecords, ?_, (filled_new depth segs start mode pool).holes⟩
  intro lsn hlsn
  cases hlsn

/-- The journal is the layout of the segment since the start of the process. -/
theorem Journal.laid (hjournal : Journal segs start engine) :
    Laid [] (baseOf segs start) start engine :=
  ⟨rfl, hjournal.image, hjournal.tiled, hjournal.ingested, hjournal.records⟩

theorem journal_move (hsound : engine.Sound) (hjournal : Journal segs start engine)
    (hmove : Move Writing engine after) : Journal segs start after := by
  rcases move_steady hsound hmove with
    ⟨batch, entry, rest, -, rfl, -, hoffset, hlow, hencoded, -⟩ | ⟨_, _, hpermit, -⟩ | hsteady
  · obtain ⟨-, himage, htiled, hingested, hrecords⟩ :=
      hjournal.laid.queue rest hoffset hlow hencoded
    refine ⟨hjournal.startLsn, hjournal.others, himage, htiled, hingested, hrecords, ?_,
      holes_queue rest hjournal.holes hoffset⟩
    intro lsn hlsn
    rw [line_queue] at hlsn
    rcases List.mem_append.mp hlsn with hold | hnew
    · exact hjournal.removes lsn hold
    · simp [IoWork.ofBatch] at hnew
  · exact hpermit.elim
  · obtain ⟨-, himage, htiled, hingested, hrecords⟩ :=
      hjournal.laid.same hsteady.queued hsteady.image hsteady.ingested
    refine ⟨?_, ?_, himage, htiled, hingested, hrecords, ?_, hsteady.holes hjournal.holes⟩
    · rw [hsteady.seg]
      exact hjournal.startLsn
    · intro seg hne
      rw [← hjournal.startLsn] at hne
      rcases hsteady.others seg hne with hsame | ⟨hremove, -⟩
      · rw [hsame]
        exact hjournal.others seg (hjournal.startLsn ▸ hne)
      · exact absurd hremove (hjournal.removes seg)
    · intro lsn hlsn
      rcases hsteady.removes lsn hlsn with hold | hcontrol
      · exact hjournal.removes lsn hold
      · exact hcontrol.elim

/-! ## Runs of write messages -/

/-- Only write messages are waiting, and no rotate is under way. -/
structure Plain (engine : WalEngine) : Prop where
  inbox : ∀ msg ∈ engine.msgRx, ∃ batch, msg = .write batch
  pc : engine.pc.plain

theorem Plain.not_controlled (hplain : engine.Plain) : ¬ engine.Controlled := by
  rintro (⟨msg, hmsg, hkind⟩ | ⟨boundaryLsn, hpc⟩)
  · obtain ⟨batch, rfl⟩ := hplain.inbox msg hmsg
    exact hkind batch rfl
  · have := hplain.pc
    rw [hpc] at this
    exact this

theorem plain_step {act : Act} (hplain : engine.Plain) (hfeeds : PlainFeeds engine act)
    (hstep : engine.step act = some after) : after.Plain := by
  rcases step_channel hstep with ⟨msg, rfl, rfl⟩ | ⟨msg, rest, -, hmsg, hrest, -, hpc⟩ |
    ⟨hsame, -, hpc⟩
  · refine ⟨?_, hplain.pc⟩
    intro other hother
    rcases List.mem_append.mp hother with hold | hnew
    · exact hplain.inbox other hold
    · rw [List.mem_singleton.mp hnew]
      cases msg with
      | write batch => exact ⟨batch, rfl⟩
      | rotate boundaryLsn => exact hfeeds.elim
      | retire boundaryLsn => exact hfeeds.elim
  · obtain ⟨batch, rfl⟩ := hplain.inbox msg (by simp [hmsg])
    refine ⟨?_, Pc.plain_of_boundary fun boundaryLsn h => by cases hpc boundaryLsn h⟩
    intro other hother
    rw [hrest] at hother
    exact hplain.inbox other (by rw [hmsg]; exact List.mem_cons_of_mem _ hother)
  · refine ⟨?_, Pc.plain_of_boundary fun boundaryLsn h => ?_⟩
    · rw [hsame]
      exact hplain.inbox
    · exact Pc.boundary_of_plain hplain.pc boundaryLsn (hpc boundaryLsn h)

theorem Plain.permits (hplain : engine.Plain) (act : Act) (kind : Kind) (current : WalEngine)
    (hpermit : engine.Permits act kind current) : Writing kind current := by
  cases kind with
  | control => exact hplain.not_controlled hpermit
  | sealed => exact hplain.not_controlled hpermit.2.2
  | _ => trivial

/-- What every permitted move keeps from a sound state, a plain step keeps. -/
theorem plain_keeps {Inv : WalEngine → Prop} {permit : Kind → WalEngine → Prop}
    (hmove : ∀ engine after, engine.Sound → Inv engine → Move permit engine after → Inv after)
    {act : Act} (hsound : engine.Sound) (hplain : engine.Plain) (hinv : Inv engine)
    (hfeeds : PlainFeeds engine act)
    (hpermit : ∀ kind current, engine.Permits act kind current → permit kind current)
    (hstep : engine.step act = some after) : after.Sound ∧ after.Plain ∧ Inv after := by
  have hkeep : ∀ engine after : WalEngine, engine.Sound ∧ Inv engine →
      Move permit engine after → after.Sound ∧ Inv after :=
    fun _ _ h hlast => ⟨sound_move h.1 hlast, hmove _ _ h.1 h.2 hlast⟩
  obtain ⟨hsound', hinv'⟩ := step_keeps hkeep ⟨hsound, hinv⟩ hfeeds.feeds hpermit hstep
  exact ⟨hsound', plain_step hplain hfeeds hstep, hinv'⟩

/-- Everything a plain run maintains. -/
theorem journal_reach {depth : ℕ} {mode : Mode} {pool : List Batch}
    (hreach : Machine.Reach step PlainFeeds (new depth (Files.ofSegs segs) start mode pool)
      engine) : engine.Sound ∧ engine.Plain ∧ Journal segs start engine := by
  induction hreach with
  | start =>
      refine ⟨sound_new _ _ _ _ _, ⟨?_, trivial⟩, journal_new _ _ _ _ _⟩
      intro msg hmsg
      cases hmsg
  | next _ hfeeds hstep ih =>
      exact plain_keeps (fun _ _ => journal_move) ih.1 ih.2.1 ih.2.2 hfeeds
        (ih.2.1.permits _) hstep

/-- Every record of the journal can be redone by recovery. -/
theorem Journal.good (hjournal : Journal segs start engine) (hlsn : engine.lastIngestedLsn < 2 ^ 64)
    {snapLsn : ℕ} (hsnap : snapLsn ≤ start) :
    ∀ rec ∈ engine.history, Fits rec.1 rec.2 ∧ GoodPut rec.2 ∧ snapLsn < rec.1 := by
  intro rec hrec
  obtain ⟨hput, hbound, hgt, hle⟩ := hjournal.records rec hrec
  refine ⟨⟨by omega, ?_⟩, hput, by omega⟩
  have hmax : maxPayload + 8 < 2 ^ 32 := by decide
  omega

/-- Once nothing is in line, the file is exactly its image. -/
theorem Journal.cache_eq (hsound : engine.Sound) (hjournal : Journal segs start engine)
    (hidle : engine.shouldPark = true) : engine.disk.cache = full engine.image :=
  Holes.cache_eq hjournal.holes hsound (writesDone_of_park hidle)

end WalEngine

end InMemoryDb.Stage3
