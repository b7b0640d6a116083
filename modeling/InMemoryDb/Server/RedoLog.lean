import InMemoryDb.Server.Flow
import InMemoryDb.Server.Stage3.Journal

/-!
# The log redoes the run

Two threads walk every batch: stage 2 applies its PUTs to the table, stage 3
numbers them again and encodes them.  Whatever order the writes land in, once
all of them are done the directory replays to stage 2's table.
-/

namespace InMemoryDb

open SparseFile Wire WalFormat Recover Stage2 Stage3

/-- The records a message has in the log. -/
def WalMsg.redo : WalMsg → List (ℕ × Bytes)
  | .write batch => batch.redo
  | _ => []

/-! ## Numbers -/

theorem records_lsns (lsn : ℕ) (items : List Request) :
    (records lsn items).map Prod.fst = List.range' (lsn + 1) (records lsn items).length := by
  induction items generalizing lsn with
  | nil => rfl
  | cons req items ih =>
      by_cases hop : req.op = .put
      · simp only [records, hop, if_true, List.map_cons, ih, List.length_cons, List.range'_succ]
      · simp only [records, hop, if_false, ih]

/-- The highest of the LSNs behind `low`. -/
theorem foldl_max_range' {low highest : ℕ} (hle : highest ≤ low) (count : ℕ) :
    (List.range' (low + 1) count).foldl max highest =
      if count = 0 then highest else low + count := by
  induction count with
  | zero => rfl
  | succ count ih =>
      rw [List.range'_concat, List.foldl_append, ih, if_neg (Nat.succ_ne_zero count)]
      simp only [List.foldl_cons, List.foldl_nil]
      split_ifs with hzero
      · rw [hzero, Nat.max_eq_right (by omega)]
      · rw [Nat.max_eq_right (by omega)]
        omega

namespace Stage3

/-- The journal numbers its records without a gap. -/
theorem Tiled.lsns {base start : ℕ} {queued : List Queued} (htiled : Tiled base start queued) :
    (queued.flatMap fun entry => entry.batch.redo).map Prod.fst =
      List.range' (start + 1) (queued.flatMap fun entry => entry.batch.redo).length := by
  induction queued using List.reverseRecOn with
  | nil => rfl
  | append_singleton front entry ih =>
      have hfront : Tiled base start front := by
        intro before other behind hsplit
        exact htiled before other (behind ++ [entry]) (by rw [hsplit]; simp)
      have htile := htiled front entry [] rfl
      rw [List.flatMap_append, List.map_append, ih hfront, List.flatMap_singleton, Batch.redo,
        records_lsns, htile.lsnLow, List.length_append, ← List.range'_append_1]
      congr 2
      omega

/-- What a reader of the directory finds in the segments. -/
def listing (files : Files) : SortedMap ℕ Bytes := files.mapValues fun file => contents file.cache

namespace WalEngine

variable {engine after : WalEngine}

/-- The records of the log, and behind them those still in the channel. -/
def logbook (engine : WalEngine) : List (ℕ × Bytes) :=
  engine.history ++ engine.msgRx.flatMap WalMsg.redo

theorem logbook_move {permit : Kind → WalEngine → Prop} (harrive : ¬ permit .arrive engine)
    (hmove : Move permit engine after) : after.logbook = engine.logbook := by
  cases hmove with
  | arrive msg hpermit hfeed => exact absurd hpermit harrive
  | @discard msg rest hpermit hmsg hkind =>
      have hnone : msg.redo = [] := by
        cases msg with
        | write batch => exact absurd rfl (hkind batch)
        | rotate boundaryLsn => rfl
        | retire boundaryLsn => rfl
      rw [logbook, logbook, hmsg, List.flatMap_cons, hnone]
      rfl
  | @enqueue batch rest _ hmsg hbatch =>
      obtain ⟨-, -, out, -, rfl⟩ := handleBatch_inv hbatch
      change (engine.queued ++ [Queued.mk engine.seg.startLsn engine.seg.offset
        { batch with out := out }]).flatMap (fun entry => entry.batch.redo) ++
          rest.flatMap WalMsg.redo = _
      rw [logbook, hmsg, List.flatMap_append, List.flatMap_singleton, List.flatMap_cons,
        List.append_assoc]
      rfl
  | reapWritten hpermit hpc hwork hres hdone =>
      rw [reapWritten_eq]
      rfl
  | _ => rfl

theorem step_logbook {act : Act} (hinner : act.inner) (hstep : engine.step act = some after) :
    after.logbook = engine.logbook := by
  have hfeeds : Feeds engine act := by
    cases act with
    | arrive msg => exact hinner.elim
    | _ => trivial
  have hmove : ∀ current next : WalEngine, current.logbook = engine.logbook →
      Move (fun kind _ => kind ≠ .arrive) current next → next.logbook = engine.logbook :=
    fun _ _ hsame hmove => (logbook_move (fun h => h rfl) hmove).trans hsame
  refine step_keeps hmove rfl hfeeds ?_ hstep
  rintro kind current hpermit rfl
  obtain ⟨msg, rfl⟩ := hpermit
  exact hinner

/-- Once nothing is in line, the directory is the old one with the journal behind
what its segment held. -/
theorem Journal.listing_eq {segs : SortedMap ℕ Bytes} {start : ℕ} (hsound : engine.Sound)
    (hjournal : Journal segs start engine) (hidle : engine.shouldPark = true) :
    listing engine.files =
      segs.insert start (baseOf segs start ++ encodeAll engine.history) := by
  have himage : engine.image = baseOf segs start ++ encodeAll engine.history := by
    rw [hjournal.image, flatMap_out fun entry hentry => hjournal.tiled.encoded hentry]
    rfl
  obtain ⟨file, hfile⟩ := hsound.stored.opened
  have hcache := hjournal.cache_eq hsound hidle
  rw [disk, hfile, Option.getD_some] at hcache
  apply SortedMap.ext_lookup
  intro seg
  rw [listing, SortedMap.lookup_mapValues]
  by_cases hseg : start = seg
  · subst hseg
    rw [SortedMap.lookup_insert_self, ← hjournal.startLsn, hfile, Option.map_some, hcache,
      contents_full, himage, hjournal.startLsn]
  · rw [SortedMap.lookup_insert_ne _ _ hseg, hjournal.others seg hseg, Files.ofSegs,
      SortedMap.lookup_mapValues, Option.map_map]
    cases segs.lookup seg with
    | none => rfl
    | some bytes => simp [File.ofBytes]

end WalEngine

end Stage3

/-! ## Directories -/

namespace Recover

theorem replayDir_inv {dir : Dir} {state : Replay} {ended : Ended}
    (hreplay : replayDir dir = .ok (state, ended)) :
    ∃ db snapLsn, loadSnapshot dir = .ok (db, snapLsn) ∧ snapLsn ≤ state.highest ∧
      replaySegments snapLsn dir.segs.entries ⟨db, snapLsn, []⟩ = (state, ended) := by
  rw [replayDir] at hreplay
  cases hload : loadSnapshot dir with
  | error cause =>
      rw [hload, error_bind] at hreplay
      cases hreplay
  | ok loaded =>
      obtain ⟨db, snapLsn⟩ := loaded
      rw [hload, ok_bind] at hreplay
      simp only [pure_eq_ok, Except.ok.injEq] at hreplay
      refine ⟨db, snapLsn, rfl, ?_, hreplay⟩
      have hhighest := (replaySegments_kept snapLsn dir.segs.entries ⟨db, snapLsn, []⟩).highest
      rw [hreplay] at hhighest
      exact hhighest

/-- A directory whose last segment is rewritten is replayed up to that segment as
before. -/
theorem replayDir_insert {dir : Dir} {start : ℕ}
    (htop : ∀ entry ∈ dir.segs.entries, entry.1 ≤ start) {state : Replay}
    (hreplay : replayDir dir = .ok (state, .finished)) :
    ∃ snapLsn middle, snapLsn ≤ state.highest ∧
      replaySegment snapLsn (baseOf dir.segs start) middle = (state, .finished) ∧
      ∀ bytes, replayDir ⟨dir.snapshot, dir.segs.insert start bytes⟩ =
        .ok (replaySegment snapLsn bytes middle) := by
  obtain ⟨db, snapLsn, hload, hhighest, hsegs⟩ := replayDir_inv hreplay
  obtain ⟨front, hinsert, hentries⟩ := dir.segs.insert_top htop
  obtain ⟨middle, hfront, hbase⟩ : ∃ middle,
      replaySegments snapLsn front ⟨db, snapLsn, []⟩ = (middle, .finished) ∧
        replaySegment snapLsn (baseOf dir.segs start) middle = (state, .finished) := by
    rcases hentries with ⟨hfront, hnone⟩ | ⟨old, hfront, hsome⟩
    · rw [hfront] at hsegs
      refine ⟨state, hsegs, ?_⟩
      rw [baseOf, hnone]
      rfl
    · rw [hfront] at hsegs
      obtain ⟨middle, hmiddle, hlast⟩ := replaySegments_append_inv hsegs
      rw [replaySegments_singleton] at hlast
      refine ⟨middle, hmiddle, ?_⟩
      rw [baseOf, hsome]
      exact hlast
  refine ⟨snapLsn, middle, hhighest, hbase, ?_⟩
  intro bytes
  have hload' : loadSnapshot ⟨dir.snapshot, dir.segs.insert start bytes⟩ = .ok (db, snapLsn) :=
    hload
  rw [replayDir, hload', ok_bind]
  simp only [hinsert, replaySegments_append_of_finished hfront, replaySegments_singleton,
    pure_eq_ok]

/-- Records behind the end of a directory that decodes to its end are replayed. -/
theorem replayDir_continue {dir : Dir} {start : ℕ}
    (htop : ∀ entry ∈ dir.segs.entries, entry.1 ≤ start) {state : Replay}
    (hreplay : replayDir dir = .ok (state, .finished)) (hstart : state.highest ≤ start)
    {records : List (ℕ × Bytes)}
    (hgood : ∀ rec ∈ records, Fits rec.1 rec.2 ∧ GoodPut rec.2 ∧ start < rec.1) :
    replayDir ⟨dir.snapshot, dir.segs.insert start
        (baseOf dir.segs start ++ encodeAll records)⟩ =
      .ok (state.extend records, .finished) := by
  obtain ⟨snapLsn, middle, hsnap, hbase, hdir⟩ := replayDir_insert htop hreplay
  have hlater : ∀ rec ∈ records, Fits rec.1 rec.2 ∧ GoodPut rec.2 ∧ snapLsn < rec.1 := by
    intro rec hrec
    obtain ⟨hfits, hput, hlt⟩ := hgood rec hrec
    exact ⟨hfits, hput, by omega⟩
  have hrecords := replaySegment_encodeAll hlater [] state
  rw [List.append_nil, replaySegment_nil] at hrecords
  rw [hdir, replaySegment_append_of_finished hbase, hrecords]

/-- A directory left by clean runs: every segment decodes to its end, and no
segment is named after an LSN that was not reached. -/
def CleanDir (dir : Dir) : Prop :=
  ∃ state, replayDir dir = .ok (state, .finished) ∧
    ∀ entry ∈ dir.segs.entries, entry.1 ≤ state.highest + 1

theorem recover_of_replayDir {dir : Dir} {state : Replay}
    (hreplay : replayDir dir = .ok (state, .finished)) :
    recover dir = .ok (state.db, state.highest + 1) := by
  rw [recover, hreplay]
  rfl

/-- The LSN a clean directory boots with is past the names of its segments. -/
theorem CleanDir.boot {dir : Dir} {booted : Db} {start : ℕ} (hclean : CleanDir dir)
    (hboot : recover dir = .ok (booted, start)) :
    ∃ state, replayDir dir = .ok (state, .finished) ∧ start = state.highest + 1 ∧
      ∀ seg bytes, dir.segs.lookup seg = some bytes → seg ≤ start := by
  obtain ⟨state, hreplay, hnames⟩ := hclean
  obtain rfl : start = state.highest + 1 := by
    rw [recover_of_replayDir hreplay] at hboot
    exact (Prod.mk.inj (Except.ok.inj hboot)).2.symm
  exact ⟨state, hreplay, rfl, fun seg bytes hbytes =>
    hnames (seg, bytes) (SortedMap.mem_entries.mpr hbytes)⟩

end Recover

/-! ## Runs -/

namespace Pipeline

variable {pipe after : Pipeline}

/-- Guard of the runs of the server: stage 2 sends write messages only. -/
def Serving (_ : Pipeline) : Act → Prop
  | .rotate _ => False
  | .retire _ => False
  | _ => True

instance (pipe : Pipeline) : (act : Act) → Decidable (Serving pipe act)
  | .accept _ _ => isTrue trivial
  | .take _ => isTrue trivial
  | .reply => isTrue trivial
  | .dispatch => isTrue trivial
  | .rotate _ => isFalse id
  | .retire _ => isFalse id
  | .wal _ => isTrue trivial

/-- The records of the batch in stage 2's hands. -/
def handRedo (pipe : Pipeline) : List (ℕ × Bytes) := pipe.hand.toList.flatMap Batch.redo

/-- Every record stage 2 has numbered, in order. -/
def numbered (pipe : Pipeline) : List (ℕ × Bytes) := pipe.wal.logbook ++ pipe.handRedo

/-- The requests stage 2 has executed, in order. -/
def applied (pipe : Pipeline) : List Request := pipe.admitted.take pipe.computed.length

/-- For stage 3 a change is one of its own actions, or nothing. -/
theorem change_engine {act : Act} (hflow : pipe.Flow) (hchange : Change pipe act after) :
    after.wal = pipe.wal ∨
      ∃ inner, pipe.wal.step inner = some after.wal ∧ Feeds pipe.wal inner ∧
        (Serving pipe act → PlainFeeds pipe.wal inner) ∧ (inner = .reap → act = .wal .reap) := by
  cases hchange with
  | accept conn data => exact Or.inl rfl
  | take hfree hsent hcount hbuffer hbatch =>
      rcases hbuffer with ⟨-, rfl⟩ | ⟨-, hpool⟩
      · exact Or.inl rfl
      · refine Or.inr ⟨.lend, ?_, trivial, fun _ => trivial, fun h => by cases h⟩
        simp only [WalEngine.step, hpool]
  | reply houtbox => exact Or.inl rfl
  | @toLog batch hhand hsent hwork =>
      have hshape : FromStage2 pipe.wal.ack batch := by
        rw [hflow.ack]
        exact (hflow.hand batch hhand).fromStage2 hwork
      exact Or.inr ⟨.arrive (.write batch), rfl, hshape, fun _ => hshape, fun h => by cases h⟩
  | toSlot hhand hsent hwork => exact Or.inl rfl
  | rotate boundaryLsn =>
      exact Or.inr ⟨.arrive (.rotate boundaryLsn), rfl, trivial, False.elim, fun h => by cases h⟩
  | retire boundaryLsn =>
      exact Or.inr ⟨.arrive (.retire boundaryLsn), rfl, trivial, False.elim, fun h => by cases h⟩
  | walReply houtbox =>
      refine Or.inr ⟨.send, ?_, trivial, fun _ => trivial, fun h => by cases h⟩
      simp only [WalEngine.step, houtbox]
  | walRecycle houtbox =>
      refine Or.inr ⟨.send, ?_, trivial, fun _ => trivial, fun h => by cases h⟩
      simp only [WalEngine.step, houtbox]
  | @wal inner wal hinner hstep =>
      have hfeeds : PlainFeeds pipe.wal inner := by
        cases inner with
        | arrive msg => exact hinner.elim
        | _ => trivial
      exact Or.inr ⟨inner, hstep, hfeeds.feeds, fun _ => hfeeds, congrArg Act.wal⟩

/-- A change of stage 3's side leaves the numbered records as they are. -/
theorem numbered_wal {wal : WalEngine} (hsame : wal.logbook = pipe.wal.logbook) :
    { pipe with wal := wal }.numbered = pipe.numbered :=
  congrArg (· ++ pipe.handRedo) hsame

theorem numbered_toLog {batch : Batch} (hhand : pipe.hand = some batch) :
    { pipe with
      hand := none
      wal := { pipe.wal with msgRx := pipe.wal.msgRx ++ [WalMsg.write batch] } }.numbered =
      pipe.numbered := by
  change (pipe.wal.history ++ (pipe.wal.msgRx ++ [WalMsg.write batch]).flatMap
    WalMsg.redo) ++ [] = _
  rw [numbered, handRedo, hhand, WalEngine.logbook, Option.toList_some, List.flatMap_singleton,
    List.flatMap_append, List.flatMap_singleton, List.append_nil, List.append_assoc]
  rfl

/-- A batch without a PUT has no records. -/
theorem numbered_toSlot (hflow : pipe.Flow) {batch : Batch} (hhand : pipe.hand = some batch)
    (hwork : batch.hasWalWork = false) :
    { pipe with
      hand := none
      recycled := some batch.recycle
      returned := pipe.returned ++ [batch] }.numbered = pipe.numbered := by
  have hnone : batch.redo = [] := by
    have hle : batch.lsnHi ≤ batch.lsnLow := by simpa [Batch.hasWalWork] using hwork
    have hlsn := (hflow.hand batch hhand).lsnHi
    apply List.eq_nil_of_length_eq_zero
    rw [Batch.redo, length_records]
    omega
  change pipe.wal.logbook ++ [] = _
  rw [numbered, handRedo, hhand, Option.toList_some, List.flatMap_singleton, hnone]

/-- `take` numbers the PUTs it cuts off, from the watermark on. -/
theorem numbered_take (hflow : pipe.Flow) {count : ℕ} {buffer batch : Batch} {pool : List Batch}
    {db : Db} {lsn : ℕ} (hfree : pipe.hand = none)
    (hbuffer : (pipe.recycled = some buffer ∧ pool = pipe.wal.recycleTx) ∨
      (pipe.recycled = none ∧ pipe.wal.recycleTx = buffer :: pool))
    (hbatch : applyBatch pipe.db
      { buffer with items := buffer.items ++ pipe.items.take count } pipe.lsn =
        .ok (db, batch, lsn)) :
    (pipe.taken count db lsn batch pool).numbered =
      pipe.numbered ++ records pipe.lsn (pipe.items.take count) := by
  unfold taken
  have hcut := hflow.cut hbuffer hbatch
  have hredo : (pipe.ack.advance batch .applied).1.redo =
      records pipe.lsn (pipe.items.take count) := by
    rw [Acker.advance_redo, Batch.redo, hcut.lsnLow, records_answered hcut.answered]
  have hbefore : pipe.numbered = pipe.wal.logbook := by
    rw [numbered, handRedo, hfree]
    exact List.append_nil _
  rw [hbefore, ← hredo]
  change pipe.wal.logbook ++ [(pipe.ack.advance batch .applied).1].flatMap Batch.redo = _
  rw [List.flatMap_singleton]

/-- What a change does to the executed requests, their records, the table and the
watermark; `cut` is what it executes, nothing unless it is a `take`. -/
theorem change_numbered {act : Act} (hflow : pipe.Flow) (hchange : Change pipe act after) :
    ∃ cut, after.applied = pipe.applied ++ cut ∧
      after.numbered = pipe.numbered ++ records pipe.lsn cut ∧
      after.db = applyRecords pipe.db (records pipe.lsn cut) ∧
      after.lsn = pipe.lsn + (puts cut).length := by
  have hstill : after.applied = pipe.applied → after.numbered = pipe.numbered →
      after.db = pipe.db → after.lsn = pipe.lsn →
      ∃ cut, after.applied = pipe.applied ++ cut ∧
        after.numbered = pipe.numbered ++ records pipe.lsn cut ∧
        after.db = applyRecords pipe.db (records pipe.lsn cut) ∧
        after.lsn = pipe.lsn + (puts cut).length := by
    intro happlied hnumbered hdb hlsn
    refine ⟨[], ?_, ?_, hdb, hlsn⟩
    · rw [happlied, List.append_nil]
    · rw [hnumbered]
      exact (List.append_nil _).symm
  cases hchange with
  | accept conn data =>
      exact hstill (List.take_append_of_le_length hflow.computed_le) rfl rfl rfl
  | @take count buffer batch pool db lsn hfree hsent hcount hbuffer hbatch =>
      have hcut := hflow.cut hbuffer hbatch
      refine ⟨pipe.items.take count, ?_, numbered_take hflow hfree hbuffer hbatch, hcut.db,
        hcut.lsn⟩
      change pipe.admitted.take (pipe.computed ++ batch.owed).length = _
      rw [(hcut.computed hflow hcount.2.2).1, List.take_add, ← hflow.items]
      rfl
  | reply houtbox => exact hstill rfl rfl rfl rfl
  | toLog hhand hsent hwork => exact hstill rfl (numbered_toLog hhand) rfl rfl
  | toSlot hhand hsent hwork => exact hstill rfl (numbered_toSlot hflow hhand hwork) rfl rfl
  | rotate boundaryLsn =>
      refine hstill rfl (numbered_wal ?_) rfl rfl
      simp [WalEngine.logbook, WalEngine.history, WalMsg.redo]
  | retire boundaryLsn =>
      refine hstill rfl (numbered_wal ?_) rfl rfl
      simp [WalEngine.logbook, WalEngine.history, WalMsg.redo]
  | walReply houtbox => exact hstill rfl rfl rfl rfl
  | walRecycle houtbox => exact hstill rfl rfl rfl rfl
  | wal hinner hstep =>
      exact hstill rfl (numbered_wal (WalEngine.step_logbook hinner hstep)) rfl rfl

/-- Stage 2's table and watermark are those of the numbered records, and stage 3
is fed the way it expects. -/
structure Redone (mode : Mode) (segs : SortedMap ℕ Bytes) (db : Db) (startLsn : ℕ)
    (pipe : Pipeline) : Prop where
  engine : Machine.Reach WalEngine.step PlainFeeds
    (start mode (Files.ofSegs segs) db startLsn).wal pipe.wal
  db : pipe.db = applyRecords db pipe.numbered
  lsn : pipe.lsn = startLsn + pipe.numbered.length

theorem redone_start (mode : Mode) (segs : SortedMap ℕ Bytes) (db : Db) (startLsn : ℕ) :
    Redone mode segs db startLsn (start mode (Files.ofSegs segs) db startLsn) :=
  ⟨Machine.Reach.start, rfl, rfl⟩

variable {mode : Mode} {segs : SortedMap ℕ Bytes} {db : Db} {startLsn : ℕ}

theorem redone_change {act : Act} (hflow : pipe.Flow)
    (hredone : Redone mode segs db startLsn pipe) (hguard : Serving pipe act)
    (hchange : Change pipe act after) : Redone mode segs db startLsn after := by
  obtain ⟨cut, -, hnumbered, hdb, hlsn⟩ := change_numbered hflow hchange
  refine ⟨?_, ?_, ?_⟩
  · rcases change_engine hflow hchange with hsame | ⟨inner, hstep, -, hplain, -⟩
    · rw [hsame]
      exact hredone.engine
    · exact hredone.engine.next (hplain hguard) hstep
  · rw [hdb, hnumbered, applyRecords_append, ← hredone.db]
  · rw [hlsn, hnumbered, List.length_append, length_records, ← Nat.add_assoc, ← hredone.lsn]

/-! ## Recovery after the run -/

/-- Everything stage 2 has executed is in the log, and every write is done. -/
def Idle (pipe : Pipeline) : Prop :=
  pipe.hand = none ∧ pipe.wal.msgRx = [] ∧ pipe.wal.shouldPark = true

instance (pipe : Pipeline) : Decidable pipe.Idle := inferInstanceAs (Decidable (_ ∧ _ ∧ _))

/-- The data directory as the next process finds it. -/
def directory (pipe : Pipeline) (snapshot : Option Bytes) : Dir :=
  ⟨snapshot, listing pipe.wal.files⟩

theorem Redone.numbered_of_idle (hidle : pipe.Idle) : pipe.numbered = pipe.wal.history := by
  rw [numbered, handRedo, hidle.1, WalEngine.logbook, hidle.2.1]
  simp

theorem mem_insert_entries {segs : SortedMap ℕ Bytes} {start : ℕ} {bytes : Bytes} {bound : ℕ}
    (hsegs : ∀ entry ∈ segs.entries, entry.1 ≤ bound) (hstart : start ≤ bound) :
    ∀ entry ∈ (segs.insert start bytes).entries, entry.1 ≤ bound := by
  intro entry hentry
  rcases SortedMap.mem_insertList hentry with rfl | hold
  · exact hstart
  · exact hsegs entry hold

/-- What a run over a clean directory has written when all its writes are done. -/
structure Ran (dir : Dir) (state : Replay) (pipe : Pipeline) : Prop where
  db : pipe.db = applyRecords state.db pipe.wal.history
  lsn : pipe.lsn = state.highest + 1 + pipe.wal.history.length
  lsns : pipe.wal.history.map Prod.fst =
    List.range' (state.highest + 1 + 1) pipe.wal.history.length
  good : ∀ rec ∈ pipe.wal.history,
    Fits rec.1 rec.2 ∧ GoodPut rec.2 ∧ state.highest + 1 < rec.1
  directory : pipe.directory dir.snapshot = ⟨dir.snapshot, dir.segs.insert (state.highest + 1)
    (baseOf dir.segs (state.highest + 1) ++ encodeAll pipe.wal.history)⟩

theorem boot_eq {mode : Mode} {dir : Dir} {first : Pipeline} {state : Replay}
    (hreplay : replayDir dir = .ok (state, .finished)) (hboot : boot mode dir = .ok first) :
    first = start mode (Files.ofSegs dir.segs) state.db (state.highest + 1) := by
  rw [boot, recover_of_replayDir hreplay, ok_bind] at hboot
  simpa using hboot.symm

theorem ran_of_idle {mode : Mode} {dir : Dir} {state : Replay}
    (hreach : Machine.Reach step Serving
      (start mode (Files.ofSegs dir.segs) state.db (state.highest + 1)) pipe)
    (hlsn : pipe.lsn < 2 ^ 64) (hidle : pipe.Idle) : Ran dir state pipe := by
  obtain ⟨-, hredone⟩ := reach_keeps (redone_start mode dir.segs state.db (state.highest + 1))
    (fun _ _ _ => redone_change) hreach
  obtain ⟨hsound, -, hjournal⟩ := WalEngine.journal_reach hredone.engine
  have hnumbered := Redone.numbered_of_idle hidle
  have hdb := hredone.db
  have hcount := hredone.lsn
  rw [hnumbered] at hdb hcount
  have hingested : pipe.wal.lastIngestedLsn = pipe.lsn := by
    rw [hjournal.ingested, hcount]
  refine ⟨hdb, hcount, hjournal.tiled.lsns, ?_, ?_⟩
  · exact hjournal.good (by rw [hingested]; exact hlsn) (le_refl _)
  · rw [directory, hjournal.listing_eq hsound hidle.2.2]

/-- The directory is replayed to its end, with the run's records behind the others. -/
theorem Ran.replayDir {dir : Dir} {state : Replay} (hran : Ran dir state pipe)
    (hreplay : replayDir dir = .ok (state, .finished))
    (htop : ∀ entry ∈ dir.segs.entries, entry.1 ≤ state.highest + 1) :
    Recover.replayDir (pipe.directory dir.snapshot) =
      .ok (state.extend pipe.wal.history, .finished) := by
  rw [hran.directory]
  exact replayDir_continue htop hreplay (Nat.le_succ _) hran.good

theorem Ran.highest {dir : Dir} {state : Replay} (hran : Ran dir state pipe) :
    (state.extend pipe.wal.history).highest =
      if pipe.wal.history.length = 0 then state.highest else pipe.lsn := by
  rw [Replay.extend, hran.lsns, foldl_max_range' (Nat.le_succ _), hran.lsn]

theorem Ran.names {dir : Dir} {state : Replay} (hran : Ran dir state pipe)
    (htop : ∀ entry ∈ dir.segs.entries, entry.1 ≤ state.highest + 1) :
    ∀ entry ∈ (pipe.directory dir.snapshot).segs.entries,
      entry.1 ≤ (state.extend pipe.wal.history).highest + 1 := by
  have hge : state.highest ≤ (state.extend pipe.wal.history).highest := by
    have hlsn := hran.lsn
    rw [hran.highest]
    split_ifs <;> omega
  rw [hran.directory]
  refine mem_insert_entries (fun entry hentry => ?_) (Nat.succ_le_succ hge)
  exact le_trans (htop entry hentry) (Nat.succ_le_succ hge)

/-- From any directory left by clean runs, with any requests, batches, short
writes and completion orders: when all writes are done, recovery returns stage
2's table, its watermark plus one if a PUT was applied, and the directory is
clean again. -/
theorem recover_redoes_run {mode : Mode} {dir : Dir} {first : Pipeline} (hclean : CleanDir dir)
    (hboot : boot mode dir = .ok first) (hreach : Machine.Reach step Serving first pipe)
    (hlsn : pipe.lsn < 2 ^ 64) (hidle : pipe.Idle) :
    CleanDir (pipe.directory dir.snapshot) ∧
      ∃ next, recover (pipe.directory dir.snapshot) = .ok (pipe.db, next) ∧
        (first.lsn < pipe.lsn → next = pipe.lsn + 1) := by
  obtain ⟨state, hreplay, htop⟩ := hclean
  have hfirst := boot_eq hreplay hboot
  subst hfirst
  have hran := ran_of_idle hreach hlsn hidle
  have hreplayed := hran.replayDir hreplay htop
  refine ⟨⟨_, hreplayed, hran.names htop⟩, (state.extend pipe.wal.history).highest + 1, ?_, ?_⟩
  · rw [recover_of_replayDir hreplayed, hran.db]
    rfl
  · intro hput
    have hne : pipe.wal.history.length ≠ 0 := by
      intro hzero
      rw [hran.lsn, hzero] at hput
      exact lt_irrefl _ hput
    rw [hran.highest, if_neg hne]

theorem cleanDir_empty : CleanDir ⟨none, SortedMap.empty⟩ := by
  refine ⟨⟨Db.new, 0, []⟩, rfl, ?_⟩
  intro entry hentry
  cases hentry

/-- Two batches in flight: the second lands first, the first in two pieces. -/
theorem recover_redoes_run_reordered :
    ∃ pipe next, Machine.Reach step Serving
        (start .noFsync (Files.ofSegs SortedMap.empty) Db.new 1) pipe ∧
      pipe.Idle ∧ pipe.lsn = 3 ∧
      recover (pipe.directory none) = .ok (pipe.db, next) ∧ next = 4 := by
  obtain ⟨pipe, hreach, hdone⟩ := @Machine.exists_reach _ _ step Serving
    (start .noFsync (Files.ofSegs SortedMap.empty) Db.new 1) _
    [.accept 7 (.smallPut 65 66), .take 1, .reply, .dispatch, .accept 7 (.smallPut 65 67),
      .take 1, .reply, .dispatch, .wal .poll, .wal .plan, .wal .reap, .wal .poll, .wal .plan,
      .wal .reap, .wal (.start 0), .wal (.start 1), .wal (.complete 1 27), .wal (.complete 0 5),
      .wal .poll, .wal .plan, .wal .reap, .wal .send, .wal .reap, .wal .reap, .wal .poll,
      .wal .plan, .wal .reap, .wal (.start 0), .wal (.complete 0 22), .wal .poll, .wal .plan,
      .wal .reap, .wal .send, .wal .reap]
    (fun pipe => decide (pipe.Idle ∧ pipe.lsn = 3)) (by decide +kernel)
  obtain ⟨hidle, hlsn⟩ : pipe.Idle ∧ pipe.lsn = 3 := of_decide_eq_true hdone
  obtain ⟨-, next, hrecover, hnext⟩ := @recover_redoes_run pipe .noFsync ⟨none, SortedMap.empty⟩
    (start .noFsync (Files.ofSegs SortedMap.empty) Db.new 1) cleanDir_empty rfl hreach
    (by rw [hlsn]; decide) hidle
  refine ⟨pipe, next, hreach, hidle, hlsn, hrecover, ?_⟩
  have hwatermark := hnext (by rw [hlsn]; decide)
  rwa [hlsn] at hwatermark

end Pipeline

end InMemoryDb
