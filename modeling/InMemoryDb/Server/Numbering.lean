import InMemoryDb.Server.RedoLog
import InMemoryDb.Storage.Scan

/-!
# Two stages, one numbering

No LSN travels with a request.  Stage 2 numbers the PUTs of a batch when it
executes them, stage 3 numbers them again when it encodes the batch, and batches
without a PUT never reach stage 3.  In every run, with any rotate and retire
messages in between, the two count alike.
-/

namespace InMemoryDb

open WalFormat Recover Stage2 Stage3

/-- The records are the PUTs, numbered one after another. -/
theorem records_eq_mapIdx (lsn : ℕ) (items : List Request) :
    records lsn items =
      (puts items).mapIdx fun number req => (lsn + (number + 1), req.data.bytes) := by
  induction items generalizing lsn with
  | nil => rfl
  | cons req items ih =>
      by_cases hop : req.op = .put
      · have hputs : puts (req :: items) = req :: puts items := by simp [puts, hop]
        rw [records, if_pos hop, hputs, List.mapIdx_cons, ih]
        refine congrArg₂ List.cons rfl ?_
        apply List.mapIdx_eq_mapIdx_iff.mpr
        intro number hnumber
        exact congrArg₂ Prod.mk (by omega) rfl
      · have hputs : puts (req :: items) = puts items := by simp [puts, hop]
        rw [records, if_neg hop, hputs, ih]

/-! ## Batches on their way -/

/-- The batch of a write message. -/
def WalMsg.batch? : WalMsg → Option Batch
  | .write batch => some batch
  | _ => none

theorem flatMap_redo (msgs : List WalMsg) :
    msgs.flatMap WalMsg.redo = (msgs.filterMap WalMsg.batch?).flatMap Batch.redo := by
  induction msgs with
  | nil => rfl
  | cons msg msgs ih =>
      cases msg with
      | write batch => exact congrArg (batch.redo ++ ·) ih
      | rotate boundaryLsn => exact ih
      | retire boundaryLsn => exact ih

/-- A batch whose LSNs are those of its PUTs, with an empty redo buffer. -/
def Batch.Numbered (batch : Batch) : Prop :=
  batch.out = [] ∧ batch.lsnHi = batch.lsnLow + (puts batch.items).length

/-- Each batch starts at the LSN the one before it reached. -/
def Chained : ℕ → List Batch → ℕ → Prop
  | low, [], high => low = high
  | low, batch :: batches, high =>
      batch.lsnLow = low ∧ batch.Numbered ∧ Chained batch.lsnHi batches high

theorem chained_append {low high : ℕ} {front back : List Batch} :
    Chained low (front ++ back) high ↔
      ∃ middle, Chained low front middle ∧ Chained middle back high := by
  induction front generalizing low with
  | nil => simp [Chained]
  | cons batch front ih =>
      rw [List.cons_append, Chained, ih]
      constructor
      · rintro ⟨hlow, hnumbered, middle, hfront, hback⟩
        exact ⟨middle, ⟨hlow, hnumbered, hfront⟩, hback⟩
      · rintro ⟨middle, ⟨hlow, hnumbered, hfront⟩, hback⟩
        exact ⟨hlow, hnumbered, middle, hfront, hback⟩

theorem chained_singleton {low high : ℕ} {batch : Batch} :
    Chained low [batch] high ↔ batch.lsnLow = low ∧ batch.Numbered ∧ batch.lsnHi = high :=
  Iff.rfl

/-- Both assertions of `handle_batch` hold for a batch that is next in the chain. -/
theorem Chained.handleBatch {engine : WalEngine} {batch : Batch} {batches : List Batch} {high : ℕ}
    (hchain : Chained engine.lastIngestedLsn (batch :: batches) high) :
    batch.lsnLow = engine.lastIngestedLsn ∧
      (WalEngine.encodeItems batch.out batch.lsnLow batch.items).2 = batch.lsnHi ∧
      ∃ after, engine.handleBatch batch = .ok after := by
  obtain ⟨hlow, ⟨-, hhi⟩, -⟩ := hchain
  have hencoded : (WalEngine.encodeItems batch.out batch.lsnLow batch.items).2 = batch.lsnHi := by
    rw [WalEngine.encodeItems_eq, hhi]
  refine ⟨hlow, hencoded, ?_⟩
  rw [WalEngine.handleBatch, if_neg (not_not_intro hlow)]
  simp only
  rw [if_neg (not_not_intro hencoded)]
  exact ⟨_, rfl⟩

/-! ## Runs -/

namespace Stage3.WalEngine

/-- Everything stage 3 has encoded, in order. -/
def encoded (engine : WalEngine) : Bytes := engine.queued.flatMap fun entry => entry.batch.out

theorem queued_encoded {engine after : WalEngine} (hsound : engine.Sound)
    (hqueued : ∀ entry ∈ engine.queued, Encoded entry.batch)
    (hmove : Move Anything engine after) : ∀ entry ∈ after.queued, Encoded entry.batch := by
  rcases move_steady hsound hmove with
    ⟨batch, entry, rest, -, rfl, -, -, -, hencoded, -⟩ | ⟨boundaryLsn, rfl, -, -⟩ | hsteady
  · intro other hother
    rcases List.mem_append.mp hother with hold | hnew
    · exact hqueued other hold
    · rw [List.mem_singleton.mp hnew]
      exact hencoded
  · exact hqueued
  · rw [hsteady.queued]
    exact hqueued

/-- In every run every batch is encoded once, record by record. -/
theorem encoded_reach {depth : ℕ} {segs : SortedMap ℕ Bytes} {startLsn : ℕ} {mode : Mode}
    {pool : List Batch} {engine : WalEngine}
    (hreach : Machine.Reach step Feeds (new depth (Files.ofSegs segs) startLsn mode pool)
      engine) : ∀ entry ∈ engine.queued, Encoded entry.batch := by
  refine (reach_keeps ?_ (fun _ _ => queued_encoded) hreach).2
  intro entry hentry
  cases hentry

end Stage3.WalEngine

namespace Pipeline

variable {pipe after : Pipeline} {mode : Mode} {segs : SortedMap ℕ Bytes} {db : Db} {startLsn : ℕ}

/-- The batches between the two stages: those in the channel, then the one in
stage 2's hands. -/
def unread (pipe : Pipeline) : List Batch :=
  pipe.wal.msgRx.filterMap WalMsg.batch? ++ pipe.hand.toList

/-- Stage 2 has counted from `startLsn`, and stage 3 will count the same. -/
structure Agreed (mode : Mode) (segs : SortedMap ℕ Bytes) (db : Db) (startLsn : ℕ)
    (pipe : Pipeline) : Prop where
  engine : Machine.Reach WalEngine.step Feeds
    (start mode (Files.ofSegs segs) db startLsn).wal pipe.wal
  numbered : pipe.numbered = records startLsn pipe.applied
  lsn : pipe.lsn = startLsn + (puts pipe.applied).length
  chained : Chained pipe.wal.lastIngestedLsn pipe.unread pipe.lsn

theorem agreed_start (mode : Mode) (segs : SortedMap ℕ Bytes) (db : Db) (startLsn : ℕ) :
    Agreed mode segs db startLsn (start mode (Files.ofSegs segs) db startLsn) :=
  ⟨Machine.Reach.start, rfl, rfl, rfl⟩

/-- Taking a message from the channel is taking the first batch of the chain. -/
theorem chained_poll {wal : WalEngine} {msg : WalMsg} {rest : List WalMsg} {high : ℕ}
    (hmsg : pipe.wal.msgRx = msg :: rest) (hrest : wal.msgRx = rest)
    (hreach : wal.lastIngestedLsn = msg.reach pipe.wal.lastIngestedLsn)
    (hchain : Chained pipe.wal.lastIngestedLsn pipe.unread high) :
    Chained wal.lastIngestedLsn ({ pipe with wal := wal } : Pipeline).unread high := by
  change Chained wal.lastIngestedLsn
    (wal.msgRx.filterMap WalMsg.batch? ++ pipe.hand.toList) high
  rw [unread, hmsg] at hchain
  rw [hrest, hreach]
  cases msg with
  | write batch => exact hchain.2.2
  | rotate boundaryLsn => exact hchain
  | retire boundaryLsn => exact hchain

theorem unread_control {msg : WalMsg} (hmsg : msg.batch? = none) :
    ({ pipe with wal := { pipe.wal with msgRx := pipe.wal.msgRx ++ [msg] } } : Pipeline).unread =
      pipe.unread := by
  change (pipe.wal.msgRx ++ [msg]).filterMap WalMsg.batch? ++ pipe.hand.toList = _
  rw [List.filterMap_append, List.filterMap_cons_none hmsg, List.filterMap_nil, List.append_nil]
  rfl

theorem chained_change {act : Act} (hflow : pipe.Flow)
    (hchain : Chained pipe.wal.lastIngestedLsn pipe.unread pipe.lsn)
    (hchange : Change pipe act after) :
    Chained after.wal.lastIngestedLsn after.unread after.lsn := by
  cases hchange with
  | accept conn data => exact hchain
  | @take count buffer batch pool db lsn hfree hsent hcount hbuffer hbatch =>
      -- the batch is numbered from the watermark on, which the chain has reached
      have hcut := hflow.cut hbuffer hbatch
      have hexecuted := hcut.executed pipe.ack
      rw [unread, hfree, Option.toList_none, List.append_nil] at hchain
      refine chained_append.mpr ⟨pipe.lsn, hchain, chained_singleton.mpr ⟨?_, ?_, ?_⟩⟩
      · rw [Acker.advance_lsnLow]
        exact hcut.lsnLow
      · exact ⟨hexecuted.out, hexecuted.lsnHi⟩
      · rw [Acker.advance_lsnHi]
        exact hcut.lsnHi
  | reply houtbox => exact hchain
  | @toLog batch hhand hsent hwork =>
      change Chained pipe.wal.lastIngestedLsn
        ((pipe.wal.msgRx ++ [WalMsg.write batch]).filterMap WalMsg.batch? ++ []) pipe.lsn
      rw [unread, hhand] at hchain
      rw [List.append_nil, List.filterMap_append]
      exact hchain
  | @toSlot batch hhand hsent hwork =>
      -- a batch without a PUT ends where it starts, so the chain closes without it
      change Chained pipe.wal.lastIngestedLsn
        (pipe.wal.msgRx.filterMap WalMsg.batch? ++ []) pipe.lsn
      rw [unread, hhand] at hchain
      obtain ⟨middle, hfront, hbatch⟩ := chained_append.mp hchain
      obtain ⟨hlow, ⟨-, hhi⟩, hhigh⟩ := chained_singleton.mp hbatch
      have hle : batch.lsnHi ≤ batch.lsnLow := by simpa [Batch.hasWalWork] using hwork
      have hclose : middle = pipe.lsn := by omega
      rw [List.append_nil, ← hclose]
      exact hfront
  | rotate boundaryLsn =>
      rw [@unread_control pipe (.rotate boundaryLsn) rfl]
      exact hchain
  | retire boundaryLsn =>
      rw [@unread_control pipe (.retire boundaryLsn) rfl]
      exact hchain
  | walReply houtbox => exact hchain
  | walRecycle houtbox => exact hchain
  | @wal inner wal hinner hstep =>
      rcases WalEngine.step_channel hstep with ⟨msg, rfl, -⟩ |
        ⟨msg, rest, -, hmsg, hrest, hreach, -⟩ | ⟨hsame, hingested, -⟩
      · exact hinner.elim
      · exact chained_poll hmsg hrest hreach hchain
      · change Chained wal.lastIngestedLsn
          (wal.msgRx.filterMap WalMsg.batch? ++ pipe.hand.toList) pipe.lsn
        rw [hsame, hingested]
        exact hchain

theorem agreed_change {act : Act} (hflow : pipe.Flow) (hagreed : Agreed mode segs db startLsn pipe)
    (hchange : Change pipe act after) : Agreed mode segs db startLsn after := by
  obtain ⟨cut, happlied, hnumbered, -, hlsn⟩ := change_numbered hflow hchange
  refine ⟨?_, ?_, ?_, chained_change hflow hagreed.chained hchange⟩
  · rcases change_engine hflow hchange with hsame | ⟨inner, hstep, hfeeds, -⟩
    · rw [hsame]
      exact hagreed.engine
    · exact hagreed.engine.next hfeeds hstep
  · rw [hnumbered, happlied, records_append, ← hagreed.lsn, hagreed.numbered]
  · have hputs : puts after.applied = puts pipe.applied ++ puts cut := by
      rw [happlied]
      exact List.filter_append _ _
    rw [hlsn, hputs, List.length_append, hagreed.lsn, Nat.add_assoc]

/-- The records stage 3 has encoded fit the format as long as the watermark does. -/
theorem Agreed.fits (hagreed : Agreed mode segs db startLsn pipe) (hlsn : pipe.lsn < 2 ^ 64) :
    ∀ rec ∈ pipe.wal.history, Fits rec.1 rec.2 := by
  intro rec hrec
  have hmem : rec ∈ records startLsn pipe.applied := by
    rw [← hagreed.numbered]
    exact List.mem_append_left _ (List.mem_append_left _ hrec)
  obtain ⟨-, hle, req, -, -, hbody⟩ := mem_records hmem
  have hbound := req.data.bounded
  rw [hagreed.lsn] at hlsn
  simp only [maxPayload] at hbound
  refine ⟨by omega, ?_⟩
  rw [hbody]
  omega

theorem agreed_reach {guard : Pipeline → Act → Prop}
    (hreach : Machine.Reach step guard (start mode (Files.ofSegs segs) db startLsn) pipe) :
    pipe.Flow ∧ Agreed mode segs db startLsn pipe :=
  reach_keeps (agreed_start mode segs db startLsn)
    (fun _ _ _ hflow hagreed _ => agreed_change hflow hagreed) hreach

/-- In every run of the pipeline, for any start LSN, requests, batches and
interleaved rotate and retire messages: both assertions of `handle_batch` hold
for the batch stage 3 receives next, and the PUTs stage 2 has applied, numbered
from the start LSN on, are the records stage 3 has encoded followed by those of
the batches it has not received. -/
theorem numbering_agrees
    (hreach : Machine.Reach step (fun _ _ => True) (start mode (Files.ofSegs segs) db startLsn)
      pipe) (hlsn : pipe.lsn < 2 ^ 64) :
    (∀ batch rest, pipe.wal.msgRx = .write batch :: rest →
      batch.lsnLow = pipe.wal.lastIngestedLsn ∧
        (WalEngine.encodeItems batch.out batch.lsnLow batch.items).2 = batch.lsnHi ∧
        ∃ after, { pipe.wal with msgRx := rest }.handleBatch batch = .ok after) ∧
      (scan pipe.wal.encoded).ended = .finished ∧
      (scan pipe.wal.encoded).records ++ pipe.unread.flatMap Batch.redo =
        (puts pipe.applied).mapIdx fun number req =>
          (startLsn + (number + 1), req.data.bytes) := by
  obtain ⟨-, hagreed⟩ := agreed_reach hreach
  refine ⟨?_, ?_⟩
  · intro batch rest hmsg
    have hchain := hagreed.chained
    rw [unread, hmsg] at hchain
    exact @Chained.handleBatch { pipe.wal with msgRx := rest } _ _ _ hchain
  · have hencoded : pipe.wal.encoded = encodeAll pipe.wal.history :=
      flatMap_out fun entry hentry => (WalEngine.encoded_reach hagreed.engine entry hentry).out
    have hscan := scan_encodeAll (hagreed.fits hlsn) []
    rw [List.append_nil, scan_nil, List.append_nil] at hscan
    rw [hencoded, hscan]
    refine ⟨rfl, ?_⟩
    rw [← records_eq_mapIdx, ← hagreed.numbered, numbered, WalEngine.logbook, handRedo, unread,
      List.flatMap_append, ← flatMap_redo, List.append_assoc]

/-- A PUT, a batch without one, a rotate, and a second PUT that stage 3 is about to
receive: the run started at 41. -/
theorem numbering_agrees_rotated :
    ∃ pipe, Machine.Reach step (fun _ _ => True)
        (start .noFsync (Files.ofSegs SortedMap.empty) Db.new 41) pipe ∧
      pipe.lsn = 43 ∧
      (scan pipe.wal.encoded).records ++ pipe.unread.flatMap Batch.redo =
        [(42, (Payload.smallPut 65 66).bytes), (43, (Payload.smallPut 65 67).bytes)] ∧
      ∃ batch, pipe.wal.msgRx = [.write batch] ∧ batch.lsnLow = pipe.wal.lastIngestedLsn := by
  obtain ⟨pipe, hreach, hdone⟩ := @Machine.exists_reach _ _ step (fun _ _ => True)
    (start .noFsync (Files.ofSegs SortedMap.empty) Db.new 41) _
    [.accept 7 (.smallPut 65 66), .take 1, .reply, .dispatch, .accept 7 (.smallGet 65), .take 1,
      .reply, .dispatch, .rotate 42, .accept 7 (.smallPut 65 67), .take 1, .reply, .dispatch,
      .wal .poll, .wal .plan, .wal .reap, .wal .poll, .wal .drain, .wal (.start 0),
      .wal (.complete 0 27), .wal .wake, .wal .reap, .wal .send, .wal .reap, .wal .drain]
    (fun pipe => decide (pipe.lsn = 43 ∧
      pipe.applied.map Request.data = [.smallPut 65 66, .smallGet 65, .smallPut 65 67] ∧
      pipe.wal.msgRx.map (fun msg => msg.batch?.isSome) = [true]))
    (by decide +kernel)
  obtain ⟨hlsn, happlied, hqueue⟩ : pipe.lsn = 43 ∧ pipe.applied.map Request.data =
      [.smallPut 65 66, .smallGet 65, .smallPut 65 67] ∧
      pipe.wal.msgRx.map (fun msg => msg.batch?.isSome) = [true] := of_decide_eq_true hdone
  obtain ⟨batch, hmsg⟩ : ∃ batch, pipe.wal.msgRx = [.write batch] := by
    obtain ⟨msg, hone, hbatch⟩ := List.map_eq_singleton_iff.mp hqueue
    cases msg with
    | write batch => exact ⟨batch, hone⟩
    | rotate boundaryLsn => cases hbatch
    | retire boundaryLsn => cases hbatch
  obtain ⟨hnext, -, hrecords⟩ := numbering_agrees hreach (by rw [hlsn]; decide)
  refine ⟨pipe, hreach, hlsn, ?_, batch, hmsg, (hnext batch [] hmsg).1⟩
  obtain ⟨first, second, third, hthree, hfirst, hsecond, hthird⟩ :
      ∃ first second third, pipe.applied = [first, second, third] ∧
        first.data = .smallPut 65 66 ∧ second.data = .smallGet 65 ∧
        third.data = .smallPut 65 67 := by
    simpa [List.map_eq_cons_iff] using happlied
  have hputs : puts pipe.applied = [first, third] := by
    rw [hthree]
    simp only [puts, Request.op, List.filter_cons, hfirst, hsecond, hthird]
    rfl
  rw [hrecords, hputs]
  simp [hfirst, hthird]

end Pipeline

end InMemoryDb
