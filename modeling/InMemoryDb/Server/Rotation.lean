import InMemoryDb.Server.RedoLog
import InMemoryDb.Server.Stage3.Archive
import InMemoryDb.Storage.SnapshotLog

/-!
# Rotation

Recovery reads the segments in the order of their names.  The segments cut the
log at LSNs and keep its order, so replaying one after another gives the records
in the order they were queued, as if there were one segment only.
-/

namespace InMemoryDb.Stage3

open SparseFile WalFormat Recover

/-- The records queued for a segment. -/
def recordsIn (queued : List Queued) (seg : ℕ) : List (ℕ × Bytes) :=
  (WalEngine.queuedIn queued seg).flatMap fun entry => entry.batch.redo

namespace WalEngine

variable {engine : WalEngine} {segs : SortedMap ℕ Bytes} {start : ℕ}

/-! ## What the directory holds -/

theorem Archive.encoded (harchive : Archive segs start engine) {entry : Queued}
    (hentry : entry ∈ engine.queued) : Encoded entry.batch := by
  obtain ⟨front, back, hsplit⟩ := List.append_of_mem hentry
  exact (harchive.shelved front entry back hsplit).encoded

theorem Archive.wholeOf_eq (harchive : Archive segs start engine) (seg : ℕ) :
    wholeOf segs engine.queued seg =
      baseOf segs seg ++ encodeAll (recordsIn engine.queued seg) := by
  rw [wholeOf, recordsIn, flatMap_out]
  intro entry hentry
  exact (harchive.encoded (List.mem_filter.mp hentry).1).out

/-- Once no write is in line, every segment is whole. -/
theorem Archive.listing_lookup (harchive : Archive segs start engine) (hsound : engine.Sound)
    (hholes : engine.Holes) (hdone : engine.WritesDone) {seg : ℕ} {bytes : Bytes}
    (hbytes : (listing engine.files).lookup seg = some bytes) :
    (∃ file, engine.files.lookup seg = some file) ∧ bytes = wholeOf segs engine.queued seg := by
  rw [listing, SortedMap.lookup_mapValues, Option.map_eq_some_iff] at hbytes
  obtain ⟨file, hfile, rfl⟩ := hbytes
  refine ⟨⟨file, hfile⟩, ?_⟩
  by_cases hactive : engine.seg.startLsn = seg
  · have hcache := hholes.cache_eq hsound hdone
    rw [disk, hactive, hfile, Option.getD_some] at hcache
    rw [hcache, contents_full, harchive.image, hactive]
  · rw [harchive.sealed seg file hactive hfile, contents_full]

/-- Every record can be redone by recovery. -/
theorem Archive.good (harchive : Archive segs start engine)
    (hlsn : engine.lastIngestedLsn < 2 ^ 64) :
    ∀ rec ∈ engine.history, Fits rec.1 rec.2 ∧ GoodPut rec.2 ∧ start < rec.1 := by
  intro rec hrec
  obtain ⟨entry, hentry, hmem⟩ := List.mem_flatMap.mp hrec
  obtain ⟨front, back, hsplit⟩ := List.append_of_mem hentry
  have hshelved := harchive.shelved front entry back hsplit
  obtain ⟨hput, hbound, hgt, hle⟩ := hshelved.encoded.records rec hmem
  have hlow := hshelved.lsnLow
  have hhi := harchive.lsnHi_le hentry
  have hmax : maxPayload + 8 < 2 ^ 32 := by decide
  exact ⟨⟨by omega, by omega⟩, hput, by omega⟩

theorem mem_recordsIn {queued : List Queued} {seg : ℕ} {rec : ℕ × Bytes}
    (hrec : rec ∈ recordsIn queued seg) : rec ∈ queued.flatMap fun entry => entry.batch.redo := by
  obtain ⟨entry, hentry, hmem⟩ := List.mem_flatMap.mp hrec
  exact List.mem_flatMap.mpr ⟨entry, (List.mem_filter.mp hentry).1, hmem⟩

theorem Archive.goodIn (harchive : Archive segs start engine)
    (hlsn : engine.lastIngestedLsn < 2 ^ 64) (seg : ℕ) :
    ∀ rec ∈ recordsIn engine.queued seg, Fits rec.1 rec.2 ∧ GoodPut rec.2 := by
  intro rec hrec
  obtain ⟨hfits, hput, -⟩ := harchive.good hlsn rec (mem_recordsIn hrec)
  exact ⟨hfits, hput⟩

/-! ## Replay -/

/-- Replay of whole segments, in any choice of them, redoes what the snapshot does
not cover. -/
theorem Archive.replaySegments_eq (harchive : Archive segs start engine)
    (hlsn : engine.lastIngestedLsn < 2 ^ 64) {snapLsn : ℕ} {entries : List (ℕ × Bytes)}
    (hwhole : ∀ entry ∈ entries, entry.2 = wholeOf segs engine.queued entry.1)
    (hskips : ∀ entry ∈ entries, Skips snapLsn (baseOf segs entry.1)) (state : Replay) :
    replaySegments snapLsn entries state =
      (state.extend (above snapLsn
        ((entries.map Prod.fst).flatMap (recordsIn engine.queued))), .finished) := by
  induction entries generalizing state with
  | nil => simp [replaySegments, Replay.extend, above, applyRecords]
  | cons entry entries ih =>
      obtain ⟨seg, bytes⟩ := entry
      have hbytes : bytes = baseOf segs seg ++ encodeAll (recordsIn engine.queued seg) := by
        rw [← harchive.wholeOf_eq]
        exact hwhole (seg, bytes) List.mem_cons_self
      have hsegment : replaySegment snapLsn bytes state =
          (state.extend (above snapLsn (recordsIn engine.queued seg)), .finished) := by
        have hrecords := @replaySegment_whole snapLsn _ (harchive.goodIn hlsn seg) [] state
        rw [List.append_nil, replaySegment_nil] at hrecords
        rw [hbytes, replaySegment_append_of_finished
          (hskips (seg, bytes) List.mem_cons_self state), hrecords]
      rw [replaySegments, hsegment]
      simp only
      rw [ih (fun other hother => hwhole other (List.mem_cons_of_mem _ hother))
        (fun other hother => hskips other (List.mem_cons_of_mem _ hother)), List.map_cons,
        List.flatMap_cons, above_append, Replay.extend_append]

/-- The segments of an increasing list hold the batches queued for them, in the
order they were queued. -/
theorem Archive.flatMap_recordsIn (harchive : Archive segs start engine) {names : List ℕ}
    (hnames : names.Pairwise (· < ·)) :
    names.flatMap (recordsIn engine.queued) =
      (engine.queued.filter fun entry => entry.seg ∈ names).flatMap
        fun entry => entry.batch.redo := by
  have hgroups := @Sequence.flatMap_groups Queued Queued.seg
    (engine.queued.filter fun entry => entry.seg ∈ names) (harchive.ordered.filter _) names hnames
    fun entry hentry => by simpa using (List.mem_filter.mp hentry).2
  have hsame : ∀ name ∈ names,
      (engine.queued.filter fun entry => entry.seg ∈ names).filter (fun entry => entry.seg = name) =
        queuedIn engine.queued name := by
    intro name hname
    rw [List.filter_filter]
    apply List.filter_congr
    intro entry _
    by_cases heq : entry.seg = name
    · simp [heq, hname]
    · simp [heq]
  rw [List.flatMap_congr hsame] at hgroups
  rw [← hgroups, List.flatMap_assoc]
  rfl

theorem Archive.flatMap_history (harchive : Archive segs start engine) {names : List ℕ}
    (hnames : names.Pairwise (· < ·)) (hall : ∀ entry ∈ engine.queued, entry.seg ∈ names) :
    names.flatMap (recordsIn engine.queued) = engine.history := by
  rw [harchive.flatMap_recordsIn hnames, history,
    List.filter_eq_self.mpr fun entry hentry => by simpa using hall entry hentry]

/-! ## From an empty directory -/

/-- Guard of runs with rotates and no retires. -/
def RotatesOnly (engine : WalEngine) (act : Act) : Prop :=
  RotateFeeds engine act ∧ ∀ boundaryLsn, act ≠ .arrive (.retire boundaryLsn)

instance (engine : WalEngine) : (act : Act) → Decidable (RotatesOnly engine act)
  | .arrive (.retire boundaryLsn) => isFalse fun h => h.2 boundaryLsn rfl
  | .arrive (.write batch) =>
      decidable_of_iff (RotateFeeds engine (.arrive (.write batch)))
        ⟨fun h => ⟨h, fun _ heq => by cases heq⟩, fun h => h.1⟩
  | .arrive (.rotate boundaryLsn) =>
      decidable_of_iff (RotateFeeds engine (.arrive (.rotate boundaryLsn)))
        ⟨fun h => ⟨h, fun _ heq => by cases heq⟩, fun h => h.1⟩
  | .poll => isTrue ⟨trivial, fun _ heq => by cases heq⟩
  | .plan => isTrue ⟨trivial, fun _ heq => by cases heq⟩
  | .reap => isTrue ⟨trivial, fun _ heq => by cases heq⟩
  | .drain => isTrue ⟨trivial, fun _ heq => by cases heq⟩
  | .wake => isTrue ⟨trivial, fun _ heq => by cases heq⟩
  | .start _ => isTrue ⟨trivial, fun _ heq => by cases heq⟩
  | .complete _ _ => isTrue ⟨trivial, fun _ heq => by cases heq⟩
  | .send => isTrue ⟨trivial, fun _ heq => by cases heq⟩
  | .lend => isTrue ⟨trivial, fun _ heq => by cases heq⟩
  | .slab _ => isTrue ⟨trivial, fun _ heq => by cases heq⟩

theorem rotatesOnly_of_plain {act : Act} (h : PlainFeeds engine act) : RotatesOnly engine act := by
  cases act with
  | arrive msg =>
      cases msg with
      | write batch => exact ⟨h, fun _ heq => by cases heq⟩
      | rotate boundaryLsn => exact h.elim
      | retire boundaryLsn => exact h.elim
  | _ => exact ⟨trivial, fun _ heq => by cases heq⟩

/-- Without retires nothing is ever removed. -/
theorem rotatesOnly_reach {depth : ℕ} {mode : Mode} {pool : List Batch}
    (htop : ∀ seg bytes, segs.lookup seg = some bytes → seg ≤ start)
    (hreach : Machine.Reach step RotatesOnly (new depth (Files.ofSegs segs) start mode pool)
      engine) :
    engine.Sound ∧ engine.Filled ∧ Archive segs start engine ∧ Present 0 engine := by
  obtain ⟨hsound, hfilled, -, harchive⟩ :=
    archive_reach htop (hreach.weaken fun _ _ hguard => hguard.1)
  refine ⟨hsound, hfilled, harchive, present_reach ?_ htop hreach⟩
  intro engine act hguard
  exact ⟨hguard.1, fun boundaryLsn heq => absurd heq (hguard.2 boundaryLsn)⟩

theorem baseOf_empty (seg : ℕ) : baseOf SortedMap.empty seg = [] := rfl

/-- From an empty directory, all segments replay to the queued records. -/
theorem Archive.replayDir_history (harchive : Archive SortedMap.empty start engine)
    (hpresent : Present 0 engine) (hsound : engine.Sound) (hholes : engine.Holes)
    (hdone : engine.WritesDone) (hlsn : engine.lastIngestedLsn < 2 ^ 64) :
    replayDir ⟨none, listing engine.files⟩ =
      .ok ((⟨Db.new, 0, []⟩ : Replay).extend engine.history, .finished) := by
  have hnames : ∀ entry ∈ engine.queued,
      entry.seg ∈ (listing engine.files).entries.map Prod.fst := by
    intro entry hentry
    obtain ⟨file, hfile⟩ := hpresent.files entry hentry (Nat.zero_le _)
    refine List.mem_map.mpr ⟨(entry.seg, contents file.cache), SortedMap.mem_entries.mpr ?_, rfl⟩
    rw [listing, SortedMap.lookup_mapValues, hfile]
    rfl
  have hwhole : ∀ entry ∈ (listing engine.files).entries,
      entry.2 = wholeOf SortedMap.empty engine.queued entry.1 := fun entry hentry =>
    (harchive.listing_lookup hsound hholes hdone (SortedMap.mem_entries.mp hentry)).2
  have hreplay := @Archive.replaySegments_eq engine SortedMap.empty start harchive hlsn 0
    (listing engine.files).entries hwhole (fun entry _ => skips_nil 0) ⟨Db.new, 0, []⟩
  have hall : above 0 engine.history = engine.history := by
    apply List.filter_eq_self.mpr
    intro rec hrec
    have hgt := (harchive.good hlsn rec hrec).2.2
    simpa using Nat.lt_of_le_of_lt (Nat.zero_le _) hgt
  rw [harchive.flatMap_history (SortedMap.keys_sorted _) hnames, hall] at hreplay
  rw [replayDir, loadSnapshot, Wire.ok_bind]
  simp only [hreplay, Wire.pure_eq_ok]

/-- A record is whole in the segment with the largest name below its LSN. -/
theorem Archive.record_placed (harchive : Archive SortedMap.empty start engine)
    (hpresent : Present 0 engine) (hsound : engine.Sound) (hholes : engine.Holes)
    (hdone : engine.WritesDone) {rec : ℕ × Bytes} (hrec : rec ∈ engine.history) :
    ∃ seg bytes, (listing engine.files).lookup seg = some bytes ∧ seg < rec.1 ∧
      (∀ other bytes', (listing engine.files).lookup other = some bytes' → other < rec.1 →
        other ≤ seg) ∧
      ∃ front back, bytes = encodeAll front ++ record rec.1 rec.2 ++ encodeAll back := by
  obtain ⟨entry, hentry, hmem⟩ := List.mem_flatMap.mp hrec
  obtain ⟨-, -, hgt, hle⟩ := (harchive.encoded hentry).records rec hmem
  obtain ⟨file, hfile⟩ := hpresent.files entry hentry (Nat.zero_le _)
  have hlookup : (listing engine.files).lookup entry.seg = some (contents file.cache) := by
    rw [listing, SortedMap.lookup_mapValues, hfile]
    rfl
  refine ⟨entry.seg, contents file.cache, hlookup, ?_, ?_, ?_⟩
  · exact lt_of_le_of_lt (harchive.below entry hentry) hgt
  · intro other bytes' hother hlt
    obtain ⟨⟨found, hfound⟩, -⟩ := harchive.listing_lookup hsound hholes hdone hother
    rcases harchive.cuts entry hentry other found hfound with hbelow | habove
    · exact hbelow
    · omega
  · have hbytes := (harchive.listing_lookup hsound hholes hdone hlookup).2
    rw [harchive.wholeOf_eq, baseOf_empty, List.nil_append] at hbytes
    have hin : rec ∈ recordsIn engine.queued entry.seg :=
      List.mem_flatMap.mpr ⟨entry, List.mem_filter.mpr ⟨hentry, by simp⟩, hmem⟩
    obtain ⟨front, back, hsplit⟩ := List.append_of_mem hin
    refine ⟨front, back, ?_⟩
    rw [hbytes, hsplit, encodeAll_append]
    simp [encodeAll]

/-- A submitted write is for the segment and the place its batch was queued with. -/
theorem Sound.submitted (hsound : engine.Sound) {item : Entry}
    (hitem : item ∈ engine.ring.entries ++ engine.ring.sq) {seg offset : ℕ} {data : Bytes}
    (hsqe : item.sqe = .write seg offset data) :
    ∃ op, engine.inflight.lookup item.idx = some (.write op) ∧
      ∃ entry ∈ engine.queued, entry.batch.lsnLow = op.data.lsnLow ∧
        entry.batch.out = op.data.out ∧ seg = entry.seg ∧ offset = entry.offset + op.done ∧
        data = (entry.batch.out.drop op.done).take data.length ∧
        op.done + data.length ≤ entry.batch.out.length := by
  obtain ⟨op, hwork, hop, hseg, hoffset, hdata, hbound⟩ := hsound.exists_op hitem hsqe
  obtain ⟨entry, hentry, hown, hplace, -, hout, hlow, -⟩ :=
    (hsound.tracked.writes op hop).1.queued
  refine ⟨op, hwork, entry, hentry, hlow, hout, ?_, ?_, ?_, ?_⟩
  · rw [hseg, hown]
  · rw [hoffset, hplace]
  · rw [hout]
    exact hdata
  · rw [hout]
    exact hbound

/-- Rotation is transparent.  From an empty directory, with rotates at the LSN sent
last, in any order of completions: no write is submitted for another segment or
place than its batch was queued with; once all writes are done, every record is
whole in the last segment that starts below it, and the directory replays to the
records in the order they were queued, as that of any run without rotates over the
same records does. -/
theorem rotation_transparent {depth : ℕ} {mode : Mode} {pool : List Batch}
    (hreach : Machine.Reach step RotatesOnly
      (new depth (Files.ofSegs SortedMap.empty) start mode pool) engine) :
    (∀ item ∈ engine.ring.entries ++ engine.ring.sq, ∀ seg offset data,
      item.sqe = .write seg offset data →
        ∃ op, engine.inflight.lookup item.idx = some (.write op) ∧
          ∃ entry ∈ engine.queued, entry.batch.lsnLow = op.data.lsnLow ∧
            entry.batch.out = op.data.out ∧ seg = entry.seg ∧
            offset = entry.offset + op.done ∧
            data = (entry.batch.out.drop op.done).take data.length ∧
            op.done + data.length ≤ entry.batch.out.length) ∧
    (engine.WritesDone →
      (∀ rec ∈ engine.history, ∃ seg bytes, (listing engine.files).lookup seg = some bytes ∧
        seg < rec.1 ∧
        (∀ other bytes', (listing engine.files).lookup other = some bytes' → other < rec.1 →
          other ≤ seg) ∧
        ∃ front back, bytes = encodeAll front ++ record rec.1 rec.2 ++ encodeAll back) ∧
      (engine.lastIngestedLsn < 2 ^ 64 →
        replayDir ⟨none, listing engine.files⟩ =
          .ok ((⟨Db.new, 0, []⟩ : Replay).extend engine.history, .finished) ∧
        ∀ (depth' : ℕ) (mode' : Mode) (pool' : List Batch) (engine' : WalEngine),
          Machine.Reach step PlainFeeds
            (new depth' (Files.ofSegs SortedMap.empty) start mode' pool') engine' →
          engine'.WritesDone → engine'.history = engine.history →
            replayDir ⟨none, listing engine'.files⟩ = replayDir ⟨none, listing engine.files⟩ ∧
            recover ⟨none, listing engine'.files⟩ = recover ⟨none, listing engine.files⟩)) := by
  have htop : ∀ seg bytes, (SortedMap.empty : SortedMap ℕ Bytes).lookup seg = some bytes →
      seg ≤ start := fun _ _ h => by cases h
  obtain ⟨hsound, hfilled, harchive, hpresent⟩ := rotatesOnly_reach htop hreach
  refine ⟨?_, ?_⟩
  · exact fun item hitem seg offset data hsqe => hsound.submitted hitem hsqe
  · intro hdone
    refine ⟨fun rec hrec => harchive.record_placed hpresent hsound hfilled.holes hdone hrec, ?_⟩
    intro hlsn
    have hreplay := harchive.replayDir_history hpresent hsound hfilled.holes hdone hlsn
    refine ⟨hreplay, ?_⟩
    intro depth' mode' pool' engine' hreach' hdone' hsame
    obtain ⟨hsound', hfilled', harchive', hpresent'⟩ :=
      rotatesOnly_reach htop (hreach'.weaken fun _ _ => rotatesOnly_of_plain)
    have hlsn' : engine'.lastIngestedLsn < 2 ^ 64 := by
      rw [harchive'.ingested, hsame, ← harchive.ingested]
      exact hlsn
    have hreplay' := harchive'.replayDir_history hpresent' hsound' hfilled'.holes hdone' hlsn'
    rw [hsame, ← hreplay] at hreplay'
    refine ⟨hreplay', ?_⟩
    rw [recover, recover, hreplay']

/-- One PUT, a rotate, one PUT: two segments that recover like the single one of the
run without the rotate. -/
theorem rotation_transparent_two :
    ∃ engine engine', Machine.Reach step RotatesOnly
        (new 128 (Files.ofSegs SortedMap.empty) 1 .noFsync []) engine ∧
      Machine.Reach step PlainFeeds
        (new 128 (Files.ofSegs SortedMap.empty) 1 .noFsync []) engine' ∧
      engine.WritesDone ∧ engine.history.length = 2 ∧
      (listing engine.files).entries.map Prod.fst = [1, 2] ∧
      (listing engine'.files).entries.map Prod.fst = [1] ∧
      recover ⟨none, listing engine'.files⟩ = recover ⟨none, listing engine.files⟩ := by
  let first : Batch := ⟨[⟨.smallPut 65 66, 7, none, 0⟩], [], 1, 2, 0⟩
  let second : Batch := ⟨[⟨.smallPut 65 67, 7, none, 1⟩], [], 2, 3, 1⟩
  let records : List (ℕ × Bytes) := [(2, [1, 1, 0, 0, 0, 65, 66]), (3, [1, 1, 0, 0, 0, 65, 67])]
  obtain ⟨engine, hreach, hrun⟩ := @Machine.exists_reach _ _ step RotatesOnly
    (new 128 (Files.ofSegs SortedMap.empty) 1 .noFsync []) _
    [.arrive (.write first), .poll, .plan, .reap, .arrive (.rotate 2), .arrive (.write second),
      .poll, .drain, .start 0, .complete 0 27, .wake, .reap, .send, .reap, .drain, .plan, .reap,
      .poll, .plan, .reap, .start 0, .complete 0 27, .poll, .plan, .reap, .send, .reap]
    (fun engine => engine.shouldPark = true ∧ engine.history = records ∧
      engine.lastIngestedLsn = 3 ∧ (listing engine.files).entries.map Prod.fst = [1, 2])
    (by decide +kernel)
  obtain ⟨hidle, hhistory, hlast, hnames⟩ : engine.shouldPark = true ∧ engine.history = records ∧
      engine.lastIngestedLsn = 3 ∧ (listing engine.files).entries.map Prod.fst = [1, 2] :=
    of_decide_eq_true hrun
  obtain ⟨engine', hreach', hrun'⟩ := @Machine.exists_reach _ _ step PlainFeeds
    (new 128 (Files.ofSegs SortedMap.empty) 1 .noFsync []) _
    [.arrive (.write first), .poll, .plan, .reap, .arrive (.write second), .poll, .plan, .reap,
      .start 0, .start 1, .complete 1 27, .complete 0 27, .poll, .plan, .reap, .send, .reap,
      .send, .reap]
    (fun engine => engine.shouldPark = true ∧ engine.history = records ∧
      (listing engine.files).entries.map Prod.fst = [1])
    (by decide +kernel)
  obtain ⟨hidle', hhistory', hnames'⟩ : engine'.shouldPark = true ∧ engine'.history = records ∧
      (listing engine'.files).entries.map Prod.fst = [1] := of_decide_eq_true hrun'
  have hdone := writesDone_of_park hidle
  obtain ⟨-, hall⟩ := rotation_transparent hreach
  obtain ⟨-, hreplay⟩ := hall hdone
  obtain ⟨-, htwin⟩ := hreplay (by rw [hlast]; decide)
  obtain ⟨-, hrecover⟩ := htwin _ _ _ engine' hreach' (writesDone_of_park hidle')
    (hhistory'.trans hhistory.symm)
  exact ⟨engine, engine', hreach, hreach', hdone, by rw [hhistory]; rfl, hnames, hnames', hrecover⟩

end WalEngine

end InMemoryDb.Stage3
