import InMemoryDb.Server.Fronts
import InMemoryDb.Server.Retire
import InMemoryDb.Server.Stage3.PowerLoss

/-!
# A process crash after an acknowledgement at `Written`

Writes complete in any order and each batch is acknowledged on its own completion.
Recovery stops at the first hole, so a batch that overtook an earlier one is lost
with the process although its response was sent.  As long as no completion is
reaped while an earlier batch is still in line, everything acknowledged at
`Written` is replayed.  What else the crash leaves, fronts of batches with zeros
behind them, never takes recovery down.
-/

namespace InMemoryDb.Stage3

open SparseFile WalFormat Recover

/-- What a segment may read back as when the process dies: the bytes of completed
writes are kept, any other byte is zero or missing. -/
def ProcessCrash (cache : Sparse UInt8) (bytes : Bytes) : Prop := PowerLoss ⟨cache, cache⟩ bytes

/-- The harshest crash: whatever is not written reads as zero. -/
theorem processCrash_contents {cache : Sparse UInt8} : ProcessCrash cache (contents cache) :=
  powerLoss_stable (Grows.refl _)

/-- The file reads as it would have before the crash. -/
theorem ProcessCrash.eq_window {cache : Sparse UInt8} {bytes : Bytes}
    (hcrash : ProcessCrash cache bytes) : bytes = window cache 0 bytes.length := by
  apply List.ext_getElem?
  intro index
  by_cases hindex : index < bytes.length
  · rw [getElem?_window cache 0 hindex, Nat.zero_add]
    by_cases hheld : ∃ value, Holds cache index value
    · obtain ⟨value, hvalue⟩ := hheld
      rw [hcrash.kept index value hvalue, readAt_of_holds hvalue]
    · rw [readAt_of_hole fun value hvalue => hheld ⟨value, hvalue⟩,
        List.getElem?_eq_getElem hindex]
      rcases hcrash.other index _ (List.getElem?_eq_getElem hindex) with hzero | hvalue
      · rw [hzero]
        rfl
      · exact absurd ⟨_, hvalue⟩ hheld
  · rw [List.getElem?_eq_none (not_lt.mp hindex), List.getElem?_eq_none (by simpa using hindex)]

namespace WalEngine

variable {engine after : WalEngine} {segs : SortedMap ℕ Bytes} {start : ℕ}

/-- `reap_cqes` comes to the completion of a whole write while a batch with lower
LSNs is still in line. -/
def overtakes (engine : WalEngine) : Bool :=
  match engine.nextWritten with
  | some batch => engine.line.tail.any (IoWork.startsBelow batch.lsnHi)
  | none => false

/-- Whatever was acknowledged at `Written` was queued, and no write of a lower LSN is
left in line. -/
def InOrder (engine : WalEngine) : Prop :=
  ∀ ack ∈ engine.acked, ack.point = .written →
    (∃ entry ∈ engine.queued, entry.batch.redo = ack.batch.redo ∧
      entry.batch.lsnHi = ack.batch.lsnHi) ∧
    ∀ op, .write op ∈ engine.line → ack.batch.lsnHi ≤ op.data.lsnLow

/-- The batch whose write is reaped next was queued. -/
theorem nextWritten_queued (hsound : engine.Sound) {batch : Batch}
    (hnext : engine.nextWritten = some batch) :
    ∃ entry ∈ engine.queued, entry.batch.redo = batch.redo ∧ entry.batch.lsnHi = batch.lsnHi := by
  unfold nextWritten at hnext
  split at hnext
  next => cases hnext
  next cqe rest htodo =>
    split at hnext
    next op hwork =>
      split_ifs at hnext with hfull
      simp only [Option.some.injEq] at hnext
      obtain ⟨hplaced, -⟩ :=
        hsound.tracked.writes op (mem_line_of_lookup hsound.ringed.keyed hwork)
      obtain ⟨entry, hentry, -, -, hredo, -, -, hhi⟩ := hplaced.queued
      exact ⟨entry, hentry, by rw [← hnext]; exact hredo, by rw [← hnext]; exact hhi⟩
    next => cases hnext

theorem not_overtakes {batch : Batch} {op : WriteOp} (hclear : engine.overtakes = false)
    (hnext : engine.nextWritten = some batch) (hop : .write op ∈ engine.line.tail) :
    batch.lsnHi ≤ op.data.lsnLow := by
  simp only [overtakes, hnext, List.any_eq_false] at hclear
  simpa [IoWork.startsBelow] using hclear _ hop

/-- Nothing is acknowledged past an earlier batch, and the segment is not sealed. -/
def Orderly : Kind → WalEngine → Prop
  | .written, engine => engine.overtakes = false
  | .sealed, _ => False
  | _, _ => True

theorem inOrder_move (hsound : engine.Sound) (harchive : Archive segs start engine)
    (horder : engine.InOrder) (hmove : Move Orderly engine after) : after.InOrder := by
  rcases move_steady hsound hmove with
    ⟨batch, entry, rest, -, rfl, -, -, hlow, -⟩ | ⟨_, _, hpermit, -⟩ | hsteady
  · intro ack hack hpoint
    obtain ⟨⟨owner, howner, hredo, hhi⟩, hbehind⟩ := horder ack hack hpoint
    refine ⟨⟨owner, List.mem_append_left _ howner, hredo, hhi⟩, ?_⟩
    intro op hop
    rw [line_queue] at hop
    rcases List.mem_append.mp hop with hold | hnew
    · exact hbehind op hold
    · simp only [IoWork.ofBatch, List.mem_singleton, IoWork.write.injEq] at hnew
      subst hnew
      change ack.batch.lsnHi ≤ entry.batch.lsnLow
      rw [← hhi, hlow]
      exact harchive.lsnHi_le howner
  · exact hpermit.elim
  · intro ack hack hpoint
    rw [hsteady.queued]
    rcases hsteady.acked ack hack with hold | hdurable | ⟨hclear, hnext, hline⟩
    · obtain ⟨howner, hbehind⟩ := horder ack hold hpoint
      refine ⟨howner, ?_⟩
      intro op hop
      obtain ⟨op', hop', -, hdata⟩ := hsteady.comes op hop
      rw [← hdata]
      exact hbehind op' hop'
    · rw [hpoint] at hdurable
      cases hdurable
    · refine ⟨nextWritten_queued hsound hnext, ?_⟩
      intro op hop
      rw [hline] at hop
      exact not_overtakes hclear hnext hop

/-- Sealing a segment acknowledges at `Durable` only. -/
theorem inOrder_seal (horder : engine.InOrder) {boundaryLsn : ℕ}
    (hsound' : (engine.sealSegment boundaryLsn).Sound) (hidle : engine.shouldPark = true) :
    (engine.sealSegment boundaryLsn).InOrder := by
  simp only [shouldPark, decide_eq_true_eq] at hidle
  intro ack hack hpoint
  rcases List.mem_append.mp hack with hold | hnew
  · refine ⟨(horder ack hold hpoint).1, ?_⟩
    rw [line_eq_nil hsound' hidle.1 hidle.2]
    exact fun _ h => by cases h
  · obtain ⟨batch, -, rfl⟩ := List.mem_map.mp hnew
    cases hpoint

theorem inOrder_step {act : Act} (hsound : engine.Sound) (harchive : Archive segs start engine)
    (horder : engine.InOrder) (hguard : RotateFeeds engine act)
    (hclear : ¬ (act = .reap ∧ engine.overtakes = true)) (hsound' : after.Sound)
    (hstep : engine.step act = some after) : after.InOrder := by
  by_cases hseals : engine.Seals act
  · obtain rfl := hseals.1
    have hidle := hseals.2.1
    obtain ⟨boundaryLsn, -, rfl⟩ := seals_inv hseals hstep
    exact inOrder_seal horder hsound' hidle
  · refine (unsealed_keeps (fun _ => id) (fun _ _ hsound harchive => inOrder_move hsound harchive)
      hsound harchive horder hguard.feeds ?_ hstep).2
    intro kind current htakes
    cases kind with
    | written =>
        obtain ⟨rfl, hact⟩ := htakes
        by_contra hnot
        exact hclear ⟨hact, by simpa [Orderly] using hnot⟩
    | sealed => exact htakes.ne_sealed hseals rfl
    | _ => trivial

/-! ## What survives -/

/-- The active segment has no hole up to the end of a batch that no write in line
precedes. -/
theorem Archive.covers (harchive : Archive segs start engine) (hsound : engine.Sound)
    (hholes : engine.Holes) {front back : List Queued} {entry : Queued}
    (hsplit : engine.queued = front ++ entry :: back) (hseg : entry.seg = engine.seg.startLsn)
    (hbehind : ∀ op, .write op ∈ engine.line → entry.batch.lsnHi ≤ op.data.lsnLow) :
    Covers engine.disk.cache 0 (entry.offset + entry.batch.out.length) := by
  have hshelved := harchive.shelved front entry back hsplit
  have hlength : entry.offset + entry.batch.out.length ≤ engine.image.length := by
    have hparts : front ++ entry :: back = (front ++ [entry]) ++ back := by simp
    rw [harchive.image, hsplit, ← hseg, hparts, wholeOf_append, wholeOf_snoc, List.length_append,
      List.length_append, hshelved.offset]
    omega
  intro index _ hindex
  rcases hholes index (by omega) with hheld | ⟨op, hop, hlow, hhigh⟩
  · exact hheld
  exfalso
  obtain ⟨owner, howner, hown, hplace, -, -, hlsn, -⟩ := (hsound.tracked.writes op hop).1.queued
  have hlater : entry.batch.lsnHi ≤ owner.batch.lsnLow := by
    rw [hlsn]
    exact hbehind op hop
  have hpos := List.length_pos_of_ne_nil hshelved.encoded.nonempty
  have hhi := hshelved.encoded.lsnHi
  have hpairs := harchive.pairwise
  rw [hsplit] at hpairs howner
  obtain ⟨-, hrest, hcross⟩ := List.pairwise_append.mp hpairs
  rcases List.mem_append.mp howner with hfront | hrear
  · have hbefore := (hcross owner hfront entry List.mem_cons_self).1
    have hpos' := List.length_pos_of_ne_nil
      (harchive.encoded (hsplit ▸ List.mem_append_left _ hfront)).nonempty
    have hhi' := (harchive.encoded (hsplit ▸ List.mem_append_left _ hfront)).lsnHi
    omega
  · rcases List.mem_cons.mp hrear with rfl | hback
    · omega
    · have hoffset := ((List.pairwise_cons.mp hrest).1 owner hback).2 (hseg.trans hown.symm)
      omega

theorem Archive.image_take (harchive : Archive segs start engine) {front back : List Queued}
    {entry : Queued} (hsplit : engine.queued = front ++ entry :: back)
    (hseg : entry.seg = engine.seg.startLsn) :
    engine.image.take (entry.offset + entry.batch.out.length) =
      baseOf segs engine.seg.startLsn ++
        encodeAll (recordsIn (front ++ [entry]) engine.seg.startLsn) := by
  have hshelved := harchive.shelved front entry back hsplit
  have hparts : front ++ entry :: back = (front ++ [entry]) ++ back := by simp
  have hlength : entry.offset + entry.batch.out.length =
      (wholeOf segs (front ++ [entry]) entry.seg).length := by
    rw [wholeOf_snoc, List.length_append, hshelved.offset]
  rw [harchive.image, hsplit, ← hseg, hparts, wholeOf_append, hlength, List.take_left, wholeOf,
    recordsIn, flatMap_out]
  intro other hother
  have hmem := (List.mem_filter.mp hother).1
  refine (harchive.encoded ?_).out
  rw [hsplit, hparts]
  exact List.mem_append_left _ hmem

/-- Guard of runs in which nothing is reaped past an earlier batch. -/
def CrashFeeds (stamp : ℕ) (engine : WalEngine) (act : Act) : Prop :=
  RetireFeeds stamp engine act ∧ ¬ (act = .reap ∧ engine.overtakes = true)

instance (stamp : ℕ) (engine : WalEngine) (act : Act) : Decidable (CrashFeeds stamp engine act) :=
  inferInstanceAs (Decidable (_ ∧ ¬ (_ ∧ _)))

theorem inOrder_reach {depth stamp : ℕ} {mode : Mode} {pool : List Batch}
    (htop : ∀ seg bytes, segs.lookup seg = some bytes → seg ≤ start)
    (hreach : Machine.Reach step (CrashFeeds stamp)
      (new depth (Files.ofSegs segs) start mode pool) engine) : engine.InOrder := by
  induction hreach with
  | start => exact fun _ h => by cases h
  | next hbefore hguard hstep ih =>
      have hrotates := hbefore.weaken fun _ _ h => h.1.1
      obtain ⟨hsound, -, -, harchive⟩ := archive_reach htop hrotates
      have hsound' := (archive_reach htop (hrotates.next hguard.1.1 hstep)).1
      exact inOrder_step hsound harchive ih hguard.1.1 hguard.2 hsound' hstep

/-- A segment of a clean directory is replayed to its end under its own snapshot and
any newer one. -/
theorem finishes_baseOf {dir : Dir} {state : Replay} {old : Db} {snapLsn stamp : ℕ}
    (hreplay : replayDir dir = .ok (state, .finished))
    (hold : loadSnapshot dir = .ok (old, snapLsn)) (hnewer : snapLsn ≤ stamp) (seg : ℕ)
    (other : Replay) :
    ∃ again, replaySegment stamp (baseOf dir.segs seg) other = (again, .finished) := by
  obtain ⟨db, found, hfound, -, hsegs⟩ := replayDir_inv hreplay
  rw [hold] at hfound
  obtain ⟨rfl, rfl⟩ := Prod.mk.inj (Except.ok.inj hfound)
  rw [baseOf]
  cases hlookup : dir.segs.lookup seg with
  | none => exact ⟨other, replaySegment_nil stamp other⟩
  | some bytes =>
      obtain ⟨again, hagain, -⟩ :=
        replaySegments_again hsegs hnewer (SortedMap.mem_entries.mpr hlookup) other
      exact ⟨again, hagain⟩

section Survives

variable {stamp : ℕ}

/-- Records of the log that follow the start of a segment are redone, whatever comes
behind them. -/
theorem Archive.mem_replaySegment (harchive : Archive segs start engine)
    (hlsn : engine.lastIngestedLsn < 2 ^ 64) {base rest : Bytes} {records : List (ℕ × Bytes)}
    (hbase : ∀ state, ∃ again, replaySegment stamp base state = (again, .finished))
    (hrecords : ∀ rec ∈ records, rec ∈ engine.history) {rec : ℕ × Bytes} (hrec : rec ∈ records)
    (hstamp : stamp < rec.1) (state : Replay) :
    rec ∈ (replaySegment stamp (base ++ encodeAll records ++ rest) state).1.replayed := by
  obtain ⟨again, hagain⟩ := hbase state
  have hgood : ∀ other ∈ records, Fits other.1 other.2 ∧ GoodPut other.2 := by
    intro other hother
    obtain ⟨hfits, hput, -⟩ := harchive.good hlsn other (hrecords other hother)
    exact ⟨hfits, hput⟩
  rw [List.append_assoc, replaySegment_append_of_finished hagain, replaySegment_whole hgood]
  apply (replayLoop_kept _ _ _ _).replayed
  exact List.mem_append_right _ (List.mem_filter.mpr ⟨hrec, by simpa using hstamp⟩)

/-- Whole segments are replayed to their end. -/
theorem Archive.finishes_wholeOf (harchive : Archive segs start engine)
    (hlsn : engine.lastIngestedLsn < 2 ^ 64)
    (hbase : ∀ seg state, ∃ again,
      replaySegment stamp (baseOf segs seg) state = (again, .finished)) (seg : ℕ)
    (state : Replay) :
    ∃ again, replaySegment stamp (wholeOf segs engine.queued seg) state = (again, .finished) := by
  obtain ⟨again, hagain⟩ := hbase seg state
  have hrecords := @replaySegment_whole stamp _ (harchive.goodIn hlsn seg) [] again
  rw [List.append_nil, replaySegment_nil] at hrecords
  exact ⟨_, by rw [harchive.wholeOf_eq, replaySegment_append_of_finished hagain, hrecords]⟩

/-- The directory a crash leaves: any of the removals in line may have taken effect,
and the active segment reads back as `bytes`. -/
def crashed (engine : WalEngine) (snapshot : Option Bytes) (gone : List ℕ) (bytes : Bytes) : Dir :=
  ⟨snapshot, (gone.foldl SortedMap.erase (listing engine.files)).insert engine.seg.startLsn bytes⟩

variable {gone : List ℕ} {snapshot : Option Bytes} {bytes : Bytes}

/-- Sealed segments are whole after a crash. -/
theorem Archive.crashed_sealed (harchive : Archive segs start engine) {seg : ℕ} {content : Bytes}
    (hsealed : engine.seg.startLsn ≠ seg)
    (hlookup : (engine.crashed snapshot gone bytes).segs.lookup seg = some content) :
    seg ≤ engine.seg.startLsn ∧ content = wholeOf segs engine.queued seg := by
  rw [crashed, SortedMap.lookup_insert_ne _ _ hsealed, lookup_eraseAll] at hlookup
  split_ifs at hlookup with hmem
  rw [listing, SortedMap.lookup_mapValues, Option.map_eq_some_iff] at hlookup
  obtain ⟨file, hfile, rfl⟩ := hlookup
  exact ⟨harchive.names seg file hfile, by
    rw [harchive.sealed seg file hsealed hfile, contents_full]⟩

/-- What replay takes out of one segment it takes out of the directory. -/
theorem Archive.mem_crashed (harchive : Archive segs start engine)
    (hlsn : engine.lastIngestedLsn < 2 ^ 64)
    (hbase : ∀ seg state, ∃ again,
      replaySegment stamp (baseOf segs seg) state = (again, .finished))
    {seg : ℕ} {content : Bytes}
    (hlookup : (engine.crashed snapshot gone bytes).segs.lookup seg = some content)
    {rec : ℕ × Bytes} (hrec : ∀ state, rec ∈ (replaySegment stamp content state).1.replayed)
    (state : Replay) :
    rec ∈ (replaySegments stamp (engine.crashed snapshot gone bytes).segs.entries
      state).1.replayed := by
  have htop : seg ≤ engine.seg.startLsn := by
    by_cases hactive : engine.seg.startLsn = seg
    · exact hactive.ge
    · exact (harchive.crashed_sealed hactive hlookup).1
  obtain ⟨front, back, hsplit⟩ := List.append_of_mem (SortedMap.mem_entries.mpr hlookup)
  rw [hsplit]
  refine mem_replaySegments ?_ hrec back state
  intro earlier hearlier other
  have hbefore : earlier.1 < seg := SortedMap.front_lt _ hsplit earlier hearlier
  have hlisted : (engine.crashed snapshot gone bytes).segs.lookup earlier.1 = some earlier.2 := by
    apply SortedMap.mem_entries.mp
    rw [hsplit]
    exact List.mem_append_left _ hearlier
  obtain ⟨-, hwhole⟩ := harchive.crashed_sealed (by omega) hlisted
  rw [hwhole]
  exact harchive.finishes_wholeOf hlsn hbase earlier.1 other

/-- What a crash leaves of the active segment still holds a batch that no write in
line precedes. -/
theorem Archive.mem_active (harchive : Archive segs start engine) (hsound : engine.Sound)
    (hholes : engine.Holes) (hlsn : engine.lastIngestedLsn < 2 ^ 64)
    (hbase : ∀ seg state, ∃ again,
      replaySegment stamp (baseOf segs seg) state = (again, .finished))
    (hcrash : ProcessCrash engine.disk.cache bytes) {entry : Queued}
    (hentry : entry ∈ engine.queued) (hactive : entry.seg = engine.seg.startLsn)
    (hbehind : ∀ op, .write op ∈ engine.line → entry.batch.lsnHi ≤ op.data.lsnLow)
    {rec : ℕ × Bytes} (hrec : rec ∈ entry.batch.redo) (hstamp : stamp < rec.1)
    (state : Replay) : rec ∈ (replaySegment stamp bytes state).1.replayed := by
  obtain ⟨front, back, hsplit⟩ := List.append_of_mem hentry
  have hcovers := harchive.covers hsound hholes hsplit hactive hbehind
  have htake := hcrash.take_eq (Grows.refl _) hsound.stored.agrees hcovers
  rw [harchive.image_take hsplit hactive] at htake
  have hbytes := (List.take_append_drop (entry.offset + entry.batch.out.length) bytes).symm
  rw [htake] at hbytes
  have hfront : ∀ owner ∈ front ++ [entry], owner ∈ engine.queued := by
    intro owner howner
    rw [hsplit]
    rcases List.mem_append.mp howner with hfront | hlast
    · exact List.mem_append_left _ hfront
    · rw [List.mem_singleton.mp hlast]
      exact List.mem_append_right _ List.mem_cons_self
  rw [hbytes]
  refine harchive.mem_replaySegment hlsn (hbase _) ?_ ?_ hstamp state
  · intro found hfound
    obtain ⟨owner, howner, hmem⟩ := List.mem_flatMap.mp (mem_recordsIn hfound)
    exact List.mem_flatMap.mpr ⟨owner, hfront owner howner, hmem⟩
  · refine List.mem_flatMap.mpr ⟨entry, List.mem_filter.mpr ⟨?_, by simp [hactive]⟩, hrec⟩
    exact List.mem_append_right _ (List.mem_singleton_self _)

/-- A batch is replayed after a crash if no write in line precedes it. -/
theorem Archive.queued_survives (harchive : Archive segs start engine) (hsound : engine.Sound)
    (hholes : engine.Holes) (hpresent : Present stamp engine) (hcut : Cut stamp engine)
    (hlsn : engine.lastIngestedLsn < 2 ^ 64)
    (hbase : ∀ seg state, ∃ again,
      replaySegment stamp (baseOf segs seg) state = (again, .finished))
    (hgone : ∀ lsn ∈ gone, .remove lsn ∈ engine.line)
    (hcrash : ProcessCrash engine.disk.cache bytes) {entry : Queued}
    (hentry : entry ∈ engine.queued)
    (hbehind : ∀ op, .write op ∈ engine.line → entry.batch.lsnHi ≤ op.data.lsnLow)
    {rec : ℕ × Bytes} (hrec : rec ∈ entry.batch.redo) (hstamp : stamp < rec.1)
    (state : Replay) :
    rec ∈ (replaySegments stamp (engine.crashed snapshot gone bytes).segs.entries
      state).1.replayed := by
  by_cases hactive : engine.seg.startLsn = entry.seg
  · refine @Archive.mem_crashed _ _ _ _ _ _ _ harchive hlsn hbase engine.seg.startLsn bytes
      (SortedMap.lookup_insert_self _ _ _) rec ?_ state
    exact harchive.mem_active hsound hholes hlsn hbase hcrash hentry hactive.symm hbehind hrec
      hstamp
  · have hhigh : stamp < entry.batch.lsnHi :=
      hstamp.trans_le ((harchive.encoded hentry).records rec hrec).2.2.2
    obtain ⟨content, hcontent⟩ := hpresent.kept hcut hgone hentry hhigh
    have hlookup : (engine.crashed snapshot gone bytes).segs.lookup entry.seg = some content := by
      rw [crashed, SortedMap.lookup_insert_ne _ _ hactive]
      exact hcontent
    refine harchive.mem_crashed hlsn hbase hlookup ?_ state
    intro other
    obtain ⟨-, hwhole⟩ := harchive.crashed_sealed hactive hlookup
    have hin : rec ∈ recordsIn engine.queued entry.seg :=
      List.mem_flatMap.mpr ⟨entry, List.mem_filter.mpr ⟨hentry, by simp⟩, hrec⟩
    have hreplayed := @Archive.mem_replaySegment _ _ _ _ harchive hlsn _ [] _ (hbase entry.seg)
      (fun found hfound => mem_recordsIn hfound) rec hin hstamp other
    rw [List.append_nil, ← harchive.wholeOf_eq, ← hwhole] at hreplayed
    exact hreplayed

/-- Recovery goes through whatever a crash leaves. -/
theorem Archive.crashed_readable (harchive : Archive segs start engine) (hsound : engine.Sound)
    (hholes : engine.Holes) (hfronted : engine.Fronted) (hlsn : engine.lastIngestedLsn < 2 ^ 64)
    (hbase : ∀ seg state, ∃ again,
      replaySegment stamp (baseOf segs seg) state = (again, .finished))
    (hcrash : ProcessCrash engine.disk.cache bytes) :
    SensibleLog stamp (engine.crashed snapshot gone bytes).segs.entries := by
  apply sensibleLog_of_readable
  rintro ⟨seg, content⟩ hentry
  have hlookup := SortedMap.mem_entries.mp hentry
  by_cases hactive : engine.seg.startLsn = seg
  · rw [crashed, ← hactive, SortedMap.lookup_insert_self, Option.some.injEq] at hlookup
    change Readable stamp content
    rw [← hlookup, hcrash.eq_window]
    exact harchive.readable_active hsound hholes hfronted hlsn hbase _
  · obtain ⟨-, hwhole⟩ := harchive.crashed_sealed hactive hlookup
    obtain ⟨again, hagain⟩ := harchive.finishes_wholeOf hlsn hbase seg ⟨Db.new, 0, []⟩
    change Readable stamp content
    rw [hwhole]
    exact readable_of_finished hagain

/-- From any clean directory, in any order of completions with any short writes,
rotates and retires: as long as no completion of a whole write is reaped while a batch
with lower LSNs is in line, whatever is acknowledged at `Written` has no write of a
lower LSN left in line, and `recover` returns with it redone after a crash, unless the
snapshot covers it.  The snapshot is that of the directory or a newer one at whose stamp
the log was cut. -/
theorem written_ack_survives {dir : Dir} {booted : Db} (hclean : CleanDir dir)
    (hboot : recover dir = .ok (booted, start)) {depth : ℕ} {pool : List Batch}
    (hreach : Machine.Reach step (CrashFeeds stamp)
      (new depth (Files.ofSegs dir.segs) start .async pool) engine)
    (hcut : Cut stamp engine) (hlsn : engine.lastIngestedLsn < 2 ^ 64) {old db : Db}
    {snapLsn : ℕ} (hold : loadSnapshot dir = .ok (old, snapLsn)) (hnewer : snapLsn ≤ stamp)
    (hload : loadSnapshot ⟨snapshot, dir.segs⟩ = .ok (db, stamp))
    (hgone : ∀ lsn ∈ gone, .remove lsn ∈ engine.line)
    (hcrash : ProcessCrash engine.disk.cache bytes) :
    ∃ replay ended, replayDir (engine.crashed snapshot gone bytes) = .ok (replay, ended) ∧
      recover (engine.crashed snapshot gone bytes) = .ok (replay.db, replay.highest + 1) ∧
      ∀ ack ∈ engine.acked, ack.point = .written →
        (∀ op, .write op ∈ engine.line → ack.batch.lsnHi ≤ op.data.lsnLow) ∧
        ∀ rec ∈ ack.batch.redo, stamp < rec.1 → rec ∈ replay.replayed := by
  obtain ⟨state, hreplay, -, htop⟩ := hclean.boot hboot
  obtain ⟨hsound, hfilled, -, harchive⟩ :=
    archive_reach htop (hreach.weaken fun _ _ hguard => hguard.1.1)
  have hpresent : Present stamp engine := present_reach (fun _ _ hguard => hguard.1) htop hreach
  have horder := inOrder_reach htop hreach
  have hfronted := fronted_reach htop (hreach.weaken fun _ _ hguard => hguard.1.1)
  have hbase := finishes_baseOf hreplay hold hnewer
  have hsnapshot : loadSnapshot (engine.crashed snapshot gone bytes) = .ok (db, stamp) := hload
  obtain ⟨replay, ended, hsegs⟩ : ∃ replay ended, replaySegments stamp
      (engine.crashed snapshot gone bytes).segs.entries ⟨db, stamp, []⟩ = (replay, ended) :=
    ⟨_, _, rfl⟩
  have hdir : replayDir (engine.crashed snapshot gone bytes) = .ok (replay, ended) := by
    rw [replayDir, hsnapshot, Wire.ok_bind]
    simp only [hsegs, Wire.pure_eq_ok]
  refine ⟨replay, ended, hdir, ?_, ?_⟩
  · exact (recover_eq_iff hsnapshot hdir).mpr
      (harchive.crashed_readable hsound hfilled.holes hfronted hlsn hbase hcrash)
  · intro ack hack hpoint
    obtain ⟨⟨entry, hentry, hredo, hhi⟩, hbehind⟩ := horder ack hack hpoint
    refine ⟨hbehind, ?_⟩
    intro rec hrec hstamp
    rw [← hredo] at hrec
    rw [← hhi] at hbehind
    have hsurvives := @Archive.queued_survives _ _ _ _ _ snapshot _ harchive hsound hfilled.holes
      hpresent hcut hlsn hbase hgone hcrash entry hentry hbehind
      rec hrec hstamp ⟨db, stamp, []⟩
    rw [hsegs] at hsurvives
    exact hsurvives

end Survives

/-- One PUT, acknowledged at `Written`, survives. -/
theorem written_ack_survives_one :
    ∃ engine bytes, Machine.Reach step (CrashFeeds 0)
        (new 128 (Files.ofSegs SortedMap.empty) 1 .async []) engine ∧
      ProcessCrash engine.disk.cache bytes ∧
      ∃ ack ∈ engine.acked, ack.point = .written ∧ ack.batch.redo ≠ [] ∧
        (∃ req ∈ puts ack.batch.items, (engine.ack.released ack.point req).isSome) ∧
        ∃ replay ended, replayDir (engine.crashed none [] bytes) = .ok (replay, ended) ∧
          recover (engine.crashed none [] bytes) = .ok (replay.db, replay.highest + 1) ∧
          ∀ rec ∈ ack.batch.redo, rec ∈ replay.replayed := by
  let batch : Batch := ⟨[⟨.smallPut 65 66, 7, some .ok, 0⟩], [], 1, 2, 0⟩
  obtain ⟨engine, hreach, hdone⟩ := @Machine.exists_reach _ _ step (CrashFeeds 0)
    (new 128 (Files.ofSegs SortedMap.empty) 1 .async []) _
    [.arrive (.write batch), .poll, .plan, .reap, .start 0, .complete 0 27, .poll, .plan, .reap]
    (fun engine => engine.lastIngestedLsn < 2 ^ 64 ∧
      ∃ ack ∈ engine.acked, ack.point = .written ∧ ack.batch.redo ≠ [] ∧
        (∃ req ∈ puts ack.batch.items, (engine.ack.released ack.point req).isSome) ∧
        ∀ rec ∈ ack.batch.redo, 0 < rec.1)
    (by decide +kernel)
  obtain ⟨hlsn, ack, hack, hpoint, hredo, hreleased, hpos⟩ : engine.lastIngestedLsn < 2 ^ 64 ∧
      ∃ ack ∈ engine.acked, ack.point = .written ∧ ack.batch.redo ≠ [] ∧
        (∃ req ∈ puts ack.batch.items, (engine.ack.released ack.point req).isSome) ∧
        ∀ rec ∈ ack.batch.redo, 0 < rec.1 := of_decide_eq_true hdone
  have hcrash := @processCrash_contents engine.disk.cache
  obtain ⟨replay, ended, hreplay, hrecover, hall⟩ := @written_ack_survives engine 1 0 [] none _
    ⟨none, SortedMap.empty⟩ _ Pipeline.cleanDir_empty rfl 128 [] hreach
    ⟨Nat.zero_le _, fun _ _ hlt => absurd hlt (Nat.not_lt_zero _)⟩ hlsn _ _ 0 rfl le_rfl rfl
    (fun _ h => by cases h) hcrash
  exact ⟨engine, _, hreach, hcrash, ack, hack, hpoint, hredo, hreleased, replay, ended, hreplay,
    hrecover, fun rec hrec => (hall ack hack hpoint).2 rec hrec (hpos rec hrec)⟩

/-- The second of two batches is written first, and acknowledged while the write of
the first is with the kernel.  A crash leaves a hole in front of it. -/
theorem written_ack_lost :
    ∃ engine bytes, Machine.Reach step PlainFeeds
        (new 128 (Files.ofSegs SortedMap.empty) 1 .async []) engine ∧
      ProcessCrash engine.disk.cache bytes ∧
      ∃ replay ended, replayDir (engine.crashed none [] bytes) = .ok (replay, ended) ∧
        ∃ ack ∈ engine.acked, ack.point = .written ∧
          (∃ req ∈ puts ack.batch.items, (engine.ack.released ack.point req).isSome) ∧
          (∃ op, .write op ∈ engine.line ∧ op.data.lsnLow < ack.batch.lsnHi) ∧
          ∃ rec ∈ ack.batch.redo, rec ∉ replay.replayed := by
  let first : Batch := ⟨[⟨.smallPut 65 66, 7, some .ok, 0⟩], [], 1, 2, 0⟩
  let second : Batch := ⟨[⟨.smallPut 65 67, 7, some .ok, 1⟩], [], 2, 3, 1⟩
  obtain ⟨engine, hreach, hdone⟩ := @Machine.exists_reach _ _ step PlainFeeds
    (new 128 (Files.ofSegs SortedMap.empty) 1 .async []) _
    [.arrive (.write first), .poll, .plan, .reap, .arrive (.write second), .poll, .plan, .reap,
      .start 0, .start 1, .complete 1 27, .poll, .plan, .reap]
    (fun engine => ∃ ack ∈ engine.acked, ack.point = .written ∧
      (∃ req ∈ puts ack.batch.items, (engine.ack.released ack.point req).isSome) ∧
      engine.line.any (IoWork.startsBelow ack.batch.lsnHi) = true ∧
      ∃ rec ∈ ack.batch.redo, rec ∉ (replaySegments 0
        (engine.crashed none [] (contents engine.disk.cache)).segs.entries
        ⟨Db.new, 0, []⟩).1.replayed)
    (by decide +kernel)
  obtain ⟨ack, hack, hpoint, hreleased, hbelow, hlost⟩ : ∃ ack ∈ engine.acked,
      ack.point = .written ∧
      (∃ req ∈ puts ack.batch.items, (engine.ack.released ack.point req).isSome) ∧
      engine.line.any (IoWork.startsBelow ack.batch.lsnHi) = true ∧
      ∃ rec ∈ ack.batch.redo, rec ∉ (replaySegments 0
        (engine.crashed none [] (contents engine.disk.cache)).segs.entries
        ⟨Db.new, 0, []⟩).1.replayed := of_decide_eq_true hdone
  obtain ⟨work, hwork, hlow⟩ := List.any_eq_true.mp hbelow
  refine ⟨engine, _, hreach, processCrash_contents, _, _, rfl, ack, hack, hpoint, hreleased, ?_,
    hlost⟩
  cases work with
  | write op => exact ⟨op, hwork, by simpa [IoWork.startsBelow] using hlow⟩
  | fsync target => cases hlow
  | remove start => cases hlow

end WalEngine

end InMemoryDb.Stage3
