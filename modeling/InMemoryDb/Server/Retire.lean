import InMemoryDb.Server.Rotation

/-!
# Retiring segments

A snapshot stamped with the LSN at which the log was cut covers every segment
below the cut.  Whichever of these have been removed when the process stops,
recovery skips what is left of them and redoes the segments behind the cut.
-/

namespace InMemoryDb.Stage3

open SparseFile WalFormat Recover

namespace WalEngine

variable {engine after : WalEngine} {segs : SortedMap ℕ Bytes} {start stamp : ℕ}

/-! ## Behind the cut -/

/-- The log was cut at `stamp`: no batch lies on both sides. -/
structure Cut (stamp : ℕ) (engine : WalEngine) : Prop where
  passed : stamp ≤ engine.seg.startLsn
  split : ∀ entry ∈ engine.queued, entry.seg < stamp → entry.batch.lsnHi ≤ stamp

theorem cut_move (hsound : engine.Sound) (hcut : Cut stamp engine)
    (hmove : Move (fun kind _ => kind ≠ .sealed) engine after) : Cut stamp after := by
  rcases move_steady hsound hmove with
    ⟨batch, entry, rest, -, rfl, hseg, -⟩ | ⟨_, _, hpermit, -⟩ | hsteady
  · refine ⟨hcut.passed, ?_⟩
    intro other hother hlt
    rcases List.mem_append.mp hother with hold | hnew
    · exact hcut.split other hold hlt
    · rw [List.mem_singleton.mp hnew, hseg] at hlt
      exact absurd hcut.passed (not_le.mpr hlt)
  · exact absurd rfl hpermit
  · refine ⟨?_, ?_⟩
    · rw [hsteady.seg]
      exact hcut.passed
    · rw [hsteady.queued]
      exact hcut.split

theorem cut_step {act : Act} (hsound : engine.Sound) (htimely : engine.Timely)
    (harchive : Archive segs start engine) (hcut : Cut stamp engine)
    (hguard : RotateFeeds engine act) (hstep : engine.step act = some after) :
    Cut stamp after := by
  by_cases hseals : engine.Seals act
  · obtain rfl := hseals.1
    obtain ⟨boundaryLsn, hpc, rfl⟩ := seals_inv hseals hstep
    have hboundary := htimely.running boundaryLsn (by rw [hpc]; rfl)
    refine ⟨?_, hcut.split⟩
    have hactive : (engine.sealSegment boundaryLsn).seg.startLsn = boundaryLsn :=
      Segment.open_startLsn _ _
    rw [hactive, hboundary]
    exact hcut.passed.trans harchive.reached
  · exact (unsealed_keeps (fun _ hpermit => hpermit rfl) (fun _ _ hsound _ => cut_move hsound)
      hsound harchive hcut hguard.feeds (fun _ _ => Takes.ne_sealed hseals) hstep).2

/-- Guard of runs behind a snapshot: only segments that end below its stamp are
retired. -/
def RetireFeeds (stamp : ℕ) (engine : WalEngine) (act : Act) : Prop :=
  RotateFeeds engine act ∧ ∀ boundaryLsn, act = .arrive (.retire boundaryLsn) →
    boundaryLsn ≤ stamp

instance (stamp : ℕ) (engine : WalEngine) : (act : Act) → Decidable (RetireFeeds stamp engine act)
  | .arrive (.retire boundaryLsn) =>
      decidable_of_iff (boundaryLsn ≤ stamp)
        ⟨fun h => ⟨trivial, fun _ heq => by cases heq; exact h⟩, fun h => h.2 boundaryLsn rfl⟩
  | .arrive (.write batch) =>
      decidable_of_iff (RotateFeeds engine (.arrive (.write batch)))
        ⟨fun h => ⟨h, fun _ heq => by cases heq⟩, fun h => h.1⟩
  | .arrive (.rotate boundaryLsn) =>
      decidable_of_iff (RotateFeeds engine (.arrive (.rotate boundaryLsn)))
        ⟨fun h => ⟨h, fun _ heq => by cases heq⟩, fun h => h.1⟩
  | .poll => isTrue ⟨trivial, fun _ heq => by cases heq⟩
  | .plan => isTrue ⟨trivial, fun _ heq => by cases heq⟩
  | .reap => isTrue ⟨trivial, fun _ heq => by cases heq⟩
  | .drain => isTrue ⟨trivial, fun _ heq => by cases heq⟩
  | .wake => isTrue ⟨trivial, fun _ heq => by cases heq⟩
  | .start _ => isTrue ⟨trivial, fun _ heq => by cases heq⟩
  | .complete _ _ => isTrue ⟨trivial, fun _ heq => by cases heq⟩
  | .send => isTrue ⟨trivial, fun _ heq => by cases heq⟩
  | .lend => isTrue ⟨trivial, fun _ heq => by cases heq⟩
  | .slab _ => isTrue ⟨trivial, fun _ heq => by cases heq⟩

/-- Everything that holds behind the cut. -/
theorem retire_reach {depth : ℕ} {mode : Mode} {pool : List Batch} {drained rotated : WalEngine}
    (htop : ∀ seg bytes, segs.lookup seg = some bytes → seg ≤ start)
    (hbefore : Machine.Reach step RotateFeeds (new depth (Files.ofSegs segs) start mode pool)
      drained)
    (hpc : drained.pc = .draining stamp) (hidle : drained.shouldPark = true)
    (hrotate : drained.step .drain = some rotated)
    (hsent : ∀ boundaryLsn, .retire boundaryLsn ∈ rotated.msgRx → boundaryLsn ≤ stamp)
    (hafter : Machine.Reach step (RetireFeeds stamp) rotated engine) :
    drained.lastIngestedLsn = stamp ∧
      Machine.Reach step RotateFeeds (new depth (Files.ofSegs segs) start mode pool) engine ∧
      Present stamp engine ∧ Cut stamp engine := by
  obtain ⟨hsound, hfilled, htimely, harchive⟩ := archive_reach htop hbefore
  have hstamp : stamp = drained.lastIngestedLsn := htimely.running stamp (by rw [hpc]; rfl)
  have hseals : drained.Seals .drain := ⟨rfl, hidle, stamp, hpc⟩
  have hreach := hbefore.next (show RotateFeeds drained .drain from trivial) hrotate
  refine ⟨hstamp.symm, ?_⟩
  induction hafter with
  | start =>
      obtain ⟨hsound', -, -, -⟩ := archive_reach htop hreach
      obtain ⟨boundaryLsn, hpc', rfl⟩ := seals_inv hseals hrotate
      obtain rfl : stamp = boundaryLsn := by
        rw [hpc] at hpc'
        exact Pc.draining.inj hpc'
      have hactive : (drained.sealSegment stamp).seg.startLsn = stamp :=
        Segment.open_startLsn _ _
      refine ⟨hreach, ⟨?_, ?_, hsent⟩, ⟨hactive.ge, ?_⟩⟩
      · intro lsn hlsn
        have hlt := hsound'.tracked.removes lsn hlsn
        rwa [hactive] at hlt
      · intro entry hentry hge
        have hle := (harchive.newest entry hentry).trans harchive.reached
        have hsame : entry.seg = stamp := by omega
        have hthere := hsound'.stored.opened
        rw [hactive] at hthere
        rw [hsame]
        exact hthere
      · intro entry hentry _
        rw [hstamp]
        exact harchive.lsnHi_le hentry
  | next _ hguard hstep ih =>
      obtain ⟨hreach', hpresent, hcut⟩ := ih
      obtain ⟨hsound', -, htimely', harchive'⟩ := archive_reach htop hreach'
      exact ⟨hreach'.next hguard.1 hstep,
        present_step hsound' hpresent hguard.1.feeds hguard.2 hstep,
        cut_step hsound' htimely' harchive' hcut hguard.1 hstep⟩

/-! ## Recovery -/

/-- Batches that lie below the stamp may be left out. -/
theorem above_filter {queued : List Queued} {kept : Queued → Bool}
    (hdropped : ∀ entry ∈ queued, kept entry = false → ∀ rec ∈ entry.batch.redo, rec.1 ≤ stamp) :
    above stamp ((queued.filter kept).flatMap fun entry => entry.batch.redo) =
      above stamp (queued.flatMap fun entry => entry.batch.redo) := by
  induction queued with
  | nil => rfl
  | cons entry queued ih =>
      have hrest := ih fun other hother => hdropped other (List.mem_cons_of_mem _ hother)
      cases hkept : kept entry with
      | true =>
          rw [List.filter_cons_of_pos hkept, List.flatMap_cons, List.flatMap_cons, above_append,
            above_append, hrest]
      | false =>
          have hnone : above stamp entry.batch.redo = [] := by
            apply List.filter_eq_nil_iff.mpr
            intro rec hrec
            have hle := hdropped entry List.mem_cons_self hkept rec hrec
            simpa using hle
          rw [List.filter_cons_of_neg (by simp [hkept]), List.flatMap_cons, above_append, hnone,
            List.nil_append, hrest]

/-- Recovery from a snapshot and the segments that are left, when those that are
gone held nothing behind the stamp. -/
theorem Archive.recover_snapshot (harchive : Archive segs start engine) (hsound : engine.Sound)
    (hholes : engine.Holes) (hdone : engine.WritesDone) (hlsn : engine.lastIngestedLsn < 2 ^ 64)
    {left : SortedMap ℕ Bytes}
    (hleft : ∀ seg bytes, left.lookup seg = some bytes →
      (listing engine.files).lookup seg = some bytes)
    (hgone : ∀ entry ∈ engine.queued, left.lookup entry.seg = none →
      entry.batch.lsnHi ≤ stamp)
    (hskips : ∀ seg, Skips stamp (baseOf segs seg)) {snapshot : Bytes} {db : Db}
    (hload : Snapshot.load snapshot Db.new = .ok (some stamp, db)) :
    recover ⟨some snapshot, left⟩ =
      .ok (applyRecords db (above stamp engine.history),
        ((above stamp engine.history).map Prod.fst).foldl max stamp + 1) := by
  have hwhole : ∀ entry ∈ left.entries, entry.2 = wholeOf segs engine.queued entry.1 := by
    intro entry hentry
    have hlisted := hleft entry.1 entry.2 (SortedMap.mem_entries.mp hentry)
    exact (harchive.listing_lookup hsound hholes hdone hlisted).2
  have hrecords : above stamp ((left.entries.map Prod.fst).flatMap (recordsIn engine.queued)) =
      above stamp engine.history := by
    rw [harchive.flatMap_recordsIn left.keys_sorted]
    apply above_filter
    intro entry hentry hmissing rec hrec
    have hnone : left.lookup entry.seg = none := by
      rw [Option.eq_none_iff_forall_ne_some]
      intro bytes hbytes
      have hmem : entry.seg ∈ left.entries.map Prod.fst :=
        List.mem_map.mpr ⟨(entry.seg, bytes), SortedMap.mem_entries.mpr hbytes, rfl⟩
      rw [decide_eq_false_iff_not] at hmissing
      exact hmissing hmem
    exact ((harchive.encoded hentry).records rec hrec).2.2.2.trans (hgone entry hentry hnone)
  have hreplay := harchive.replaySegments_eq hlsn hwhole (fun entry _ => hskips entry.1)
    ⟨db, stamp, []⟩
  have hsnapshot : loadSnapshot ⟨some snapshot, left⟩ = .ok (db, stamp) := by
    simp only [loadSnapshot, hload, Wire.ok_bind, Wire.pure_eq_ok]
  rw [hrecords] at hreplay
  rw [recover, replayDir, hsnapshot, Wire.ok_bind]
  simp only [hreplay, Wire.pure_eq_ok, Wire.ok_bind]
  rfl

/-- Segments of a clean directory are skipped under any stamp it did not reach. -/
theorem skips_baseOf {dir : Dir} {state : Replay} (hreplay : replayDir dir = .ok (state, .finished))
    (hstamp : state.highest ≤ stamp) (seg : ℕ) : Skips stamp (baseOf dir.segs seg) := by
  obtain ⟨db, snapLsn, -, hsnap, hsegs⟩ := replayDir_inv hreplay
  rw [baseOf]
  cases hlookup : dir.segs.lookup seg with
  | none => exact skips_nil stamp
  | some bytes =>
      intro other
      obtain ⟨again, hagain, hsame⟩ := replaySegments_again hsegs (hsnap.trans hstamp)
        (SortedMap.mem_entries.mpr hlookup) other
      rw [hsame hstamp] at hagain
      exact hagain

theorem lookup_eraseAll {gone : List ℕ} {segs : SortedMap ℕ Bytes} {seg : ℕ} :
    (gone.foldl SortedMap.erase segs).lookup seg =
      if seg ∈ gone then none else segs.lookup seg := by
  induction gone generalizing segs with
  | nil => simp
  | cons head gone ih =>
      rw [List.foldl_cons, ih]
      by_cases hgone : seg ∈ gone
      · rw [if_pos hgone, if_pos (List.mem_cons_of_mem _ hgone)]
      · by_cases hhead : head = seg
        · subst hhead
          rw [if_neg hgone, if_pos List.mem_cons_self, SortedMap.lookup_erase_self]
        · rw [if_neg hgone, SortedMap.lookup_erase_ne _ hhead, if_neg]
          intro hmem
          rcases List.mem_cons.mp hmem with heq | hrest
          · exact hhead heq.symm
          · exact hgone hrest

/-- No removal in line is of a segment that holds records behind the cut. -/
theorem Present.kept (hpresent : Present stamp engine) (hcut : Cut stamp engine) {gone : List ℕ}
    (hgone : ∀ lsn ∈ gone, .remove lsn ∈ engine.line) {entry : Queued}
    (hentry : entry ∈ engine.queued) (hhigh : stamp < entry.batch.lsnHi) :
    ∃ bytes, (gone.foldl SortedMap.erase (listing engine.files)).lookup entry.seg =
      some bytes := by
  have hge : stamp ≤ entry.seg := by
    by_contra hlt
    exact absurd (hcut.split entry hentry (not_le.mp hlt)) (not_le.mpr hhigh)
  have hleft : entry.seg ∉ gone := by
    intro hmem
    exact absurd (hpresent.removes _ (hgone _ hmem)) (not_lt.mpr hge)
  obtain ⟨file, hfile⟩ := hpresent.files entry hentry hge
  refine ⟨contents file.cache, ?_⟩
  rw [lookup_eraseAll, if_neg hleft, listing, SortedMap.lookup_mapValues, hfile]
  rfl

/-- From any clean directory, with any batches, rotates and retires before: the log
is cut at `stamp`, a snapshot has that stamp, and only segments below it are retired
from then on.  When all writes are done, whichever of the removals still in line
have taken effect as well: the active segment is there, and recovery returns what
it returns for any run over the same records in which nothing is retired. -/
theorem retire_loses_nothing {dir : Dir} {booted : Db} (hclean : CleanDir dir)
    (hboot : recover dir = .ok (booted, start)) {depth : ℕ} {mode : Mode} {pool : List Batch}
    {drained rotated : WalEngine}
    (hbefore : Machine.Reach step RotateFeeds
      (new depth (Files.ofSegs dir.segs) start mode pool) drained)
    (hpc : drained.pc = .draining stamp) (hidle : drained.shouldPark = true)
    (hrotate : drained.step .drain = some rotated)
    (hsent : ∀ boundaryLsn, .retire boundaryLsn ∈ rotated.msgRx → boundaryLsn ≤ stamp)
    (hafter : Machine.Reach step (RetireFeeds stamp) rotated engine)
    (hdone : engine.WritesDone) (hlsn : engine.lastIngestedLsn < 2 ^ 64)
    {snapshot : Bytes} {db : Db}
    (hload : Snapshot.load snapshot Db.new = .ok (some stamp, db)) {gone : List ℕ}
    (hgone : ∀ lsn ∈ gone, .remove lsn ∈ engine.line) :
    drained.lastIngestedLsn = stamp ∧
    (∃ bytes, (gone.foldl SortedMap.erase (listing engine.files)).lookup engine.seg.startLsn =
      some bytes) ∧
    recover ⟨some snapshot, gone.foldl SortedMap.erase (listing engine.files)⟩ =
      .ok (applyRecords db (above stamp engine.history),
        ((above stamp engine.history).map Prod.fst).foldl max stamp + 1) ∧
    ∀ (depth' : ℕ) (mode' : Mode) (pool' : List Batch) (engine' : WalEngine),
      Machine.Reach step RotatesOnly (new depth' (Files.ofSegs dir.segs) start mode' pool')
        engine' →
      engine'.WritesDone → engine'.history = engine.history →
        recover ⟨some snapshot, gone.foldl SortedMap.erase (listing engine.files)⟩ =
          recover ⟨some snapshot, listing engine'.files⟩ := by
  obtain ⟨state, hreplay, hstart, htop⟩ := hclean.boot hboot
  obtain ⟨hstamp, hreach, hpresent, hcut⟩ :=
    retire_reach htop hbefore hpc hidle hrotate hsent hafter
  obtain ⟨hsound, hfilled, -, harchive⟩ := archive_reach htop hreach
  have hskips : ∀ seg, Skips stamp (baseOf dir.segs seg) := by
    refine skips_baseOf hreplay ?_
    have hingested := (archive_reach htop hbefore).2.2.2.ingested
    omega
  have hbelow : ∀ lsn ∈ gone, lsn < engine.seg.startLsn := fun lsn hmem =>
    hsound.tracked.removes lsn (hgone lsn hmem)
  have hleft : ∀ seg bytes, (gone.foldl SortedMap.erase (listing engine.files)).lookup seg =
      some bytes → (listing engine.files).lookup seg = some bytes := by
    intro seg bytes hbytes
    rw [lookup_eraseAll] at hbytes
    split_ifs at hbytes with hmem
    exact hbytes
  have hmissing : ∀ entry ∈ engine.queued,
      (gone.foldl SortedMap.erase (listing engine.files)).lookup entry.seg = none →
        entry.batch.lsnHi ≤ stamp := by
    intro entry hentry hnone
    by_contra hhigh
    obtain ⟨bytes, hbytes⟩ := hpresent.kept hcut hgone hentry (not_le.mp hhigh)
    rw [hnone] at hbytes
    cases hbytes
  have hrecover := harchive.recover_snapshot hsound hfilled.holes hdone hlsn hleft hmissing hskips
    hload
  refine ⟨hstamp, ?_, hrecover, ?_⟩
  · obtain ⟨file, hfile⟩ := hsound.stored.opened
    refine ⟨contents file.cache, ?_⟩
    rw [lookup_eraseAll, if_neg fun hmem => lt_irrefl _ (hbelow _ hmem), listing,
      SortedMap.lookup_mapValues, hfile]
    rfl
  · intro depth' mode' pool' engine' hreach' hdone' hsame
    obtain ⟨hsound', hfilled', harchive', hpresent'⟩ := rotatesOnly_reach htop hreach'
    have hlsn' : engine'.lastIngestedLsn < 2 ^ 64 := by
      rw [harchive'.ingested, hsame, ← harchive.ingested]
      exact hlsn
    have hthere : ∀ entry ∈ engine'.queued,
        (listing engine'.files).lookup entry.seg = none → entry.batch.lsnHi ≤ stamp := by
      intro entry hentry hnone
      obtain ⟨file, hfile⟩ := hpresent'.files entry hentry (Nat.zero_le _)
      rw [listing, SortedMap.lookup_mapValues, hfile] at hnone
      cases hnone
    rw [hrecover, harchive'.recover_snapshot hsound' hfilled'.holes hdone' hlsn'
      (fun _ _ h => h) hthere hskips hload, hsame]

/-- A PUT, a snapshot of it, a rotate, a retire, a PUT: the first segment is in line
for removal and gone, and recovery does not miss it. -/
theorem retire_loses_nothing_one :
    ∃ drained rotated engine engine', Machine.Reach step RotateFeeds
        (new 128 (Files.ofSegs SortedMap.empty) 1 .noFsync []) drained ∧
      drained.step .drain = some rotated ∧
      Machine.Reach step (RetireFeeds 2) rotated engine ∧ engine.line = [.remove 1] ∧
      Machine.Reach step RotatesOnly
        (new 128 (Files.ofSegs SortedMap.empty) 1 .noFsync []) engine' ∧
      recover ⟨some [0x53, 0x4e, 0x41, 0x50, 2, 0, 0, 0, 0, 0, 0, 0, 1, 0, 0, 0, 0, 0, 0, 0,
          1, 0, 0, 0, 65, 1, 0, 0, 0, 66], (listing engine.files).erase 1⟩ =
        recover ⟨some [0x53, 0x4e, 0x41, 0x50, 2, 0, 0, 0, 0, 0, 0, 0, 1, 0, 0, 0, 0, 0, 0, 0,
          1, 0, 0, 0, 65, 1, 0, 0, 0, 66], listing engine'.files⟩ := by
  let first : Batch := ⟨[⟨.smallPut 65 66, 7, none, 0⟩], [], 1, 2, 0⟩
  let second : Batch := ⟨[⟨.smallPut 68 67, 7, none, 1⟩], [], 2, 3, 1⟩
  let log : List (ℕ × Bytes) := [(2, [1, 1, 0, 0, 0, 65, 66]), (3, [1, 1, 0, 0, 0, 68, 67])]
  let later : List Act := [.arrive (.retire 2), .arrive (.write second), .plan, .reap, .poll,
    .plan, .reap, .poll, .plan, .reap, .start 1, .complete 1 27, .poll, .plan, .reap, .send, .reap]
  obtain ⟨drained, hbefore, hdrained⟩ := @Machine.exists_reach _ _ step RotateFeeds
    (new 128 (Files.ofSegs SortedMap.empty) 1 .noFsync []) _
    [.arrive (.write first), .poll, .plan, .reap, .start 0, .complete 0 27, .poll, .plan, .reap,
      .send, .reap, .arrive (.rotate 2), .poll]
    (fun drained => decide (drained.pc = .draining 2 ∧ drained.shouldPark = true) &&
      (drained.step .drain).any fun rotated : WalEngine => decide (rotated.msgRx = []) &&
        (Machine.run (Machine.guarded step (RetireFeeds 2)) rotated later).any
          fun engine : WalEngine => decide (engine.line = [.remove 1] ∧ engine.history = log ∧
            engine.lastIngestedLsn = 3))
    (by decide +kernel)
  rw [Bool.and_eq_true, decide_eq_true_eq] at hdrained
  obtain ⟨⟨hpc, hidle⟩, hmore⟩ := hdrained
  obtain ⟨rotated, hrotate, hmore⟩ := (Option.any_eq_true _ _).mp hmore
  rw [Bool.and_eq_true, decide_eq_true_eq] at hmore
  obtain ⟨hinbox, hmore⟩ := hmore
  obtain ⟨engine, hrun, hmore⟩ := (Option.any_eq_true _ _).mp hmore
  obtain ⟨hline, hhistory, hlast⟩ : engine.line = [.remove 1] ∧ engine.history = log ∧
      engine.lastIngestedLsn = 3 := of_decide_eq_true hmore
  have hafter := Machine.reach_of_run Machine.Reach.start hrun
  obtain ⟨engine', hreach', hrun'⟩ := @Machine.exists_reach _ _ step RotatesOnly
    (new 128 (Files.ofSegs SortedMap.empty) 1 .noFsync []) _
    [.arrive (.write first), .poll, .plan, .reap, .arrive (.write second), .poll, .plan, .reap,
      .start 0, .start 1, .complete 1 27, .complete 0 27, .poll, .plan, .reap, .send, .reap,
      .send, .reap]
    (fun engine => engine.shouldPark = true ∧ engine.history = log)
    (by decide +kernel)
  obtain ⟨hidle', hhistory'⟩ : engine'.shouldPark = true ∧ engine'.history = log :=
    of_decide_eq_true hrun'
  have hsent : ∀ boundaryLsn, .retire boundaryLsn ∈ rotated.msgRx → boundaryLsn ≤ 2 := by
    rw [hinbox]
    exact fun _ h => by cases h
  have hsound : engine.Sound := by
    have htop : ∀ seg bytes, (SortedMap.empty : SortedMap ℕ Bytes).lookup seg = some bytes →
        seg ≤ 1 := fun _ _ h => by cases h
    exact (archive_reach htop
      (retire_reach htop hbefore hpc hidle hrotate hsent hafter).2.1).1
  have hdone : engine.WritesDone := writesDone_of_line hsound (by simp [hline])
  obtain ⟨-, -, -, htwin⟩ := @retire_loses_nothing engine 1 2 ⟨none, SortedMap.empty⟩ Db.new
    Pipeline.cleanDir_empty rfl 128 .noFsync [] drained rotated hbefore hpc hidle hrotate hsent
    hafter hdone (by rw [hlast]; decide)
    [0x53, 0x4e, 0x41, 0x50, 2, 0, 0, 0, 0, 0, 0, 0, 1, 0, 0, 0, 0, 0, 0, 0,
      1, 0, 0, 0, 65, 1, 0, 0, 0, 66]
    (applyRecords Db.new [(2, [1, 1, 0, 0, 0, 65, 66])]) (by decide +kernel) [1]
    (by simp [hline])
  exact ⟨drained, rotated, engine, engine', hbefore, hrotate, hafter, hline, hreach',
    htwin 128 .noFsync [] engine' hreach' (writesDone_of_park hidle')
      (hhistory'.trans hhistory.symm)⟩

end WalEngine

end InMemoryDb.Stage3
