import InMemoryDb.Lib.LastWrite
import InMemoryDb.Storage.Recover

/-!
# Snapshot and log together

A snapshot may be newer than its stamp: recovery then redoes records over values
that are already newer.  Old segments may be gone or not.  The table comes out
the same, because each key ends with the value of its last record.
-/

namespace InMemoryDb.Recover

open WalFormat LastWrite

/-- The records up to an LSN. -/
def upTo (lsn : ℕ) (records : List (ℕ × Bytes)) : List (ℕ × Bytes) :=
  records.filter fun rec => rec.1 ≤ lsn

/-- A segment file, as the records in it. -/
def segmentFile (segment : ℕ × List (ℕ × Bytes)) : ℕ × Bytes := (segment.1, encodeAll segment.2)

theorem applyRecords_eq (db : Db) (records : List (ℕ × Bytes)) :
    applyRecords db records =
      applyWrites db (records.map fun rec => (Wire.keyOf rec.2, Wire.valueOf rec.2)) := by
  rw [applyWrites, List.foldl_map]
  rfl

/-! ## Replay of whole segments -/

theorem Replay.extend_append (state : Replay) (first second : List (ℕ × Bytes)) :
    state.extend (first ++ second) = (state.extend first).extend second := by
  rw [Replay.extend, Replay.extend, Replay.extend, applyRecords_append, List.map_append,
    List.foldl_append, List.append_assoc]

theorem above_append (snapLsn : ℕ) (first second : List (ℕ × Bytes)) :
    above snapLsn (first ++ second) = above snapLsn first ++ above snapLsn second :=
  List.filter_append _ _

/-- Segments that hold whole records only are replayed to their end. -/
theorem replaySegments_whole {snapLsn : ℕ} {segments : List (ℕ × List (ℕ × Bytes))}
    (hgood : ∀ rec ∈ segments.flatMap Prod.snd, Fits rec.1 rec.2 ∧ GoodPut rec.2)
    (state : Replay) :
    replaySegments snapLsn (segments.map segmentFile) state =
      (state.extend (above snapLsn (segments.flatMap Prod.snd)), .finished) := by
  induction segments generalizing state with
  | nil => simp [replaySegments, Replay.extend, above, applyRecords]
  | cons segment segments ih =>
      rw [List.flatMap_cons] at hgood
      have hsegment := @replaySegment_whole snapLsn segment.2
        (fun rec hrec => hgood rec (List.mem_append_left _ hrec)) [] state
      rw [List.append_nil, replaySegment_nil] at hsegment
      rw [List.map_cons, segmentFile, replaySegments, hsegment]
      simp only
      rw [ih fun rec hrec => hgood rec (List.mem_append_right _ hrec), List.flatMap_cons,
        above_append, Replay.extend_append]

/-! ## Segments a snapshot covers -/

/-- Replay runs through the segment and leaves everything as it is. -/
def Skips (snapLsn : ℕ) (bytes : Bytes) : Prop :=
  ∀ state, replaySegment snapLsn bytes state = (state, .finished)

theorem skips_nil (snapLsn : ℕ) : Skips snapLsn [] := replaySegment_nil snapLsn

/-- Whether a record can be redone does not depend on the table. -/
theorem restore_again {wireBody : Bytes} {db restored : Db}
    (hrestore : restore wireBody db = .ok restored) (other : Db) :
    ∃ again, restore wireBody other = .ok again := by
  unfold restore at hrestore ⊢
  cases hop : Wire.op wireBody with
  | error cause => simp [hop] at hrestore
  | ok code =>
      simp only [hop, Wire.ok_bind] at hrestore ⊢
      split_ifs with hput
      · rw [if_pos hput] at hrestore
        cases hsplit : Wire.splitKv wireBody with
        | error cause => simp [hsplit] at hrestore
        | ok pair => exact ⟨_, rfl⟩
      · exact ⟨other, rfl⟩

/-- A segment that was once replayed to its end always is, also under a higher
stamp; it changes nothing if the stamp is at or above the LSN that replay reached. -/
theorem replaySegment_again {snapLsn stamp : ℕ} {bytes : Bytes} {state after : Replay}
    (hdone : replaySegment snapLsn bytes state = (after, .finished)) (hsnap : snapLsn ≤ stamp)
    (other : Replay) :
    ∃ again, replaySegment stamp bytes other = (again, .finished) ∧
      (after.highest ≤ stamp → again = other) := by
  induction hlength : bytes.length using Nat.strong_induction_on
    generalizing bytes state other with
  | _ length ih =>
    subst hlength
    rcases replaySegment_finished_inv hdone with
      ⟨rfl, rfl⟩ | ⟨rec, hdecode, hshorter, hround⟩
    · exact ⟨other, replaySegment_nil stamp other, fun _ => rfl⟩
    rw [replaySegment_some stamp other hdecode]
    rcases hround with ⟨hskip, hrest⟩ | ⟨-, db, hrestore, hrest⟩
    · rw [if_pos (hskip.trans hsnap)]
      exact ih _ hshorter hrest other rfl
    · by_cases hlsn : rec.lsn ≤ stamp
      · rw [if_pos hlsn]
        exact ih _ hshorter hrest other rfl
      · obtain ⟨redone, hredone⟩ := restore_again hrestore other.db
        rw [if_neg hlsn, hredone]
        obtain ⟨again, hagain, -⟩ := ih _ hshorter hrest
          ⟨redone, max other.highest rec.lsn,
            other.replayed ++ [(rec.lsn, rec.wireBody)]⟩ rfl
        refine ⟨again, hagain, ?_⟩
        -- the record counts towards the LSN that replay reached
        intro hstamp
        have hkept := replayLoop_kept snapLsn (bytes.drop rec.consumed).length
          (bytes.drop rec.consumed)
          ⟨db, max state.highest rec.lsn, state.replayed ++ [(rec.lsn, rec.wireBody)]⟩
        rw [← replaySegment, hrest] at hkept
        exact absurd ((le_max_right _ _).trans (hkept.highest.trans hstamp)) hlsn

/-- The segments of a directory that was replayed to its end. -/
theorem replaySegments_again {snapLsn stamp : ℕ} {entries : List (ℕ × Bytes)}
    {state after : Replay}
    (hdone : replaySegments snapLsn entries state = (after, .finished)) (hsnap : snapLsn ≤ stamp)
    {entry : ℕ × Bytes} (hentry : entry ∈ entries) (other : Replay) :
    ∃ again, replaySegment stamp entry.2 other = (again, .finished) ∧
      (after.highest ≤ stamp → again = other) := by
  obtain ⟨front, back, rfl⟩ := List.append_of_mem hentry
  obtain ⟨middle, -, hrest⟩ := replaySegments_append_inv hdone
  have hsplit : entry :: back = [(entry.1, entry.2)] ++ back := rfl
  rw [hsplit] at hrest
  obtain ⟨next, hnext, hback⟩ := replaySegments_append_inv hrest
  rw [replaySegments_singleton] at hnext
  obtain ⟨again, hagain, hsame⟩ := replaySegment_again hnext hsnap other
  refine ⟨again, hagain, fun hstamp => hsame ?_⟩
  have hhighest := (replaySegments_kept snapLsn back next).highest
  rw [hback] at hhighest
  exact hhighest.trans hstamp

/-! ## Cuts of the log -/

section Cuts

variable {records : List (ℕ × Bytes)}

theorem filter_split (hsorted : records.Pairwise fun left right => left.1 < right.1) (lsn : ℕ) :
    records = upTo lsn records ++ above lsn records := by
  induction records with
  | nil => rfl
  | cons rec records ih =>
      obtain ⟨hrec, hrest⟩ := List.pairwise_cons.mp hsorted
      by_cases hle : rec.1 ≤ lsn
      · rw [upTo, above, List.filter_cons_of_pos (by simpa using hle),
          List.filter_cons_of_neg (by simpa using hle), List.cons_append]
        exact congrArg (rec :: ·) (ih hrest)
      · have hbelow : upTo lsn (rec :: records) = [] := by
          rw [upTo, List.filter_eq_nil_iff]
          intro other hother
          rcases List.mem_cons.mp hother with rfl | hmem
          · simpa using hle
          · have := hrec other hmem
            simp only [decide_eq_true_eq]
            omega
        have hall : above lsn (rec :: records) = rec :: records := by
          rw [above, List.filter_eq_self]
          intro other hother
          rcases List.mem_cons.mp hother with rfl | hmem
          · simpa using hle
          · have := hrec other hmem
            simp only [decide_eq_true_eq]
            omega
        rw [hbelow, hall, List.nil_append]

/-- The records between the stamp and a later cut come first behind the stamp. -/
theorem upTo_split (hsorted : records.Pairwise fun left right => left.1 < right.1)
    {stamp cut : ℕ} (hle : stamp ≤ cut) :
    upTo cut records = upTo stamp records ++ upTo cut (above stamp records) := by
  have hfirst : upTo cut (upTo stamp records) = upTo stamp records := by
    rw [upTo, List.filter_eq_self]
    intro rec hrec
    have hstamp : rec.1 ≤ stamp := by simpa using (List.mem_filter.mp hrec).2
    simpa using hstamp.trans hle
  calc upTo cut records
      = upTo cut (upTo stamp records ++ above stamp records) := by
        rw [← filter_split hsorted stamp]
    _ = upTo cut (upTo stamp records) ++ upTo cut (above stamp records) := List.filter_append _ _
    _ = upTo stamp records ++ upTo cut (above stamp records) := by rw [hfirst]

/-- The state after the records up to `cut`, with the records behind `stamp`
redone over it, is the state after all records. -/
theorem applyRecords_redone (hsorted : records.Pairwise fun left right => left.1 < right.1)
    {stamp cut : ℕ} (hle : stamp ≤ cut) (db : Db) :
    applyRecords (applyRecords db (upTo cut records)) (above stamp records) =
      applyRecords db records := by
  have habove : (above stamp records).Pairwise fun left right => left.1 < right.1 :=
    hsorted.filter _
  have hsplit := filter_split habove cut
  calc applyRecords (applyRecords db (upTo cut records)) (above stamp records)
      = applyRecords (applyRecords db (upTo stamp records ++ upTo cut (above stamp records)))
          (upTo cut (above stamp records) ++ above cut (above stamp records)) := by
        rw [← upTo_split hsorted hle, ← hsplit]
    _ = applyRecords db (upTo stamp records ++ upTo cut (above stamp records) ++
          above cut (above stamp records)) := by
        simp only [applyRecords_eq, List.map_append]
        exact applyWrites_again _ _ _ _
    _ = applyRecords db records := by
        rw [List.append_assoc, ← hsplit, ← filter_split hsorted stamp]

/-- A directory that still has every record behind the stamp has no other ones
there. -/
theorem above_of_sublist (hsorted : records.Pairwise fun left right => left.1 < right.1)
    {present : List (ℕ × Bytes)} (hpresent : present.Sublist records) {stamp : ℕ}
    (hkept : ∀ rec ∈ records, stamp < rec.1 → rec ∈ present) :
    above stamp present = above stamp records := by
  apply (hpresent.filter _).eq_of_length_le
  have hnodup : (above stamp records).Nodup := by
    refine (hsorted.filter _).imp ?_
    intro left right hlt heq
    rw [heq] at hlt
    exact lt_irrefl _ hlt
  have hsubset : above stamp records ⊆ above stamp present := by
    intro rec hrec
    obtain ⟨hmem, hlt⟩ := List.mem_filter.mp hrec
    exact List.mem_filter.mpr ⟨hkept rec hmem (by simpa using hlt), hlt⟩
  exact (hnodup.subperm hsubset).length_le

theorem foldl_max_above (stamp : ℕ) (present : List (ℕ × Bytes)) (highest : ℕ)
    (hhighest : stamp ≤ highest) :
    ((above stamp present).map Prod.fst).foldl max highest =
      (present.map Prod.fst).foldl max highest := by
  induction present generalizing highest with
  | nil => rfl
  | cons rec present ih =>
      by_cases hlt : stamp < rec.1
      · rw [above, List.filter_cons_of_pos (by simpa using hlt), List.map_cons, List.map_cons,
          List.foldl_cons, List.foldl_cons]
        exact ih _ (hhighest.trans (le_max_left _ _))
      · rw [above, List.filter_cons_of_neg (by simpa using hlt), List.map_cons, List.foldl_cons,
          max_eq_left (by omega)]
        exact ih _ hhighest

theorem foldl_max_lt {bound : ℕ} (numbers : List ℕ) {highest : ℕ} (hhighest : highest < bound)
    (hnumbers : ∀ number ∈ numbers, number < bound) : numbers.foldl max highest < bound := by
  induction numbers generalizing highest with
  | nil => exact hhighest
  | cons number numbers ih =>
      refine ih (max_lt hhighest (hnumbers number List.mem_cons_self)) ?_
      exact fun other hother => hnumbers other (List.mem_cons_of_mem _ hother)

end Cuts

/-! ## Recovery -/

/-- The directory holds every record behind the stamp, any of the others, and a
snapshot at least as new as its stamp: recovery returns the table after all
records, and the LSN behind the highest one present. -/
theorem recover_snapshot_log {records : List (ℕ × Bytes)}
    (hsorted : records.Pairwise fun left right => left.1 < right.1)
    (hlsn : ∀ rec ∈ records, rec.1 < 2 ^ 64 - 1)
    (hgood : ∀ rec ∈ records, rec.2.length + 8 < 2 ^ 32 ∧ GoodPut rec.2)
    {stamp cut : ℕ} (hstamp : stamp < 2 ^ 64 - 1) (hcut : stamp ≤ cut)
    {dir : Dir} {bytes : Bytes} (hfile : dir.snapshot = some bytes)
    (hload : Snapshot.load bytes Db.new =
      .ok (some stamp, applyRecords Db.new (upTo cut records)))
    {segments : List (ℕ × List (ℕ × Bytes))}
    (hsegs : dir.segs.entries = segments.map segmentFile)
    (hpresent : (segments.flatMap Prod.snd).Sublist records)
    (hkept : ∀ rec ∈ records, stamp < rec.1 → rec ∈ segments.flatMap Prod.snd) :
    recover dir = .ok (applyRecords Db.new records,
        ((segments.flatMap Prod.snd).map Prod.fst).foldl max stamp + 1) ∧
      ((segments.flatMap Prod.snd).map Prod.fst).foldl max stamp + 1 < 2 ^ 64 := by
  have hrecords : ∀ rec ∈ segments.flatMap Prod.snd, Fits rec.1 rec.2 ∧ GoodPut rec.2 := by
    intro rec hrec
    have hmem := hpresent.subset hrec
    obtain ⟨hlength, hput⟩ := hgood rec hmem
    exact ⟨⟨lt_of_lt_of_le (hlsn rec hmem) (Nat.sub_le _ _), hlength⟩, hput⟩
  have hsnapshot : loadSnapshot dir = .ok (applyRecords Db.new (upTo cut records), stamp) := by
    rw [loadSnapshot, hfile]
    simp only [hload, Wire.ok_bind, Wire.pure_eq_ok]
  have hreplay := @replaySegments_whole stamp segments hrecords
    ⟨applyRecords Db.new (upTo cut records), stamp, []⟩
  constructor
  · rw [recover, replayDir, hsnapshot, Wire.ok_bind]
    simp only [hsegs, hreplay, Wire.pure_eq_ok, Wire.ok_bind]
    rw [above_of_sublist hsorted hpresent hkept]
    simp only [Replay.extend]
    rw [applyRecords_redone hsorted hcut, ← above_of_sublist hsorted hpresent hkept,
      foldl_max_above stamp _ stamp le_rfl]
  · have hbound := foldl_max_lt ((segments.flatMap Prod.snd).map Prod.fst) hstamp (by
      intro lsn hmem
      obtain ⟨rec, hrec, rfl⟩ := List.mem_map.mp hmem
      exact hlsn rec (hpresent.subset hrec))
    omega

/-- Three records; the snapshot is stamped 2 and holds the value of record 3, and
record 2 is gone with its segment. -/
theorem recover_snapshot_log_newer :
    recover ⟨some [0x53, 0x4e, 0x41, 0x50, 2, 0, 0, 0, 0, 0, 0, 0, 1, 0, 0, 0, 0, 0, 0, 0,
          1, 0, 0, 0, 65, 1, 0, 0, 0, 67],
        SortedMap.empty.insert 2 (encodeAll [(3, [1, 1, 0, 0, 0, 65, 67]),
          (4, [1, 1, 0, 0, 0, 68, 69])])⟩ =
      .ok (applyRecords Db.new [(2, [1, 1, 0, 0, 0, 65, 66]), (3, [1, 1, 0, 0, 0, 65, 67]),
        (4, [1, 1, 0, 0, 0, 68, 69])], 5) :=
  (@recover_snapshot_log _ (by decide) (by decide) (by decide) 2 3 (by decide) (by decide) _ _ rfl
    (by decide +kernel) [(2, [(3, [1, 1, 0, 0, 0, 65, 67]), (4, [1, 1, 0, 0, 0, 68, 69])])] rfl
    (by decide) (by decide)).1

end InMemoryDb.Recover
