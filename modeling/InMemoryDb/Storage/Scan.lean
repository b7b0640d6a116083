import InMemoryDb.Lib.Frames
import InMemoryDb.Storage.Recover

/-!
# What the replay loop reads

The loop of `recover` reads a record, redoes it and goes on behind it.  Here the
two are taken apart: which records it reads, how many bytes they take and how it
ends is a function of the bytes alone; what it redoes is a function of the
records it has read.
-/

namespace InMemoryDb.Recover

open LittleEndian Wire WalFormat

/-- The records read from a segment, the bytes they take, and how reading ended. -/
structure Scan where
  records : List (ℕ × Bytes)
  consumed : ℕ
  ended : Ended
  deriving DecidableEq

/-- The `while p < bytes.len()` loop of `recover`, without the redoing. -/
def scanLoop : ℕ → Bytes → Scan
  | 0, _ => ⟨[], 0, .finished⟩
  | fuel + 1, bytes =>
      if bytes = [] then ⟨[], 0, .finished⟩
      else
        match decodeRecord bytes with
        | .error cause => ⟨[], 0, .panicked cause⟩
        | .ok none => ⟨[], 0, .torn⟩
        | .ok (some rec) =>
            let rest := scanLoop fuel (bytes.drop rec.consumed)
            ⟨(rec.lsn, rec.wireBody) :: rest.records, rec.consumed + rest.consumed, rest.ended⟩

def scan (bytes : Bytes) : Scan := scanLoop bytes.length bytes

/-- The body of the loop behind `decode_record`, for one record after another. -/
def redo (snapLsn : ℕ) (ended : Ended) : List (ℕ × Bytes) → Replay → Replay × Ended
  | [], state => (state, ended)
  | rec :: records, state =>
      if rec.1 ≤ snapLsn then redo snapLsn ended records state
      else
        match restore rec.2 state.db with
        | .error cause => (state, .panicked cause)
        | .ok db =>
            redo snapLsn ended records
              ⟨db, max state.highest rec.1, state.replayed ++ [rec]⟩

/-! ## Reading -/

theorem scanLoop_fuel (fuel : ℕ) (bytes : Bytes) (hfuel : bytes.length ≤ fuel) :
    scanLoop fuel bytes = scan bytes := by
  induction fuel using Nat.strong_induction_on generalizing bytes with
  | _ fuel ih =>
    by_cases hnil : bytes = []
    · subst hnil
      cases fuel with
      | zero => rfl
      | succ fuel => rfl
    · obtain ⟨size, hsize⟩ : ∃ size, bytes.length = size + 1 :=
        Nat.exists_eq_succ_of_ne_zero (by simpa using hnil)
      obtain ⟨more, rfl⟩ : ∃ more, fuel = more + 1 := ⟨fuel - 1, by omega⟩
      rw [scan, hsize, scanLoop, scanLoop, if_neg hnil, if_neg hnil]
      cases hdecode : decodeRecord bytes with
      | error cause => rfl
      | ok found =>
          cases found with
          | none => rfl
          | some rec =>
              have hconsumed := decodeRecord_consumed hdecode
              have hrest : (bytes.drop rec.consumed).length ≤ size := by
                rw [List.length_drop]
                omega
              have hsame : scanLoop more (bytes.drop rec.consumed) =
                  scanLoop size (bytes.drop rec.consumed) := by
                rw [ih more (by omega) _ (by omega), ih size (by omega) _ hrest]
              simp only [hsame]

@[simp]
theorem scan_nil : scan [] = ⟨[], 0, .finished⟩ := rfl

/-- One round of reading. -/
theorem scan_cons {bytes : Bytes} (hbytes : bytes ≠ []) :
    scan bytes =
      match decodeRecord bytes with
      | .error cause => ⟨[], 0, .panicked cause⟩
      | .ok none => ⟨[], 0, .torn⟩
      | .ok (some rec) =>
          ⟨(rec.lsn, rec.wireBody) :: (scan (bytes.drop rec.consumed)).records,
            rec.consumed + (scan (bytes.drop rec.consumed)).consumed,
            (scan (bytes.drop rec.consumed)).ended⟩ := by
  obtain ⟨size, hsize⟩ : ∃ size, bytes.length = size + 1 :=
    Nat.exists_eq_succ_of_ne_zero (by simpa using hbytes)
  rw [scan, hsize, scanLoop, if_neg hbytes]
  cases hdecode : decodeRecord bytes with
  | error cause => rfl
  | ok found =>
      cases found with
      | none => rfl
      | some rec =>
          have hconsumed := decodeRecord_consumed hdecode
          simp only
          rw [scanLoop_fuel size _ (by rw [List.length_drop]; omega)]

theorem scan_torn {bytes : Bytes} (hbytes : bytes ≠ [])
    (hdecode : decodeRecord bytes = .ok none) : scan bytes = ⟨[], 0, .torn⟩ := by
  rw [scan_cons hbytes, hdecode]

/-- A segment is replayed by reading it and redoing what was read. -/
theorem replaySegment_eq_redo (snapLsn : ℕ) (bytes : Bytes) (state : Replay) :
    replaySegment snapLsn bytes state =
      redo snapLsn (scan bytes).ended (scan bytes).records state := by
  induction hlength : bytes.length using Nat.strong_induction_on generalizing bytes state with
  | _ length ih =>
    by_cases hnil : bytes = []
    · subst hnil
      rfl
    cases hdecode : decodeRecord bytes with
    | error cause =>
        rw [replaySegment_panicked snapLsn state hnil hdecode, scan_cons hnil, hdecode]
        rfl
    | ok found =>
        cases found with
        | none =>
            rw [replaySegment_torn snapLsn state hnil hdecode, scan_torn hnil hdecode]
            rfl
        | some rec =>
            have hconsumed := decodeRecord_consumed hdecode
            have hrest : ∀ after, replaySegment snapLsn (bytes.drop rec.consumed) after = _ :=
              fun after => ih _ (by rw [List.length_drop]; omega) _ after rfl
            have hread := replaySegment_some snapLsn state hdecode
            simp only [hrest] at hread
            rw [scan_cons hnil, hdecode]
            exact hread

/-- Whole records are read back as they were encoded. -/
theorem scan_encodeAll {records : List (ℕ × Bytes)} (hfits : ∀ rec ∈ records, Fits rec.1 rec.2)
    (rest : Bytes) :
    scan (encodeAll records ++ rest) =
      ⟨records ++ (scan rest).records, (encodeAll records).length + (scan rest).consumed,
        (scan rest).ended⟩ := by
  induction records with
  | nil => simp [encodeAll]
  | cons rec records ih =>
      have hsplit : encodeAll (rec :: records) ++ rest =
          record rec.1 rec.2 ++ (encodeAll records ++ rest) := by
        simp only [encodeAll, List.flatMap_cons, List.append_assoc]
      have hnil : record rec.1 rec.2 ++ (encodeAll records ++ rest) ≠ [] := by
        intro h
        exact record_ne_nil _ _ (List.append_eq_nil_iff.mp h).1
      have hlength : (encodeAll (rec :: records)).length =
          (record rec.1 rec.2).length + (encodeAll records).length := by
        simp only [encodeAll, List.flatMap_cons, List.length_append]
      rw [hsplit, scan_cons hnil, decodeRecord_record (hfits rec List.mem_cons_self)]
      simp only [List.drop_left]
      rw [ih fun other hother => hfits other (List.mem_cons_of_mem _ hother), hlength,
        Nat.add_assoc]
      rfl

/-! ## Redoing -/

/-- A body the loop can redo: it has an opcode, and the key of a PUT lies inside
it. -/
def Redoable (blob : Bytes) : Prop := blob ≠ [] ∧ (blob.head? = some opPut → WellFormed blob)

/-- What the loop redoes: the PUTs. -/
def putRecords (records : List (ℕ × Bytes)) : List (ℕ × Bytes) :=
  records.filter fun rec => rec.2.head? = some opPut

theorem restore_eq {rec : ℕ × Bytes} (hblob : Redoable rec.2) (db : Db) :
    restore rec.2 db = .ok (applyRecords db (putRecords [rec])) := by
  by_cases hput : rec.2.head? = some opPut
  · rw [restore_goodPut ⟨hput, hblob.2 hput⟩, putRecords,
      List.filter_cons_of_pos (by simpa using hput)]
    rfl
  · obtain ⟨byte, rest, hbytes⟩ := List.exists_cons_of_ne_nil hblob.1
    rw [putRecords, List.filter_cons_of_neg (by simpa using hput), hbytes, restore, op_cons,
      ok_bind]
    rw [hbytes, List.head?_cons, Option.some.injEq] at hput
    rw [if_neg hput]
    rfl

theorem restore_redoable {blob : Bytes} (hblob : Redoable blob) (db : Db) :
    ∃ after, restore blob db = .ok after :=
  ⟨_, @restore_eq (0, blob) hblob db⟩

theorem restore_unredoable {blob : Bytes} (hblob : ¬ Redoable blob) (db : Db) :
    restore blob db = .error .outOfBounds := by
  cases blob with
  | nil => rfl
  | cons byte rest =>
      have hbad : byte = opPut ∧ ¬ WellFormed (byte :: rest) := by
        by_contra hgood
        refine hblob ⟨List.cons_ne_nil _ _, fun hhead => ?_⟩
        by_contra hbody
        exact hgood ⟨by simpa using hhead, hbody⟩
      rw [restore, op_cons, ok_bind, if_pos hbad.1, splitKv_error hbad.2, error_bind]

/-- Records that can all be redone are redone one after another, less those the
snapshot covers. -/
theorem redo_redoable {snapLsn : ℕ} {records : List (ℕ × Bytes)}
    (hrecords : ∀ rec ∈ records, snapLsn < rec.1 → Redoable rec.2) (ended : Ended)
    (state : Replay) :
    (redo snapLsn ended records state).1.replayed = state.replayed ++ above snapLsn records ∧
      (redo snapLsn ended records state).2 = ended := by
  induction records generalizing state with
  | nil => simp [redo, above]
  | cons rec records ih =>
      have hrest := ih fun other hother => hrecords other (List.mem_cons_of_mem _ hother)
      by_cases hlsn : rec.1 ≤ snapLsn
      · rw [redo, if_pos hlsn, above, List.filter_cons_of_neg (by simpa using hlsn)]
        exact hrest state
      · obtain ⟨db, hdb⟩ :=
          restore_redoable (hrecords rec List.mem_cons_self (not_le.mp hlsn)) state.db
        rw [redo, if_neg hlsn, hdb, above, List.filter_cons_of_pos (by simpa using hlsn)]
        obtain ⟨hreplayed, hended⟩ := hrest ⟨db, max state.highest rec.1, state.replayed ++ [rec]⟩
        refine ⟨?_, hended⟩
        simp only [hreplayed, List.append_assoc, List.singleton_append, above]

theorem redo_append (snapLsn : ℕ) (ended : Ended) (front back : List (ℕ × Bytes))
    (state : Replay) :
    redo snapLsn ended (front ++ back) state =
      match redo snapLsn .finished front state with
      | (after, .finished) => redo snapLsn ended back after
      | stopped => stopped := by
  induction front generalizing state with
  | nil => rfl
  | cons rec front ih =>
      rw [List.cons_append, redo, redo]
      split_ifs
      · exact ih state
      · cases restore rec.2 state.db with
        | error cause => rfl
        | ok db => exact ih _

/-- Redoing ends as reading did, or earlier. -/
theorem redo_ended {ended : Ended} (hended : ended ≠ .finished) (snapLsn : ℕ)
    (records : List (ℕ × Bytes)) (state : Replay) :
    (redo snapLsn ended records state).2 ≠ .finished := by
  induction records generalizing state with
  | nil => exact hended
  | cons rec records ih =>
      rw [redo]
      split_ifs
      · exact ih state
      · cases restore rec.2 state.db with
        | error cause => exact fun h => by cases h
        | ok db => exact ih _

/-! ## Segments -/

/-- The records read from segments one after another, up to the first that does not decode
to its end, and how reading ended. -/
def scanSegs : List (ℕ × Bytes) → List (ℕ × Bytes) × Ended
  | [] => ([], .finished)
  | (_, bytes) :: rest =>
      if (scan bytes).ended = .finished then
        ((scan bytes).records ++ (scanSegs rest).1, (scanSegs rest).2)
      else ((scan bytes).records, (scan bytes).ended)

/-- Segments are replayed by reading them and redoing what was read. -/
theorem replaySegments_eq_redo (snapLsn : ℕ) (segs : List (ℕ × Bytes)) (state : Replay) :
    replaySegments snapLsn segs state = redo snapLsn (scanSegs segs).2 (scanSegs segs).1 state := by
  induction segs generalizing state with
  | nil => rfl
  | cons seg rest ih =>
      obtain ⟨name, bytes⟩ := seg
      rw [replaySegments, replaySegment_eq_redo, scanSegs]
      split_ifs with hended
      · rw [hended, redo_append]
        cases redo snapLsn .finished (scan bytes).records state with
        | mk after stopped =>
            cases stopped with
            | finished => exact ih after
            | _ => rfl
      · cases hredo : redo snapLsn (scan bytes).ended (scan bytes).records state with
        | mk after stopped =>
            have hstopped := redo_ended hended snapLsn (scan bytes).records state
            rw [hredo] at hstopped
            cases stopped with
            | finished => exact absurd rfl hstopped
            | _ => rfl

/-! ## Cuts -/

/-- `encode_record` for one record after another, behind whatever the buffer holds. -/
def appendRecords (out : Bytes) (records : List (ℕ × Bytes)) : Bytes :=
  records.foldl (fun out rec => encodeRecord out rec.1 rec.2) out

theorem appendRecords_eq (out : Bytes) (records : List (ℕ × Bytes)) :
    appendRecords out records = out ++ encodeAll records := by
  induction records generalizing out with
  | nil => simp [appendRecords, encodeAll]
  | cons rec records ih =>
      change appendRecords (encodeRecord out rec.1 rec.2) records = _
      rw [ih, encodeRecord_eq, List.append_assoc]
      rfl

/-- The frame of a record. -/
def recordOf (rec : ℕ × Bytes) : Bytes := record rec.1 rec.2

/-- A cut of a log is read to the records wholly before it, and to a torn tail
unless it is between two records. -/
theorem scan_cut {records : List (ℕ × Bytes)} (hfits : ∀ rec ∈ records, Fits rec.1 rec.2)
    (cut : ℕ) :
    scan ((encodeAll records).take cut) =
      ⟨records.take (Frames.wholeCount recordOf records cut),
        (encodeAll (records.take (Frames.wholeCount recordOf records cut))).length,
        if Frames.leftover recordOf records cut = [] then .finished else .torn⟩ := by
  have hsplit : (encodeAll records).take cut =
      encodeAll (records.take (Frames.wholeCount recordOf records cut)) ++
        Frames.leftover recordOf records cut :=
    Frames.take_stream _ records cut
  rw [hsplit, scan_encodeAll fun rec hrec => hfits rec (List.mem_of_mem_take hrec)]
  split_ifs with hnil
  · rw [hnil, scan_nil]
    simp
  · obtain ⟨rec, hrec, part, hpart, htail⟩ :=
      (Frames.leftover_short recordOf records cut).resolve_left hnil
    have hdecode : decodeRecord ((recordOf rec).take part) = .ok none :=
      decodeRecord_truncated (hfits rec hrec) hpart
    rw [← htail] at hdecode
    rw [scan_torn hnil hdecode]
    simp

/-- The bytes the calls of `encode_record` append to the buffer. -/
def appended (out : Bytes) (records : List (ℕ × Bytes)) : Bytes :=
  (appendRecords out records).drop out.length

theorem appended_eq (out : Bytes) (records : List (ℕ × Bytes)) :
    appended out records = encodeAll records := by
  rw [appended, appendRecords_eq, List.drop_left]

/-- Records appended to any buffer and cut at any byte: the loop reads exactly the
records wholly before the cut, takes exactly their bytes, and finds a torn tail if
and only if the cut is inside a record.  If their bodies can be redone, `recover`
redoes these records and no other. -/
theorem log_cut (out : Bytes) {records : List (ℕ × Bytes)}
    (hfits : ∀ rec ∈ records, Fits rec.1 rec.2) {cut : ℕ}
    (hcut : cut ≤ (appended out records).length) :
    ∃ count ≤ records.length,
      (∀ number ≤ records.length,
        number ≤ count ↔ (encodeAll (records.take number)).length ≤ cut) ∧
      (scan ((appended out records).take cut)).records = records.take count ∧
      (scan ((appended out records).take cut)).consumed =
        (encodeAll (records.take count)).length ∧
      ((scan ((appended out records).take cut)).ended = .finished ↔
        ∃ number ≤ records.length, cut = (encodeAll (records.take number)).length) ∧
      ((scan ((appended out records).take cut)).ended = .torn ↔
        ¬ ∃ number ≤ records.length, cut = (encodeAll (records.take number)).length) ∧
      ((∀ rec ∈ records, Redoable rec.2) → ∀ snapLsn state,
        (replaySegment snapLsn ((appended out records).take cut) state).1.replayed =
            state.replayed ++ above snapLsn (records.take count) ∧
          (replaySegment snapLsn ((appended out records).take cut) state).2 =
            (scan ((appended out records).take cut)).ended) := by
  rw [appended_eq] at hcut ⊢
  have hboundary : Frames.leftover recordOf records cut = [] ↔
      ∃ number ≤ records.length, cut = (encodeAll (records.take number)).length :=
    Frames.leftover_eq_nil_iff _ records hcut
  rw [scan_cut hfits]
  refine ⟨Frames.wholeCount recordOf records cut,
    Frames.wholeCount_le _ records cut, ?_, rfl, rfl, ?_, ?_, ?_⟩
  · exact fun number hnumber => Frames.le_wholeCount_iff _ records cut number hnumber
  · rw [ite_eq_left_iff]
    simpa using hboundary
  · rw [ite_eq_right_iff]
    simpa using not_congr hboundary
  · intro hredoable snapLsn state
    rw [replaySegment_eq_redo, scan_cut hfits]
    exact redo_redoable (fun rec hrec _ => hredoable rec (List.mem_of_mem_take hrec)) _ state

/-- Two PUTs behind a byte that was in the buffer, cut five bytes into the second. -/
theorem log_cut_inside :
    (scan ((appended [9] [(2, [1, 1, 0, 0, 0, 65, 66]), (3, [1, 1, 0, 0, 0, 65, 67])]).take
        32)).records = [(2, [1, 1, 0, 0, 0, 65, 66])] ∧
      (scan ((appended [9] [(2, [1, 1, 0, 0, 0, 65, 66]), (3, [1, 1, 0, 0, 0, 65, 67])]).take
        32)).ended = .torn := by
  obtain ⟨count, hle, hwhole, hrecords, -, -, htorn, -⟩ := @log_cut [9]
    [(2, [1, 1, 0, 0, 0, 65, 66]), (3, [1, 1, 0, 0, 0, 65, 67])] (by
      intro rec hrec
      simp only [List.mem_cons, List.not_mem_nil, or_false] at hrec
      rcases hrec with rfl | rfl
      · exact ⟨by norm_num, by decide⟩
      · exact ⟨by norm_num, by decide⟩) 32 (by decide)
  have hfirst : 1 ≤ count := (hwhole 1 (by decide)).mpr (by decide)
  have hsecond : ¬ 2 ≤ count := fun h => absurd ((hwhole 2 (by decide)).mp h) (by decide)
  obtain rfl : count = 1 := by omega
  exact ⟨hrecords, htorn.mpr (by decide)⟩

end InMemoryDb.Recover
