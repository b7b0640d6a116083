import InMemoryDb.Lib.SortedMap
import InMemoryDb.Storage.Snapshot
import InMemoryDb.Storage.WalFormat

/-!
# Recovery

`recover` loads the snapshot, then replays the segments in LSN order.  Replay
stops for good at the first position the decoder rejects, whatever follows it
in this or a later segment.  The model keeps the list of replayed records where
the code keeps their number, and the way the loop ended.
-/

namespace InMemoryDb.Recover

open LittleEndian Wire WalFormat

/-- The data directory: the snapshot file and the segments, which
`list_segments` sorts by the start LSN in their names. -/
structure Dir where
  snapshot : Option Bytes
  segs : SortedMap ℕ Bytes

structure Replay where
  db : Db
  highest : ℕ
  replayed : List (ℕ × Bytes)

inductive Ended where
  | finished
  | torn
  | panicked (cause : Panic)
  deriving DecidableEq

/-- The effect of one record on the table: only PUTs are redone. -/
def restore (wireBody : Bytes) (db : Db) : Except Panic Db := do
  if (← op wireBody) = opPut then
    let (key, value) ← splitKv wireBody
    return db.insertRaw key value
  else return db

/-- The `while p < bytes.len()` loop of `recover`, on the bytes behind `p`. -/
def replayLoop (snapLsn : ℕ) : ℕ → Bytes → Replay → Replay × Ended
  | 0, _, state => (state, .finished)
  | fuel + 1, bytes, state =>
      if bytes = [] then (state, .finished)
      else
        match decodeRecord bytes with
        | .error cause => (state, .panicked cause)
        | .ok none => (state, .torn)
        | .ok (some rec) =>
            if rec.lsn ≤ snapLsn then replayLoop snapLsn fuel (bytes.drop rec.consumed) state
            else
              match restore rec.wireBody state.db with
              | .error cause => (state, .panicked cause)
              | .ok db =>
                  replayLoop snapLsn fuel (bytes.drop rec.consumed)
                    ⟨db, max state.highest rec.lsn,
                      state.replayed ++ [(rec.lsn, rec.wireBody)]⟩

/-- Replay of one segment; every record takes at least twelve bytes, so the
length of the segment bounds the number of rounds. -/
def replaySegment (snapLsn : ℕ) (bytes : Bytes) (state : Replay) : Replay × Ended :=
  replayLoop snapLsn bytes.length bytes state

/-- The `'main` loop over the listed segments. -/
def replaySegments (snapLsn : ℕ) : List (ℕ × Bytes) → Replay → Replay × Ended
  | [], state => (state, .finished)
  | (_, bytes) :: rest, state =>
      match replaySegment snapLsn bytes state with
      | (after, .finished) => replaySegments snapLsn rest after
      | stopped => stopped

/-- The table and LSN of the snapshot, empty and `0` when there is none. -/
def loadSnapshot (dir : Dir) : Except Panic (Db × ℕ) :=
  match dir.snapshot with
  | none => .ok (Db.new, 0)
  | some bytes => do
      match ← Snapshot.load bytes Db.new with
      | (some lsn, db) => return (db, lsn)
      | (none, db) => return (db, 0)

/-- Snapshot and replay, with the way the replay ended. -/
def replayDir (dir : Dir) : Except Panic (Replay × Ended) := do
  let (db, snapLsn) ← loadSnapshot dir
  return replaySegments snapLsn dir.segs.entries ⟨db, snapLsn, []⟩

/-- `storage::recover`: the table and the next LSN. -/
def recover (dir : Dir) : Except Panic (Db × ℕ) := do
  match ← replayDir dir with
  | (_, .panicked cause) => .error cause
  | (state, _) => return (state.db, state.highest + 1)

/-! ## One segment -/

theorem openBody_consumed {body : Bytes} {consumed : ℕ} {rec : Record}
    (h : openBody body consumed = .ok (some rec)) : rec.consumed = consumed := by
  unfold openBody at h
  cases hlsn : slice body 0 8 with
  | error => simp [hlsn] at h
  | ok field =>
      cases hread : rdU64 field with
      | error => simp [hlsn, hread] at h
      | ok lsn =>
          cases hwire : sliceFrom body 8 with
          | error => simp [hlsn, hread, hwire] at h
          | ok wireBody =>
              simp only [hlsn, hread, hwire, ok_bind, pure_eq_ok, Except.ok.injEq,
                Option.some.injEq] at h
              simp [← h]

/-- A decoded record lies inside the bytes it was read from. -/
theorem decodeRecord_consumed {bytes : Bytes} {rec : Record}
    (h : decodeRecord bytes = .ok (some rec)) :
    rec.consumed = 4 + leNat (bytes.take 4) + 8 ∧ rec.consumed ≤ bytes.length := by
  by_cases hlong : lenSize + leNat (bytes.take 4) + checksumSize ≤ bytes.length
  · rw [decodeRecord_long _ rfl hlong] at h
    split_ifs at h with hsum
    · simp at h
    · have hconsumed := openBody_consumed h
      rw [hconsumed]
      exact ⟨rfl, hlong⟩
  · rw [decodeRecord_short (by omega)] at h
    simp at h

/-- What follows a decodable record does not change how it decodes. -/
theorem decodeRecord_append {bytes : Bytes} {rec : Record}
    (h : decodeRecord bytes = .ok (some rec)) (more : Bytes) :
    decodeRecord (bytes ++ more) = .ok (some rec) := by
  have hconsumed := decodeRecord_consumed h
  have hlong : lenSize + leNat (bytes.take 4) + checksumSize ≤ bytes.length := by
    simp only [lenSize, checksumSize]
    omega
  have htake : (bytes ++ more).take 4 = bytes.take 4 :=
    List.take_append_of_le_length (by omega)
  have hbody : ((bytes ++ more).drop 4).take (leNat (bytes.take 4)) =
      (bytes.drop 4).take (leNat (bytes.take 4)) := by
    rw [List.drop_append_of_le_length (by omega),
      List.take_append_of_le_length (by simp only [List.length_drop]; omega)]
  have hsum : ((bytes ++ more).drop (4 + leNat (bytes.take 4))).take 8 =
      (bytes.drop (4 + leNat (bytes.take 4))).take 8 := by
    rw [List.drop_append_of_le_length (by omega),
      List.take_append_of_le_length (by simp only [List.length_drop]; omega)]
  rw [decodeRecord_long _ rfl hlong] at h
  rw [decodeRecord_long (leNat (bytes.take 4)) (by rw [htake])
    (by simp only [List.length_append]; omega), hbody, hsum]
  exact h

/-- Any fuel at least as long as the bytes gives the same replay. -/
theorem replayLoop_fuel (snapLsn fuel : ℕ) (bytes : Bytes) (state : Replay)
    (hfuel : bytes.length ≤ fuel) :
    replayLoop snapLsn fuel bytes state = replaySegment snapLsn bytes state := by
  induction fuel using Nat.strong_induction_on generalizing bytes state with
  | _ fuel ih =>
    cases fuel with
    | zero =>
        have hnil : bytes = [] := List.length_eq_zero_iff.mp (by omega)
        subst hnil
        rfl
    | succ fuel =>
        by_cases hnil : bytes = []
        · subst hnil
          rfl
        · obtain ⟨size, hsize⟩ : ∃ size, bytes.length = size + 1 :=
            Nat.exists_eq_succ_of_ne_zero (by simpa using hnil)
          rw [replaySegment, hsize, replayLoop, replayLoop, if_neg hnil, if_neg hnil]
          cases hdecode : decodeRecord bytes with
          | error cause => rfl
          | ok found =>
              cases found with
              | none => rfl
              | some rec =>
                  have hconsumed := decodeRecord_consumed hdecode
                  have hrest : (bytes.drop rec.consumed).length < size + 1 := by
                    rw [List.length_drop]
                    omega
                  have hsame : ∀ after, replayLoop snapLsn fuel (bytes.drop rec.consumed) after =
                      replayLoop snapLsn size (bytes.drop rec.consumed) after := by
                    intro after
                    rw [ih fuel (by omega) _ after (by omega),
                      ih size (by omega) _ after (by omega)]
                  simp only [hsame]

@[simp]
theorem replaySegment_nil (snapLsn : ℕ) (state : Replay) :
    replaySegment snapLsn [] state = (state, .finished) := rfl

theorem replaySegment_torn {bytes : Bytes} (snapLsn : ℕ) (state : Replay)
    (hbytes : bytes ≠ []) (hdecode : decodeRecord bytes = .ok none) :
    replaySegment snapLsn bytes state = (state, .torn) := by
  obtain ⟨size, hsize⟩ : ∃ size, bytes.length = size + 1 :=
    Nat.exists_eq_succ_of_ne_zero (by simpa using hbytes)
  rw [replaySegment, hsize, replayLoop, if_neg hbytes, hdecode]

theorem replaySegment_panicked {bytes : Bytes} (snapLsn : ℕ) (state : Replay)
    (hbytes : bytes ≠ []) {cause : Panic} (hdecode : decodeRecord bytes = .error cause) :
    replaySegment snapLsn bytes state = (state, .panicked cause) := by
  obtain ⟨size, hsize⟩ : ∃ size, bytes.length = size + 1 :=
    Nat.exists_eq_succ_of_ne_zero (by simpa using hbytes)
  rw [replaySegment, hsize, replayLoop, if_neg hbytes, hdecode]

/-- One round of the loop, at a record the decoder accepts. -/
theorem replaySegment_some {bytes : Bytes} {rec : Record} (snapLsn : ℕ) (state : Replay)
    (hdecode : decodeRecord bytes = .ok (some rec)) :
    replaySegment snapLsn bytes state =
      if rec.lsn ≤ snapLsn then replaySegment snapLsn (bytes.drop rec.consumed) state
      else
        match restore rec.wireBody state.db with
        | .error cause => (state, .panicked cause)
        | .ok db =>
            replaySegment snapLsn (bytes.drop rec.consumed)
              ⟨db, max state.highest rec.lsn, state.replayed ++ [(rec.lsn, rec.wireBody)]⟩ := by
  have hconsumed := decodeRecord_consumed hdecode
  have hbytes : bytes ≠ [] := by
    rintro rfl
    simp at hconsumed
    omega
  obtain ⟨size, hsize⟩ : ∃ size, bytes.length = size + 1 :=
    Nat.exists_eq_succ_of_ne_zero (by simpa using hbytes)
  have hrest : ∀ after, replayLoop snapLsn size (bytes.drop rec.consumed) after =
      replaySegment snapLsn (bytes.drop rec.consumed) after := fun after =>
    replayLoop_fuel snapLsn size _ after (by rw [List.length_drop]; omega)
  rw [replaySegment, hsize, replayLoop, if_neg hbytes, hdecode]
  simp only [hrest]

/-- A segment that is replayed to its end is empty or starts with a record that is
skipped or redone, and the rest is replayed to its end. -/
theorem replaySegment_finished_inv {snapLsn : ℕ} {bytes : Bytes} {state after : Replay}
    (hdone : replaySegment snapLsn bytes state = (after, .finished)) :
    (bytes = [] ∧ after = state) ∨
      ∃ rec, decodeRecord bytes = .ok (some rec) ∧
        (bytes.drop rec.consumed).length < bytes.length ∧
        ((rec.lsn ≤ snapLsn ∧
          replaySegment snapLsn (bytes.drop rec.consumed) state = (after, .finished)) ∨
        (¬rec.lsn ≤ snapLsn ∧ ∃ db, restore rec.wireBody state.db = .ok db ∧
          replaySegment snapLsn (bytes.drop rec.consumed)
            ⟨db, max state.highest rec.lsn, state.replayed ++ [(rec.lsn, rec.wireBody)]⟩ =
              (after, .finished))) := by
  by_cases hnil : bytes = []
  · subst hnil
    simp only [replaySegment_nil, Prod.mk.injEq, and_true] at hdone
    exact Or.inl ⟨rfl, hdone.symm⟩
  · cases hdecode : decodeRecord bytes with
    | error cause =>
        rw [replaySegment_panicked snapLsn state hnil hdecode] at hdone
        simp at hdone
    | ok found =>
        cases found with
        | none =>
            rw [replaySegment_torn snapLsn state hnil hdecode] at hdone
            simp at hdone
        | some rec =>
            have hconsumed := decodeRecord_consumed hdecode
            refine Or.inr ⟨rec, rfl, by rw [List.length_drop]; omega, ?_⟩
            rw [replaySegment_some snapLsn state hdecode] at hdone
            split_ifs at hdone with hskip
            · exact Or.inl ⟨hskip, hdone⟩
            · cases hrestore : restore rec.wireBody state.db with
              | error cause => simp [hrestore] at hdone
              | ok db =>
                  simp only [hrestore] at hdone
                  exact Or.inr ⟨hskip, db, rfl, hdone⟩

/-- A segment that decodes to its end may be continued: replay goes on behind
it with the state it left. -/
theorem replaySegment_append_of_finished {snapLsn : ℕ} {bytes : Bytes}
    {state after : Replay} (hdone : replaySegment snapLsn bytes state = (after, .finished))
    (more : Bytes) :
    replaySegment snapLsn (bytes ++ more) state = replaySegment snapLsn more after := by
  induction hlength : bytes.length using Nat.strong_induction_on generalizing bytes state with
  | _ length ih =>
    subst hlength
    rcases replaySegment_finished_inv hdone with
      ⟨rfl, rfl⟩ | ⟨rec, hdecode, hshorter, hround⟩
    · rw [List.nil_append]
    · have hconsumed := decodeRecord_consumed hdecode
      rw [replaySegment_some snapLsn state (decodeRecord_append hdecode more),
        List.drop_append_of_le_length hconsumed.2]
      rcases hround with ⟨hskip, hrest⟩ | ⟨hredo, db, hrestore, hrest⟩
      · rw [if_pos hskip]
        exact ih _ hshorter hrest rfl
      · rw [if_neg hredo, hrestore]
        exact ih _ hshorter hrest rfl

/-- What replay keeps of the state it started from: it goes to no lower LSN, and
forgets no record that it has redone. -/
structure Replay.Kept (before after : Replay) : Prop where
  highest : before.highest ≤ after.highest
  replayed : ∀ rec ∈ before.replayed, rec ∈ after.replayed

theorem Replay.Kept.refl (state : Replay) : state.Kept state := ⟨le_rfl, fun _ h => h⟩

theorem Replay.Kept.trans {before middle after : Replay} (hfirst : before.Kept middle)
    (hsecond : middle.Kept after) : before.Kept after where
  highest := hfirst.highest.trans hsecond.highest
  replayed rec hrec := hsecond.replayed rec (hfirst.replayed rec hrec)

theorem replayLoop_kept (snapLsn fuel : ℕ) (bytes : Bytes) (state : Replay) :
    state.Kept (replayLoop snapLsn fuel bytes state).1 := by
  induction fuel generalizing bytes state with
  | zero => exact .refl state
  | succ fuel ih =>
      rw [replayLoop]
      split_ifs with hnil
      · exact .refl state
      · split
        next cause hdecode => exact .refl state
        next hdecode => exact .refl state
        next rec hdecode =>
          split_ifs with hskip
          · exact ih _ _
          · split
            next cause hrestore => exact .refl state
            next db hrestore =>
              have hround : state.Kept ⟨db, max state.highest rec.lsn,
                  state.replayed ++ [(rec.lsn, rec.wireBody)]⟩ :=
                ⟨le_max_left _ _, fun _ h => List.mem_append_left _ h⟩
              exact hround.trans (ih _ _)

/-! ## Records of well-formed PUTs -/

/-- A PUT body the accessors can take apart. -/
def GoodPut (blob : Bytes) : Prop := blob.head? = some opPut ∧ WellFormed blob

instance (blob : Bytes) : Decidable (GoodPut blob) := by
  unfold GoodPut
  infer_instance

/-- What replaying a list of records does to the table. -/
def applyRecords (db : Db) (records : List (ℕ × Bytes)) : Db :=
  records.foldl (fun db rec => db.insertRaw (keyOf rec.2) (valueOf rec.2)) db

/-- The bytes of a list of records. -/
def encodeAll (records : List (ℕ × Bytes)) : Bytes :=
  records.flatMap fun rec => record rec.1 rec.2

theorem restore_goodPut {blob : Bytes} (hblob : GoodPut blob) (db : Db) :
    restore blob db = .ok (db.insertRaw (keyOf blob) (valueOf blob)) := by
  obtain ⟨hop, hbody⟩ := hblob
  cases blob with
  | nil => simp at hop
  | cons byte rest =>
      have hbyte : byte = opPut := by simpa using hop
      rw [restore, op_cons, ok_bind, if_pos hbyte, splitKv_ok hbody]
      rfl

/-- The state after replaying records that all lie above the snapshot. -/
def Replay.extend (state : Replay) (records : List (ℕ × Bytes)) : Replay :=
  ⟨applyRecords state.db records, (records.map Prod.fst).foldl max state.highest,
    state.replayed ++ records⟩

/-- The records the snapshot does not cover. -/
def above (snapLsn : ℕ) (records : List (ℕ × Bytes)) : List (ℕ × Bytes) :=
  records.filter fun rec => snapLsn < rec.1

/-- Whole records of well-formed PUTs are replayed one after another, less those
the snapshot covers. -/
theorem replaySegment_whole {snapLsn : ℕ} {records : List (ℕ × Bytes)}
    (hgood : ∀ rec ∈ records, Fits rec.1 rec.2 ∧ GoodPut rec.2) (rest : Bytes)
    (state : Replay) :
    replaySegment snapLsn (encodeAll records ++ rest) state =
      replaySegment snapLsn rest (state.extend (above snapLsn records)) := by
  induction records generalizing state with
  | nil => simp [encodeAll, Replay.extend, applyRecords, above]
  | cons rec records ih =>
      obtain ⟨hfits, hput⟩ := hgood rec (by simp)
      have hdecode : decodeRecord (encodeAll (rec :: records) ++ rest) =
          .ok (some ⟨rec.1, rec.2, (record rec.1 rec.2).length⟩) := by
        simp only [encodeAll, List.flatMap_cons, List.append_assoc]
        exact decodeRecord_record hfits _
      have hdrop : (encodeAll (rec :: records) ++ rest).drop (record rec.1 rec.2).length =
          encodeAll records ++ rest := by
        simp only [encodeAll, List.flatMap_cons, List.append_assoc]
        rw [List.drop_left]
      have hrest := ih fun other hother => hgood other (List.mem_cons_of_mem _ hother)
      rw [replaySegment_some snapLsn state hdecode, restore_goodPut hput]
      simp only [hdrop, hrest]
      by_cases hlsn : rec.1 ≤ snapLsn
      · rw [if_pos hlsn, above, above, List.filter_cons_of_neg (by simpa using hlsn)]
      · rw [if_neg hlsn, above, above, List.filter_cons_of_pos (by simpa using hlsn)]
        simp [Replay.extend, applyRecords]

theorem replaySegment_encodeAll {snapLsn : ℕ} {records : List (ℕ × Bytes)}
    (hgood : ∀ rec ∈ records, Fits rec.1 rec.2 ∧ GoodPut rec.2 ∧ snapLsn < rec.1)
    (rest : Bytes) (state : Replay) :
    replaySegment snapLsn (encodeAll records ++ rest) state =
      replaySegment snapLsn rest (state.extend records) := by
  have hall : above snapLsn records = records :=
    List.filter_eq_self.mpr fun rec hrec => by simpa using (hgood rec hrec).2.2
  rw [replaySegment_whole (fun rec hrec => ⟨(hgood rec hrec).1, (hgood rec hrec).2.1⟩), hall]

theorem encodeAll_append (first second : List (ℕ × Bytes)) :
    encodeAll (first ++ second) = encodeAll first ++ encodeAll second := by
  simp [encodeAll]

theorem applyRecords_append (db : Db) (first second : List (ℕ × Bytes)) :
    applyRecords db (first ++ second) = applyRecords (applyRecords db first) second := by
  simp [applyRecords]

/-! ## Several segments -/

theorem replaySegments_append_of_finished {snapLsn : ℕ} {front : List (ℕ × Bytes)}
    {state after : Replay} (hdone : replaySegments snapLsn front state = (after, .finished))
    (back : List (ℕ × Bytes)) :
    replaySegments snapLsn (front ++ back) state = replaySegments snapLsn back after := by
  induction front generalizing state with
  | nil =>
      simp only [replaySegments, Prod.mk.injEq, and_true] at hdone
      simp [hdone]
  | cons seg front ih =>
      obtain ⟨start, bytes⟩ := seg
      simp only [List.cons_append, replaySegments] at hdone ⊢
      cases hseg : replaySegment snapLsn bytes state with
      | mk middle ended =>
          cases ended with
          | finished =>
              simp only [hseg] at hdone ⊢
              exact ih hdone
          | torn => simp [hseg] at hdone
          | panicked cause => simp [hseg] at hdone

/-- Replay never looks behind the segment it stopped in. -/
theorem replaySegments_append_of_stopped {snapLsn : ℕ} {front : List (ℕ × Bytes)}
    {state after : Replay} {ended : Ended}
    (hstop : replaySegments snapLsn front state = (after, ended))
    (hended : ended ≠ .finished) (back : List (ℕ × Bytes)) :
    replaySegments snapLsn (front ++ back) state = (after, ended) := by
  induction front generalizing state with
  | nil =>
      simp only [replaySegments, Prod.mk.injEq] at hstop
      exact absurd hstop.2.symm hended
  | cons seg front ih =>
      obtain ⟨start, bytes⟩ := seg
      simp only [List.cons_append, replaySegments] at hstop ⊢
      cases hseg : replaySegment snapLsn bytes state with
      | mk middle middleEnded =>
          cases middleEnded with
          | finished =>
              simp only [hseg] at hstop ⊢
              exact ih hstop
          | torn => simpa [hseg] using hstop
          | panicked cause => simpa [hseg] using hstop

@[simp]
theorem replaySegments_singleton (snapLsn start : ℕ) (bytes : Bytes) (state : Replay) :
    replaySegments snapLsn [(start, bytes)] state = replaySegment snapLsn bytes state := by
  rw [replaySegments]
  cases replaySegment snapLsn bytes state with
  | mk after ended => cases ended <;> rfl

/-- A replay that gets to the end has got to the end of every part. -/
theorem replaySegments_append_inv {snapLsn : ℕ} {front back : List (ℕ × Bytes)}
    {state after : Replay}
    (hdone : replaySegments snapLsn (front ++ back) state = (after, .finished)) :
    ∃ middle, replaySegments snapLsn front state = (middle, .finished) ∧
      replaySegments snapLsn back middle = (after, .finished) := by
  cases hfront : replaySegments snapLsn front state with
  | mk middle ended =>
      by_cases hended : ended = .finished
      · subst hended
        rw [replaySegments_append_of_finished hfront] at hdone
        exact ⟨middle, rfl, hdone⟩
      · rw [replaySegments_append_of_stopped hfront hended] at hdone
        exact absurd (Prod.mk.inj hdone).2 hended

theorem replaySegments_kept (snapLsn : ℕ) (segs : List (ℕ × Bytes)) (state : Replay) :
    state.Kept (replaySegments snapLsn segs state).1 := by
  induction segs generalizing state with
  | nil => exact .refl state
  | cons seg segs ih =>
      obtain ⟨start, bytes⟩ := seg
      have hseg : state.Kept (replaySegment snapLsn bytes state).1 := replayLoop_kept _ _ _ _
      rw [replaySegments]
      cases hreplay : replaySegment snapLsn bytes state with
      | mk middle ended =>
          rw [hreplay] at hseg
          cases ended with
          | finished => exact hseg.trans (ih middle)
          | torn => exact hseg
          | panicked cause => exact hseg

/-- What a segment always redoes is redone, if replay gets to it. -/
theorem mem_replaySegments {snapLsn : ℕ} {front : List (ℕ × Bytes)} {entry : ℕ × Bytes}
    {rec : ℕ × Bytes}
    (hfront : ∀ earlier ∈ front, ∀ state,
      ∃ after, replaySegment snapLsn earlier.2 state = (after, .finished))
    (hentry : ∀ state, rec ∈ (replaySegment snapLsn entry.2 state).1.replayed)
    (back : List (ℕ × Bytes)) (state : Replay) :
    rec ∈ (replaySegments snapLsn (front ++ entry :: back) state).1.replayed := by
  induction front generalizing state with
  | nil =>
      obtain ⟨start, bytes⟩ := entry
      have hrec := hentry state
      rw [List.nil_append, replaySegments]
      cases hreplay : replaySegment snapLsn bytes state with
      | mk middle ended =>
          rw [hreplay] at hrec
          cases ended with
          | finished => exact (replaySegments_kept snapLsn back middle).replayed rec hrec
          | torn => exact hrec
          | panicked cause => exact hrec
  | cons head front ih =>
      obtain ⟨start, bytes⟩ := head
      obtain ⟨after, hafter⟩ := hfront (start, bytes) List.mem_cons_self state
      rw [List.cons_append, replaySegments, hafter]
      exact ih (fun earlier hearlier => hfront earlier (List.mem_cons_of_mem _ hearlier)) after

/-- A directory with one segment and no snapshot. -/
theorem replayDir_single (start : ℕ) (bytes : Bytes) :
    replayDir ⟨none, SortedMap.empty.insert start bytes⟩ =
      .ok (replaySegment 0 bytes ⟨Db.new, 0, []⟩) := by
  have hentries : (SortedMap.insert (SortedMap.empty : SortedMap ℕ Bytes) start bytes).entries =
      [(start, bytes)] := rfl
  rw [replayDir, loadSnapshot, ok_bind]
  simp only [hentries, replaySegments_singleton, pure_eq_ok]

end InMemoryDb.Recover
