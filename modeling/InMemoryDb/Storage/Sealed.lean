import InMemoryDb.Storage.Scan

/-!
# Sealed frames

Seen from the decoder, a log is a sequence of frames whose checksum matches, and
the first place where none starts is the torn tail.  The checksum says nothing
about what is inside: a body too short for an LSN, an opcode or its own key is
sealed like any other, and takes the process down when it is opened.
-/

namespace InMemoryDb.WalFormat

open LittleEndian Wire

/-- Where the decoder finds something, a sealed frame starts. -/
theorem sealFrame_of_decodeRecord {bytes : Bytes} (hdecode : decodeRecord bytes ≠ .ok none) :
    ∃ body rest, body.length < 2 ^ 32 ∧ bytes = sealFrame body ++ rest := by
  have hfour : 4 ≤ bytes.length := by
    by_contra hshort
    exact hdecode (by rw [decodeRecord, if_pos (by simpa [lenSize] using hshort)])
  have hhead : (bytes.take 4).length = 4 := List.length_take_of_le hfour
  rw [← List.take_append_drop 4 bytes, decodeRecord_head hhead] at hdecode
  by_cases hsealed : leNat (bytes.take 4) + 8 ≤ (bytes.drop 4).length ∧
      leNat (((bytes.drop 4).drop (leNat (bytes.take 4))).take 8) =
        (checksum ((bytes.drop 4).take (leNat (bytes.take 4)))).toNat
  · obtain ⟨hlong, hsum⟩ := hsealed
    set body := (bytes.drop 4).take (leNat (bytes.take 4)) with hbody
    have hlength : body.length = leNat (bytes.take 4) := by
      rw [hbody, List.length_take_of_le (by omega)]
    have hfield : leBytes 4 body.length = bytes.take 4 := by
      have hback := leBytes_leNat (bytes.take 4)
      rwa [hhead, ← hlength] at hback
    have hstored : leBytes 8 (checksum body).toNat =
        ((bytes.drop 4).drop body.length).take 8 := by
      have hback := leBytes_leNat (((bytes.drop 4).drop body.length).take 8)
      have height : (((bytes.drop 4).drop body.length).take 8).length = 8 := by
        rw [List.length_take_of_le (by rw [List.length_drop]; omega)]
      rw [height, hlength, hsum] at hback
      rw [hlength]
      exact hback
    refine ⟨body, ((bytes.drop 4).drop body.length).drop 8, ?_, ?_⟩
    · rw [hlength, ← leBytes_leNat (bytes.take 4), hhead, leNat_leBytes]
      have hlt := Nat.mod_lt (leNat (bytes.take 4)) (show 0 < 256 ^ 4 by norm_num)
      norm_num at hlt ⊢
      exact hlt
    · have hrest : bytes.drop 4 = body ++ (bytes.drop 4).drop body.length := by
        rw [hlength, hbody, List.take_append_drop]
      rw [sealFrame, hfield, hstored, List.append_assoc, List.take_append_drop,
        List.append_assoc, ← hrest, List.take_append_drop]
  · rw [if_neg hsealed] at hdecode
    exact absurd rfl hdecode

/-- Opening a sealed body. -/
theorem openBody_eq (body : Bytes) (consumed : ℕ) :
    openBody body consumed =
      if 8 ≤ body.length then .ok (some ⟨leNat (body.take 8), body.drop 8, consumed⟩)
      else .error .outOfBounds := by
  by_cases hlong : 8 ≤ body.length
  · rw [if_pos hlong, openBody, slice_ok (by omega) hlong, ok_bind]
    simp only [List.drop_zero, Nat.sub_zero]
    rw [rdU64_ok (by rw [List.length_take_of_le hlong]), ok_bind, sliceFrom_ok hlong, ok_bind,
      List.take_take, min_self]
    rfl
  · rw [if_neg hlong, openBody, slice_error (by omega)]
    rfl

end InMemoryDb.WalFormat

namespace InMemoryDb.Recover

open LittleEndian Wire WalFormat

/-! ## Bytes as frames -/

/-- Sealed frames from start to end. -/
def WholeFrames (bytes : Bytes) : Prop :=
  ∃ bodies : List Bytes, (∀ body ∈ bodies, body.length < 2 ^ 32) ∧
    bytes = bodies.flatMap sealFrame

/-- `body` is in a sealed frame with only sealed frames before it. -/
def Reaches (bytes body : Bytes) : Prop :=
  ∃ front rest, WholeFrames front ∧ body.length < 2 ^ 32 ∧ bytes = front ++ (sealFrame body ++ rest)

theorem wholeFrames_nil : WholeFrames [] := ⟨[], by simp, rfl⟩

theorem sealFrame_ne_nil (body rest : Bytes) : sealFrame body ++ rest ≠ [] := by
  intro h
  have hlength := congrArg List.length h
  simp at hlength

/-- The length field fixes where a frame ends. -/
theorem sealFrame_inj {body other rest tail : Bytes} (hbody : body.length < 2 ^ 32)
    (hother : other.length < 2 ^ 32) (heq : sealFrame body ++ rest = sealFrame other ++ tail) :
    body = other ∧ rest = tail := by
  have hlength : body.length = other.length := by
    simp only [sealFrame, List.append_assoc] at heq
    have hfields := (List.append_inj heq (by simp)).1
    have hnumbers := congrArg leNat hfields
    rwa [leNat_leBytes_of_lt (by norm_num at hbody ⊢; exact hbody),
      leNat_leBytes_of_lt (by norm_num at hother ⊢; exact hother)] at hnumbers
  obtain ⟨hframe, hrest⟩ := List.append_inj heq (by simp [hlength])
  simp only [sealFrame, List.append_assoc] at hframe
  have hbodies := (List.append_inj hframe (by simp)).2
  exact ⟨(List.append_inj hbodies hlength).1, hrest⟩

theorem wholeFrames_sealFrame {body : Bytes} (hbody : body.length < 2 ^ 32) (rest : Bytes) :
    WholeFrames (sealFrame body ++ rest) ↔ WholeFrames rest := by
  constructor
  · rintro ⟨bodies, hbodies, heq⟩
    cases bodies with
    | nil => exact absurd heq (sealFrame_ne_nil body rest)
    | cons first bodies =>
        rw [List.flatMap_cons] at heq
        obtain ⟨-, hrest⟩ := sealFrame_inj hbody (hbodies first List.mem_cons_self) heq
        exact ⟨bodies, fun other hother => hbodies other (List.mem_cons_of_mem _ hother), hrest⟩
  · rintro ⟨bodies, hbodies, rfl⟩
    refine ⟨body :: bodies, ?_, by rw [List.flatMap_cons]⟩
    intro other hother
    rcases List.mem_cons.mp hother with rfl | hmem
    · exact hbody
    · exact hbodies other hmem

theorem reaches_sealFrame {body : Bytes} (hbody : body.length < 2 ^ 32) (rest other : Bytes) :
    Reaches (sealFrame body ++ rest) other ↔ other = body ∨ Reaches rest other := by
  constructor
  · rintro ⟨front, tail, ⟨bodies, hbodies, rfl⟩, hother, heq⟩
    cases bodies with
    | nil =>
        rw [List.flatMap_nil, List.nil_append] at heq
        exact Or.inl (sealFrame_inj hbody hother heq).1.symm
    | cons first bodies =>
        rw [List.flatMap_cons, List.append_assoc] at heq
        obtain ⟨-, hrest⟩ := sealFrame_inj hbody (hbodies first List.mem_cons_self) heq
        refine Or.inr ⟨bodies.flatMap sealFrame, tail, ⟨bodies, ?_, rfl⟩, hother, hrest⟩
        exact fun later hlater => hbodies later (List.mem_cons_of_mem _ hlater)
  · rintro (rfl | ⟨front, tail, hfront, hother, rfl⟩)
    · exact ⟨[], rest, wholeFrames_nil, hbody, rfl⟩
    · refine ⟨sealFrame body ++ front, tail, (wholeFrames_sealFrame hbody front).mpr hfront,
        hother, ?_⟩
      rw [List.append_assoc]

/-- Where the decoder finds nothing, no sealed frame starts. -/
theorem not_sealFrame {bytes body rest : Bytes} (hdecode : decodeRecord bytes = .ok none)
    (hbody : body.length < 2 ^ 32) : bytes ≠ sealFrame body ++ rest := by
  rintro rfl
  rw [decodeRecord_sealFrame hbody, openBody_eq] at hdecode
  split_ifs at hdecode
  cases hdecode

/-- Bytes are used up, start with a sealed frame, or are a torn tail. -/
theorem frame_or_torn (bytes : Bytes) :
    bytes = [] ∨ (∃ body rest, body.length < 2 ^ 32 ∧ bytes = sealFrame body ++ rest) ∨
      (bytes ≠ [] ∧ decodeRecord bytes = .ok none) := by
  by_cases hnil : bytes = []
  · exact Or.inl hnil
  · by_cases hdecode : decodeRecord bytes = .ok none
    · exact Or.inr (Or.inr ⟨hnil, hdecode⟩)
    · exact Or.inr (Or.inl (sealFrame_of_decodeRecord hdecode))

theorem not_wholeFrames_torn {bytes : Bytes} (hbytes : bytes ≠ [])
    (hdecode : decodeRecord bytes = .ok none) : ¬ WholeFrames bytes := by
  rintro ⟨bodies, hbodies, heq⟩
  cases bodies with
  | nil => exact hbytes heq
  | cons first bodies => exact not_sealFrame hdecode (hbodies first List.mem_cons_self) heq

/-! ## Which frames the loop gets through -/

/-- A body the loop gets through: it holds an LSN and, unless the snapshot covers
it, something that can be redone. -/
def Sensible (snapLsn : ℕ) (body : Bytes) : Prop :=
  8 ≤ body.length ∧ (snapLsn < leNat (body.take 8) → Redoable (body.drop 8))

/-- One round of the loop at a sealed frame. -/
theorem replaySegment_sealFrame {body : Bytes} (hbody : body.length < 2 ^ 32) (snapLsn : ℕ)
    (rest : Bytes) (state : Replay) :
    replaySegment snapLsn (sealFrame body ++ rest) state =
      if 8 ≤ body.length then
        if leNat (body.take 8) ≤ snapLsn then replaySegment snapLsn rest state
        else
          match restore (body.drop 8) state.db with
          | .error cause => (state, .panicked cause)
          | .ok db =>
              replaySegment snapLsn rest ⟨db, max state.highest (leNat (body.take 8)),
                state.replayed ++ [(leNat (body.take 8), body.drop 8)]⟩
      else (state, .panicked .outOfBounds) := by
  have hdecode := decodeRecord_sealFrame hbody rest
  rw [openBody_eq] at hdecode
  by_cases hlong : 8 ≤ body.length
  · rw [if_pos hlong] at hdecode ⊢
    have hdrop : (sealFrame body ++ rest).drop (body.length + 12) = rest := by
      rw [← length_sealFrame, List.drop_left]
    have hread := replaySegment_some snapLsn state hdecode
    simp only [hdrop] at hread
    exact hread
  · rw [if_neg hlong] at hdecode ⊢
    exact replaySegment_panicked snapLsn state (sealFrame_ne_nil body rest) hdecode

/-- The loop steps over a sensible frame. -/
theorem replaySegment_sensible {snapLsn : ℕ} {body : Bytes} (hbody : body.length < 2 ^ 32)
    (hsensible : Sensible snapLsn body) (rest : Bytes) (state : Replay) :
    ∃ after, replaySegment snapLsn (sealFrame body ++ rest) state =
      replaySegment snapLsn rest after := by
  rw [replaySegment_sealFrame hbody, if_pos hsensible.1]
  split_ifs with hlsn
  · exact ⟨state, rfl⟩
  · obtain ⟨db, hdb⟩ := restore_redoable (hsensible.2 (not_le.mp hlsn)) state.db
    rw [hdb]
    exact ⟨_, rfl⟩

/-- At any other frame the process aborts. -/
theorem replaySegment_senseless {snapLsn : ℕ} {body : Bytes} (hbody : body.length < 2 ^ 32)
    (hsenseless : ¬ Sensible snapLsn body) (rest : Bytes) (state : Replay) :
    replaySegment snapLsn (sealFrame body ++ rest) state = (state, .panicked .outOfBounds) := by
  rw [replaySegment_sealFrame hbody]
  split_ifs with hlong hlsn
  · exact absurd ⟨hlong, fun hlt => absurd hlsn (not_le.mpr hlt)⟩ hsenseless
  · have hbad : ¬ Redoable (body.drop 8) := fun hgood => hsenseless ⟨hlong, fun _ => hgood⟩
    rw [restore_unredoable hbad]
  · rfl

/-- A segment with sensible frames only is read to its end, or to its torn tail. -/
theorem replaySegment_survives {snapLsn : ℕ} {bytes : Bytes}
    (hsensible : ∀ body, Reaches bytes body → Sensible snapLsn body) (state : Replay) :
    (∃ after, replaySegment snapLsn bytes state = (after, .finished) ∧ WholeFrames bytes) ∨
      ∃ after, replaySegment snapLsn bytes state = (after, .torn) ∧ ¬ WholeFrames bytes := by
  induction hlength : bytes.length using Nat.strong_induction_on generalizing bytes state with
  | _ length ih =>
    rcases frame_or_torn bytes with rfl | ⟨body, rest, hbody, rfl⟩ | ⟨hnil, hdecode⟩
    · exact Or.inl ⟨state, rfl, wholeFrames_nil⟩
    · have hreaches := fun other => reaches_sealFrame hbody rest other
      obtain ⟨after, hafter⟩ := replaySegment_sensible hbody
        (hsensible body ((hreaches body).mpr (Or.inl rfl))) rest state
      rw [hafter, wholeFrames_sealFrame hbody]
      refine ih rest.length ?_ (fun other hother => hsensible other
        ((hreaches other).mpr (Or.inr hother))) after rfl
      rw [← hlength, List.length_append, length_sealFrame]
      omega
    · exact Or.inr ⟨state, replaySegment_torn snapLsn state hnil hdecode,
        not_wholeFrames_torn hnil hdecode⟩

theorem replaySegment_aborts {snapLsn : ℕ} {bytes body : Bytes} (hreaches : Reaches bytes body)
    (hsenseless : ¬ Sensible snapLsn body) (state : Replay) :
    ∃ after, replaySegment snapLsn bytes state = (after, .panicked .outOfBounds) := by
  obtain ⟨front, rest, ⟨bodies, hbodies, rfl⟩, hbody, rfl⟩ := hreaches
  induction bodies generalizing state with
  | nil => exact ⟨state, replaySegment_senseless hbody hsenseless rest state⟩
  | cons first bodies ih =>
      have hfirst := hbodies first List.mem_cons_self
      rw [List.flatMap_cons, List.append_assoc]
      by_cases hsensible : Sensible snapLsn first
      · obtain ⟨after, hafter⟩ := replaySegment_sensible hfirst hsensible
          (bodies.flatMap sealFrame ++ (sealFrame body ++ rest)) state
        rw [hafter]
        exact ih after fun other hother => hbodies other (List.mem_cons_of_mem _ hother)
      · exact ⟨state, replaySegment_senseless hfirst hsensible _ state⟩

/-! ## Directories -/

/-- Every frame replay can come to is sensible: sealed frames fill the segments
before it, and stand between it and the start of its own. -/
def SensibleLog (snapLsn : ℕ) (segs : List (ℕ × Bytes)) : Prop :=
  ∀ front entry back, segs = front ++ entry :: back →
    (∀ earlier ∈ front, WholeFrames earlier.2) →
      ∀ body, Reaches entry.2 body → Sensible snapLsn body

theorem sensibleLog_cons (snapLsn : ℕ) (entry : ℕ × Bytes) (segs : List (ℕ × Bytes)) :
    SensibleLog snapLsn (entry :: segs) ↔
      (∀ body, Reaches entry.2 body → Sensible snapLsn body) ∧
        (WholeFrames entry.2 → SensibleLog snapLsn segs) := by
  constructor
  · intro hlog
    refine ⟨hlog [] entry segs rfl (by simp), ?_⟩
    intro hwhole front later back hsplit hfront
    refine hlog (entry :: front) later back (by rw [hsplit]; rfl) ?_
    intro earlier hearlier
    rcases List.mem_cons.mp hearlier with rfl | hmem
    · exact hwhole
    · exact hfront earlier hmem
  · rintro ⟨hfirst, hrest⟩ front later back hsplit hfront
    cases front with
    | nil =>
        obtain ⟨rfl, -⟩ := List.cons.inj hsplit
        exact hfirst
    | cons head front =>
        obtain ⟨rfl, hsegs⟩ := List.cons.inj hsplit
        exact hrest (hfront entry List.mem_cons_self) front later back hsegs
          fun earlier hearlier => hfront earlier (List.mem_cons_of_mem _ hearlier)

theorem replaySegments_survives_iff (snapLsn : ℕ) (segs : List (ℕ × Bytes)) (state : Replay) :
    (∀ cause, (replaySegments snapLsn segs state).2 ≠ .panicked cause) ↔
      SensibleLog snapLsn segs := by
  induction segs generalizing state with
  | nil =>
      constructor
      · intro _ front entry back hsplit
        exact absurd hsplit (by simp)
      · intro _ cause hcause
        cases hcause
  | cons entry segs ih =>
      obtain ⟨name, bytes⟩ := entry
      rw [sensibleLog_cons, replaySegments]
      by_cases hfirst : ∀ body, Reaches bytes body → Sensible snapLsn body
      · rcases replaySegment_survives hfirst state with
          ⟨after, hafter, hwhole⟩ | ⟨after, hafter, hpartial⟩
        · rw [hafter]
          simp only
          rw [ih after]
          exact ⟨fun hrest => ⟨hfirst, fun _ => hrest⟩, fun hlog => hlog.2 hwhole⟩
        · rw [hafter]
          refine ⟨fun _ => ⟨hfirst, fun hwhole => absurd hwhole hpartial⟩, ?_⟩
          intro _ cause hcause
          cases hcause
      · obtain ⟨body, hreaches, hsenseless⟩ : ∃ body, Reaches bytes body ∧
            ¬ Sensible snapLsn body := by
          by_contra hnone
          refine hfirst fun body hreaches => ?_
          by_contra hsenseless
          exact hnone ⟨body, hreaches, hsenseless⟩
        obtain ⟨after, hafter⟩ := replaySegment_aborts hreaches hsenseless state
        rw [hafter]
        refine ⟨fun hno => absurd rfl (hno .outOfBounds), fun hlog => absurd hlog.1 hfirst⟩

/-! ## What the loop is meant to do -/

/-- The loop with every record it cannot open or redo taken for the torn tail. -/
def meantLoop (snapLsn : ℕ) : ℕ → Bytes → Replay → Replay × Ended
  | 0, _, state => (state, .finished)
  | fuel + 1, bytes, state =>
      if bytes = [] then (state, .finished)
      else
        match decodeRecord bytes with
        | .error _ => (state, .torn)
        | .ok none => (state, .torn)
        | .ok (some rec) =>
            if rec.lsn ≤ snapLsn then meantLoop snapLsn fuel (bytes.drop rec.consumed) state
            else
              match restore rec.wireBody state.db with
              | .error _ => (state, .torn)
              | .ok db =>
                  meantLoop snapLsn fuel (bytes.drop rec.consumed)
                    ⟨db, max state.highest rec.lsn,
                      state.replayed ++ [(rec.lsn, rec.wireBody)]⟩

def meantSegments (snapLsn : ℕ) : List (ℕ × Bytes) → Replay → Replay × Ended
  | [], state => (state, .finished)
  | (_, bytes) :: rest, state =>
      match meantLoop snapLsn bytes.length bytes state with
      | (after, .finished) => meantSegments snapLsn rest after
      | stopped => stopped

/-- A panic taken for a torn tail. -/
def tolerate : Replay × Ended → Replay × Ended
  | (state, .panicked _) => (state, .torn)
  | result => result

theorem meantLoop_eq (snapLsn fuel : ℕ) (bytes : Bytes) (state : Replay) :
    meantLoop snapLsn fuel bytes state = tolerate (replayLoop snapLsn fuel bytes state) := by
  induction fuel generalizing bytes state with
  | zero => rfl
  | succ fuel ih =>
      rw [meantLoop, replayLoop]
      split_ifs with hnil
      · rfl
      · cases hdecode : decodeRecord bytes with
        | error cause => rfl
        | ok found =>
            cases found with
            | none => rfl
            | some rec =>
                simp only
                split_ifs with hlsn
                · exact ih _ _
                · cases hrestore : restore rec.wireBody state.db with
                  | error cause => rfl
                  | ok db => exact ih _ _

theorem meantSegments_eq (snapLsn : ℕ) (segs : List (ℕ × Bytes)) (state : Replay) :
    meantSegments snapLsn segs state = tolerate (replaySegments snapLsn segs state) := by
  induction segs generalizing state with
  | nil => rfl
  | cons entry segs ih =>
      obtain ⟨name, bytes⟩ := entry
      rw [meantSegments, replaySegments, meantLoop_eq, replaySegment]
      cases hreplay : replayLoop snapLsn bytes.length bytes state with
      | mk after ended =>
          cases ended with
          | finished => exact ih after
          | torn => rfl
          | panicked cause => rfl

/-- For any bytes in the segments: replay gets through without an access out of
bounds, with the records it cannot interpret taken for the torn tail, if and only
if it comes to no sealed frame that is too short for an LSN, an opcode or its own
key. -/
theorem replay_meant_iff (snapLsn : ℕ) (segs : List (ℕ × Bytes)) (state : Replay) :
    replaySegments snapLsn segs state = meantSegments snapLsn segs state ↔
      SensibleLog snapLsn segs := by
  rw [← replaySegments_survives_iff snapLsn segs state, meantSegments_eq]
  cases replaySegments snapLsn segs state with
  | mk after ended =>
      cases ended with
      | panicked cause =>
          constructor
          · intro heq
            simp [tolerate] at heq
          · intro hno
            exact absurd rfl (hno cause)
      | _ => exact ⟨fun _ cause hcause => (by cases hcause), fun _ => rfl⟩

/-- Twelve bytes: an empty body and its checksum.  The decoder slices the LSN out of
it, and `recover` aborts. -/
theorem empty_body_aborts :
    replaySegments 0 [(1, sealFrame [])] ⟨Db.new, 0, []⟩ =
        (⟨Db.new, 0, []⟩, .panicked .outOfBounds) ∧
      meantSegments 0 [(1, sealFrame [])] ⟨Db.new, 0, []⟩ = (⟨Db.new, 0, []⟩, .torn) ∧
      recover ⟨none, SortedMap.empty.insert 1 (sealFrame [])⟩ = .error .outOfBounds := by
  have hreplay : replaySegments 0 [(1, sealFrame [])] ⟨Db.new, 0, []⟩ =
      (⟨Db.new, 0, []⟩, .panicked .outOfBounds) := by
    rw [replaySegments_singleton, ← List.append_nil (sealFrame [])]
    refine replaySegment_senseless (by decide) ?_ [] _
    exact fun hsensible => absurd hsensible.1 (by decide)
  refine ⟨hreplay, ?_, ?_⟩
  · rw [meantSegments_eq, hreplay]
    rfl
  · rw [replaySegments_singleton] at hreplay
    rw [recover, replayDir_single, hreplay]
    rfl

end InMemoryDb.Recover
