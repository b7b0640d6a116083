import InMemoryDb.Lib.SparseFile
import InMemoryDb.Storage.Corruption

/-!
# Records that were not written to their end

A byte that was never written reads as zero.  A record of which only a front was
written is taken for the torn tail, unless the zeros behind it happen to be its
checksum; then its body has the length it was given, a key that is no longer than
the one it was given, and can be redone.  Either way replay goes through.
-/

namespace InMemoryDb.WalFormat

open LittleEndian SparseFile

theorem leNat_blanked_le (data : Bytes) (kept : ℕ) : leNat (blanked data kept) ≤ leNat data := by
  induction data generalizing kept with
  | nil => simp
  | cons byte data ih =>
      cases kept with
      | zero =>
          rw [blanked_zero]
          change leNat (List.replicate _ 0) ≤ _
          rw [leNat_replicate_zero]
          exact Nat.zero_le _
      | succ kept =>
          have hcons : blanked (byte :: data) (kept + 1) = byte :: blanked data kept := by
            simp [blanked]
          rw [hcons, leNat, leNat]
          have hrest := ih kept
          omega

/-- No number of zeros has the checksum zero. -/
theorem checksum_zeros_ne (count : ℕ) : (checksum (List.replicate count 0)).toNat ≠ 0 := by
  have hfixed : ∀ more, (List.replicate more (0 : UInt8)).foldl checksumStep 0 = 0 := by
    intro more
    induction more with
    | zero => rfl
    | succ more ih => exact ih
  intro hzero
  have hsum : checksum (List.replicate count 0) = 0 := UInt64.toNat_inj.mp hzero
  rw [checksum, ← hfixed count] at hsum
  exact absurd (faithful_checksumStep.foldl_injective _ hsum) (by decide)

/-- A body whose length is announced is sealed, or nothing is found in its place. -/
theorem decodeRecord_framed {body stored rest : Bytes} (hbody : body.length < 2 ^ 32)
    (hstored : stored.length = 8) :
    leBytes 4 body.length ++ (body ++ (stored ++ rest)) = sealFrame body ++ rest ∨
      decodeRecord (leBytes 4 body.length ++ (body ++ (stored ++ rest))) = .ok none := by
  have hlength : leNat (leBytes 4 body.length) = body.length :=
    leNat_leBytes_of_lt (by norm_num at hbody ⊢; exact hbody)
  by_cases hsum : leNat stored = (checksum body).toNat
  · left
    have hback := leBytes_leNat stored
    rw [hstored, hsum] at hback
    rw [sealFrame, hback]
    simp only [List.append_assoc]
  · right
    rw [decodeRecord_head (by simp), hlength, List.take_left, List.drop_left,
      List.take_left' hstored]
    exact if_neg fun h => hsum h.2

end InMemoryDb.WalFormat

namespace InMemoryDb.Recover

open LittleEndian Wire WalFormat SparseFile

variable {snapLsn : ℕ} {bytes rest : Bytes}

/-- Replay goes through these bytes. -/
def Readable (snapLsn : ℕ) (bytes : Bytes) : Prop :=
  ∀ body, Reaches bytes body → Sensible snapLsn body

/-- What goes through goes through when it is cut short. -/
theorem Readable.of_append (hreadable : Readable snapLsn (bytes ++ rest)) :
    Readable snapLsn bytes := by
  rintro body ⟨front, tail, hfront, hbody, rfl⟩
  exact hreadable body ⟨front, tail ++ rest, hfront, hbody, by simp only [List.append_assoc]⟩

theorem readable_of_torn (hdecode : decodeRecord bytes = .ok none) : Readable snapLsn bytes := by
  rintro body ⟨front, tail, ⟨bodies, hbodies, rfl⟩, hbody, rfl⟩
  cases bodies with
  | nil => exact absurd rfl (not_sealFrame hdecode hbody)
  | cons first bodies =>
      have hsplit : (first :: bodies).flatMap sealFrame ++ (sealFrame body ++ tail) =
          sealFrame first ++ (bodies.flatMap sealFrame ++ (sealFrame body ++ tail)) := by
        rw [List.flatMap_cons, List.append_assoc]
      exact absurd hsplit (not_sealFrame hdecode (hbodies first List.mem_cons_self))

theorem readable_sealFrame {body : Bytes} (hbody : body.length < 2 ^ 32)
    (hsensible : Sensible snapLsn body) (hrest : Readable snapLsn rest) :
    Readable snapLsn (sealFrame body ++ rest) := by
  intro other hreaches
  rcases (reaches_sealFrame hbody rest other).mp hreaches with rfl | hlater
  · exact hsensible
  · exact hrest other hlater

theorem readable_zeros (count : ℕ) : Readable snapLsn (List.replicate count 0) := by
  have hlong : Readable snapLsn (List.replicate (count + 12) 0) := by
    have htorn := decodeRecord_zeros (Nat.le_add_left 12 count) []
    rw [List.append_nil] at htorn
    exact readable_of_torn htorn
  rw [List.replicate_add] at hlong
  exact hlong.of_append

/-- What replay got through is readable, and may be continued. -/
theorem readable_append_of_finished {state after : Replay}
    (hdone : replaySegment snapLsn bytes state = (after, .finished))
    (hrest : Readable snapLsn rest) : Readable snapLsn (bytes ++ rest) := by
  have hreadable : Readable snapLsn bytes := by
    intro body hreaches
    by_contra hsenseless
    obtain ⟨stuck, hstuck⟩ := replaySegment_aborts hreaches hsenseless state
    rw [hstuck] at hdone
    exact absurd (Prod.mk.inj hdone).2 (by simp)
  obtain ⟨bodies, hbodies, rfl⟩ : WholeFrames bytes := by
    rcases replaySegment_survives hreadable state with ⟨_, -, hwhole⟩ | ⟨_, htorn, -⟩
    · exact hwhole
    · rw [htorn] at hdone
      exact absurd (Prod.mk.inj hdone).2 (by simp)
  clear hdone
  induction bodies with
  | nil => exact hrest
  | cons first bodies ih =>
      have hfirst := hbodies first List.mem_cons_self
      rw [List.flatMap_cons] at hreadable
      have hreaches := reaches_sealFrame hfirst (bodies.flatMap sealFrame)
      rw [List.flatMap_cons, List.append_assoc]
      refine readable_sealFrame hfirst (hreadable first ((hreaches first).mpr (Or.inl rfl))) ?_
      exact ih (fun other hother => hbodies other (List.mem_cons_of_mem _ hother))
        fun other hother => hreadable other ((hreaches other).mpr (Or.inr hother))

theorem readable_of_finished {state after : Replay}
    (hdone : replaySegment snapLsn bytes state = (after, .finished)) :
    Readable snapLsn bytes := by
  have hnil := readable_append_of_finished hdone (@readable_zeros snapLsn 0)
  rwa [List.replicate_zero, List.append_nil] at hnil

/-- The key of a body that was written in part still lies inside it. -/
theorem wellFormed_blanked {blob : Bytes} (hblob : WellFormed blob) (kept : ℕ) :
    WellFormed (blanked blob kept) := by
  obtain ⟨hheader, hkey⟩ := hblob
  have hshrinks : keyLength (blanked blob kept) ≤ keyLength blob := by
    rw [keyLength, drop_blanked, take_blanked]
    exact leNat_blanked_le _ _
  refine ⟨?_, ?_⟩
  · rwa [length_blanked]
  · rw [length_blanked]
    omega

/-- A record of which only a front was written: replay goes through it. -/
theorem readable_record {lsn : ℕ} {blob : Bytes} (hfits : Fits lsn blob) (hgood : GoodPut blob)
    (kept : ℕ) (hrest : Readable snapLsn rest) :
    Readable snapLsn (blanked (record lsn blob) kept ++ rest) := by
  have hrecord : record lsn blob = leBytes 4 (8 + blob.length) ++
      (recordBody lsn blob ++ leBytes 8 (checksum (recordBody lsn blob)).toNat) := by
    rw [record, List.append_assoc]
  rw [hrecord, blanked_append, length_leBytes, List.append_assoc]
  by_cases hfield : 4 ≤ kept
  · -- the length was written; the body has it, whatever is in it
    rw [blanked_of_le (by simpa using hfield), blanked_append, List.append_assoc]
    set body := blanked (recordBody lsn blob) (kept - 4) with hbody
    have hsize : body.length = 8 + blob.length := by rw [hbody, length_blanked, length_recordBody]
    have hbound : body.length < 2 ^ 32 := by
      have := hfits.2
      omega
    rw [← hsize]
    have hstored : (blanked (leBytes 8 (checksum (recordBody lsn blob)).toNat)
        (kept - 4 - (recordBody lsn blob).length)).length = 8 := by
      rw [length_blanked, length_leBytes]
    rcases @decodeRecord_framed body _ rest hbound hstored with hframe | htorn
    · rw [hframe]
      refine readable_sealFrame hbound ⟨by omega, fun _ => ⟨?_, fun _ => ?_⟩⟩ hrest
      · apply List.ne_nil_of_length_pos
        have := hgood.2.1
        rw [List.length_drop, hsize]
        simp only [bodyHdr] at this
        omega
      · rw [hbody, drop_blanked, recordBody, List.drop_left' (by simp)]
        exact wellFormed_blanked hgood.2 _
    · exact readable_of_torn htorn
  · -- the length was not written to its end; behind it everything is zero
    apply readable_of_torn
    set head := blanked (leBytes 4 (8 + blob.length)) kept with hhead
    have hannounced : leNat head ≤ 8 + blob.length := by
      calc leNat head ≤ leNat (leBytes 4 (8 + blob.length)) := leNat_blanked_le _ _
        _ = 8 + blob.length := leNat_leBytes_of_lt (by
          have := hfits.2
          norm_num at this ⊢
          omega)
    rw [Nat.sub_eq_zero_of_le (by omega), blanked_zero]
    set size := (recordBody lsn blob ++
      leBytes 8 (checksum (recordBody lsn blob)).toNat).length with hsize
    obtain ⟨more, hmore⟩ : ∃ more, size = leNat head + (8 + more) := by
      refine ⟨8 + blob.length - leNat head, ?_⟩
      rw [hsize, List.length_append, length_recordBody, length_leBytes]
      omega
    have hpayload : List.replicate size (0 : UInt8) ++ rest = List.replicate (leNat head) 0 ++
        (List.replicate 8 0 ++ (List.replicate more 0 ++ rest)) := by
      rw [hmore, List.replicate_add, List.replicate_add, List.append_assoc, List.append_assoc]
    change decodeRecord (head ++ (List.replicate size 0 ++ rest)) = _
    rw [hpayload, decodeRecord_head (by rw [hhead, length_blanked, length_leBytes]),
      List.drop_left' List.length_replicate, List.take_left' List.length_replicate,
      List.take_left' List.length_replicate, leNat_replicate_zero]
    exact if_neg fun h => checksum_zeros_ne _ h.2.symm

/-- Whole records of which only a front was written: replay goes through them. -/
theorem readable_blanked {records : List (ℕ × Bytes)}
    (hgood : ∀ rec ∈ records, Fits rec.1 rec.2 ∧ GoodPut rec.2) (kept : ℕ)
    (hrest : Readable snapLsn rest) :
    Readable snapLsn (blanked (encodeAll records) kept ++ rest) := by
  induction records generalizing kept with
  | nil => simpa [encodeAll] using hrest
  | cons rec records ih =>
      have hsplit : encodeAll (rec :: records) = record rec.1 rec.2 ++ encodeAll records :=
        List.flatMap_cons
      obtain ⟨hfits, hput⟩ := hgood rec List.mem_cons_self
      rw [hsplit, blanked_append, List.append_assoc]
      exact readable_record hfits hput kept
        (ih (fun other hother => hgood other (List.mem_cons_of_mem _ hother)) _)

/-! ## Directories -/

theorem sensibleLog_of_readable {segs : List (ℕ × Bytes)}
    (hsegs : ∀ entry ∈ segs, Readable snapLsn entry.2) : SensibleLog snapLsn segs := by
  rintro front entry back rfl - body hreaches
  exact hsegs entry (List.mem_append_right _ List.mem_cons_self) body hreaches

/-- `recover` returns what was replayed if and only if replay comes to nothing that it
cannot interpret. -/
theorem recover_eq_iff {dir : Dir} {db : Db} {replay : Replay} {ended : Ended}
    (hload : loadSnapshot dir = .ok (db, snapLsn)) (hreplay : replayDir dir = .ok (replay, ended)) :
    recover dir = .ok (replay.db, replay.highest + 1) ↔
      SensibleLog snapLsn dir.segs.entries := by
  have hsegs : replaySegments snapLsn dir.segs.entries ⟨db, snapLsn, []⟩ = (replay, ended) := by
    rw [replayDir, hload, ok_bind] at hreplay
    exact Except.ok.inj hreplay
  rw [← replaySegments_survives_iff snapLsn dir.segs.entries ⟨db, snapLsn, []⟩, hsegs, recover,
    hreplay, ok_bind]
  cases ended with
  | panicked cause =>
      exact ⟨fun h => (by cases h), fun hno => absurd rfl (hno cause)⟩
  | _ => exact ⟨fun _ cause hcause => (by cases hcause), fun _ => rfl⟩

end InMemoryDb.Recover
