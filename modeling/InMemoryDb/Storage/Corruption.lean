import InMemoryDb.Lib.RollingHash
import InMemoryDb.Storage.Sealed
import InMemoryDb.Wire.Call

/-!
# A corrupted byte

A changed byte of the content or of the checksum is always noticed: FNV-1a tells
apart any two strings that differ in one place.  The length is not under the
checksum.  A changed length moves the place where the checksum is looked for, and
whether that is noticed depends on the bytes a client chose.
-/

namespace InMemoryDb.WalFormat

open LittleEndian Wire

/-! ## The checksum -/

/-- The FNV prime is odd, so the multiplication of a round can be undone. -/
theorem mul_prime_injective :
    Function.Injective fun hash : UInt64 => hash * 0x00000100000001b3 := by
  intro left right heq
  have hundo : ∀ hash : UInt64, hash * 0x00000100000001b3 * 0xce965057aff6957b = hash := by
    intro hash
    have hone : (0x00000100000001b3 : UInt64) * 0xce965057aff6957b = 1 := by decide
    rw [UInt64.mul_assoc, hone, UInt64.mul_one]
  rw [← hundo left, ← hundo right]
  exact congrArg (· * 0xce965057aff6957b) heq

theorem faithful_checksumStep : RollingHash.Faithful checksumStep where
  state byte := by
    intro left right heq
    exact (UInt64.xor_left_inj _).mp (mul_prime_injective heq)
  symbol hash := by
    intro left right heq
    exact UInt8.toUInt64_inj.mp ((UInt64.xor_right_inj _).mp (mul_prime_injective heq))

/-- Bodies that differ in one byte have different checksums. -/
theorem checksum_set_ne {body : Bytes} {position : ℕ} {byte : UInt8}
    (hposition : position < body.length) (hne : body[position] ≠ byte) :
    checksum (body.set position byte) ≠ checksum body :=
  faithful_checksumStep.foldl_set_ne hposition hne _

/-! ## A byte of the content -/

theorem leNat_injOn {left right : Bytes} (hlength : left.length = right.length)
    (heq : leNat left = leNat right) : left = right := by
  rw [← leBytes_leNat left, heq, hlength, leBytes_leNat]

/-- A sealed frame with one byte behind its length field replaced does not decode. -/
theorem decodeRecord_changed {body : Bytes} (hbody : body.length < 2 ^ 32) {position : ℕ}
    {byte : UInt8} (hfield : 4 ≤ position) (hposition : position < (sealFrame body).length)
    (hne : (sealFrame body)[position] ≠ byte) (rest : Bytes) :
    decodeRecord ((sealFrame body).set position byte ++ rest) = .ok none := by
  obtain ⟨index, rfl⟩ := Nat.exists_eq_add_of_le hfield
  set sum := leBytes 8 (checksum body).toNat with hsum
  have hhead : leNat (leBytes 4 body.length) = body.length :=
    leNat_leBytes_of_lt (by norm_num at hbody ⊢; exact hbody)
  have hframe : sealFrame body = leBytes 4 body.length ++ (body ++ sum) := by
    rw [sealFrame, List.append_assoc]
  have hchanged : (sealFrame body).set (4 + index) byte ++ rest =
      leBytes 4 body.length ++ ((body ++ sum).set index byte ++ rest) := by
    rw [hframe, List.set_append_right _ _ (by simp), length_leBytes,
      Nat.add_sub_cancel_left, List.append_assoc]
  have hindex : index < (body ++ sum).length := by
    rw [hframe] at hposition
    simp only [List.length_append, length_leBytes] at hposition ⊢
    omega
  have hold : (body ++ sum)[index] ≠ byte := by
    intro heq
    apply hne
    simp only [hframe]
    rw [List.getElem_append_right (by simp)]
    simpa using heq
  rw [hchanged, decodeRecord_head (by simp), hhead]
  apply if_neg
  rintro ⟨-, hcheck⟩
  by_cases hinside : index < body.length
  · -- the stored checksum is that of the body as it was
    rw [List.set_append_left _ _ hinside, List.append_assoc, List.take_left' (by simp),
      List.drop_left' (by simp), List.take_left' (by simp [hsum]), hsum,
      leNat_leBytes_of_lt (toNat_checksum_lt body)] at hcheck
    rw [List.getElem_append_left hinside] at hold
    exact checksum_set_ne hinside hold (UInt64.toNat_inj.mp hcheck).symm
  · -- the body is as it was, and its checksum is not the stored one
    rw [List.set_append_right _ _ (not_lt.mp hinside), List.append_assoc, List.take_left,
      List.drop_left, List.take_left' (by simp [hsum]),
      ← leNat_leBytes_of_lt (toNat_checksum_lt body), ← hsum] at hcheck
    have hsame := leNat_injOn (by simp) hcheck
    rw [List.getElem_append_right (not_lt.mp hinside)] at hold
    apply hold
    have hget := List.getElem_of_eq hsame.symm
      (show index - body.length < sum.length by
        simp only [List.length_append] at hindex
        omega)
    rwa [List.getElem_set_self] at hget

end InMemoryDb.WalFormat

namespace InMemoryDb.Recover

open LittleEndian Wire WalFormat

/-- A log with one byte of the record behind `front` replaced; `position` counts from
the start of that record. -/
def corrupted (front : List (ℕ × Bytes)) (rec : ℕ × Bytes) (back : List (ℕ × Bytes))
    (position : ℕ) (byte : UInt8) : Bytes :=
  (encodeAll (front ++ rec :: back)).set ((encodeAll front).length + position) byte

theorem corrupted_eq (front : List (ℕ × Bytes)) (rec : ℕ × Bytes) (back : List (ℕ × Bytes))
    {position : ℕ} (hposition : position < (record rec.1 rec.2).length) (byte : UInt8) :
    corrupted front rec back position byte =
      encodeAll front ++ ((record rec.1 rec.2).set position byte ++ encodeAll back) := by
  have hsplit : encodeAll (front ++ rec :: back) =
      encodeAll front ++ (record rec.1 rec.2 ++ encodeAll back) := by
    rw [encodeAll_append]
    rfl
  rw [corrupted, hsplit, List.set_append_right _ _ (Nat.le_add_right _ _),
    Nat.add_sub_cancel_left, List.set_append_left _ _ hposition]

/-- One byte of the LSN, the body or the checksum of a record is replaced by another
one: the record does not decode, and replay yields exactly the records before it. -/
theorem corruption_caught {front back : List (ℕ × Bytes)} {rec : ℕ × Bytes}
    (hfits : ∀ other ∈ front ++ rec :: back, Fits other.1 other.2) {position : ℕ} {byte : UInt8}
    (hfield : 4 ≤ position) (hposition : position < (record rec.1 rec.2).length)
    (hne : (record rec.1 rec.2)[position] ≠ byte) :
    decodeRecord ((corrupted front rec back position byte).drop (encodeAll front).length) =
        .ok none ∧
      scan (corrupted front rec back position byte) =
        ⟨front, (encodeAll front).length, .torn⟩ ∧
      ((∀ other ∈ front, Redoable other.2) → ∀ snapLsn state,
        (replaySegment snapLsn (corrupted front rec back position byte) state).1.replayed =
            state.replayed ++ above snapLsn front ∧
          (replaySegment snapLsn (corrupted front rec back position byte) state).2 = .torn) := by
  have hbody : (recordBody rec.1 rec.2).length < 2 ^ 32 := by
    have hlength := (hfits rec (by simp)).2
    rw [length_recordBody]
    omega
  have hdecode : decodeRecord ((record rec.1 rec.2).set position byte ++ encodeAll back) =
      .ok none := by
    simp only [record_eq_sealFrame] at hposition hne ⊢
    exact decodeRecord_changed hbody hfield hposition hne _
  have hnil : (record rec.1 rec.2).set position byte ++ encodeAll back ≠ [] := by
    intro h
    have hlength := congrArg List.length h
    simp at hlength
  have hscan : scan (corrupted front rec back position byte) =
      ⟨front, (encodeAll front).length, .torn⟩ := by
    rw [corrupted_eq front rec back hposition,
      scan_encodeAll fun other hother => hfits other (List.mem_append_left _ hother),
      scan_torn hnil hdecode]
    simp
  refine ⟨?_, hscan, ?_⟩
  · rw [corrupted_eq front rec back hposition, List.drop_left]
    exact hdecode
  · intro hredoable snapLsn state
    rw [replaySegment_eq_redo, hscan]
    exact redo_redoable (fun other hother _ => hredoable other hother) .torn state

/-- Two PUTs; the value of the second is changed from 67 to 68. -/
theorem corruption_caught_second :
    scan (corrupted [(2, [1, 1, 0, 0, 0, 65, 66])] (3, [1, 1, 0, 0, 0, 65, 67]) [] 18 68) =
      ⟨[(2, [1, 1, 0, 0, 0, 65, 66])], 27, .torn⟩ :=
  (@corruption_caught [(2, [1, 1, 0, 0, 0, 65, 66])] [] (3, [1, 1, 0, 0, 0, 65, 67]) (by
    intro rec hrec
    simp only [List.cons_append, List.nil_append, List.mem_cons, List.not_mem_nil,
      or_false] at hrec
    rcases hrec with rfl | rfl
    · exact ⟨by norm_num, by decide⟩
    · exact ⟨by norm_num, by decide⟩) 18 68 (by decide) (by decide) (by decide)).2.1

/-! ## A byte of the length -/

/-- The first `length` bytes are followed by their own checksum. -/
def SealedAt (content : Bytes) (length : ℕ) : Prop :=
  ∃ body rest, body.length = length ∧
    content = body ++ (leBytes 8 (checksum body).toNat ++ rest)

theorem sealedAt_iff (content : Bytes) (length : ℕ) :
    SealedAt content length ↔ length + 8 ≤ content.length ∧
      leNat ((content.drop length).take 8) = (checksum (content.take length)).toNat := by
  constructor
  · rintro ⟨body, rest, rfl, rfl⟩
    rw [List.take_left, List.drop_left, List.take_left' (by simp),
      leNat_leBytes_of_lt (toNat_checksum_lt body)]
    refine ⟨?_, rfl⟩
    simp only [List.length_append, length_leBytes]
    omega
  · rintro ⟨hlong, hsum⟩
    refine ⟨content.take length, (content.drop length).drop 8,
      List.length_take_of_le (by omega), ?_⟩
    have hstored : leBytes 8 (checksum (content.take length)).toNat =
        (content.drop length).take 8 := by
      have hback := leBytes_leNat ((content.drop length).take 8)
      rwa [List.length_take_of_le (by rw [List.length_drop]; omega), hsum] at hback
    rw [hstored, List.take_append_drop, List.take_append_drop]

/-- What the length field of a record reads as after a change of one of its bytes. -/
def announced (blob : Bytes) (position : Fin 4) (byte : UInt8) : ℕ :=
  leNat ((leBytes 4 (8 + blob.length)).set position byte)

/-- The bytes behind the length field of a record, and what follows the record. -/
def content (lsn : ℕ) (blob rest : Bytes) : Bytes :=
  recordBody lsn blob ++ leBytes 8 (checksum (recordBody lsn blob)).toNat ++ rest

/-- A change of the length field of a PUT's record is noticed if and only if the
content the changed field announces is not followed, by chance or by choice of the
value, by its own checksum. -/
theorem length_change_caught_iff (lsn : ℕ) (key value rest : Bytes) (position : Fin 4)
    (byte : UInt8) :
    decodeRecord ((encodeRecord [] lsn (Call.put key value).body ++ rest).set position byte) =
        .ok none ↔
      ¬ SealedAt (content lsn (Call.put key value).body rest)
        (announced (Call.put key value).body position byte) := by
  set blob := (Call.put key value).body
  have hhead : ((leBytes 4 (8 + blob.length)).set position byte).length = 4 := by simp
  have hbytes : (encodeRecord [] lsn blob ++ rest).set position byte =
      (leBytes 4 (8 + blob.length)).set position byte ++ content lsn blob rest := by
    have hsplit : encodeRecord [] lsn blob ++ rest =
        leBytes 4 (8 + blob.length) ++ content lsn blob rest := by
      rw [encodeRecord_eq, List.nil_append, record, content]
      simp only [List.append_assoc]
    rw [hsplit, List.set_append_left _ _ (by simp)]
  rw [hbytes, decodeRecord_head hhead, sealedAt_iff]
  constructor
  · intro hdecode hsealed
    have hopened : openBody _ _ = .ok none := (if_pos hsealed).symm.trans hdecode
    rw [openBody_eq] at hopened
    split_ifs at hopened
    cases hopened
  · exact fun hsealed => if_neg hsealed

/-- The value of a PUT is the checksum of the record without it.  A length field of 13
in place of 21 gives the PUT of an empty value. -/
theorem forged_length_decodes :
    (encodeRecord [] 2 (Call.put [] (leBytes 8
        (checksum (recordBody 2 (Call.put [] []).body)).toNat)).body)[0]? = some 21 ∧
      decodeRecord ((encodeRecord [] 2 (Call.put [] (leBytes 8
        (checksum (recordBody 2 (Call.put [] []).body)).toNat)).body).set 0 13) =
        .ok (some ⟨2, (Call.put [] []).body, 25⟩) := by
  decide +kernel

end InMemoryDb.Recover
