import InMemoryDb.Wire.Body

/-!
# WAL records

A record is `[len:u32][lsn:u64][wire body][checksum:u64]`; the length counts
the LSN and the body, the checksum covers the same bytes.  The decoder is the
only judge of where the log ends: the first position at which it returns `none`
is taken for a torn tail.
-/

namespace InMemoryDb.WalFormat

open LittleEndian Wire

def lenSize : ℕ := 4
def checksumSize : ℕ := 8

/-- One round of FNV-1a. -/
def checksumStep (hash : UInt64) (byte : UInt8) : UInt64 :=
  (hash ^^^ byte.toUInt64) * 0x00000100000001b3

/-- 64-bit FNV-1a. -/
def checksum (bytes : Bytes) : UInt64 :=
  bytes.foldl checksumStep 0xcbf29ce484222325

/-- Appends one record to the redo buffer. -/
def encodeRecord (out : Bytes) (lsn : ℕ) (wireBytesBlob : Bytes) : Bytes :=
  let bodyLen := 8 + wireBytesBlob.length
  let out := out ++ leBytes 4 bodyLen
  let bodyStart := out.length
  let out := out ++ leBytes 8 lsn
  let out := out ++ wireBytesBlob
  let cs := checksum (out.drop bodyStart)
  out ++ leBytes 8 cs.toNat

structure Record where
  lsn : ℕ
  wireBody : Bytes
  consumed : ℕ
  deriving DecidableEq

/-- The record inside a checked body: the LSN is its first eight bytes. -/
def openBody (body : Bytes) (consumed : ℕ) : Except Panic (Option Record) := do
  let lsn ← rdU64 (← slice body 0 8)
  let wireBody ← sliceFrom body 8
  return some ⟨lsn, wireBody, consumed⟩

/-- Decodes the record at the start of `bytes`; `none` is a torn or corrupted
tail. -/
def decodeRecord (bytes : Bytes) : Except Panic (Option Record) :=
  if bytes.length < lenSize then .ok none
  else do
    let bodyLen ← rdU32 (← slice bytes 0 4)
    let bodyEnd := lenSize + bodyLen
    if bodyEnd + checksumSize > bytes.length then .ok none
    else do
      let body ← slice bytes lenSize bodyEnd
      let cs ← rdU64 (← slice bytes bodyEnd (bodyEnd + checksumSize))
      if (checksum body).toNat ≠ cs then .ok none
      else openBody body (bodyEnd + checksumSize)

/-! ## The encoder -/

/-- The checksummed part of a record. -/
def recordBody (lsn : ℕ) (blob : Bytes) : Bytes := leBytes 8 lsn ++ blob

/-- The bytes one call of `encodeRecord` appends. -/
def record (lsn : ℕ) (blob : Bytes) : Bytes :=
  leBytes 4 (8 + blob.length) ++ recordBody lsn blob ++
    leBytes 8 (checksum (recordBody lsn blob)).toNat

theorem encodeRecord_eq (out : Bytes) (lsn : ℕ) (blob : Bytes) :
    encodeRecord out lsn blob = out ++ record lsn blob := by
  have hbody : (out ++ leBytes 4 (8 + blob.length) ++ leBytes 8 lsn ++ blob).drop
      (out ++ leBytes 4 (8 + blob.length)).length = recordBody lsn blob := by
    rw [List.append_assoc _ (leBytes 8 lsn) blob, List.drop_left]
    rfl
  simp only [encodeRecord, hbody]
  simp only [record, recordBody, List.append_assoc]

@[simp]
theorem length_recordBody (lsn : ℕ) (blob : Bytes) :
    (recordBody lsn blob).length = 8 + blob.length := by
  simp [recordBody]

@[simp]
theorem length_record (lsn : ℕ) (blob : Bytes) :
    (record lsn blob).length = 20 + blob.length := by
  simp [record]
  omega

theorem record_ne_nil (lsn : ℕ) (blob : Bytes) : record lsn blob ≠ [] := by
  intro h
  have := congrArg List.length h
  simp at this

/-- A body between its length and its checksum. -/
def sealFrame (body : Bytes) : Bytes :=
  leBytes 4 body.length ++ body ++ leBytes 8 (checksum body).toNat

@[simp]
theorem length_sealFrame (body : Bytes) : (sealFrame body).length = body.length + 12 := by
  simp [sealFrame]
  omega

theorem record_eq_sealFrame (lsn : ℕ) (blob : Bytes) :
    record lsn blob = sealFrame (recordBody lsn blob) := by
  rw [sealFrame, length_recordBody]
  rfl

/-! ## The decoder -/

/-- A string shorter than its own length field announces is a torn record. -/
theorem decodeRecord_short {bytes : Bytes}
    (hshort : bytes.length < lenSize + leNat (bytes.take 4) + checksumSize) :
    decodeRecord bytes = .ok none := by
  by_cases hlen : bytes.length < lenSize
  · rw [decodeRecord, if_pos hlen]
  · have hfour : 4 ≤ bytes.length := by simpa [lenSize] using hlen
    rw [decodeRecord, if_neg hlen, slice_ok (by omega) hfour]
    simp only [List.drop_zero, Nat.sub_zero, ok_bind]
    rw [rdU32_ok (by simp [hfour])]
    simp only [ok_bind, List.take_take, min_self]
    rw [if_pos hshort]

/-- On a string long enough for its announced length, the decoder compares the
checksum of the body with the stored one. -/
theorem decodeRecord_long {bytes : Bytes} (bodyLen : ℕ)
    (hbodyLen : bodyLen = leNat (bytes.take 4))
    (hlong : lenSize + bodyLen + checksumSize ≤ bytes.length) :
    decodeRecord bytes =
      if (checksum ((bytes.drop 4).take bodyLen)).toNat ≠
          leNat ((bytes.drop (4 + bodyLen)).take 8) then .ok none
      else openBody ((bytes.drop 4).take bodyLen) (lenSize + bodyLen + checksumSize) := by
  have hlong' : 4 + bodyLen + 8 ≤ bytes.length := hlong
  have hlen : ¬ bytes.length < lenSize := fun h => by
    have : bytes.length < 4 := h
    omega
  rw [decodeRecord, if_neg hlen, slice_ok (by omega) (by omega)]
  simp only [List.drop_zero, Nat.sub_zero, ok_bind]
  rw [rdU32_ok (by simp only [List.length_take]; omega)]
  simp only [ok_bind, List.take_take, min_self, ← hbodyLen]
  rw [if_neg (not_lt.mpr hlong), slice_ok (Nat.le_add_right _ _)
    ((Nat.le_add_right _ _).trans hlong), ok_bind,
    slice_ok (Nat.le_add_right _ _) hlong, ok_bind, Nat.add_sub_cancel_left,
    Nat.add_sub_cancel_left]
  have hfield : (bytes.drop (lenSize + bodyLen)).take checksumSize =
      (bytes.drop (4 + bodyLen)).take 8 := rfl
  rw [hfield, rdU64_ok (by simp only [List.length_take, List.length_drop]; omega), ok_bind,
    List.take_take, min_self]
  rfl

/-- The decoder on any four bytes and what follows them: it opens the announced
number of bytes if they are followed by their checksum. -/
theorem decodeRecord_head {head : Bytes} (hhead : head.length = 4) (payload : Bytes) :
    decodeRecord (head ++ payload) =
      if leNat head + 8 ≤ payload.length ∧
          leNat ((payload.drop (leNat head)).take 8) =
            (checksum (payload.take (leNat head))).toNat then
        openBody (payload.take (leNat head)) (lenSize + leNat head + checksumSize)
      else .ok none := by
  have htake : (head ++ payload).take 4 = head := List.take_left' hhead
  have hdrop : (head ++ payload).drop 4 = payload := List.drop_left' hhead
  by_cases hlong : leNat head + 8 ≤ payload.length
  · rw [decodeRecord_long (leNat head) (by rw [htake])
      (by simp only [List.length_append, hhead, lenSize, checksumSize]; omega), hdrop,
      ← List.drop_drop, hdrop]
    by_cases hsum : leNat ((payload.drop (leNat head)).take 8) =
        (checksum (payload.take (leNat head))).toNat
    · rw [if_neg (by simpa using hsum.symm), if_pos ⟨hlong, hsum⟩]
    · rw [if_pos (Ne.symm hsum), if_neg fun h => hsum h.2]
  · rw [decodeRecord_short (by
      rw [htake]
      simp only [List.length_append, hhead, lenSize, checksumSize]
      omega), if_neg fun h => hlong h.1]

theorem toNat_checksum_lt (body : Bytes) : (checksum body).toNat < 256 ^ 8 := by
  have hlt := (checksum body).toNat_lt
  norm_num at hlt ⊢
  exact hlt

theorem decodeRecord_sealFrame {body : Bytes} (hbody : body.length < 2 ^ 32) (rest : Bytes) :
    decodeRecord (sealFrame body ++ rest) = openBody body (body.length + 12) := by
  have hlength : leNat (leBytes 4 body.length) = body.length :=
    leNat_leBytes_of_lt (by norm_num at hbody ⊢; exact hbody)
  have hsplit : sealFrame body ++ rest = leBytes 4 body.length ++
      (body ++ (leBytes 8 (checksum body).toNat ++ rest)) := by
    simp only [sealFrame, List.append_assoc]
  rw [hsplit, decodeRecord_head (by simp), hlength, List.take_left, List.drop_left,
    List.take_left' (by simp), leNat_leBytes_of_lt (toNat_checksum_lt body),
    if_pos ⟨by simp, rfl⟩]
  congr 1
  simp only [lenSize, checksumSize]
  omega

/-- A record body the format can hold: its length field and LSN do not wrap. -/
def Fits (lsn : ℕ) (blob : Bytes) : Prop := lsn < 2 ^ 64 ∧ blob.length + 8 < 2 ^ 32

theorem openBody_recordBody {lsn : ℕ} {blob : Bytes} (hlsn : lsn < 2 ^ 64)
    (consumed : ℕ) :
    openBody (recordBody lsn blob) consumed = .ok (some ⟨lsn, blob, consumed⟩) := by
  have hlsnField : (recordBody lsn blob).take 8 = leBytes 8 lsn := by
    rw [recordBody, List.take_left' (by simp)]
  have hwire : (recordBody lsn blob).drop 8 = blob := by
    rw [recordBody, List.drop_left' (by simp)]
  rw [openBody, slice_ok (by omega) (by simp), ok_bind]
  simp only [List.drop_zero, Nat.sub_zero, hlsnField]
  rw [rdU64_ok (by simp), ok_bind, List.take_of_length_le (by simp),
    leNat_leBytes_of_lt (by norm_num at hlsn ⊢; omega), sliceFrom_ok (by simp), ok_bind,
    hwire]
  rfl

/-- The decoder reads back a whole record and stops right behind it. -/
theorem decodeRecord_record {lsn : ℕ} {blob : Bytes} (hfits : Fits lsn blob)
    (rest : Bytes) :
    decodeRecord (record lsn blob ++ rest) =
      .ok (some ⟨lsn, blob, (record lsn blob).length⟩) := by
  obtain ⟨hlsn, hblob⟩ := hfits
  rw [record_eq_sealFrame, decodeRecord_sealFrame (by rw [length_recordBody]; omega),
    openBody_recordBody hlsn, length_sealFrame]

/-- A proper prefix of a record never decodes. -/
theorem decodeRecord_truncated {lsn : ℕ} {blob : Bytes} (hfits : Fits lsn blob)
    {cut : ℕ} (hcut : cut < (record lsn blob).length) :
    decodeRecord ((record lsn blob).take cut) = .ok none := by
  by_cases hshort : cut < 4
  · rw [decodeRecord, if_pos (by simp [lenSize, hshort])]
  apply decodeRecord_short
  have htake : ((record lsn blob).take cut).take 4 = leBytes 4 (8 + blob.length) := by
    rw [List.take_take, Nat.min_eq_left (by omega)]
    simp only [record, List.append_assoc]
    rw [List.take_left' (by simp)]
  rw [htake, leNat_leBytes_of_lt (by have := hfits.2; norm_num at this ⊢; omega)]
  simp only [length_record] at hcut
  simp only [List.length_take, length_record, lenSize, checksumSize]
  omega

theorem leNat_replicate_zero (count : ℕ) : leNat (List.replicate count 0) = 0 := by
  induction count with
  | zero => rfl
  | succ count ih => simp [List.replicate_succ, leNat, ih]

/-- Twelve zero bytes never decode: they announce an empty body, whose checksum
is the FNV offset basis and not zero. -/
theorem decodeRecord_zeros {count : ℕ} (hcount : 12 ≤ count) (rest : Bytes) :
    decodeRecord (List.replicate count 0 ++ rest) = .ok none := by
  obtain ⟨more, rfl⟩ : ∃ more, count = 4 + (8 + more) := ⟨count - 12, by omega⟩
  have hsum : ((List.replicate (8 + more) (0 : UInt8) ++ rest).drop 0).take 8 =
      List.replicate 8 0 := by
    rw [List.drop_zero, List.replicate_add, List.append_assoc, List.take_left' (by simp)]
  rw [List.replicate_add, List.append_assoc, decodeRecord_head (by simp), leNat_replicate_zero,
    hsum, leNat_replicate_zero, List.take_zero]
  exact if_neg fun hsealed => absurd hsealed.2 (by decide)

end InMemoryDb.WalFormat
