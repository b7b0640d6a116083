import InMemoryDb.Storage.Scan

/-!
# Replaying a damaged log

A crash leaves some of the records of a log as they were written, and behind them
bytes of which nothing is known.  Replay redoes the records that are left and stops
there, provided that the checksum does its work: the bytes in the place of the first
damaged record are not taken for another one.
-/

namespace InMemoryDb.Recover

open Frames WalFormat

variable {records : List (ℕ × Bytes)} {bytes : Bytes}

/-- The records of a log that a damaged copy of it still begins with. -/
def remaining (records : List (ℕ × Bytes)) (bytes : Bytes) : List (ℕ × Bytes) :=
  standing recordOf records bytes

/-- What lies behind them. -/
def wreck (records : List (ℕ × Bytes)) (bytes : Bytes) : Bytes :=
  bytes.drop (encodeAll (remaining records bytes)).length

/-- `decode_record` returns `None` for the first bytes that are not those of the log. -/
def Noticed (records : List (ℕ × Bytes)) (bytes : Bytes) : Prop :=
  wreck records bytes = [] ∨ decodeRecord (wreck records bytes) = .ok none

instance (records : List (ℕ × Bytes)) (bytes : Bytes) : Decidable (Noticed records bytes) :=
  inferInstanceAs (Decidable (_ ∨ _))

theorem remaining_isPrefix (records : List (ℕ × Bytes)) (bytes : Bytes) :
    remaining records bytes <+: records :=
  standing_isPrefix recordOf records bytes

/-- Records the copy begins with are among those that are left. -/
theorem isPrefix_remaining {front : List (ℕ × Bytes)} (hfront : front <+: records)
    (hbytes : encodeAll front <+: bytes) : front <+: remaining records bytes :=
  isPrefix_standing recordOf hfront hbytes

theorem encodeAll_remaining (records : List (ℕ × Bytes)) (bytes : Bytes) :
    encodeAll (remaining records bytes) ++ wreck records bytes = bytes :=
  List.prefix_iff_eq_append.mp (stream_standing recordOf records bytes)

/-- Replay redoes what is left and no more. -/
theorem replaySegment_remaining {snapLsn : ℕ}
    (hgood : ∀ rec ∈ records, Fits rec.1 rec.2 ∧ GoodPut rec.2 ∧ snapLsn < rec.1)
    (hnoticed : Noticed records bytes) (state : Replay) :
    ∃ ended, (∀ cause, ended ≠ .panicked cause) ∧
      replaySegment snapLsn bytes state = (state.extend (remaining records bytes), ended) := by
  have hreplay := @replaySegment_encodeAll snapLsn (remaining records bytes)
    (fun rec hrec => hgood rec ((remaining_isPrefix records bytes).subset hrec))
    (wreck records bytes) state
  rw [encodeAll_remaining] at hreplay
  rw [hreplay]
  by_cases hnil : wreck records bytes = []
  · refine ⟨.finished, (fun _ h => by cases h), ?_⟩
    rw [hnil, replaySegment_nil]
  · refine ⟨.torn, (fun _ h => by cases h), ?_⟩
    exact replaySegment_torn snapLsn _ hnil (hnoticed.resolve_left hnil)

end InMemoryDb.Recover
