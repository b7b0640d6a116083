import InMemoryDb.Server.Types

/-!
# When a response is released

Every request has a required guarantee level: reads are answered from memory,
everything else waits for the level of the configured mode.  `advance` releases
the responses whose level is reached and leaves the others in the batch.
-/

namespace InMemoryDb

open Wire

/-- Durability guarantee levels, in increasing order. -/
inductive AckPoint where
  | applied
  | written
  | durable
  deriving DecidableEq, Repr

namespace AckPoint

def rank : AckPoint → ℕ
  | applied => 1
  | written => 2
  | durable => 3

instance : LE AckPoint := ⟨fun low high => low.rank ≤ high.rank⟩

instance (low high : AckPoint) : Decidable (low ≤ high) :=
  inferInstanceAs (Decidable (low.rank ≤ high.rank))

def ofMode : Mode → AckPoint
  | .noFsync => applied
  | .async => written
  | .sync => durable

theorem applied_le (point : AckPoint) : applied ≤ point := by
  cases point <;> decide

theorem le_durable (point : AckPoint) : point ≤ durable := by
  cases point <;> decide

end AckPoint

structure Acker where
  level : AckPoint
  deriving DecidableEq

namespace Acker

def new (mode : Mode) : Acker := ⟨AckPoint.ofMode mode⟩

/-- The durability level a request waits for. -/
def required (ack : Acker) (req : Request) : AckPoint :=
  if req.isReadOnly then .applied else ack.level

/-- `req.resp.take()` when the level is reached. -/
def advanceReq (ack : Acker) (reached : AckPoint) (req : Request) : Request :=
  if ack.required req ≤ reached then { req with resp := none } else req

/-- The response sent for one request, if any. -/
def released (ack : Acker) (reached : AckPoint) (req : Request) : Option Reply :=
  if ack.required req ≤ reached then req.owed else none

/-- `Acker::advance`: the batch after it, and the responses it sends, in the
order of the requests. -/
def advance (ack : Acker) (batch : Batch) (reached : AckPoint) : Batch × List Reply :=
  ({ batch with items := batch.items.map (ack.advanceReq reached) },
    batch.items.filterMap (ack.released reached))

/-- All responses of the batch have been dispatched. -/
def isSettled (batch : Batch) : Bool := batch.items.all fun req => req.resp = none

/-! ## What `advance` does -/

@[simp]
theorem advance_out (ack : Acker) (batch : Batch) (reached : AckPoint) :
    (ack.advance batch reached).1.out = batch.out := rfl

@[simp]
theorem advance_lsnLow (ack : Acker) (batch : Batch) (reached : AckPoint) :
    (ack.advance batch reached).1.lsnLow = batch.lsnLow := rfl

@[simp]
theorem advance_lsnHi (ack : Acker) (batch : Batch) (reached : AckPoint) :
    (ack.advance batch reached).1.lsnHi = batch.lsnHi := rfl

@[simp]
theorem advanceReq_data (ack : Acker) (reached : AckPoint) (req : Request) :
    (ack.advanceReq reached req).data = req.data := by
  unfold advanceReq
  split_ifs <;> rfl

@[simp]
theorem advanceReq_op (ack : Acker) (reached : AckPoint) (req : Request) :
    (ack.advanceReq reached req).op = req.op := by
  simp [Request.op]

@[simp]
theorem advanceReq_tag (ack : Acker) (reached : AckPoint) (req : Request) :
    (ack.advanceReq reached req).tag = req.tag := by
  unfold advanceReq
  split_ifs <;> rfl

/-- Sending a response changes nothing the log would record. -/
@[simp]
theorem records_map_advanceReq (ack : Acker) (reached : AckPoint) (lsn : ℕ)
    (items : List Request) :
    records lsn (items.map (ack.advanceReq reached)) = records lsn items := by
  induction items generalizing lsn with
  | nil => rfl
  | cons req items ih => simp [records, ih]

@[simp]
theorem advance_redo (ack : Acker) (batch : Batch) (reached : AckPoint) :
    (ack.advance batch reached).1.redo = batch.redo := by
  simp [advance, Batch.redo]

/-- Nothing is lost and nothing is invented: what a batch owed before is what
was sent together with what it still owes. -/
theorem advance_owed (ack : Acker) (batch : Batch) (reached : AckPoint) :
    List.Perm batch.owed ((ack.advance batch reached).2 ++
      (ack.advance batch reached).1.owed) := by
  obtain ⟨items, out, lsnLow, lsnHi, buf⟩ := batch
  simp only [Batch.owed, advance, List.filterMap_map]
  induction items with
  | nil => simp
  | cons req items ih =>
      by_cases hlevel : ack.required req ≤ reached
      · have hleft : (ack.advanceReq reached req).owed = none := by
          simp [advanceReq, hlevel, Request.owed]
        have hsent : ack.released reached req = req.owed := if_pos hlevel
        cases howed : req.owed with
        | none => simpa [hleft, hsent, howed] using ih
        | some reply => simpa [hleft, hsent, howed] using ih
      · have hleft : ack.advanceReq reached req = req := if_neg hlevel
        have hsent : ack.released reached req = none := if_neg hlevel
        cases howed : req.owed with
        | none => simpa [hleft, hsent, howed] using ih
        | some reply =>
            simp only [List.filterMap_cons, hsent, hleft, howed, Function.comp_apply]
            exact (ih.cons reply).trans List.perm_middle.symm

/-- When every request has reached its level, everything owed is released in
request order and nothing is left. -/
theorem advance_all {ack : Acker} {batch : Batch} {reached : AckPoint}
    (hlevel : ∀ req ∈ batch.items, ack.required req ≤ reached) :
    (ack.advance batch reached).2 = batch.owed ∧ (ack.advance batch reached).1.owed = [] := by
  constructor
  · exact List.filterMap_congr fun req hreq => if_pos (hlevel req hreq)
  · simp only [advance, Batch.owed, List.filterMap_map, List.filterMap_eq_nil_iff]
    intro req hreq
    simp [advanceReq, hlevel req hreq, Request.owed]

/-- When no request that is owed something has reached its level, nothing
happens. -/
theorem advance_none {ack : Acker} {batch : Batch} {reached : AckPoint}
    (hlevel : ∀ req ∈ batch.items, ack.required req ≤ reached → req.resp = none) :
    (ack.advance batch reached).2 = [] ∧ (ack.advance batch reached).1.owed = batch.owed := by
  constructor
  · refine List.filterMap_eq_nil_iff.mpr fun req hreq => ?_
    rw [released]
    split_ifs with hreached
    · simp [Request.owed, hlevel req hreq hreached]
    · rfl
  · simp only [advance, Batch.owed, List.filterMap_map]
    refine List.filterMap_congr fun req hreq => ?_
    rw [Function.comp_apply, advanceReq]
    split_ifs with hreached
    · simp [Request.owed, hlevel req hreq hreached]
    · rfl

theorem advance_durable (ack : Acker) (batch : Batch) :
    (ack.advance batch .durable).2 = batch.owed :=
  (advance_all fun _ _ => AckPoint.le_durable _).1

theorem advance_durable_owed (ack : Acker) (batch : Batch) :
    (ack.advance batch .durable).1.owed = [] :=
  (advance_all fun _ _ => AckPoint.le_durable _).2

theorem isSettled_iff (batch : Batch) : isSettled batch = true ↔ batch.owed = [] := by
  simp [isSettled, Batch.owed, List.filterMap_eq_nil_iff, Request.owed]

/-- Below Sync a batch is settled by its write. -/
theorem settled_of_level {ack : Acker} (hlevel : ack.level ≤ .written) (batch : Batch) :
    isSettled (ack.advance batch .written).1 = true := by
  refine (isSettled_iff _).mpr (advance_all fun req _ => ?_).2
  unfold required
  split_ifs
  · exact AckPoint.applied_le _
  · exact hlevel

end Acker

end InMemoryDb
