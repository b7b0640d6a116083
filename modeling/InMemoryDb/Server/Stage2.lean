import InMemoryDb.Server.Acker
import InMemoryDb.Storage.Recover

/-!
# Stage 2: executing a batch

One thread owns the table.  It executes the requests of a batch in order and
numbers the PUTs by incrementing the watermark before each of them.
-/

namespace InMemoryDb.Stage2

open Wire Recover

/-- One round of the loop of `apply_batch`. -/
def applyReq (db : Db) (lsn : ℕ) (req : Request) : Except Panic (Db × ℕ × Request) :=
  match req.op with
  | .get => do
      let key ← Wire.key req.data.bytes
      let resp := match db.get key with
        | some value => Resp.value value
        | none => Resp.miss
      return (db, lsn, { req with resp := some resp })
  | .put => do
      let (key, value) ← splitKv req.data.bytes
      return (db.put key value, lsn + 1, { req with resp := some .ok })
  | .unknown _ => return (db, lsn, { req with resp := some .unknownOp })

def applyItems : Db → ℕ → List Request → Except Panic (Db × ℕ × List Request)
  | db, lsn, [] => .ok (db, lsn, [])
  | db, lsn, req :: items => do
      let (db, lsn, req) ← applyReq db lsn req
      let (db, lsn, items) ← applyItems db lsn items
      return (db, lsn, req :: items)

/-- `apply_batch`: the batch owns the LSNs `(lsn, lsn']`. -/
def applyBatch (db : Db) (batch : Batch) (lsn : ℕ) : Except Panic (Db × Batch × ℕ) := do
  let (db, lsnHi, items) ← applyItems db lsn batch.items
  return (db, { batch with items := items, lsnLow := lsn, lsnHi := lsnHi }, lsnHi)

/-! ## Which requests can be executed -/

/-- A request the accessors of stage 2 can take apart: the opcode is unknown, or
the body is well formed. -/
def Admissible (data : Payload) : Prop :=
  (∃ code, data.op = .unknown code) ∨ WellFormed data.bytes

instance (data : Payload) : Decidable (Admissible data) :=
  match hop : data.op with
  | .unknown code => isTrue (Or.inl ⟨code, hop⟩)
  | .get => decidable_of_iff (WellFormed data.bytes) (by simp [Admissible, hop])
  | .put => decidable_of_iff (WellFormed data.bytes) (by simp [Admissible, hop])

theorem Admissible.wellFormed {req : Request} (hreq : Admissible req.data)
    (hknown : ∀ code, req.op ≠ .unknown code) : WellFormed req.data.bytes := by
  rcases hreq with ⟨code, hcode⟩ | hbody
  · exact absurd hcode (hknown code)
  · exact hbody

/-- The record of an admissible PUT can be redone. -/
theorem goodPut_of_admissible {req : Request} (hreq : Admissible req.data)
    (hop : req.op = .put) : GoodPut req.data.bytes := by
  refine ⟨?_, hreq.wellFormed (by simp [hop])⟩
  rw [req.data.head?_bytes]
  simp only [Request.op, Payload.op, Operation.ofCode] at hop
  split_ifs at hop with hget hput
  rw [hput]

/-- An executed request differs from the received one in its response only. -/
def Answered (before after : Request) : Prop :=
  after.data = before.data ∧ after.reply = before.reply ∧ after.tag = before.tag ∧
    after.resp.isSome

theorem Answered.op {before after : Request} (h : Answered before after) :
    after.op = before.op := by
  simp [Request.op, h.1]

/-- What one request does to the table, as the records recovery would redo. -/
theorem applyReq_ok (db : Db) (lsn : ℕ) {req : Request} (hreq : Admissible req.data) :
    ∃ after, Answered req after ∧
      applyReq db lsn req =
        .ok (applyRecords db (records lsn [req]), lsn + (puts [req]).length, after) := by
  unfold applyReq
  cases hop : req.op with
  | get =>
      have hbody : WellFormed req.data.bytes := hreq.wellFormed (by simp [hop])
      rw [key_ok hbody]
      refine ⟨{ req with resp := some (match db.get (keyOf req.data.bytes) with
        | some value => Resp.value value
        | none => Resp.miss) }, ⟨rfl, rfl, rfl, rfl⟩, ?_⟩
      simp [records, puts, hop, applyRecords]
  | put =>
      have hbody : WellFormed req.data.bytes := hreq.wellFormed (by simp [hop])
      rw [splitKv_ok hbody]
      refine ⟨{ req with resp := some .ok }, ⟨rfl, rfl, rfl, rfl⟩, ?_⟩
      simp [records, puts, hop, applyRecords, Db.put_eq_insertRaw]
  | unknown code =>
      refine ⟨{ req with resp := some .unknownOp }, ⟨rfl, rfl, rfl, rfl⟩, ?_⟩
      simp [records, puts, hop, applyRecords]

/-- A request that is not admissible slices out of bounds. -/
theorem applyReq_error (db : Db) (lsn : ℕ) {req : Request} (hreq : ¬ Admissible req.data) :
    applyReq db lsn req = .error .outOfBounds := by
  unfold applyReq
  have hbody : ¬ WellFormed req.data.bytes := fun h => hreq (Or.inr h)
  cases hop : req.op with
  | get => rw [key_error hbody, error_bind]
  | put => rw [splitKv_error hbody, error_bind]
  | unknown code => exact absurd (Or.inl ⟨code, hop⟩) hreq

/-- Stage 2 executes a batch of admissible requests without a panic, answers
every one of them, and leaves the table that redoing its PUTs would give. -/
theorem applyItems_ok (db : Db) (lsn : ℕ) {items : List Request}
    (hitems : ∀ req ∈ items, Admissible req.data) :
    ∃ after, List.Forall₂ Answered items after ∧
      applyItems db lsn items =
        .ok (applyRecords db (records lsn items), lsn + (puts items).length, after) := by
  induction items generalizing db lsn with
  | nil => exact ⟨[], List.Forall₂.nil, rfl⟩
  | cons req items ih =>
      obtain ⟨reqAfter, hanswered, hreq⟩ :=
        applyReq_ok db lsn (hitems req (by simp))
      obtain ⟨after, hafter, hrest⟩ :=
        ih (applyRecords db (records lsn [req])) (lsn + (puts [req]).length)
          fun other hother => hitems other (List.mem_cons_of_mem _ hother)
      refine ⟨reqAfter :: after, List.Forall₂.cons hanswered hafter, ?_⟩
      have hrecords : records lsn (req :: items) =
          records lsn [req] ++ records (lsn + (puts [req]).length) items :=
        records_append lsn [req] items
      have hputs : (puts (req :: items)).length =
          (puts [req]).length + (puts items).length := by
        rw [← List.length_append]
        simp [puts, ← List.filter_append]
      rw [applyItems, hreq, ok_bind]
      simp only [hrest, ok_bind, pure_eq_ok, hrecords, hputs, applyRecords_append, Nat.add_assoc]

theorem applyItems_error (db : Db) (lsn : ℕ) {items : List Request}
    (hitems : ¬ ∀ req ∈ items, Admissible req.data) :
    applyItems db lsn items = .error .outOfBounds := by
  induction items generalizing db lsn with
  | nil => simp at hitems
  | cons req items ih =>
      by_cases hreq : Admissible req.data
      · obtain ⟨reqAfter, hanswered, hok⟩ := applyReq_ok db lsn hreq
        have hrest : ¬ ∀ other ∈ items, Admissible other.data := by
          intro h
          apply hitems
          intro other hother
          rcases List.mem_cons.mp hother with rfl | hother
          · exact hreq
          · exact h other hother
        rw [applyItems, hok, ok_bind]
        simp only [ih _ _ hrest, error_bind]
      · rw [applyItems, applyReq_error db lsn hreq, error_bind]

/-- The inversion of a successful `apply_batch`. -/
theorem applyBatch_inv {db db' : Db} {batch batch' : Batch} {lsn lsn' : ℕ}
    (h : applyBatch db batch lsn = .ok (db', batch', lsn')) :
    (∀ req ∈ batch.items, Admissible req.data) ∧
      List.Forall₂ Answered batch.items batch'.items ∧
      db' = applyRecords db (records lsn batch.items) ∧
      lsn' = lsn + (puts batch.items).length ∧
      batch' = { batch with items := batch'.items, lsnLow := lsn, lsnHi := lsn' } := by
  by_cases hitems : ∀ req ∈ batch.items, Admissible req.data
  · obtain ⟨after, hafter, hok⟩ := applyItems_ok db lsn hitems
    rw [applyBatch, hok, ok_bind] at h
    simp only [pure_eq_ok, Except.ok.injEq, Prod.mk.injEq] at h
    obtain ⟨rfl, rfl, rfl⟩ := h
    exact ⟨hitems, hafter, rfl, rfl, rfl⟩
  · rw [applyBatch, applyItems_error db lsn hitems, error_bind] at h
    simp at h

end InMemoryDb.Stage2
