import InMemoryDb.Server.Stage1
import InMemoryDb.Server.Stage3.Engine

/-!
# Malformed requests

The reader checks the length of a frame, stages 2 and 3 index into it.  Between
them nobody compares the announced key length with the length of the body, so a
GET or PUT whose key reaches past its end takes the process down.
-/

namespace InMemoryDb

open Wire Stage1 Stage2 Stage3

/-- Both stages get through the batch without an index or slice out of bounds. -/
def Survives (ack : Acker) (db : Db) (lsn : ℕ) (engine : WalEngine) (batch : Batch) : Prop :=
  match applyBatch db batch lsn with
  | .error cause => cause ≠ .outOfBounds
  | .ok (_, executed, _) =>
      executed.hasWalWork = true →
        engine.handleBatch (ack.advance executed .applied).1 ≠ .error .outOfBounds

/-- Stage 3 only looks at the opcode of a request, and at its bytes as a whole. -/
theorem handleBatch_ne_outOfBounds (engine : WalEngine) (batch : Batch) :
    engine.handleBatch batch ≠ .error .outOfBounds := by
  intro h
  unfold WalEngine.handleBatch at h
  split_ifs at h with hgap
  · cases h
  · simp only at h
    split_ifs at h with hcount
    cases h

theorem survives_iff (ack : Acker) (db : Db) (lsn : ℕ) (engine : WalEngine) (batch : Batch) :
    Survives ack db lsn engine batch ↔ ∀ req ∈ batch.items, Admissible req.data := by
  unfold Survives
  constructor
  · intro h
    by_contra hbad
    rw [applyBatch, applyItems_error db lsn hbad, error_bind] at h
    exact h rfl
  · intro hitems
    obtain ⟨after, -, hok⟩ := applyItems_ok db lsn hitems
    rw [applyBatch, hok, ok_bind]
    exact fun _ => handleBatch_ne_outOfBounds engine _

/-- Whatever the clients send, every batch stage 2 can cut from it is processed
without an access out of bounds if and only if every admitted frame has an
unknown opcode or a key that lies inside the body. -/
theorem clients_survive_iff (streams : List Bytes) (ack : Acker) (db : Db) (lsn : ℕ)
    (engine : WalEngine) :
    (∀ batch : Batch,
      (∀ req ∈ batch.items, ∃ stream ∈ streams, req.data ∈ handleConn stream) →
        Survives ack db lsn engine batch) ↔
      ∀ stream ∈ streams, ∀ data ∈ handleConn stream, Admissible data := by
  constructor
  · intro hsafe stream hstream data hdata
    let req : Request := ⟨data, 0, none, 0⟩
    have hone := hsafe { Batch.withId 0 with items := [req] } (by
      intro other hother
      rw [List.mem_singleton.mp hother]
      exact ⟨stream, hstream, hdata⟩)
    exact (survives_iff ack db lsn engine _).mp hone req (List.mem_singleton_self req)
  · intro hgood batch hbatch
    rw [survives_iff]
    intro req hreq
    obtain ⟨stream, hstream, hdata⟩ := hbatch req hreq
    exact hgood stream hstream req.data hdata

/-- One frame with the single byte of a GET, and no key. -/
theorem bare_get_aborts :
    ∃ data ∈ handleConn [1, 0, 0, 0, opGet],
      applyBatch Db.new { Batch.withId 0 with items := [⟨data, 7, none, 0⟩] } 1 =
        .error .outOfBounds := by
  refine ⟨⟨[opGet], by decide, by decide⟩, by decide, ?_⟩
  rfl

end InMemoryDb
