import InMemoryDb.Client.Async
import InMemoryDb.Client.Sync

/-!
# Calls keep their answers across reconnects

Neither client numbers its requests.  That an answer reaches the call it belongs to
rests on the order of frames, senders and responses on one connection, and on a
connection being left with nothing in its FIFO.
-/

namespace InMemoryDb.Client

open Wire Stage1

/-- For both clients and every run, with any callers, chunks, failures and
reconnects, the calls are matched; and the blocking client's driver always gets past
the reader of a connection that failed. -/
theorem calls_matched :
    (∀ client : Sync, Machine.Reach Sync.step Sync.Calls Sync.new client →
      client.toBoard.Matched Sync.result client.tornDown ∧
        (client.pc = .joining →
          ∃ next, Machine.Reach Sync.step Sync.Calls client next ∧ next.pc = .cloning)) ∧
    ∀ client : Async, Machine.Reach Async.step Async.Calls Async.new client →
      client.toBoard.Matched Async.result client.tornDown := by
  constructor
  · intro client hreach
    have hinv := Sync.inv_reach hreach
    exact ⟨hinv.matched, Sync.exists_joined hinv⟩
  · intro client hreach
    exact (Async.inv_reach hreach).matched

/-- A connection fails after the first of two answers, or while a frame is being
written; the calls left on it get an error, the answered one keeps its answer. -/
theorem calls_matched_reconnect :
    ∃ (sync : Sync) (async : Async), Machine.Reach Sync.step Sync.Calls Sync.new sync ∧
      Machine.Reach Async.step Async.Calls Async.new async ∧
      sync.outcomes = [(2, .lost), (0, .ok .miss), (1, .lost)] ∧ sync.tornDown.length = 1 ∧
      async.outcomes = [(0, .ok .miss), (1, .dropped)] ∧ async.tornDown.length = 1 ∧
      sync.toBoard.Matched Sync.result sync.tornDown ∧
      async.toBoard.Matched Async.result async.tornDown := by
  obtain ⟨sync, hsync, hdone⟩ := @Machine.exists_reach _ _ Sync.step Sync.Calls Sync.new _
    [.clone, .call (.get [65]), .call (.put [65] [66]), .recv, .load false, .tryRecv, .tryRecv,
      .encode, .encode, .encode, .write 21, .flush, .link (.respond .miss),
      .link (.read [1, 0, 0]), .link .extract, .link (.read [0, 2]), .link .extract, .link .recv,
      .link .extract, .exit .readEnd, .exit .storeDead, .exit .tryRecv, .exit .tryRecv,
      .exit .leave, .call (.get [67]), .recv, .load true, .hangUp, .reconnect, .join, .clone]
    (fun client => client.outcomes = [(2, .lost), (0, .ok .miss), (1, .lost)] ∧
      client.tornDown.length = 1) (by decide +kernel)
  obtain ⟨async, hasync, hdone'⟩ := @Machine.exists_reach _ _ Async.step Async.Calls Async.new _
    [.call (.get [65]), .recv, .tryRecv, .write 10, .flush, .link (.respond .miss),
      .link (.read [1, 0, 0, 0, 2]), .link .extract, .link .recv, .link .extract,
      .call (.put [65] [66]), .recv, .tryRecv, .write 5, .writeFails, .connect]
    (fun client => client.outcomes = [(0, .ok .miss), (1, .dropped)] ∧
      client.tornDown.length = 1) (by decide +kernel)
  obtain ⟨houtcomes, htorn⟩ : sync.outcomes = [(2, .lost), (0, .ok .miss), (1, .lost)] ∧
      sync.tornDown.length = 1 := of_decide_eq_true hdone
  obtain ⟨houtcomes', htorn'⟩ : async.outcomes = [(0, .ok .miss), (1, .dropped)] ∧
      async.tornDown.length = 1 := of_decide_eq_true hdone'
  exact ⟨sync, async, hsync, hasync, houtcomes, htorn, houtcomes', htorn',
    (calls_matched.1 sync hsync).1, calls_matched.2 async hasync⟩

end InMemoryDb.Client
