import InMemoryDb.Lib.LastWrite
import InMemoryDb.Lib.Machine
import InMemoryDb.Server.Stage2
import InMemoryDb.Storage.SharedDb

/-!
# Responses that share cells with the table

The response to a GET holds the cell it found, from the moment `apply_batch`
stores it until it has been sent, while later PUTs may overwrite cells in place.
At the level of cells stage 2 still does what executing the requests one at a
time on a plain map does, for every partition into batches and whenever the
responses are sent.
-/

namespace InMemoryDb.Sharing

open Wire RefCount LastWrite Stage2

/-! ## One request at a time on a plain map -/

/-- A plain map, the LSN reached, and the responses so far. -/
structure Plain where
  db : Db
  lsn : ℕ
  resps : List Resp

namespace Plain

def found : Option Bytes → Resp
  | some value => .value value
  | none => .miss

def exec (plain : Plain) (req : Request) : Plain :=
  match req.op with
  | .get =>
      { plain with resps := plain.resps ++ [found (plain.db.lookup (keyOf req.data.bytes))] }
  | .put =>
      ⟨plain.db.insert (keyOf req.data.bytes) (valueOf req.data.bytes), plain.lsn + 1,
        plain.resps ++ [.ok]⟩
  | .unknown _ => { plain with resps := plain.resps ++ [.unknownOp] }

def run (db : Db) (lsn : ℕ) (reqs : List Request) : Plain := reqs.foldl exec ⟨db, lsn, []⟩

/-- Executing on does not look at the responses, and adds to them. -/
theorem foldl_exec (reqs : List Request) (db : Db) (lsn : ℕ) (resps : List Resp) :
    reqs.foldl exec ⟨db, lsn, resps⟩ =
      ⟨(run db lsn reqs).db, (run db lsn reqs).lsn, resps ++ (run db lsn reqs).resps⟩ := by
  induction reqs using List.reverseRecOn with
  | nil => simp [run]
  | append_singleton front req ih =>
      have hrun : run db lsn (front ++ [req]) = (run db lsn front).exec req :=
        List.foldl_concat ..
      rw [List.foldl_concat, ih, hrun]
      unfold exec
      cases req.op with
      | get => simp
      | put => simp
      | unknown code => simp

theorem resps_grow (plain : Plain) (reqs : List Request) :
    plain.resps <+: (reqs.foldl exec plain).resps := by
  rw [foldl_exec]
  exact List.prefix_append _ _

theorem run_append (db : Db) (lsn : ℕ) (first second : List Request) :
    run db lsn (first ++ second) =
      ⟨(run (run db lsn first).db (run db lsn first).lsn second).db,
        (run (run db lsn first).db (run db lsn first).lsn second).lsn,
        (run db lsn first).resps ++
          (run (run db lsn first).db (run db lsn first).lsn second).resps⟩ := by
  rw [run, List.foldl_append]
  exact foldl_exec second (run db lsn first).db (run db lsn first).lsn (run db lsn first).resps

/-- The writes of the PUTs, in order. -/
def writes (reqs : List Request) : List (Bytes × Bytes) :=
  (puts reqs).map fun req => (keyOf req.data.bytes, valueOf req.data.bytes)

/-- The response to a request behind `earlier`: a GET finds the value of the latest
PUT of its key, or else what the map held at first. -/
def answer (db : Db) (earlier : List Request) (req : Request) : Resp :=
  match req.op with
  | .get =>
      found ((lastWrite (keyOf req.data.bytes) (writes earlier)).or
        (db.lookup (keyOf req.data.bytes)))
  | .put => .ok
  | .unknown _ => .unknownOp

theorem run_db (db : Db) (lsn : ℕ) (reqs : List Request) :
    (run db lsn reqs).db = applyWrites db (writes reqs) ∧
      (run db lsn reqs).lsn = lsn + (puts reqs).length := by
  induction reqs using List.reverseRecOn with
  | nil => exact ⟨rfl, rfl⟩
  | append_singleton front req ih =>
      have hrun : run db lsn (front ++ [req]) = (run db lsn front).exec req :=
        List.foldl_concat ..
      have hputs : puts (front ++ [req]) = puts front ++ puts [req] := List.filter_append _ _
      rw [hrun, exec, writes, hputs, List.map_append, applyWrites, List.foldl_append,
        List.length_append]
      cases hop : req.op with
      | get =>
          have hnone : puts [req] = [] := by simp [puts, hop]
          rw [hnone]
          exact ih
      | put =>
          have hput : puts [req] = [req] := by simp [puts, hop]
          rw [hput]
          exact ⟨congrArg (Finmap.insert _ _) ih.1, congrArg (· + 1) ih.2⟩
      | unknown code =>
          have hnone : puts [req] = [] := by simp [puts, hop]
          rw [hnone]
          exact ih

/-- Each response is the answer to its request behind those before it. -/
theorem run_resps (db : Db) (lsn : ℕ) (reqs : List Request) :
    (run db lsn reqs).resps =
      reqs.mapIdx fun number req => answer db (reqs.take number) req := by
  induction reqs using List.reverseRecOn with
  | nil => rfl
  | append_singleton front req ih =>
      have hrun : run db lsn (front ++ [req]) = (run db lsn front).exec req :=
        List.foldl_concat ..
      have hlast : ((run db lsn front).exec req).resps =
          (run db lsn front).resps ++ [answer db front req] := by
        rw [exec, answer]
        cases req.op with
        | get => rw [(run_db db lsn front).1, lookup_applyWrites]
        | put => rfl
        | unknown code => rfl
      rw [hrun, hlast, ih, List.mapIdx_append, List.mapIdx_singleton]
      refine congrArg₂ (· ++ ·) ?_ ?_
      · apply List.mapIdx_eq_mapIdx_iff.mpr
        intro number hnumber
        rw [List.take_append_of_le_length (le_of_lt hnumber)]
      · rw [Nat.zero_add, List.take_left]

end Plain

/-! ## Stage 2 on cells -/

/-- A response as stage 2 stores it: a value is the cell it was found in. -/
inductive CellResp where
  | value (cell : ℕ)
  | ok
  | miss
  | unknownOp
  deriving DecidableEq

def CellResp.read (heap : Heap Bytes) : CellResp → Option Resp
  | .value cell => (heap.read cell).map Resp.value
  | .ok => some .ok
  | .miss => some .miss
  | .unknownOp => some .unknownOp

/-- The references a response holds. -/
def CellResp.refs : CellResp → Multiset ℕ
  | .value cell => {cell}
  | _ => 0

/-- The response is dropped. -/
def CellResp.release (heap : Heap Bytes) : CellResp → Heap Bytes
  | .value cell => heap.release cell
  | _ => heap

/-- Where the response to a request is: stored and not sent yet, or sent with the
bytes that were read then. -/
inductive Slot where
  | held (resp : CellResp)
  | sent (resp : Resp)
  deriving DecidableEq

def Slot.read (heap : Heap Bytes) : Slot → Option Resp
  | .held resp => resp.read heap
  | .sent resp => some resp

def Slot.refs : Slot → Multiset ℕ
  | .held resp => resp.refs
  | .sent _ => 0

/-- The thread that owns the table, with the responses of the requests it has
executed, in order. -/
structure Worker where
  db : SharedDb
  lsn : ℕ
  resps : List Slot

namespace Worker

def start (db : SharedDb) (lsn : ℕ) : Worker := ⟨db, lsn, []⟩

/-- What the responses read as, now or when they were sent. -/
def responses (worker : Worker) : List (Option Resp) :=
  worker.resps.map (Slot.read worker.db.heap)

/-- The references held by responses that have not been sent. -/
def held (worker : Worker) : Multiset ℕ := (worker.resps.map Slot.refs).sum

/-- `req.resp = Some(..)`. -/
def respond (worker : Worker) (resp : CellResp) : Worker :=
  { worker with resps := worker.resps ++ [.held resp] }

/-- One round of the loop of `apply_batch`. -/
def exec (worker : Worker) (req : Request) : Except Panic Worker :=
  match req.op with
  | .get => do
      let key ← Wire.key req.data.bytes
      match worker.db.get key with
      | some cell =>
          return { worker with
            db := { worker.db with heap := worker.db.heap.clone cell } }.respond (.value cell)
      | none => return worker.respond .miss
  | .put => do
      let (key, value) ← splitKv req.data.bytes
      return { worker with db := worker.db.put key value, lsn := worker.lsn + 1 }.respond .ok
  | .unknown _ => return worker.respond .unknownOp

/-- Another thread sends a response: it reads the bytes and drops the reference.
Nothing happens if there is no such response any more. -/
def send (worker : Worker) (index : ℕ) : Option Worker :=
  match worker.resps[index]? with
  | some (.held resp) =>
      (resp.read worker.db.heap).map fun sent =>
        { worker with
          db := { worker.db with heap := resp.release worker.db.heap }
          resps := worker.resps.set index (.sent sent) }
  | _ => some worker

inductive Act where
  | exec (req : Request)
  | send (index : ℕ)

def step (worker : Worker) : Act → Option Worker
  | .exec req => (worker.exec req).toOption
  | .send index => worker.send index

/-- The requests executed, in order. -/
def requests (acts : List Act) : List Request :=
  acts.filterMap fun
    | .exec req => some req
    | .send _ => none

/-- `apply_batch` while other threads send: the batch owns the LSNs between the two
watermarks. -/
def applyBatch (worker : Worker) (acts : List Act) : Option (Worker × ℕ × ℕ) :=
  (Machine.run step worker acts).map fun after => (after, worker.lsn, after.lsn)

def applyBatches : Worker → List (List Act) → Option (Worker × List (ℕ × ℕ))
  | worker, [] => some (worker, [])
  | worker, acts :: script =>
      (worker.applyBatch acts).bind fun (after, window) =>
        (applyBatches after script).map fun (final, windows) => (final, window :: windows)

/-! ## Simulation -/

/-- The counts are right, and table, LSN and responses read like those of the plain
map. -/
structure Simulates (worker : Worker) (plain : Plain) : Prop where
  owned : Owned worker.db.heap (worker.db.slots + worker.held)
  view : ∀ key, worker.db.view key = plain.db.lookup key
  lsn : worker.lsn = plain.lsn
  responses : worker.responses = plain.resps.map some

variable {worker after : Worker} {plain : Plain} {req : Request}

theorem held_respond (resp : CellResp) : (worker.respond resp).held = resp.refs + worker.held := by
  rw [held, respond, List.map_append, List.sum_append, add_comm]
  simp [Slot.refs, held]

theorem responses_respond (resp : CellResp) :
    (worker.respond resp).responses = worker.responses ++ [resp.read worker.db.heap] := by
  rw [responses, respond, List.map_append]
  rfl

theorem read_release (heap : Heap Bytes) (resp : CellResp) (cell : ℕ) :
    (resp.release heap).read cell = heap.read cell := by
  cases resp with
  | value other => exact Heap.read_release
  | ok => rfl
  | miss => rfl
  | unknownOp => rfl

theorem owned_release {heap : Heap Bytes} {resp : CellResp} {refs : Multiset ℕ}
    (howned : Owned heap (resp.refs + refs)) : Owned (resp.release heap) refs := by
  cases resp with
  | value cell => exact howned.release
  | ok => simpa [CellResp.refs, CellResp.release] using howned
  | miss => simpa [CellResp.refs, CellResp.release] using howned
  | unknownOp => simpa [CellResp.refs, CellResp.release] using howned

/-- A response can be read as long as it is held. -/
theorem exists_read {heap : Heap Bytes} {resp : CellResp} {refs : Multiset ℕ}
    (howned : Owned heap (resp.refs + refs)) : ∃ sent, resp.read heap = some sent := by
  cases resp with
  | value cell =>
      have hlive := howned.live (Multiset.mem_add.mpr (Or.inl (Multiset.mem_singleton_self cell)))
      obtain ⟨value, hvalue⟩ := Option.isSome_iff_exists.mp hlive
      exact ⟨.value value, congrArg (Option.map Resp.value) hvalue⟩
  | ok => exact ⟨.ok, rfl⟩
  | miss => exact ⟨.miss, rfl⟩
  | unknownOp => exact ⟨.unknownOp, rfl⟩

/-- Responses read the same as long as their cells do. -/
theorem read_congr {heap heap' : Heap Bytes} {resps : List Slot}
    (hread : ∀ cell ∈ (resps.map Slot.refs).sum, heap'.read cell = heap.read cell) :
    resps.map (Slot.read heap') = resps.map (Slot.read heap) := by
  induction resps with
  | nil => rfl
  | cons slot resps ih =>
      rw [List.map_cons, List.sum_cons] at hread
      rw [List.map_cons, List.map_cons,
        ih fun cell hcell => hread cell (Multiset.mem_add.mpr (Or.inr hcell))]
      refine congrArg (· :: _) ?_
      cases slot with
      | sent resp => rfl
      | held resp =>
          cases resp with
          | value cell =>
              have hcell : heap'.read cell = heap.read cell :=
                hread cell (Multiset.mem_add.mpr (Or.inl (Multiset.mem_singleton_self cell)))
              exact congrArg (Option.map Resp.value) hcell
          | ok => rfl
          | miss => rfl
          | unknownOp => rfl

/-- A response that holds no cell. -/
theorem simulates_respond {resp : CellResp} {answer : Resp} (hsim : Simulates worker plain)
    (hrefs : resp.refs = 0) (hread : resp.read worker.db.heap = some answer) :
    Simulates (worker.respond resp) { plain with resps := plain.resps ++ [answer] } := by
  refine ⟨?_, hsim.view, hsim.lsn, ?_⟩
  · rw [held_respond, hrefs, zero_add]
    exact hsim.owned
  · rw [responses_respond, hread, hsim.responses, List.map_append]
    rfl

/-- A GET takes one more reference to the cell it finds. -/
theorem simulates_value {key : Bytes} {cell : ℕ} (hsim : Simulates worker plain)
    (hcell : worker.db.get key = some cell) :
    Simulates ({ worker with
        db := { worker.db with heap := worker.db.heap.clone cell } }.respond (.value cell))
      { plain with resps := plain.resps ++ [Plain.found (plain.db.lookup key)] } := by
  have hmem : cell ∈ worker.db.slots + worker.held :=
    Multiset.mem_add.mpr (Or.inl (SharedDb.mem_slots hcell))
  refine ⟨?_, ?_, hsim.lsn, ?_⟩
  · rw [held_respond]
    have hclone := hsim.owned.clone hmem
    rw [← Multiset.singleton_add, add_left_comm] at hclone
    exact hclone
  · intro other
    rw [← hsim.view]
    exact SharedDb.view_congr rfl fun _ _ => Heap.read_clone
  · have hsame : ({ worker with
        db := { worker.db with heap := worker.db.heap.clone cell } } : Worker).responses =
        worker.responses := read_congr fun _ _ => Heap.read_clone
    obtain ⟨value, hvalue⟩ := Option.isSome_iff_exists.mp (hsim.owned.live hmem)
    have hfound : plain.db.lookup key = some value := by
      rw [← hsim.view, SharedDb.view]
      exact (congrArg (Option.bind · worker.db.heap.read) hcell).trans hvalue
    have hread : (CellResp.value cell).read (worker.db.heap.clone cell) =
        some (Plain.found (plain.db.lookup key)) := by
      rw [CellResp.read, Heap.read_clone, hvalue, hfound]
      rfl
    rw [responses_respond, hsame, hsim.responses, hread, List.map_append]
    rfl

/-- A PUT changes the table at its key, and no response. -/
theorem simulates_put (hsim : Simulates worker plain) (key value : Bytes) :
    Simulates { worker with db := worker.db.put key value, lsn := worker.lsn + 1 }
      { plain with db := plain.db.insert key value, lsn := plain.lsn + 1 } := by
  have hput := SharedDb.put_overwrites hsim.owned key value
  refine ⟨hput.owned, ?_, congrArg (· + 1) hsim.lsn, ?_⟩
  · intro other
    by_cases hother : key = other
    · subst hother
      rw [hput.view_self, Finmap.lookup_insert]
    · rw [hput.view_ne other hother, hsim.view, Finmap.lookup_insert_of_ne _ (Ne.symm hother)]
  · rw [← hsim.responses]
    exact read_congr hput.held

theorem exec_simulates (hsim : Simulates worker plain) (hreq : Admissible req.data) :
    ∃ after, worker.exec req = .ok after ∧ Simulates after (plain.exec req) := by
  unfold exec Plain.exec
  cases hop : req.op with
  | get =>
      have hwell : WellFormed req.data.bytes := hreq.wellFormed (by simp [hop])
      rw [key_ok hwell, ok_bind]
      cases hcell : worker.db.get (keyOf req.data.bytes) with
      | some cell => exact ⟨_, rfl, simulates_value hsim hcell⟩
      | none =>
          refine ⟨_, rfl, simulates_respond hsim rfl ?_⟩
          have hmiss : plain.db.lookup (keyOf req.data.bytes) = none := by
            rw [← hsim.view, SharedDb.view]
            exact congrArg (Option.bind · worker.db.heap.read) hcell
          rw [hmiss]
          rfl
  | put =>
      have hwell : WellFormed req.data.bytes := hreq.wellFormed (by simp [hop])
      rw [splitKv_ok hwell, ok_bind]
      exact ⟨_, rfl, simulates_respond (simulates_put hsim _ _) rfl rfl⟩
  | unknown code => exact ⟨_, rfl, simulates_respond hsim rfl rfl⟩

/-- The references of the responses around one of them. -/
theorem sum_refs_split (front back : List Slot) (slot : Slot) :
    ((front ++ slot :: back).map Slot.refs).sum =
      slot.refs + ((front ++ back).map Slot.refs).sum := by
  simp only [List.map_append, List.map_cons, List.sum_append, List.sum_cons]
  exact add_left_comm _ _ _

/-- Sending a response reads what it has read all along, and gives its reference
back. -/
theorem send_simulates (hsim : Simulates worker plain) (index : ℕ) :
    ∃ after, worker.send index = some after ∧ Simulates after plain := by
  unfold send
  split
  next resp hslot =>
    obtain ⟨hlt, hget⟩ := List.getElem?_eq_some_iff.mp hslot
    obtain ⟨front, back, hsplit, hset⟩ : ∃ front back,
        worker.resps = front ++ .held resp :: back ∧
          ∀ slot, worker.resps.set index slot = front ++ slot :: back := by
      refine ⟨worker.resps.take index, worker.resps.drop (index + 1), ?_, ?_⟩
      · rw [← hget, List.getElem_cons_drop, List.take_append_drop]
      · intro slot
        rw [List.set_eq_take_append_cons_drop, if_pos hlt]
    have howned := hsim.owned
    rw [held, hsplit, sum_refs_split, add_left_comm] at howned
    obtain ⟨sent, hsent⟩ := exists_read howned
    refine ⟨_, congrArg (Option.map _) hsent, owned_release ?_, ?_, hsim.lsn, ?_⟩
    · change Owned worker.db.heap (resp.refs + (worker.db.slots +
        ((worker.resps.set index (.sent sent)).map Slot.refs).sum))
      rw [hset, sum_refs_split, Slot.refs, zero_add]
      exact howned
    · intro key
      rw [← hsim.view]
      exact SharedDb.view_congr rfl fun _ _ => read_release _ resp _
    · have hsame : (worker.resps.set index (.sent sent)).map (Slot.read worker.db.heap) =
          worker.responses := by
        rw [responses, hset, hsplit, List.map_append, List.map_append, List.map_cons,
          List.map_cons, Slot.read, Slot.read, hsent]
      rw [← hsim.responses, ← hsame]
      exact read_congr fun cell _ => read_release _ resp cell
  next => exact ⟨worker, rfl, hsim⟩

theorem step_simulates (hsim : Simulates worker plain) (act : Act)
    (hact : ∀ req, act = .exec req → Admissible req.data) :
    ∃ after, worker.step act = some after ∧
      Simulates after ((requests [act]).foldl Plain.exec plain) := by
  cases act with
  | exec req =>
      obtain ⟨after, hexec, hafter⟩ := exec_simulates hsim (hact req rfl)
      refine ⟨after, ?_, hafter⟩
      rw [step, hexec]
      rfl
  | send index => exact send_simulates hsim index

theorem run_simulates (hsim : Simulates worker plain) {acts : List Act}
    (hacts : ∀ req, .exec req ∈ acts → Admissible req.data) :
    ∃ after, Machine.run step worker acts = some after ∧
      Simulates after ((requests acts).foldl Plain.exec plain) := by
  induction acts generalizing worker plain with
  | nil => exact ⟨worker, rfl, hsim⟩
  | cons act acts ih =>
      obtain ⟨middle, hstep, hmiddle⟩ := step_simulates hsim act fun req hreq =>
        hacts req (by rw [hreq]; exact List.mem_cons_self)
      obtain ⟨after, hrun, hafter⟩ := ih hmiddle fun req hreq =>
        hacts req (List.mem_cons_of_mem _ hreq)
      refine ⟨after, ?_, ?_⟩
      · rw [Machine.run, hstep]
        exact hrun
      · have hsplit : requests (act :: acts) = requests [act] ++ requests acts :=
          List.filterMap_append (l := [act])
        rw [hsplit, List.foldl_append]
        exact hafter

/-! ## Batches -/

/-- The LSNs of batches that start at `lsn`. -/
def windowsOf (lsn : ℕ) : List (List Request) → List (ℕ × ℕ)
  | [] => []
  | reqs :: parts =>
      (lsn, lsn + (puts reqs).length) :: windowsOf (lsn + (puts reqs).length) parts

theorem applyBatches_simulates (hsim : Simulates worker plain) {script : List (List Act)}
    (hscript : ∀ acts ∈ script, ∀ req, .exec req ∈ acts → Admissible req.data) :
    ∃ after, worker.applyBatches script =
        some (after, windowsOf plain.lsn (script.map requests)) ∧
      Simulates after ((script.flatMap requests).foldl Plain.exec plain) := by
  induction script generalizing worker plain with
  | nil => exact ⟨worker, rfl, hsim⟩
  | cons acts script ih =>
      obtain ⟨middle, hrun, hmiddle⟩ := run_simulates hsim (hscript acts List.mem_cons_self)
      obtain ⟨after, hrest, hafter⟩ := ih hmiddle fun other hother =>
        hscript other (List.mem_cons_of_mem _ hother)
      have hlsn : ((requests acts).foldl Plain.exec plain).lsn =
          plain.lsn + (puts (requests acts)).length := by
        rw [Plain.foldl_exec]
        exact (Plain.run_db plain.db plain.lsn (requests acts)).2
      refine ⟨after, ?_, ?_⟩
      · rw [applyBatches, applyBatch, hrun, Option.map_some, Option.bind_some]
        simp only [hrest, Option.map_some, hmiddle.lsn, hsim.lsn, hlsn]
        rfl
      · rw [List.flatMap_cons, List.foldl_append]
        exact hafter

end Worker

/-! ## The batches of values -/

/-- One batch after another. -/
def applyBatches : Db → List Batch → ℕ → Except Panic (Db × List Batch × ℕ)
  | db, [], lsn => .ok (db, [], lsn)
  | db, batch :: batches, lsn => do
      let (db, batch, lsn) ← applyBatch db batch lsn
      let (db, batches, lsn) ← applyBatches db batches lsn
      return (db, batch :: batches, lsn)

theorem applyReq_plain (db : Db) (lsn : ℕ) {req : Request} (hreq : Admissible req.data) :
    ∃ after, applyReq db lsn req =
        .ok ((Plain.run db lsn [req]).db, (Plain.run db lsn [req]).lsn, after) ∧
      [after.resp] = (Plain.run db lsn [req]).resps.map some := by
  have hrun : Plain.run db lsn [req] = Plain.exec ⟨db, lsn, []⟩ req := rfl
  rw [hrun, applyReq, Plain.exec]
  cases hop : req.op with
  | get =>
      rw [key_ok (hreq.wellFormed (by simp [hop])), ok_bind]
      refine ⟨_, rfl, ?_⟩
      rw [Db.get]
      cases db.lookup (keyOf req.data.bytes) <;> rfl
  | put =>
      rw [splitKv_ok (hreq.wellFormed (by simp [hop])), ok_bind]
      simp only [Db.put_eq_insertRaw]
      exact ⟨_, rfl, rfl⟩
  | unknown code => exact ⟨_, rfl, rfl⟩

theorem applyItems_plain (db : Db) (lsn : ℕ) {items : List Request}
    (hitems : ∀ req ∈ items, Admissible req.data) :
    ∃ after, applyItems db lsn items =
        .ok ((Plain.run db lsn items).db, (Plain.run db lsn items).lsn, after) ∧
      after.map Request.resp = (Plain.run db lsn items).resps.map some := by
  induction items generalizing db lsn with
  | nil => exact ⟨[], rfl, rfl⟩
  | cons req items ih =>
      obtain ⟨first, hfirst, hresp⟩ := applyReq_plain db lsn (hitems req List.mem_cons_self)
      obtain ⟨rest, hrest, hresps⟩ := ih (Plain.run db lsn [req]).db (Plain.run db lsn [req]).lsn
        fun other hother => hitems other (List.mem_cons_of_mem _ hother)
      have hrun := Plain.run_append db lsn [req] items
      rw [List.singleton_append] at hrun
      refine ⟨first :: rest, ?_, ?_⟩
      · rw [applyItems, hfirst, ok_bind]
        simp only [hrest, ok_bind, hrun]
        rfl
      · rw [hrun, List.map_append, List.map_cons, ← hresp, ← hresps]
        rfl

theorem applyBatches_plain (db : Db) (lsn : ℕ) {batches : List Batch}
    (hbatches : ∀ batch ∈ batches, ∀ req ∈ batch.items, Admissible req.data) :
    ∃ after, applyBatches db batches lsn =
        .ok ((Plain.run db lsn (batches.flatMap Batch.items)).db, after,
          (Plain.run db lsn (batches.flatMap Batch.items)).lsn) ∧
      (after.flatMap Batch.items).map Request.resp =
        (Plain.run db lsn (batches.flatMap Batch.items)).resps.map some ∧
      after.map (fun batch => (batch.lsnLow, batch.lsnHi)) =
        Worker.windowsOf lsn (batches.map Batch.items) := by
  induction batches generalizing db lsn with
  | nil => exact ⟨[], rfl, rfl, rfl⟩
  | cons batch batches ih =>
      obtain ⟨items, hitems, hresp⟩ :=
        applyItems_plain db lsn (hbatches batch List.mem_cons_self)
      obtain ⟨after, hafter, hresps, hwindows⟩ := ih (Plain.run db lsn batch.items).db
        (Plain.run db lsn batch.items).lsn fun other hother =>
          hbatches other (List.mem_cons_of_mem _ hother)
      have hrun := Plain.run_append db lsn batch.items (batches.flatMap Batch.items)
      have hlsn := (Plain.run_db db lsn batch.items).2
      refine ⟨{ batch with
        items := items, lsnLow := lsn, lsnHi := (Plain.run db lsn batch.items).lsn } :: after,
        ?_, ?_, ?_⟩
      · rw [applyBatches, applyBatch, hitems, ok_bind]
        simp only [pure_eq_ok, ok_bind, hafter, List.flatMap_cons, hrun]
      · rw [List.flatMap_cons, List.flatMap_cons, hrun, List.map_append, List.map_append, hresp,
          hresps]
      · rw [List.map_cons, List.map_cons, Worker.windowsOf, hwindows, hlsn]

namespace Worker

/-- The batch of the requests a script executes. -/
def batchOf (acts : List Act) : Batch := { Batch.withId 0 with items := requests acts }

theorem admissible_requests {acts : List Act}
    (hacts : ∀ req, .exec req ∈ acts → Admissible req.data) :
    ∀ req ∈ requests acts, Admissible req.data := by
  intro req hreq
  obtain ⟨act, hact, hsome⟩ := List.mem_filterMap.mp hreq
  cases act with
  | exec other =>
      obtain rfl : other = req := Option.some.inj hsome
      exact hacts other hact
  | send index => cases hsome

/-- For every initial table, start LSN, sequence of well-formed requests, partition
into batches, and with responses sent at any points in between: table, LSN and
responses are those of executing the requests one at a time on a plain map, where
a GET answers with the value of the latest earlier PUT of its key.  So are those
of the batches of values, and no response changes whatever is executed or sent
afterwards. -/
theorem sequential_semantics (table : Db) (startLsn : ℕ) {script : List (List Act)}
    (hscript : ∀ acts ∈ script, ∀ req, .exec req ∈ acts → Admissible req.data)
    {reqs : List Request} (hreqs : reqs = script.flatMap requests) :
    (∃ db : SharedDb, db.Holds table) ∧
    ∀ db : SharedDb, db.Holds table → ∃ worker windows batches,
      (start db startLsn).applyBatches script = some (worker, windows) ∧
      (∀ key, worker.db.view key = (Plain.run table startLsn reqs).db.lookup key) ∧
      worker.lsn = (Plain.run table startLsn reqs).lsn ∧
      worker.responses = (Plain.run table startLsn reqs).resps.map some ∧
      (Plain.run table startLsn reqs).resps =
        reqs.mapIdx (fun number req => Plain.answer table (reqs.take number) req) ∧
      Sharing.applyBatches table (script.map batchOf) startLsn =
        .ok ((Plain.run table startLsn reqs).db, batches, (Plain.run table startLsn reqs).lsn) ∧
      (batches.flatMap Batch.items).map Request.resp = worker.responses ∧
      batches.map (fun batch => (batch.lsnLow, batch.lsnHi)) = windows ∧
      ∀ acts after, (∀ req, .exec req ∈ acts → Admissible req.data) →
        Machine.run step worker acts = some after → worker.responses <+: after.responses := by
  subst hreqs
  refine ⟨SharedDb.exists_holds table, ?_⟩
  rintro db ⟨howned, hview⟩
  have hstart : Simulates (start db startLsn) ⟨table, startLsn, []⟩ := by
    refine ⟨?_, hview, rfl, rfl⟩
    have hnone : (start db startLsn).held = 0 := rfl
    rw [hnone, add_zero]
    exact howned
  obtain ⟨worker, hbatches, hsim⟩ := applyBatches_simulates hstart hscript
  obtain ⟨batches, hvalues, hresps, hwindows⟩ := @applyBatches_plain table startLsn
    (script.map batchOf) (by
      intro batch hbatch
      obtain ⟨acts, hacts, rfl⟩ := List.mem_map.mp hbatch
      exact admissible_requests (hscript acts hacts))
  have hitems : (script.map batchOf).flatMap Batch.items = script.flatMap requests := by
    rw [List.flatMap_map]
    rfl
  have hparts : (script.map batchOf).map Batch.items = script.map requests := by
    rw [List.map_map]
    rfl
  rw [hitems] at hvalues hresps
  rw [hparts] at hwindows
  refine ⟨worker, _, batches, hbatches, hsim.view, hsim.lsn, hsim.responses,
    Plain.run_resps table startLsn _, hvalues, hresps.trans hsim.responses.symm, hwindows, ?_⟩
  intro acts after hacts hrun
  obtain ⟨final, hfinal, hlater⟩ := run_simulates hsim hacts
  obtain rfl : final = after := Option.some.inj (hfinal.symm.trans hrun)
  rw [hlater.responses, hsim.responses]
  exact (Plain.resps_grow _ _).map some

/-- Two batches: a GET holds the cell of the first PUT; the second PUT replaces the
cell, the third overwrites the new one in place, then the response is sent. -/
def heldScript : List (List Act) :=
  [[.exec ⟨.smallPut 65 66, 7, none, 0⟩, .exec ⟨.smallGet 65, 7, none, 1⟩],
    [.exec ⟨.smallPut 65 67, 7, none, 2⟩, .exec ⟨.smallPut 65 68, 7, none, 3⟩, .send 1,
      .exec ⟨.smallGet 65, 7, none, 4⟩]]

theorem sequential_semantics_in_place :
    ∃ worker, (start SharedDb.new 41).applyBatches heldScript =
        some (worker, [(41, 42), (42, 44)]) ∧
      worker.db.heap.cells.map Cell.content = [[66], [68]] ∧
      worker.responses = [some .ok, some (.value [66]), some .ok, some .ok,
        some (.value [68])] := by
  obtain ⟨-, hruns⟩ := @sequential_semantics Db.new 41 heldScript (by
      intro acts hacts req hreq
      simp only [heldScript, List.mem_cons, List.not_mem_nil, or_false] at hacts
      rcases hacts with rfl | rfl
      · simp only [List.mem_cons, List.not_mem_nil, or_false, Act.exec.injEq] at hreq
        rcases hreq with rfl | rfl <;> decide
      · simp only [List.mem_cons, List.not_mem_nil, or_false, Act.exec.injEq, reduceCtorEq,
          false_or] at hreq
        rcases hreq with rfl | rfl | rfl <;> decide) _ rfl
  obtain ⟨worker, windows, batches, hbatches, -, -, hresponses, -⟩ :=
    hruns SharedDb.new SharedDb.holds_new
  have hrun : ((start SharedDb.new 41).applyBatches heldScript).map (fun final =>
      (final.1.db.heap.cells.map Cell.content, final.2)) =
      some ([[66], [68]], [(41, 42), (42, 44)]) := by decide +kernel
  rw [hbatches, Option.map_some, Option.some.injEq, Prod.mk.injEq] at hrun
  refine ⟨worker, ?_, hrun.1, ?_⟩
  · rw [hbatches]
    exact congrArg (fun windows => some (worker, windows)) hrun.2
  · rw [hresponses]
    decide +kernel

end Worker

end InMemoryDb.Sharing
