import InMemoryDb.Server.Stage3.Moves

/-!
# The line of operations

An operation stands in `pending`, then in the submission queue, then with the
kernel, then in the completion queue, and last in the iterator of `reap_cqes`.
`line` is this order read backwards: its head is reaped next, its end was
queued last.  Only a completion reorders it.
-/

namespace InMemoryDb.Stage3.WalEngine

/-- The keys of the operations in the ring's hands, in line order. -/
def tickets (engine : WalEngine) : List ℕ :=
  engine.todo.map Cqe.userData ++ engine.ring.cq.map Cqe.userData ++
    engine.ring.entries.map Entry.idx ++ engine.ring.sq.map Entry.idx

/-- Every operation the ring has is in the slab, under its own key. -/
structure Keyed (engine : WalEngine) : Prop where
  nodup : engine.tickets.Nodup
  mem_iff : ∀ key, key ∈ engine.tickets ↔ key ∈ engine.inflight

/-- The operations behind a list of keys. -/
def worksAt (engine : WalEngine) (keys : List ℕ) : List IoWork :=
  keys.filterMap fun key => engine.inflight.lookup key

def line (engine : WalEngine) : List IoWork := engine.worksAt engine.tickets ++ engine.pending

/-- The completions that wait to be reaped, in the order they were posted. -/
def posted (engine : WalEngine) : List Cqe := engine.todo ++ engine.ring.cq

/-- The completion is that of an fsync. -/
def flushes (engine : WalEngine) (cqe : Cqe) : Bool :=
  match engine.inflight.lookup cqe.userData with
  | some (.fsync _) => true
  | _ => false

/-! ## Keys -/

theorem vacantKey_notMem (engine : WalEngine) : engine.vacantKey ∉ engine.inflight := by
  unfold vacantKey
  cases hfree : engine.vacant.find? fun key => key ∉ engine.inflight with
  | some key => simpa using List.find?_some hfree
  | none =>
      intro hmem
      have hle := Finset.le_sup (f := id) (Finmap.mem_keys.mpr hmem)
      simp only [Option.getD_none, id] at hle
      omega

theorem tickets_pop (engine : WalEngine) {cqe : Cqe} {rest : List Cqe} {ret : Return}
    (hpc : engine.pc = .reaping (cqe :: rest) ret) :
    engine.tickets = cqe.userData :: (engine.pop cqe rest ret).tickets := by
  simp [tickets, todo, pop, Pc.todo, hpc]

theorem tickets_push (engine : WalEngine) (work : IoWork) (rest : List IoWork) :
    (engine.push work rest).tickets = engine.tickets ++ [engine.vacantKey] := by
  simp [tickets, push, todo]

theorem tickets_beginReap (engine : WalEngine) (ret : Return) (htodo : engine.todo = []) :
    (engine.beginReap ret).tickets = engine.tickets := by
  simp [tickets, beginReap, todo, Pc.todo] at htodo ⊢
  simp [htodo]

theorem tickets_submitRing (engine : WalEngine) :
    engine.submitRing.tickets = engine.tickets := by
  simp [tickets, submitRing, IoUring.submit, todo]

theorem tickets_start (engine : WalEngine) {position : ℕ} {ring : IoUring}
    (hstart : startEntry engine.files engine.ring position = some ring) :
    { engine with ring := ring }.tickets = engine.tickets := by
  obtain ⟨front, entry, back, hentries, -, -, rfl⟩ := startEntry_inv hstart
  simp [tickets, todo, hentries]

/-- A completion moves one key forward, past the entries submitted before it. -/
theorem tickets_complete (engine : WalEngine) {position : ℕ} {res : ℤ} {files : Files}
    {ring : IoUring}
    (hcomplete : completeEntry engine.files engine.ring position res = some (files, ring)) :
    ∃ ahead front key back, engine.tickets = ahead ++ (front ++ key :: back) ∧
      { engine with files := files, ring := ring }.tickets =
        ahead ++ (key :: (front ++ back)) := by
  obtain ⟨front, idx, sqe, seen, back, hentries, -, -, rfl⟩ := completeEntry_inv hcomplete
  refine ⟨engine.todo.map Cqe.userData ++ engine.ring.cq.map Cqe.userData,
    front.map Entry.idx, idx, back.map Entry.idx ++ engine.ring.sq.map Entry.idx, ?_, ?_⟩
  · simp [tickets, hentries]
  · simp [tickets, todo]

theorem Keyed.pop {engine : WalEngine} (hkeyed : engine.Keyed) {cqe : Cqe}
    {rest : List Cqe} {ret : Return} (hpc : engine.pc = .reaping (cqe :: rest) ret) :
    (engine.pop cqe rest ret).Keyed := by
  have htickets := engine.tickets_pop hpc
  have hnodup := hkeyed.nodup
  rw [htickets, List.nodup_cons] at hnodup
  refine ⟨hnodup.2, ?_⟩
  intro key
  have hmem := hkeyed.mem_iff key
  rw [htickets, List.mem_cons] at hmem
  change key ∈ _ ↔ key ∈ engine.inflight.erase cqe.userData
  rw [Finmap.mem_erase, ← hmem]
  constructor
  · intro hkey
    refine ⟨?_, Or.inr hkey⟩
    rintro rfl
    exact hnodup.1 hkey
  · rintro ⟨hne, heq | hkey⟩
    · exact absurd heq hne
    · exact hkey

/-- Keys and slab are related in the same way when both are unchanged up to the
order of the keys. -/
theorem Keyed.congr {engine after : WalEngine} (hkeyed : engine.Keyed)
    (htickets : List.Perm after.tickets engine.tickets)
    (hinflight : after.inflight = engine.inflight) : after.Keyed := by
  refine ⟨htickets.nodup_iff.mpr hkeyed.nodup, ?_⟩
  intro key
  rw [htickets.mem_iff, hinflight]
  exact hkeyed.mem_iff key

theorem Keyed.push {engine : WalEngine} (hkeyed : engine.Keyed) (work : IoWork)
    (rest : List IoWork) : (engine.push work rest).Keyed := by
  have hfresh : engine.vacantKey ∉ engine.tickets := fun hmem =>
    vacantKey_notMem _ ((hkeyed.mem_iff _).mp hmem)
  constructor
  · rw [tickets_push]
    exact List.nodup_append.mpr ⟨hkeyed.nodup, by simp, by
      intro key hkey other hother
      rw [List.mem_singleton] at hother
      subst hother
      exact fun heq => hfresh (heq ▸ hkey)⟩
  · intro key
    change _ ↔ key ∈ engine.inflight.insert _ work
    rw [tickets_push, List.mem_append, List.mem_singleton, Finmap.mem_insert, hkeyed.mem_iff,
      or_comm]

theorem tickets_eq_nil {engine : WalEngine} (hkeyed : engine.Keyed)
    (hinflight : engine.inflight = ∅) : engine.tickets = [] := by
  apply List.eq_nil_iff_forall_not_mem.mpr
  intro key hkey
  have := (hkeyed.mem_iff key).mp hkey
  rw [hinflight] at this
  exact Finmap.notMem_empty this

theorem tickets_frame {engine after : WalEngine} (htodo : after.todo = engine.todo)
    (hring : after.ring = engine.ring) : after.tickets = engine.tickets := by
  simp [tickets, htodo, hring]

theorem keyed_move {permit : Kind → WalEngine → Prop} {engine after : WalEngine}
    (hkeyed : engine.Keyed) (hmove : Move permit engine after) : after.Keyed := by
  cases hmove with
  | arrive msg hpermit hfeed => exact hkeyed.congr (List.Perm.refl _) rfl
  | send hpermit houtbox => exact hkeyed.congr (List.Perm.refl _) rfl
  | giveBack hpermit houtbox => exact hkeyed.congr (List.Perm.refl _) rfl
  | lend hpermit hpool => exact hkeyed.congr (List.Perm.refl _) rfl
  | quiet spinBudget pc vacant htodo =>
      have htickets := @tickets_frame engine
        { engine with spinBudget := spinBudget, pc := pc, vacant := vacant } htodo rfl
      exact hkeyed.congr (List.Perm.of_eq htickets) rfl
  | discard hpermit hmsg hkind => exact hkeyed.congr (List.Perm.refl _) rfl
  | enqueue hmsg hbatch =>
      obtain ⟨-, -, out, -, rfl⟩ := handleBatch_inv hbatch
      exact hkeyed.congr (List.Perm.refl _) rfl
  | schedule starts hpermit hstarts => exact hkeyed.congr (List.Perm.refl _) rfl
  | arm hdue => exact hkeyed.congr (List.Perm.refl _) rfl
  | push hpending => exact hkeyed.push _ _
  | beginReap ret htodo => exact hkeyed.congr (by rw [tickets_beginReap _ _ htodo]) rfl
  | submit => exact hkeyed.congr (by rw [tickets_submitRing]) rfl
  | reapRemoved hpc hwork => exact hkeyed.pop hpc
  | reapWritten hpermit hpc hwork hres hdone =>
      rw [reapWritten_eq]
      exact (hkeyed.pop hpc).congr (List.Perm.refl _) rfl
  | reapRetry hpc hwork hdone => exact (hkeyed.pop hpc).congr (List.Perm.refl _) rfl
  | reapDurable hpermit hpc hwork hres => exact (hkeyed.pop hpc).congr (List.Perm.refl _) rfl
  | sealed boundaryLsn hpermit hpending hinflight htodo =>
      have htickets := @tickets_frame engine (engine.sealSegment boundaryLsn) htodo.symm rfl
      exact hkeyed.congr (List.Perm.of_eq htickets) rfl
  | start hstart => exact hkeyed.congr (by rw [tickets_start _ hstart]) rfl
  | complete hcomplete =>
      obtain ⟨ahead, front, key, back, hbefore, hafter⟩ := tickets_complete _ hcomplete
      refine hkeyed.congr ?_ rfl
      rw [hbefore, hafter]
      exact List.Perm.append_left _ List.perm_middle.symm

theorem keyed_new (depth : ℕ) (files : Files) (startLsn : ℕ) (mode : Mode)
    (pool : List Batch) : (new depth files startLsn mode pool).Keyed := by
  constructor
  · simp [tickets, new, todo, Pc.todo, IoUring.empty]
  · intro key
    simp [tickets, new, todo, Pc.todo, IoUring.empty, Finmap.notMem_empty]

/-! ## Operations -/

theorem lookup_pop {engine : WalEngine} (hkeyed : engine.Keyed) {cqe : Cqe}
    {rest : List Cqe} {ret : Return} (hpc : engine.pc = .reaping (cqe :: rest) ret) {key : ℕ}
    (hkey : key ∈ (engine.pop cqe rest ret).tickets) :
    (engine.pop cqe rest ret).inflight.lookup key = engine.inflight.lookup key := by
  have hnodup := hkeyed.nodup
  rw [engine.tickets_pop hpc, List.nodup_cons] at hnodup
  exact Finmap.lookup_erase_ne fun heq => hnodup.1 (heq ▸ hkey)

theorem lookup_push {engine : WalEngine} (hkeyed : engine.Keyed) (work : IoWork)
    (rest : List IoWork) {key : ℕ} (hkey : key ∈ engine.tickets) :
    (engine.push work rest).inflight.lookup key = engine.inflight.lookup key := by
  apply Finmap.lookup_insert_of_ne
  rintro rfl
  exact vacantKey_notMem _ ((hkeyed.mem_iff _).mp hkey)

theorem lookup_push_self (engine : WalEngine) (work : IoWork) (rest : List IoWork) :
    (engine.push work rest).inflight.lookup engine.vacantKey = some work :=
  Finmap.lookup_insert _

theorem worksAt_congr {engine after : WalEngine} {keys : List ℕ}
    (hlookup : ∀ key ∈ keys, after.inflight.lookup key = engine.inflight.lookup key) :
    after.worksAt keys = engine.worksAt keys :=
  List.filterMap_congr hlookup

theorem worksAt_append (engine : WalEngine) (first second : List ℕ) :
    engine.worksAt (first ++ second) = engine.worksAt first ++ engine.worksAt second :=
  List.filterMap_append

theorem worksAt_cons (engine : WalEngine) {key : ℕ} {work : IoWork} (keys : List ℕ)
    (hwork : engine.inflight.lookup key = some work) :
    engine.worksAt (key :: keys) = work :: engine.worksAt keys := by
  simp [worksAt, hwork]

/-- The next completion takes the head of the line. -/
theorem line_pop {engine : WalEngine} (hkeyed : engine.Keyed) {cqe : Cqe} {rest : List Cqe}
    {ret : Return} {work : IoWork} (hpc : engine.pc = .reaping (cqe :: rest) ret)
    (hwork : engine.inflight.lookup cqe.userData = some work) :
    engine.line = work :: (engine.pop cqe rest ret).line := by
  rw [line, engine.tickets_pop hpc, worksAt_cons _ _ hwork, line,
    worksAt_congr fun key hkey => lookup_pop hkeyed hpc hkey]
  rfl

/-- What goes back to the front of `pending` is in line again. -/
theorem line_retry (engine : WalEngine) (planner : FsyncPlanner) (work : IoWork) :
    { engine with fsyncPlanner := planner, pending := work :: engine.pending }.line.Perm
      (work :: engine.line) :=
  List.perm_middle

theorem mem_line_retry {engine : WalEngine} {planner : FsyncPlanner} {work other : IoWork} :
    other ∈ { engine with fsyncPlanner := planner, pending := work :: engine.pending }.line ↔
      other = work ∨ other ∈ engine.line := by
  rw [(line_retry engine planner work).mem_iff, List.mem_cons]

theorem line_push {engine : WalEngine} (hkeyed : engine.Keyed) {work : IoWork}
    {rest : List IoWork} (hpending : engine.pending = work :: rest) :
    (engine.push work rest).line = engine.line := by
  rw [line, tickets_push, worksAt_append,
    worksAt_congr fun key hkey => lookup_push hkeyed work rest hkey,
    worksAt_cons _ _ (lookup_push_self engine work rest), line, hpending]
  simp [worksAt, push]

theorem line_congr {engine after : WalEngine} (htickets : after.tickets = engine.tickets)
    (hinflight : after.inflight = engine.inflight) (hpending : after.pending = engine.pending) :
    after.line = engine.line := by
  simp [line, worksAt, htickets, hinflight, hpending]

/-- A completion moves one operation forward in the line. -/
theorem line_complete {engine : WalEngine} {position : ℕ} {res : ℤ} {files : Files}
    {ring : IoUring}
    (hcomplete : completeEntry engine.files engine.ring position res = some (files, ring)) :
    List.Perm { engine with files := files, ring := ring }.line engine.line := by
  obtain ⟨ahead, front, key, back, hbefore, hafter⟩ := tickets_complete _ hcomplete
  have hperm : List.Perm (ahead ++ key :: (front ++ back)) (ahead ++ (front ++ key :: back)) :=
    List.Perm.append_left _ List.perm_middle.symm
  rw [line, hafter, line, hbefore]
  exact (hperm.filterMap _).append_right _

theorem mem_line_of_lookup {engine : WalEngine} (hkeyed : engine.Keyed) {key : ℕ}
    {work : IoWork} (hwork : engine.inflight.lookup key = some work) : work ∈ engine.line := by
  refine List.mem_append.mpr (Or.inl (List.mem_filterMap.mpr ⟨key, ?_, hwork⟩))
  exact (hkeyed.mem_iff key).mpr (Finmap.mem_of_lookup_eq_some hwork)

theorem userData_mem_tickets {engine : WalEngine} {cqe : Cqe} (hcqe : cqe ∈ engine.posted) :
    cqe.userData ∈ engine.tickets := by
  have hmem : cqe.userData ∈ engine.posted.map Cqe.userData := List.mem_map_of_mem hcqe
  rw [posted, List.map_append] at hmem
  rw [tickets]
  exact List.mem_append_left _ (List.mem_append_left _ hmem)

theorem idx_mem_tickets {engine : WalEngine} {entry : Entry}
    (hentry : entry ∈ engine.ring.entries ++ engine.ring.sq) : entry.idx ∈ engine.tickets := by
  have hmem : entry.idx ∈ (engine.ring.entries ++ engine.ring.sq).map Entry.idx :=
    List.mem_map_of_mem hentry
  rw [List.map_append] at hmem
  rw [tickets, List.append_assoc]
  exact List.mem_append_right _ hmem

theorem posted_pop {engine : WalEngine} {cqe : Cqe} {rest : List Cqe} {ret : Return}
    (hpc : engine.pc = .reaping (cqe :: rest) ret) :
    engine.posted = cqe :: (engine.pop cqe rest ret).posted := by
  simp [posted, todo, pop, hpc, Pc.todo]

end InMemoryDb.Stage3.WalEngine
