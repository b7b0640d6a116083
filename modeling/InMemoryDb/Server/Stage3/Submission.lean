import InMemoryDb.Server.Stage3.Sound

/-!
# The submission log

The slab and the ring know an operation only while it is in flight.  Beside the
engine runs a log of everything it has pushed, in submission order, with what each
operation has written and whether a completed fsync has saved it.  The kernel may
complete writes and removals in any order but moves nothing past an fsync, so an
fsync is reaped when everything submitted before it has been.
-/

namespace InMemoryDb.Stage3

/-! ## The submission log -/

def IoWork.isFsync : IoWork → Bool
  | .fsync _ => true
  | _ => false

/-- An operation as it was pushed.  `reaped` holds the bytes it has written once
its completion is reaped, and it is `flushed` when it was written before an fsync
that has completed. -/
structure Attempt where
  key : ℕ
  work : IoWork
  reaped : Option ℕ
  flushed : Bool
  deriving DecidableEq

namespace Attempt

def pushed (key : ℕ) (work : IoWork) : Attempt := ⟨key, work, none, false⟩

/-- An operation that is still to be pushed, under a key that is not known yet. -/
def queued (work : IoWork) : Attempt := pushed 0 work

def flying (attempt : Attempt) : Bool := attempt.reaped.isNone

/-- The bytes the operation carries, or has carried to completion. -/
def bytes (attempt : Attempt) : ℕ := attempt.reaped.getD attempt.work.unwritten

/-- The bytes no completed fsync has saved. -/
def weight (attempt : Attempt) : ℕ := if attempt.flushed then 0 else attempt.bytes

/-- An fsync that is pending or in flight. -/
def barrier (attempt : Attempt) : Bool := attempt.flying && attempt.work.isFsync

/-- The attempt the slab has under a key. -/
def holds (key : ℕ) (attempt : Attempt) : Bool := attempt.flying && attempt.key = key

def reap (count : ℕ) (attempt : Attempt) : Attempt := { attempt with reaped := some count }

/-- What was written is saved. -/
def flush (attempt : Attempt) : Attempt :=
  if attempt.flying then attempt else { attempt with flushed := true }

end Attempt

/-- The operations in flight, in submission order. -/
def flights (log : List Attempt) : List ℕ := (log.filter Attempt.flying).map Attempt.key

/-- A completion is reaped. -/
def reapKey (key count : ℕ) (log : List Attempt) : List Attempt :=
  log.map fun attempt => if attempt.holds key then attempt.reap count else attempt

/-- An fsync completes: what was written before it is saved. -/
def flushBefore (key : ℕ) : List Attempt → List Attempt
  | [] => []
  | attempt :: log =>
      if attempt.holds key then attempt :: log else attempt.flush :: flushBefore key log

/-! ## Lists of attempts -/

section Log

variable {log front back : List Attempt} {attempt : Attempt} {key count : ℕ}

theorem Attempt.flying_of_holds (hholds : attempt.holds key = true) :
    attempt.flying = true ∧ attempt.key = key := by
  simpa [Attempt.holds] using hholds

theorem flights_append (front back : List Attempt) :
    flights (front ++ back) = flights front ++ flights back := by
  simp [flights]

theorem flights_cons (hflying : attempt.flying = true) :
    flights (attempt :: log) = attempt.key :: flights log := by
  simp [flights, hflying]

theorem flights_cons_reaped (hflying : attempt.flying = false) :
    flights (attempt :: log) = flights log := by
  simp [flights, hflying]

theorem mem_flights (hattempt : attempt ∈ log) (hflying : attempt.flying = true) :
    attempt.key ∈ flights log :=
  List.mem_map.mpr ⟨attempt, List.mem_filter.mpr ⟨hattempt, hflying⟩, rfl⟩

/-- The attempt in flight under a key is the only one. -/
theorem exists_holds (hnodup : (flights log).Nodup) (hkey : key ∈ flights log) :
    ∃ front attempt back, log = front ++ attempt :: back ∧ attempt.holds key = true ∧
      ∀ other ∈ front ++ back, other.holds key = false := by
  obtain ⟨attempt, hattempt, hsame⟩ := List.mem_map.mp hkey
  obtain ⟨hmem, hflying⟩ := List.mem_filter.mp hattempt
  obtain ⟨front, back, rfl⟩ := List.append_of_mem hmem
  refine ⟨front, attempt, back, rfl, by simp [Attempt.holds, hflying, hsame], ?_⟩
  rw [flights_append, flights_cons hflying, List.nodup_middle, List.nodup_cons,
    ← flights_append, hsame] at hnodup
  intro other hother
  by_contra hholds
  obtain ⟨hfly, hkey'⟩ := Attempt.flying_of_holds (Bool.eq_true_of_not_eq_false hholds)
  exact hnodup.1 (hkey' ▸ mem_flights hother hfly)

theorem reapKey_of_none (hnone : ∀ other ∈ log, other.holds key = false) :
    reapKey key count log = log := by
  rw [reapKey]
  conv_rhs => rw [← List.map_id log]
  apply List.map_congr_left
  intro other hother
  simp [hnone other hother]

theorem reapKey_split (hholds : attempt.holds key = true)
    (hnone : ∀ other ∈ front ++ back, other.holds key = false) :
    reapKey key count (front ++ attempt :: back) = front ++ attempt.reap count :: back := by
  have hfront : reapKey key count front = front :=
    reapKey_of_none fun other hother => hnone other (List.mem_append_left _ hother)
  have hback : reapKey key count back = back :=
    reapKey_of_none fun other hother => hnone other (List.mem_append_right _ hother)
  rw [reapKey, List.map_append, List.map_cons, if_pos hholds]
  exact congrArg₂ (· ++ ·) hfront (congrArg₂ List.cons rfl hback)

theorem flushBefore_split (hholds : attempt.holds key = true)
    (hnone : ∀ other ∈ front, other.holds key = false) :
    flushBefore key (front ++ attempt :: back) = front.map Attempt.flush ++ attempt :: back := by
  induction front with
  | nil => simp [flushBefore, hholds]
  | cons other front ih =>
      rw [List.cons_append, flushBefore, hnone other List.mem_cons_self]
      simp only [Bool.false_eq_true, if_false, List.map_cons, List.cons_append]
      rw [ih fun more hmore => hnone more (List.mem_cons_of_mem _ hmore)]

/-- Two keys keep their order when another one leaves. -/
theorem pair_sublist_of_ne {ahead behind : List ℕ} {early late : ℕ}
    (hsub : [early, late].Sublist (ahead ++ key :: behind)) (hearly : early ≠ key)
    (hlate : late ≠ key) : [early, late].Sublist (ahead ++ behind) := by
  have hfilter := hsub.filter fun other => decide (other ≠ key)
  have hpair : [early, late].filter (fun other => decide (other ≠ key)) = [early, late] := by
    simp [hearly, hlate]
  have hrest : (ahead ++ key :: behind).filter (fun other => decide (other ≠ key)) =
      (ahead ++ behind).filter fun other => decide (other ≠ key) := by
    simp
  rw [hpair, hrest] at hfilter
  exact hfilter.trans List.filter_sublist

/-- A key that comes behind another one does not stand in front of it. -/
theorem notMem_of_pair_sublist {ahead behind : List ℕ} {late : ℕ}
    (hnodup : (ahead ++ key :: behind).Nodup)
    (hsub : [key, late].Sublist (ahead ++ key :: behind)) : late ∉ ahead := by
  intro hlate
  have hdisjoint := (List.nodup_append.mp hnodup).2.2
  obtain ⟨first, second, hsplit, hkey, hsecond⟩ := List.cons_sublist_iff.mp hsub
  have hmem : late ∈ second := List.singleton_sublist.mp hsecond
  rcases List.append_eq_append_iff.mp hsplit with ⟨more, hfirst, hbehind⟩ | ⟨more, hahead, hrest⟩
  · refine hdisjoint late hlate late ?_ rfl
    rw [hbehind]
    exact List.mem_append_right _ hmem
  · refine hdisjoint key ?_ key List.mem_cons_self rfl
    rw [hahead]
    exact List.mem_append_left _ hkey

/-! ### Saving -/

@[simp]
theorem Attempt.flying_flush (attempt : Attempt) : attempt.flush.flying = attempt.flying := by
  unfold Attempt.flush
  split_ifs <;> rfl

@[simp]
theorem Attempt.key_flush (attempt : Attempt) : attempt.flush.key = attempt.key := by
  unfold Attempt.flush
  split_ifs <;> rfl

@[simp]
theorem Attempt.bytes_flush (attempt : Attempt) : attempt.flush.bytes = attempt.bytes := by
  unfold Attempt.flush
  split_ifs <;> rfl

theorem Attempt.flush_of_flying (hflying : attempt.flying = true) : attempt.flush = attempt :=
  if_pos hflying

theorem Attempt.weight_flush (hreaped : attempt.flying = false) : attempt.flush.weight = 0 := by
  simp [Attempt.weight, Attempt.flush, hreaped]

theorem flights_flush (log : List Attempt) : flights (log.map Attempt.flush) = flights log := by
  simp [flights, List.filter_map, Function.comp_def]

theorem sum_bytes_flush (log : List Attempt) :
    ((log.map Attempt.flush).map Attempt.bytes).sum = (log.map Attempt.bytes).sum := by
  simp [Function.comp_def]

theorem mem_of_flush_flying (hattempt : attempt ∈ log.map Attempt.flush)
    (hflying : attempt.flying = true) : attempt ∈ log := by
  obtain ⟨other, hother, rfl⟩ := List.mem_map.mp hattempt
  rw [Attempt.flying_flush] at hflying
  rw [Attempt.flush_of_flying hflying]
  exact hother

end Log

namespace WalEngine

/-! ## The engine and its log -/

/-- What the loop of `handle_pending` pushes. -/
def pushes : ℕ → WalEngine → List Attempt
  | 0, _ => []
  | fuel + 1, engine =>
      match engine.pending with
      | [] => []
      | work :: rest =>
          if engine.hasRoom then
            Attempt.pushed engine.vacantKey work :: pushes fuel (engine.push work rest)
          else []

/-- The completion of `work` is reaped; a failed fsync is fatal. -/
def noteReaped (cqe : Cqe) (log : List Attempt) : IoWork → List Attempt
  | .write _ => reapKey cqe.userData cqe.result.toNat log
  | .fsync _ => reapKey cqe.userData 0 (flushBefore cqe.userData log)
  | .remove _ => reapKey cqe.userData 0 log

/-- What an action adds to the log: pushes, reaped completions, and the blocking
fsync of `rotate`, behind which nothing is in flight. -/
def note (engine : WalEngine) (log : List Attempt) : Act → List Attempt
  | .plan => log ++ pushes engine.armFsync.pending.length engine.armFsync
  | .reap =>
      match engine.pc with
      | .reaping (cqe :: _) _ =>
          match engine.inflight.lookup cqe.userData with
          | some work => noteReaped cqe log work
          | none => log
      | _ => log
  | .drain =>
      if engine.shouldPark then log.map Attempt.flush
      else log ++ pushes engine.pending.length engine
  | _ => log

/-! ## The log and the line -/

/-- The operation under the key drains the ring. -/
def drains (engine : WalEngine) (key : ℕ) : Bool :=
  (engine.inflight.lookup key).any IoWork.isFsync

/-- The log and the line are about the same operations. -/
structure Lined (engine : WalEngine) (log : List Attempt) : Prop where
  listed : ∀ attempt ∈ log, attempt.flying = true →
    engine.inflight.lookup attempt.key = some attempt.work ∧ attempt.flushed = false
  perm : (flights log).Perm engine.tickets
  /-- An fsync and another operation are reaped in submission order. -/
  ordered : engine.tickets.Pairwise fun early late =>
    (engine.drains early ∨ engine.drains late) → [early, late].Sublist (flights log)

variable {engine after : WalEngine} {log : List Attempt}

theorem Lined.nodup (hlined : engine.Lined log) (hkeyed : engine.Keyed) : (flights log).Nodup :=
  hlined.perm.nodup_iff.mpr hkeyed.nodup

theorem Lined.frame (hlined : engine.Lined log) (htickets : after.tickets = engine.tickets)
    (hinflight : after.inflight = engine.inflight) : after.Lined log := by
  have hdrains : after.drains = engine.drains := by
    funext key
    rw [drains, drains, hinflight]
  refine ⟨?_, ?_, ?_⟩
  · rw [hinflight]
    exact hlined.listed
  · rw [htickets]
    exact hlined.perm
  · rw [htickets, hdrains]
    exact hlined.ordered

theorem lined_push (hlined : engine.Lined log) (hkeyed : engine.Keyed) (work : IoWork)
    (rest : List IoWork) :
    (engine.push work rest).Lined (log ++ [Attempt.pushed engine.vacantKey work]) := by
  have hflights : flights (log ++ [Attempt.pushed engine.vacantKey work]) =
      flights log ++ [engine.vacantKey] := flights_append _ _
  have hdrains : ∀ key ∈ engine.tickets, (engine.push work rest).drains key =
      engine.drains key := by
    intro key hkey
    rw [drains, drains, lookup_push hkeyed work rest hkey]
  refine ⟨?_, ?_, ?_⟩
  · intro attempt hattempt hflying
    rcases List.mem_append.mp hattempt with hold | hnew
    · have hkey := hlined.perm.mem_iff.mp (mem_flights hold hflying)
      rw [lookup_push hkeyed work rest hkey]
      exact hlined.listed attempt hold hflying
    · rw [List.mem_singleton.mp hnew]
      exact ⟨lookup_push_self engine work rest, rfl⟩
  · rw [hflights, tickets_push]
    exact hlined.perm.append_right _
  · rw [hflights, tickets_push]
    refine List.pairwise_append.mpr ⟨?_, List.pairwise_singleton _ _, ?_⟩
    · refine hlined.ordered.imp_of_mem ?_
      intro early late hearly hlate hpair
      rw [hdrains early hearly, hdrains late hlate]
      exact fun hdrain => (hpair hdrain).trans (List.sublist_append_left _ _)
    · intro early hearly late hlate _
      rw [List.mem_singleton.mp hlate]
      exact (List.singleton_sublist.mpr (hlined.perm.mem_iff.mpr hearly)).append
        (List.Sublist.refl _)

/-! ## Reaping -/

section Reaping

variable {cqe : Cqe} {rest : List Cqe} {ret : Return} {work : IoWork}
  {front back : List Attempt} {attempt : Attempt} {count : ℕ}

/-- The attempt a completion belongs to. -/
theorem Lined.exists_attempt (hlined : engine.Lined log) (hkeyed : engine.Keyed)
    (hwork : engine.inflight.lookup cqe.userData = some work) :
    ∃ front attempt back, log = front ++ attempt :: back ∧
      attempt.holds cqe.userData = true ∧ attempt.work = work ∧ attempt.flushed = false ∧
      ∀ other ∈ front ++ back, other.holds cqe.userData = false := by
  have hticket : cqe.userData ∈ engine.tickets :=
    (hkeyed.mem_iff _).mpr (Finmap.mem_of_lookup_eq_some hwork)
  obtain ⟨front, attempt, back, rfl, hholds, hnone⟩ :=
    exists_holds (hlined.nodup hkeyed) (hlined.perm.mem_iff.mpr hticket)
  obtain ⟨hflying, hkey⟩ := Attempt.flying_of_holds hholds
  obtain ⟨hlookup, hflushed⟩ := hlined.listed attempt (by simp) hflying
  rw [hkey, hwork] at hlookup
  exact ⟨front, attempt, back, rfl, hholds, (Option.some.inj hlookup).symm, hflushed, hnone⟩

/-- One operation leaves the line and is in flight no more. -/
theorem lined_pop {log' : List Attempt} {ahead behind : List ℕ} (hlined : engine.Lined log)
    (hkeyed : engine.Keyed) (hpc : engine.pc = .reaping (cqe :: rest) ret)
    (hbefore : flights log = ahead ++ cqe.userData :: behind)
    (hafter : flights log' = ahead ++ behind)
    (hsame : ∀ attempt ∈ log', attempt.flying = true → attempt ∈ log) :
    (engine.pop cqe rest ret).Lined log' := by
  have htickets := engine.tickets_pop hpc
  have hnodup := hkeyed.nodup
  rw [htickets, List.nodup_cons] at hnodup
  have hperm : (flights log').Perm (engine.pop cqe rest ret).tickets := by
    have hall := hlined.perm
    rw [hbefore, htickets] at hall
    rw [hafter]
    exact (List.perm_middle.symm.trans hall).cons_inv
  have hdrains : ∀ key ∈ (engine.pop cqe rest ret).tickets,
      (engine.pop cqe rest ret).drains key = engine.drains key := by
    intro key hkey
    rw [drains, drains, lookup_pop hkeyed hpc hkey]
  refine ⟨?_, hperm, ?_⟩
  · intro attempt hattempt hflying
    have hkey := hperm.mem_iff.mp (mem_flights hattempt hflying)
    rw [lookup_pop hkeyed hpc hkey]
    exact hlined.listed attempt (hsame attempt hattempt hflying) hflying
  · have hordered := hlined.ordered
    rw [htickets, List.pairwise_cons] at hordered
    refine hordered.2.imp_of_mem ?_
    intro early late hearly hlate hpair hdrain
    rw [hdrains early hearly, hdrains late hlate] at hdrain
    have hsub := hpair hdrain
    rw [hbefore] at hsub
    rw [hafter]
    exact pair_sublist_of_ne hsub (fun h => hnodup.1 (h ▸ hearly)) fun h => hnodup.1 (h ▸ hlate)

/-- A completion is reaped; it may save what was submitted before it. -/
theorem lined_reap {saved : List Attempt} (hlined : engine.Lined (front ++ attempt :: back))
    (hkeyed : engine.Keyed) (hpc : engine.pc = .reaping (cqe :: rest) ret)
    (hholds : attempt.holds cqe.userData = true) (hflights : flights saved = flights front)
    (hsaved : ∀ other ∈ saved, other.flying = true → other ∈ front) :
    (engine.pop cqe rest ret).Lined (saved ++ attempt.reap count :: back) := by
  obtain ⟨hflying, hkey⟩ := Attempt.flying_of_holds hholds
  refine @lined_pop engine (front ++ attempt :: back) cqe rest ret _ (flights front)
    (flights back) hlined hkeyed hpc ?_ ?_ ?_
  · rw [flights_append, flights_cons hflying, hkey]
  · rw [flights_append, hflights, flights_cons_reaped rfl]
  · intro other hother hfly
    rcases List.mem_append.mp hother with hfront | hrest
    · exact List.mem_append_left _ (hsaved other hfront hfly)
    · rcases List.mem_cons.mp hrest with rfl | hback
      · cases hfly
      · exact List.mem_append_right _ (List.mem_cons_of_mem _ hback)

/-- Nothing submitted before an fsync is in flight when the fsync is reaped. -/
theorem Lined.reaped_before (hlined : engine.Lined (front ++ attempt :: back))
    (hkeyed : engine.Keyed) (hpc : engine.pc = .reaping (cqe :: rest) ret)
    (hholds : attempt.holds cqe.userData = true) {target : ℕ}
    (hwork : engine.inflight.lookup cqe.userData = some (.fsync target)) :
    ∀ other ∈ front, other.flying = false := by
  obtain ⟨hflying, hkey⟩ := Attempt.flying_of_holds hholds
  have hflights : flights (front ++ attempt :: back) =
      flights front ++ cqe.userData :: flights back := by
    rw [flights_append, flights_cons hflying, hkey]
  have hnodup := hlined.nodup hkeyed
  rw [hflights] at hnodup
  intro other hother
  by_contra hfly
  have hahead := mem_flights hother (Bool.eq_true_of_not_eq_false hfly)
  have hticket : other.key ∈ engine.tickets := by
    rw [← hlined.perm.mem_iff, hflights]
    exact List.mem_append_left _ hahead
  -- the fsync is the head of the line, so it was submitted before everything else in it
  have hordered := hlined.ordered
  rw [engine.tickets_pop hpc, List.pairwise_cons] at hordered
  rw [engine.tickets_pop hpc, List.mem_cons] at hticket
  rcases hticket with hsame | hlater
  · rw [hsame] at hahead
    exact (List.nodup_append.mp hnodup).2.2 _ hahead _ List.mem_cons_self rfl
  · have hdrains : engine.drains cqe.userData = true := by
      rw [drains, hwork]
      rfl
    have hsub := hordered.1 other.key hlater (Or.inl hdrains)
    rw [hflights] at hsub
    exact notMem_of_pair_sublist hnodup hsub hahead

theorem noteReaped_fsync {target : ℕ} (hholds : attempt.holds cqe.userData = true)
    (hnone : ∀ other ∈ front ++ back, other.holds cqe.userData = false) :
    noteReaped cqe (front ++ attempt :: back) (.fsync target) =
      front.map Attempt.flush ++ attempt.reap 0 :: back := by
  rw [noteReaped, flushBefore_split hholds fun other hother =>
    hnone other (List.mem_append_left _ hother)]
  refine reapKey_split hholds fun other hother => ?_
  rcases List.mem_append.mp hother with hfront | hback
  · obtain ⟨before, hbefore, rfl⟩ := List.mem_map.mp hfront
    have hold := hnone before (List.mem_append_left _ hbefore)
    simpa [Attempt.holds] using hold
  · exact hnone other (List.mem_append_right _ hback)

end Reaping

/-! ## Completions -/

theorem sqe_drains (seg : ℕ) (work : IoWork) : (work.sqe seg).drains = work.isFsync := by
  cases work with
  | write op => rfl
  | fsync target => rfl
  | remove startLsn => rfl

theorem Ringed.drains_idx (hringed : engine.Ringed) {entry : Entry}
    (hentry : entry ∈ engine.ring.entries) : engine.drains entry.idx = entry.sqe.drains := by
  obtain ⟨work, hwork, hsqe⟩ := hringed.built entry (List.mem_append_left _ hentry)
  rw [drains, hwork, hsqe, sqe_drains]
  rfl

/-- A key that moves forward past others it may be reordered with. -/
theorem pairwise_forward {relation : ℕ → ℕ → Prop} {ahead front back : List ℕ} {key : ℕ}
    (hpairs : (ahead ++ (front ++ key :: back)).Pairwise relation)
    (hforward : ∀ other ∈ front, relation key other) :
    (ahead ++ key :: (front ++ back)).Pairwise relation := by
  obtain ⟨hahead, hrest, hacross⟩ := List.pairwise_append.mp hpairs
  obtain ⟨hfront, htail, hbetween⟩ := List.pairwise_append.mp hrest
  obtain ⟨hkey, hback⟩ := List.pairwise_cons.mp htail
  apply List.pairwise_append.mpr
  refine ⟨hahead, List.pairwise_cons.mpr ⟨?_, ?_⟩, ?_⟩
  · intro other hother
    rcases List.mem_append.mp hother with hpassed | hbehind
    · exact hforward other hpassed
    · exact hkey other hbehind
  · apply List.pairwise_append.mpr
    refine ⟨hfront, hback, ?_⟩
    intro early hearly late hlate
    exact hbetween early hearly late (List.mem_cons_of_mem _ hlate)
  · intro early hearly late hlate
    exact hacross early hearly late (List.perm_middle.mem_iff.mpr hlate)

/-- The kernel reorders no fsync. -/
theorem lined_complete (hlined : engine.Lined log) (hringed : engine.Ringed) {position : ℕ}
    {res : ℤ} {files : Files} {ring : IoUring}
    (hcomplete : completeEntry engine.files engine.ring position res = some (files, ring)) :
    { engine with files := files, ring := ring }.Lined log := by
  obtain ⟨front, idx, sqe, seen, back, hentries, -, -, rfl⟩ := completeEntry_inv hcomplete
  have hbefore : engine.tickets = engine.todo.map Cqe.userData ++
      engine.ring.cq.map Cqe.userData ++ (front.map Entry.idx ++ idx :: (back.map Entry.idx ++
        engine.ring.sq.map Entry.idx)) := by
    simp [tickets, hentries]
  have hafter : { engine with
      files := files
      ring := { engine.ring with
        entries := front ++ back, cq := engine.ring.cq ++ [Cqe.mk idx res] } }.tickets =
      engine.todo.map Cqe.userData ++ engine.ring.cq.map Cqe.userData ++
        idx :: (front.map Entry.idx ++ (back.map Entry.idx ++ engine.ring.sq.map Entry.idx)) := by
    simp [tickets, todo]
  refine ⟨hlined.listed, ?_, ?_⟩
  · rw [hafter]
    refine hlined.perm.trans ?_
    rw [hbefore]
    exact List.Perm.append_left _ List.perm_middle
  · have hordered := hlined.ordered
    rw [hbefore] at hordered
    rw [hafter]
    refine pairwise_forward hordered ?_
    intro other hother hdrain
    obtain ⟨entry, hentry, rfl⟩ := List.mem_map.mp hother
    -- the entry is running, so neither it nor any entry in front of it drains
    have hbarrier := hringed.barrier
    rw [hentries, List.pairwise_append] at hbarrier
    have hqueued := hbarrier.2.2 entry hentry _ List.mem_cons_self
    have hentry' : entry ∈ engine.ring.entries := by
      rw [hentries]
      exact List.mem_append_left _ hentry
    have hself := @Ringed.drains_idx engine hringed ⟨idx, sqe, .running seen⟩
      (by rw [hentries]; simp)
    have hearlier := hringed.drains_idx hentry'
    have hdrains : entry.sqe.drains ∨ sqe.drains := by
      rcases hdrain with hkey | hkey
      · exact Or.inr (hself ▸ hkey)
      · exact Or.inl (hearlier ▸ hkey)
    cases hqueued hdrains

end WalEngine

end InMemoryDb.Stage3
