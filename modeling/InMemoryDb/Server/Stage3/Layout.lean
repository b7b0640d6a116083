import InMemoryDb.Lib.Sequence
import InMemoryDb.Server.Stage3.Desk
import InMemoryDb.Server.Stage3.Sound

/-!
# The layout of a segment

A batch gets its place in the active segment when it is queued; its bytes land
later, in any order and in pieces.  From the moment a segment is opened to the
moment it is sealed, the queued batches tile it without a gap, in LSN order, and
every hole of the file lies in the range of a write that is still in line.
-/

namespace InMemoryDb.Stage3

open SparseFile WalFormat Recover

/-- The place of a queued batch behind those before it. -/
structure Tile (base start : ℕ) (front : List Queued) (entry : Queued) : Prop where
  offset : entry.offset = base + (front.flatMap fun earlier => earlier.batch.out).length
  lsnLow : entry.batch.lsnLow = start + (front.flatMap fun earlier => earlier.batch.redo).length
  lsnHi : entry.batch.lsnHi = entry.batch.lsnLow + entry.batch.redo.length
  encoded : entry.batch.out = encodeAll entry.batch.redo
  nonempty : entry.batch.redo ≠ []

/-- The queued batches follow one another without a gap. -/
def Tiled (base start : ℕ) (queued : List Queued) : Prop :=
  ∀ front entry back, queued = front ++ entry :: back → Tile base start front entry

theorem Tiled.snoc {base start : ℕ} {queued : List Queued} (htiled : Tiled base start queued)
    {entry : Queued} (htile : Tile base start queued entry) :
    Tiled base start (queued ++ [entry]) :=
  Sequence.forall_split_snoc htiled htile

/-- A batch of the journal is known by its first LSN. -/
theorem Tiled.unique {base start : ℕ} {queued : List Queued} (htiled : Tiled base start queued)
    {entry other : Queued} (hentry : entry ∈ queued) (hother : other ∈ queued)
    (hlsn : entry.batch.lsnLow = other.batch.lsnLow) : entry = other := by
  obtain ⟨front, back, hsplit⟩ := List.append_of_mem hentry
  obtain ⟨front', back', hsplit'⟩ := List.append_of_mem hother
  have htile := htiled front entry back hsplit
  have htile' := htiled front' other back' hsplit'
  have hlengths := htile.lsnLow.symm.trans (hlsn.trans htile'.lsnLow)
  rcases List.append_eq_append_iff.mp (hsplit.symm.trans hsplit') with
    ⟨more, hmore, hrest⟩ | ⟨more, hmore, hrest⟩
  · cases more with
    | nil => simpa using (List.cons.inj hrest).1
    | cons head more =>
        have hhead : entry = head := (List.cons.inj hrest).1
        have hpos := List.length_pos_of_ne_nil htile.nonempty
        rw [hmore, ← hhead] at hlengths
        simp only [List.flatMap_append, List.flatMap_cons, List.length_append] at hlengths
        omega
  · cases more with
    | nil => simpa using (List.cons.inj hrest).1.symm
    | cons head more =>
        have hhead : other = head := (List.cons.inj hrest).1
        have hpos := List.length_pos_of_ne_nil htile'.nonempty
        rw [hmore, ← hhead] at hlengths
        simp only [List.flatMap_append, List.flatMap_cons, List.length_append] at hlengths
        omega

/-- The bytes of the journal are the records of its batches. -/
theorem flatMap_out {queued : List Queued}
    (hencoded : ∀ entry ∈ queued, entry.batch.out = encodeAll entry.batch.redo) :
    (queued.flatMap fun entry => entry.batch.out) =
      encodeAll (queued.flatMap fun entry => entry.batch.redo) := by
  induction queued with
  | nil => rfl
  | cons entry queued ih =>
      rw [List.flatMap_cons, List.flatMap_cons, encodeAll_append, hencoded entry (by simp),
        ih fun other hother => hencoded other (List.mem_cons_of_mem _ hother)]

theorem Tiled.encoded {base start : ℕ} {queued : List Queued} (htiled : Tiled base start queued)
    {entry : Queued} (hentry : entry ∈ queued) :
    entry.batch.out = encodeAll entry.batch.redo := by
  obtain ⟨front, back, hsplit⟩ := List.append_of_mem hentry
  exact (htiled front entry back hsplit).encoded

/-- Batches that are all in the file up to some point fill it up to there, behind what
was there before. -/
theorem Tiled.covers {base start : ℕ} {queued : List Queued} (htiled : Tiled base start queued)
    {file : Sparse UInt8} (hbase : Covers file 0 base) {front back : List Queued} {entry : Queued}
    (hsplit : queued = front ++ entry :: back)
    (hcovers : ∀ earlier ∈ front ++ [entry],
      Covers file earlier.offset earlier.batch.out.length) :
    Covers file 0 (entry.offset + entry.batch.out.length) := by
  induction front using List.reverseRecOn generalizing entry back with
  | nil =>
      have hoffset : entry.offset = base := by simpa using (htiled [] entry back hsplit).offset
      rw [hoffset]
      refine hbase.join ?_
      rw [Nat.zero_add, ← hoffset]
      exact hcovers entry (by simp)
  | append_singleton front last ih =>
      rw [List.append_assoc] at hsplit
      have hlast := ih hsplit fun earlier hearlier =>
        hcovers earlier (List.mem_append_left _ hearlier)
      have hnext : entry.offset = last.offset + last.batch.out.length := by
        have hthis := (htiled (front ++ [last]) entry back (by simpa using hsplit)).offset
        have hprev := (htiled front last _ hsplit).offset
        simp only [List.flatMap_append, List.flatMap_cons, List.flatMap_nil, List.append_nil,
          List.length_append] at hthis
        omega
      rw [hnext]
      refine hlast.join ?_
      rw [Nat.zero_add, ← hnext]
      exact hcovers entry (by simp)

/-- Of two batches the earlier one ends where the later one starts, or before. -/
theorem Tiled.pairwise {base start : ℕ} {queued : List Queued} (htiled : Tiled base start queued) :
    queued.Pairwise fun earlier later =>
      earlier.offset + earlier.batch.out.length ≤ later.offset ∧
        earlier.batch.lsnHi ≤ later.batch.lsnLow := by
  apply Sequence.pairwise_of_split
  intro front later back hsplit earlier hearlier
  obtain ⟨before, between, rfl⟩ := List.append_of_mem hearlier
  have hlater := htiled _ later back hsplit
  have htile := htiled before earlier (between ++ later :: back) (by rw [hsplit]; simp)
  rw [hlater.offset, hlater.lsnLow, htile.offset, htile.lsnHi, htile.lsnLow]
  simp only [List.flatMap_append, List.flatMap_cons, List.length_append]
  omega

namespace WalEngine

variable {engine after : WalEngine}

/-! ## Queueing a batch -/

/-- What a queued batch carries: its records, encoded and numbered from its low
watermark on. -/
structure Encoded (batch : Batch) : Prop where
  lsnHi : batch.lsnHi = batch.lsnLow + batch.redo.length
  out : batch.out = encodeAll batch.redo
  nonempty : batch.redo ≠ []
  records : ∀ rec ∈ batch.redo, GoodPut rec.2 ∧ rec.2.length ≤ maxPayload ∧
    batch.lsnLow < rec.1 ∧ rec.1 ≤ batch.lsnHi

/-- The engine after `handle_batch` has queued `entry`. -/
def queue (engine : WalEngine) (entry : Queued) (rest : List WalMsg) : WalEngine :=
  { engine with
    msgRx := rest
    lastIngestedLsn := entry.batch.lsnHi
    seg := { engine.seg with offset := engine.seg.offset + entry.batch.out.length }
    fsyncPlanner := engine.fsyncPlanner.onWriteQueued entry.batch.out.length
    pending := engine.pending ++ [IoWork.ofBatch entry.batch entry.offset]
    image := engine.image ++ entry.batch.out
    queued := engine.queued ++ [entry] }

/-- A batch of stage 2 is queued at the end of the active segment, behind the last
LSN. -/
theorem enqueue_inv (hsound : engine.Sound) {batch : Batch} {rest : List WalMsg}
    (hmsg : engine.msgRx = .write batch :: rest)
    (hbatch : { engine with msgRx := rest }.handleBatch batch = .ok after) :
    ∃ entry, after = engine.queue entry rest ∧ entry.seg = engine.seg.startLsn ∧
      entry.offset = engine.image.length ∧ entry.batch.lsnLow = engine.lastIngestedLsn ∧
      Encoded entry.batch ∧ entry.batch.lsnHi = batch.lsnHi := by
  have hshape : FromStage2 engine.ack batch := hsound.fed batch (by simp [hmsg])
  obtain ⟨hlow, -, out, hout, rfl⟩ := handleBatch_inv hbatch
  have hcount : batch.redo.length = (puts batch.items).length := length_records _ _
  have hhi : batch.lsnHi = batch.lsnLow + batch.redo.length := by rw [hshape.lsnHi, hcount]
  refine ⟨⟨engine.seg.startLsn, engine.seg.offset, { batch with out := out }⟩, rfl, rfl,
    hsound.stored.length_image.symm, hlow, ⟨hhi, ?_, ?_, ?_⟩, rfl⟩
  · change out = _
    rw [hout, encodeItems_eq, hshape.out]
    rfl
  · apply List.ne_nil_of_length_pos
    change 0 < batch.redo.length
    rw [hcount]
    exact hshape.walWork
  · intro rec hrec
    obtain ⟨hgt, hle, req, hreq, hop, hbody⟩ := mem_records hrec
    refine ⟨?_, ?_, hgt, ?_⟩
    · rw [hbody]
      exact Stage2.goodPut_of_admissible (hshape.executed req hreq) hop
    · rw [hbody]
      exact req.data.bounded
    · change rec.1 ≤ batch.lsnHi
      rw [hshape.lsnHi]
      exact hle

theorem line_queue (engine : WalEngine) (entry : Queued) (rest : List WalMsg) :
    (engine.queue entry rest).line =
      engine.line ++ [IoWork.ofBatch entry.batch entry.offset] :=
  (List.append_assoc _ _ _).symm

/-! ## What a move does to the store -/

/-- Every move but queueing a batch and sealing the segment: no batch is added, the
file grows by a write in line only, up to where the write got, a write leaves the line
only when it is in the file, and of the other files only those in line for removal may
go. -/
structure Steady (permit : Kind → WalEngine → Prop) (engine after : WalEngine) : Prop where
  seg : after.seg = engine.seg
  image : after.image = engine.image
  queued : after.queued = engine.queued
  ingested : after.lastIngestedLsn = engine.lastIngestedLsn
  cache : Grows engine.disk.cache after.disk.cache
  fills : ∀ index value, Holds after.disk.cache index value →
    Holds engine.disk.cache index value ∨ ∃ op, .write op ∈ engine.line ∧ op.offset ≤ index ∧
      index < op.offset + op.data.out.length ∧
      Covers after.disk.cache op.offset (index - op.offset)
  stays : ∀ op, .write op ∈ engine.line →
    (∃ op', .write op' ∈ after.line ∧ op'.offset = op.offset ∧ op'.data = op.data) ∨
      Covers after.disk.cache op.offset op.data.out.length
  comes : ∀ op, .write op ∈ after.line →
    ∃ op', .write op' ∈ engine.line ∧ op'.offset = op.offset ∧ op'.data = op.data
  removes : ∀ lsn, .remove lsn ∈ after.line → .remove lsn ∈ engine.line ∨ permit .control engine
  others : ∀ seg, engine.seg.startLsn ≠ seg →
    after.files.lookup seg = engine.files.lookup seg ∨
      (.remove seg ∈ engine.line ∧ after.files.lookup seg = none)
  acked : ∀ ack ∈ after.acked, ack ∈ engine.acked ∨ ack.point = .durable ∨
    (permit .written engine ∧ engine.nextWritten = some ack.batch ∧ after.line = engine.line.tail)

section Steady

variable {permit : Kind → WalEngine → Prop}

/-- A move that leaves the store alone. -/
theorem Steady.of_line (hfiles : after.files = engine.files) (hseg : after.seg = engine.seg)
    (himage : after.image = engine.image) (hqueued : after.queued = engine.queued)
    (hingested : after.lastIngestedLsn = engine.lastIngestedLsn)
    (hacked : after.acked = engine.acked)
    (hwrites : ∀ op, IoWork.write op ∈ after.line ↔ IoWork.write op ∈ engine.line)
    (hremoves : ∀ lsn, .remove lsn ∈ after.line →
      .remove lsn ∈ engine.line ∨ permit .control engine) : Steady permit engine after := by
  have hdisk : after.disk = engine.disk := disk_congr hfiles (by rw [hseg])
  refine ⟨hseg, himage, hqueued, hingested, ?_, ?_, ?_, ?_, hremoves, ?_, ?_⟩
  · rw [hdisk]
    exact Grows.refl _
  · rw [hdisk]
    exact fun _ _ hold => Or.inl hold
  · exact fun op hop => Or.inl ⟨op, (hwrites op).mpr hop, rfl, rfl⟩
  · exact fun op hop => ⟨op, (hwrites op).mp hop, rfl, rfl⟩
  · intro seg _
    rw [hfiles]
    exact Or.inl rfl
  · intro ack hack
    rw [hacked] at hack
    exact Or.inl hack

theorem Steady.of_same (hfiles : after.files = engine.files) (hseg : after.seg = engine.seg)
    (himage : after.image = engine.image) (hqueued : after.queued = engine.queued)
    (hingested : after.lastIngestedLsn = engine.lastIngestedLsn)
    (hacked : after.acked = engine.acked) (hline : after.line = engine.line) :
    Steady permit engine after := by
  refine Steady.of_line hfiles hseg himage hqueued hingested hacked ?_ ?_
  · intro op
    rw [hline]
  · intro lsn hlsn
    rw [hline] at hlsn
    exact Or.inl hlsn

/-- The head of the line is reaped, and it was no write or is done. -/
theorem Steady.pop (hsound : engine.Sound) {cqe : Cqe} {rest : List Cqe} {ret : Return}
    {work : IoWork} (hpc : engine.pc = .reaping (cqe :: rest) ret)
    (hwork : engine.inflight.lookup cqe.userData = some work)
    (hfull : ∀ op, work = .write op → Full op cqe) (hfiles : after.files = engine.files)
    (hseg : after.seg = engine.seg) (himage : after.image = engine.image)
    (hqueued : after.queued = engine.queued)
    (hingested : after.lastIngestedLsn = engine.lastIngestedLsn)
    (hline : after.line = (engine.pop cqe rest ret).line)
    (hacked : ∀ ack ∈ after.acked, ack ∈ engine.acked ∨ ack.point = .durable ∨
      (permit .written engine ∧ engine.nextWritten = some ack.batch)) :
    Steady permit engine after := by
  have hpop := line_pop hsound.ringed.keyed hpc hwork
  have hdisk : after.disk = engine.disk := disk_congr hfiles (by rw [hseg])
  have hmem : ∀ other, other ∈ after.line → other ∈ engine.line := by
    intro other hother
    rw [hline] at hother
    rw [hpop]
    exact List.mem_cons_of_mem _ hother
  refine ⟨hseg, himage, hqueued, hingested, ?_, ?_, ?_, ?_, ?_, ?_, ?_⟩
  · rw [hdisk]
    exact Grows.refl _
  · rw [hdisk]
    exact fun _ _ hold => Or.inl hold
  · intro op hop
    rw [hpop] at hop
    rcases List.mem_cons.mp hop with heq | hrest
    · right
      subst heq
      have hposted : cqe ∈ engine.posted := by
        rw [posted_pop hpc]
        exact List.mem_cons_self
      have hwrite := hsound.tracked.writes op (mem_line_of_lookup hsound.ringed.keyed hwork)
      have hreported := hsound.tracked.reported cqe hposted op hwork (hfull op rfl).1
      have hjoin := hwrite.2.2.join hreported.2
      rw [le_antisymm hreported.1 (hfull op rfl).2] at hjoin
      rw [hdisk]
      exact hjoin
    · exact Or.inl ⟨op, by rw [hline]; exact hrest, rfl, rfl⟩
  · exact fun op hop => ⟨op, hmem _ hop, rfl, rfl⟩
  · exact fun lsn hlsn => Or.inl (hmem _ hlsn)
  · intro seg _
    rw [hfiles]
    exact Or.inl rfl
  · intro ack hack
    rcases hacked ack hack with hold | hdurable | ⟨hpermit, hnext⟩
    · exact Or.inl hold
    · exact Or.inr (Or.inl hdurable)
    · exact Or.inr (Or.inr ⟨hpermit, hnext, by rw [hline, hpop, List.tail_cons]⟩)

/-- A write that is retried stays in line, with more of it done. -/
theorem retry_stays (hkeyed : engine.Keyed) {cqe : Cqe} {rest : List Cqe} {ret : Return}
    {op other : WriteOp} (done : ℕ) (planner : FsyncPlanner)
    (hpc : engine.pc = .reaping (cqe :: rest) ret)
    (hwork : engine.inflight.lookup cqe.userData = some (.write op))
    (hother : .write other ∈ engine.line) :
    ∃ op', .write op' ∈ { engine.pop cqe rest ret with
        fsyncPlanner := planner
        pending := IoWork.write { op with done := done } :: engine.pending }.line ∧
      op'.offset = other.offset ∧ op'.data = other.data := by
  rw [line_pop hkeyed hpc hwork] at hother
  rcases List.mem_cons.mp hother with heq | hrest
  · simp only [IoWork.write.injEq] at heq
    subst heq
    exact ⟨{ other with done := done }, mem_line_retry.mpr (Or.inl rfl), rfl, rfl⟩
  · exact ⟨other, mem_line_retry.mpr (Or.inr hrest), rfl, rfl⟩

theorem retry_comes (hkeyed : engine.Keyed) {cqe : Cqe} {rest : List Cqe} {ret : Return}
    {op other : WriteOp} {done : ℕ} {planner : FsyncPlanner}
    (hpc : engine.pc = .reaping (cqe :: rest) ret)
    (hwork : engine.inflight.lookup cqe.userData = some (.write op))
    (hother : .write other ∈ { engine.pop cqe rest ret with
      fsyncPlanner := planner
      pending := IoWork.write { op with done := done } :: engine.pending }.line) :
    ∃ op', .write op' ∈ engine.line ∧ op'.offset = other.offset ∧ op'.data = other.data := by
  rw [line_pop hkeyed hpc hwork]
  rcases mem_line_retry.mp hother with heq | hold
  · simp only [IoWork.write.injEq] at heq
    subst heq
    exact ⟨op, List.mem_cons_self, rfl, rfl⟩
  · exact ⟨other, List.mem_cons_of_mem _ hold, rfl, rfl⟩

/-- A retried write goes back to the head of `pending`. -/
theorem steady_retry (hsound : engine.Sound) {cqe : Cqe} {rest : List Cqe} {ret : Return}
    {op : WriteOp} (done : ℕ) (planner : FsyncPlanner)
    (hpc : engine.pc = .reaping (cqe :: rest) ret)
    (hwork : engine.inflight.lookup cqe.userData = some (.write op)) :
    Steady permit engine
      { engine.pop cqe rest ret with
        fsyncPlanner := planner
        pending := IoWork.write { op with done := done } :: engine.pending } := by
  have hkeyed := hsound.ringed.keyed
  refine ⟨rfl, rfl, rfl, rfl, Grows.refl _, fun _ _ => Or.inl, ?_, ?_, ?_, fun _ _ => Or.inl rfl,
    fun _ hack => Or.inl hack⟩
  · exact fun other hother => Or.inl (retry_stays hkeyed done planner hpc hwork hother)
  · exact fun other hother => retry_comes hkeyed hpc hwork hother
  · intro lsn hlsn
    rw [line_pop hkeyed hpc hwork]
    rcases mem_line_retry.mp hlsn with heq | hold
    · cases heq
    · exact Or.inl (List.mem_cons_of_mem _ hold)

/-- A completion leaves the inactive files alone, unless it removes one. -/
theorem complete_others (hringed : engine.Ringed) {position : ℕ} {res : ℤ} {files : Files}
    {ring : IoUring}
    (hcomplete : completeEntry engine.files engine.ring position res = some (files, ring)) :
    ∀ seg, engine.seg.startLsn ≠ seg → files.lookup seg = engine.files.lookup seg ∨
      (.remove seg ∈ engine.line ∧ files.lookup seg = none) := by
  intro seg hne
  obtain ⟨front, idx, sqe, seen, back, hentries, -, rfl, -⟩ := completeEntry_inv hcomplete
  have hmem : (⟨idx, sqe, .running seen⟩ : Entry) ∈ engine.ring.entries := by simp [hentries]
  obtain ⟨work, hwork, hsqe⟩ := hringed.built _ (List.mem_append_left _ hmem)
  simp only at hwork hsqe
  subst hsqe
  cases work with
  | write op =>
      left
      simp only [IoWork.sqe, Sqe.effect]
      split_ifs
      · rfl
      · split
        · exact SortedMap.lookup_insert_ne _ _ hne
        · rfl
  | fsync target =>
      left
      simp only [IoWork.sqe, Sqe.effect]
      split_ifs
      · rfl
      · split
        · exact SortedMap.lookup_insert_ne _ _ hne
        · rfl
  | remove start =>
      simp only [IoWork.sqe, Sqe.effect]
      split_ifs
      · exact Or.inl rfl
      · by_cases hsame : start = seg
        · subst hsame
          exact Or.inr ⟨mem_line_of_lookup hringed.keyed hwork, SortedMap.lookup_erase_self _ _⟩
        · exact Or.inl (SortedMap.lookup_erase_ne _ hsame)

/-- The kernel completes an entry of the ring. -/
theorem steady_complete (hsound : engine.Sound) {position : ℕ} {res : ℤ} {files : Files}
    {ring : IoUring}
    (hcomplete : completeEntry engine.files engine.ring position res = some (files, ring)) :
    Steady permit engine { engine with files := files, ring := ring } := by
  have hline := line_complete hcomplete
  obtain ⟨front, idx, work, back, hwork, -, -, -, hlanded⟩ := complete_inv hsound hcomplete
  refine ⟨rfl, rfl, rfl, rfl, hlanded.cache, ?_, ?_, ?_, ?_, ?_, fun _ hack => Or.inl hack⟩
  · intro index value hold
    rcases hlanded.fills index value hold with hbefore | ⟨op, rfl, hlow, hhigh⟩
    · exact Or.inl hbefore
    · right
      have hop := mem_line_of_lookup hsound.ringed.keyed hwork
      obtain ⟨-, -, hfront⟩ := hsound.tracked.writes op hop
      obtain ⟨hbound, hcovers⟩ := hlanded.write op rfl (by omega)
      refine ⟨op, hop, by omega, by omega, ?_⟩
      intro lower hlower hbelow
      exact (hfront.mono hlanded.cache).join hcovers lower hlower (by omega)
  · exact fun op hop => Or.inl ⟨op, hline.mem_iff.mpr hop, rfl, rfl⟩
  · exact fun op hop => ⟨op, hline.mem_iff.mp hop, rfl, rfl⟩
  · exact fun lsn hlsn => Or.inl (hline.mem_iff.mp hlsn)
  · exact complete_others hsound.ringed hcomplete

/-- A move queues a batch, or seals the segment, or leaves the layout as it is. -/
theorem move_steady (hsound : engine.Sound) (hmove : Move permit engine after) :
    (∃ batch entry rest, engine.msgRx = .write batch :: rest ∧ after = engine.queue entry rest ∧
      entry.seg = engine.seg.startLsn ∧ entry.offset = engine.image.length ∧
      entry.batch.lsnLow = engine.lastIngestedLsn ∧ Encoded entry.batch ∧
      entry.batch.lsnHi = batch.lsnHi) ∨
    (∃ boundaryLsn, after = engine.sealSegment boundaryLsn ∧ permit .sealed engine ∧
      engine.shouldPark = true) ∨
    Steady permit engine after := by
  have hkeyed := hsound.ringed.keyed
  cases hmove with
  | arrive msg hpermit hfeed => exact Or.inr (Or.inr (Steady.of_same rfl rfl rfl rfl rfl rfl rfl))
  | send hpermit houtbox => exact Or.inr (Or.inr (Steady.of_same rfl rfl rfl rfl rfl rfl rfl))
  | giveBack hpermit houtbox => exact Or.inr (Or.inr (Steady.of_same rfl rfl rfl rfl rfl rfl rfl))
  | lend hpermit hpool => exact Or.inr (Or.inr (Steady.of_same rfl rfl rfl rfl rfl rfl rfl))
  | quiet spinBudget pc vacant htodo =>
      have htickets := @tickets_frame engine
        { engine with spinBudget := spinBudget, pc := pc, vacant := vacant } htodo rfl
      exact Or.inr (Or.inr (Steady.of_same rfl rfl rfl rfl rfl rfl (line_congr htickets rfl rfl)))
  | discard hpermit hmsg hkind => exact Or.inr (Or.inr (Steady.of_same rfl rfl rfl rfl rfl rfl rfl))
  | @enqueue batch rest _ hmsg hbatch =>
      obtain ⟨entry, hafter, hfacts⟩ := enqueue_inv hsound hmsg hbatch
      exact Or.inl ⟨batch, entry, rest, hmsg, hafter, hfacts⟩
  | schedule starts hpermit hstarts =>
      refine Or.inr (Or.inr (Steady.of_line rfl rfl rfl rfl rfl rfl ?_ fun _ _ => Or.inr hpermit))
      intro op
      simp [line, worksAt, tickets, todo]
  | arm hdue =>
      refine Or.inr (Or.inr (Steady.of_line rfl rfl rfl rfl rfl rfl ?_ ?_))
      · intro op
        simp [line, worksAt, tickets, todo]
      · intro lsn hlsn
        left
        simpa [line, worksAt, tickets, todo] using hlsn
  | push hpending =>
      exact Or.inr (Or.inr (Steady.of_same rfl rfl rfl rfl rfl rfl (line_push hkeyed hpending)))
  | beginReap ret htodo =>
      exact Or.inr (Or.inr (Steady.of_same rfl rfl rfl rfl rfl rfl
        (line_congr (tickets_beginReap _ _ htodo) rfl rfl)))
  | submit =>
      exact Or.inr (Or.inr (Steady.of_same rfl rfl rfl rfl rfl rfl
        (line_congr (tickets_submitRing _) rfl rfl)))
  | reapRemoved hpc hwork =>
      exact Or.inr (Or.inr (Steady.pop hsound hpc hwork (fun op heq => by cases heq) rfl rfl rfl rfl
        rfl rfl fun _ hack => Or.inl hack))
  | @reapWritten cqe rest ret op hpermit hpc hwork hres hdone =>
      have hnext : engine.nextWritten = some op.data := by
        simp only [nextWritten, todo, hpc, Pc.todo, hwork, hres, hdone, and_self, if_true]
      right
      right
      rw [reapWritten_eq]
      refine Steady.pop hsound hpc hwork ?_ rfl rfl rfl rfl rfl rfl ?_
      · intro other heq
        cases heq
        exact ⟨hres, hdone⟩
      · intro ack hack
        rcases List.mem_append.mp hack with hold | hnew
        · exact Or.inl hold
        · rw [List.mem_singleton.mp hnew]
          exact Or.inr (Or.inr ⟨hpermit, hnext⟩)
  | reapRetry hpc hwork hdone => exact Or.inr (Or.inr (steady_retry hsound _ _ hpc hwork))
  | reapDurable hpermit hpc hwork hres =>
      refine Or.inr (Or.inr (Steady.pop hsound hpc hwork (fun op heq => by cases heq) rfl rfl rfl
        rfl rfl rfl ?_))
      intro ack hack
      rcases List.mem_append.mp hack with hold | hnew
      · exact Or.inl hold
      · obtain ⟨batch, -, rfl⟩ := List.mem_map.mp hnew
        exact Or.inr (Or.inl rfl)
  | sealed boundaryLsn hpermit hpending hinflight htodo =>
      refine Or.inr (Or.inl ⟨boundaryLsn, rfl, hpermit, ?_⟩)
      simp [shouldPark, hpending, hinflight]
  | start hstart =>
      exact Or.inr (Or.inr (Steady.of_same rfl rfl rfl rfl rfl rfl
        (line_congr (tickets_start _ hstart) rfl rfl)))
  | complete hcomplete => exact Or.inr (Or.inr (steady_complete hsound hcomplete))

end Steady

/-! ## Holes -/

/-- Every hole of the active file lies in the range of a write in line. -/
def Holes (engine : WalEngine) : Prop :=
  ∀ index, index < engine.image.length →
    (∃ value, Holds engine.disk.cache index value) ∨
      ∃ op, .write op ∈ engine.line ∧ op.offset ≤ index ∧ index < op.offset + op.data.out.length

theorem Steady.holes {permit : Kind → WalEngine → Prop} (hsteady : Steady permit engine after)
    (hholes : engine.Holes) : after.Holes := by
  intro index hindex
  rw [hsteady.image] at hindex
  rcases hholes index hindex with ⟨value, hvalue⟩ | ⟨op, hop, hlow, hhigh⟩
  · exact Or.inl ⟨value, hsteady.cache index value hvalue⟩
  · rcases hsteady.stays op hop with ⟨op', hop', hoffset, hdata⟩ | hcovers
    · right
      refine ⟨op', hop', ?_, ?_⟩
      · rw [hoffset]
        exact hlow
      · rw [hoffset, hdata]
        exact hhigh
    · exact Or.inl (hcovers index hlow hhigh)

theorem holes_queue {entry : Queued} (rest : List WalMsg) (hholes : engine.Holes)
    (hoffset : entry.offset = engine.image.length) : (engine.queue entry rest).Holes := by
  intro index hindex
  rw [line_queue]
  by_cases hlt : index < engine.image.length
  · rcases hholes index hlt with hheld | ⟨op, hop, hrange⟩
    · exact Or.inl hheld
    · exact Or.inr ⟨op, List.mem_append_left _ hop, hrange⟩
  · right
    refine ⟨⟨entry.batch, entry.offset, 0⟩,
      List.mem_append_right _ (List.mem_singleton_self _), ?_, ?_⟩
    · change entry.offset ≤ index
      rw [hoffset]
      exact not_lt.mp hlt
    · change index < (engine.image ++ entry.batch.out).length at hindex
      rw [List.length_append] at hindex
      change index < entry.offset + entry.batch.out.length
      rw [hoffset]
      exact hindex

/-- No write is pending or in flight. -/
def WritesDone (engine : WalEngine) : Prop :=
  ∀ op, .write op ∉ engine.pending ∧ ∀ key, engine.inflight.lookup key ≠ some (.write op)

theorem WritesDone.line (hdone : engine.WritesDone) (op : WriteOp) :
    .write op ∉ engine.line := by
  intro hop
  rcases List.mem_append.mp hop with hring | hpending
  · obtain ⟨key, -, hwork⟩ := List.mem_filterMap.mp hring
    exact (hdone op).2 key hwork
  · exact (hdone op).1 hpending

theorem writesDone_of_line (hsound : engine.Sound) (hline : ∀ op, .write op ∉ engine.line) :
    engine.WritesDone := by
  intro op
  constructor
  · exact fun hpending => hline op (List.mem_append_right _ hpending)
  · exact fun key hwork => hline op (mem_line_of_lookup hsound.ringed.keyed hwork)

theorem writesDone_of_park (hidle : engine.shouldPark = true) : engine.WritesDone := by
  simp only [shouldPark, decide_eq_true_eq] at hidle
  intro op
  rw [hidle.1, hidle.2]
  constructor
  · exact List.not_mem_nil
  · intro key
    simp [Finmap.lookup_empty]

/-- Once no write is in line, the active file is exactly its image. -/
theorem Holes.cache_eq (hholes : engine.Holes) (hsound : engine.Sound)
    (hdone : engine.WritesDone) : engine.disk.cache = full engine.image := by
  refine eq_full_of_covers hsound.stored.agrees ?_
  intro index _ hindex
  rcases hholes index (by omega) with hheld | ⟨op, hop, -⟩
  · exact hheld
  · exact absurd hop (hdone.line op)

theorem readSeg_active (hsound : engine.Sound) {seg : ℕ} (hseg : engine.seg.startLsn = seg) :
    readSeg engine.files seg = contents engine.disk.cache := by
  obtain ⟨file, hfile⟩ := hsound.stored.opened
  rw [← hseg, readSeg, cacheOf, disk, hfile]
  rfl

/-- Inactive files have no holes at all. -/
structure Filled (engine : WalEngine) : Prop where
  holes : engine.Holes
  others : ∀ seg file, engine.seg.startLsn ≠ seg → engine.files.lookup seg = some file →
    file.cache = full (contents file.cache)

/-- The engine just after it opened a segment of a directory without holes. -/
theorem filled_open {files : Files} {startLsn : ℕ}
    (hwhole : ∀ seg file, files.lookup seg = some file →
      file.cache = full (contents file.cache))
    (hfiles : engine.files = (Segment.open files startLsn).1)
    (hseg : engine.seg = (Segment.open files startLsn).2)
    (himage : engine.image = readSeg files startLsn) : engine.Filled := by
  cases hlookup : files.lookup startLsn with
  | some file =>
      simp only [Segment.open, hlookup] at hfiles hseg
      have hdisk : engine.disk = file := by simp [disk, hfiles, hseg, hlookup]
      have hread : engine.image = contents file.cache := by
        simp [himage, readSeg, cacheOf, hlookup]
      constructor
      · intro index hindex
        left
        rw [hdisk, hwhole startLsn file hlookup, ← hread]
        exact covers_full engine.image index (Nat.zero_le _) (by omega)
      · intro seg other _ hother
        rw [hfiles] at hother
        exact hwhole seg other hother
  | none =>
      simp only [Segment.open, hlookup] at hfiles hseg
      have hread : engine.image = [] := by
        simp [himage, readSeg, cacheOf, hlookup, contents]
      constructor
      · intro index hindex
        rw [hread] at hindex
        cases hindex
      · intro seg other hne hother
        rw [hseg] at hne
        rw [hfiles, SortedMap.lookup_insert_ne _ _ hne] at hother
        exact hwhole seg other hother

theorem filled_new (depth : ℕ) (segs : SortedMap ℕ Bytes) (startLsn : ℕ) (mode : Mode)
    (pool : List Batch) : (new depth (Files.ofSegs segs) startLsn mode pool).Filled := by
  refine filled_open ?_ rfl rfl rfl
  intro seg file hfile
  rw [Files.ofSegs, SortedMap.lookup_mapValues, Option.map_eq_some_iff] at hfile
  obtain ⟨bytes, -, rfl⟩ := hfile
  simp [File.ofBytes]

theorem line_eq_nil (hsound : engine.Sound) (hpending : engine.pending = [])
    (hinflight : engine.inflight = ∅) : engine.line = [] := by
  rw [line, tickets_eq_nil hsound.ringed.keyed hinflight, hpending]
  rfl

theorem filled_seal (hsound : engine.Sound) (hfilled : engine.Filled) (boundaryLsn : ℕ)
    (hdone : engine.WritesDone) : (engine.sealSegment boundaryLsn).Filled := by
  refine filled_open ?_ rfl rfl rfl
  intro seg file hfile
  by_cases hsame : engine.seg.startLsn = seg
  · subst hsame
    change (engine.files.insert engine.seg.startLsn
      (engine.disk.flush engine.disk.cache)).lookup engine.seg.startLsn = some file at hfile
    rw [SortedMap.lookup_insert_self, Option.some.injEq] at hfile
    have hcache := hfilled.holes.cache_eq hsound hdone
    have hsealed : file.cache = full engine.image := by
      rw [← hfile]
      exact hcache
    rw [hsealed, contents_full]
  · change (engine.files.insert engine.seg.startLsn
      (engine.disk.flush engine.disk.cache)).lookup seg = some file at hfile
    rw [SortedMap.lookup_insert_ne _ _ hsame] at hfile
    exact hfilled.others seg file hsame hfile

theorem Steady.filled {permit : Kind → WalEngine → Prop} (hsteady : Steady permit engine after)
    (hfilled : engine.Filled) : after.Filled := by
  refine ⟨hsteady.holes hfilled.holes, ?_⟩
  intro seg file hne hfile
  rw [hsteady.seg] at hne
  rcases hsteady.others seg hne with hsame | ⟨-, hnone⟩
  · exact hfilled.others seg file hne (hsame ▸ hfile)
  · rw [hnone] at hfile
    cases hfile

/-- Every move keeps the holes in the ranges of the writes in line. -/
theorem filled_move (hsound : engine.Sound) (hfilled : engine.Filled)
    (hmove : Move Anything engine after) : after.Filled := by
  rcases move_steady hsound hmove with
    ⟨batch, entry, rest, -, rfl, -, hoffset, -⟩ | ⟨boundaryLsn, rfl, -, hidle⟩ | hsteady
  · exact ⟨holes_queue rest hfilled.holes hoffset, hfilled.others⟩
  · exact filled_seal hsound hfilled boundaryLsn (writesDone_of_park hidle)
  · exact hsteady.filled hfilled

theorem filled_reach {depth : ℕ} {segs : SortedMap ℕ Bytes} {startLsn : ℕ} {mode : Mode}
    {pool : List Batch}
    (hreach : Machine.Reach step Feeds (new depth (Files.ofSegs segs) startLsn mode pool)
      engine) : engine.Sound ∧ engine.Filled :=
  reach_keeps (filled_new _ _ _ _ _) (fun _ _ => filled_move) hreach

/-! ## One segment -/

/-- The batches queued behind those in `before`. -/
def since (before : List Queued) (engine : WalEngine) : List Queued :=
  engine.queued.drop before.length

/-- Behind `base` the segment holds the batches queued since `before`, in LSN order
and without a gap. -/
structure Laid (before : List Queued) (base : Bytes) (low : ℕ) (engine : WalEngine) : Prop where
  kept : engine.queued = before ++ engine.since before
  image : engine.image = base ++ (engine.since before).flatMap fun entry => entry.batch.out
  tiled : Tiled base.length low (engine.since before)
  ingested : engine.lastIngestedLsn =
    low + ((engine.since before).flatMap fun entry => entry.batch.redo).length
  records : ∀ rec ∈ (engine.since before).flatMap fun entry => entry.batch.redo,
    GoodPut rec.2 ∧ rec.2.length ≤ maxPayload ∧ low < rec.1 ∧ rec.1 ≤ engine.lastIngestedLsn

section Laid

variable {before : List Queued} {base : Bytes} {low : ℕ}

theorem laid_open (hbefore : engine.queued = before) (himage : engine.image = base)
    (hlow : engine.lastIngestedLsn = low) : Laid before base low engine := by
  have hnone : engine.since before = [] := by
    rw [since, hbefore]
    exact List.drop_length
  refine ⟨?_, ?_, ?_, ?_, ?_⟩
  · rw [hnone, hbefore, List.append_nil]
  · rw [hnone, himage]
    exact (List.append_nil _).symm
  · rw [hnone]
    intro front entry back hsplit
    cases front <;> cases hsplit
  · rw [hnone, hlow]
    rfl
  · rw [hnone]
    intro rec hrec
    cases hrec

theorem Laid.same (hlaid : Laid before base low engine) (hqueued : after.queued = engine.queued)
    (himage : after.image = engine.image)
    (hingested : after.lastIngestedLsn = engine.lastIngestedLsn) :
    Laid before base low after := by
  have hsince : after.since before = engine.since before := by rw [since, hqueued, since]
  refine ⟨?_, ?_, ?_, ?_, ?_⟩
  · rw [hsince, hqueued]
    exact hlaid.kept
  · rw [hsince, himage]
    exact hlaid.image
  · rw [hsince]
    exact hlaid.tiled
  · rw [hsince, hingested]
    exact hlaid.ingested
  · rw [hsince, hingested]
    exact hlaid.records

theorem Laid.since_queue (hlaid : Laid before base low engine) (entry : Queued)
    (rest : List WalMsg) :
    (engine.queue entry rest).since before = engine.since before ++ [entry] := by
  have hlength : before.length ≤ engine.queued.length := by
    rw [hlaid.kept, List.length_append]
    exact Nat.le_add_right _ _
  exact List.drop_append_of_le_length hlength

theorem Laid.queue (hlaid : Laid before base low engine) {entry : Queued} (rest : List WalMsg)
    (hoffset : entry.offset = engine.image.length)
    (hlow : entry.batch.lsnLow = engine.lastIngestedLsn) (hencoded : Encoded entry.batch) :
    Laid before base low (engine.queue entry rest) := by
  have hsince := hlaid.since_queue entry rest
  have hingested := hlaid.ingested
  refine ⟨?_, ?_, ?_, ?_, ?_⟩
  · rw [hsince, ← List.append_assoc, ← hlaid.kept]
    rfl
  · rw [hsince, List.flatMap_append, ← List.append_assoc, ← hlaid.image, List.flatMap_singleton]
    rfl
  · rw [hsince]
    refine hlaid.tiled.snoc ⟨?_, ?_, hencoded.lsnHi, hencoded.out, hencoded.nonempty⟩
    · rw [hoffset, hlaid.image, List.length_append]
    · rw [hlow, hingested]
  · change entry.batch.lsnHi = _
    rw [hsince, hencoded.lsnHi, hlow, hingested, List.flatMap_append, List.length_append,
      List.flatMap_singleton, Nat.add_assoc]
  · rw [hsince]
    intro rec hrec
    change _ ∧ _ ∧ _ ∧ _ ≤ entry.batch.lsnHi
    have hhi := hencoded.lsnHi
    rw [List.flatMap_append, List.flatMap_singleton] at hrec
    rcases List.mem_append.mp hrec with hold | hnew
    · obtain ⟨hput, hbound, hgt, hle⟩ := hlaid.records rec hold
      exact ⟨hput, hbound, hgt, by omega⟩
    · obtain ⟨hput, hbound, hgt, hle⟩ := hencoded.records rec hnew
      exact ⟨hput, hbound, by omega, hle⟩

end Laid

/-- From the moment `opened` opened its segment: the layout, and which batch each
write in line belongs to. -/
structure Session (opened engine : WalEngine) : Prop where
  startLsn : engine.seg.startLsn = opened.seg.startLsn
  laid : Laid opened.queued opened.image opened.lastIngestedLsn engine
  inside : ∀ entry ∈ engine.since opened.queued, entry.seg = opened.seg.startLsn
  owned : ∀ op, .write op ∈ engine.line → ∃ entry ∈ engine.since opened.queued,
    entry.offset = op.offset ∧ entry.batch = op.data

theorem session_open {opened : WalEngine} (hline : opened.line = []) : Session opened opened := by
  have hnone : opened.since opened.queued = [] := List.drop_length
  refine ⟨rfl, laid_open rfl rfl rfl, ?_, ?_⟩
  · rw [hnone]
    exact fun _ h => by cases h
  · rw [hline]
    exact fun _ h => by cases h

theorem session_move {opened : WalEngine} {permit : Kind → WalEngine → Prop}
    (hsealed : ∀ current, ¬ permit .sealed current) (hsound : engine.Sound)
    (hsession : Session opened engine) (hmove : Move permit engine after) :
    Session opened after := by
  rcases move_steady hsound hmove with
    ⟨batch, entry, rest, -, rfl, hseg, hoffset, hlow, hencoded, -⟩ | ⟨_, _, hpermit, -⟩ | hsteady
  · have hsince := hsession.laid.since_queue entry rest
    refine ⟨hsession.startLsn, hsession.laid.queue rest hoffset hlow hencoded, ?_, ?_⟩
    · rw [hsince]
      intro other hother
      rcases List.mem_append.mp hother with hold | hnew
      · exact hsession.inside other hold
      · rw [List.mem_singleton.mp hnew, hseg]
        exact hsession.startLsn
    · rw [hsince, line_queue]
      intro op hop
      rcases List.mem_append.mp hop with hold | hnew
      · obtain ⟨owner, howner, hplace⟩ := hsession.owned op hold
        exact ⟨owner, List.mem_append_left _ howner, hplace⟩
      · simp only [IoWork.ofBatch, List.mem_singleton, IoWork.write.injEq] at hnew
        subst hnew
        exact ⟨entry, List.mem_append_right _ (List.mem_singleton_self _), rfl, rfl⟩
  · exact absurd hpermit (hsealed _)
  · have hsince : after.since opened.queued = engine.since opened.queued := by
      rw [since, hsteady.queued, since]
    refine ⟨?_, hsession.laid.same hsteady.queued hsteady.image hsteady.ingested, ?_, ?_⟩
    · rw [hsteady.seg]
      exact hsession.startLsn
    · rw [hsince]
      exact hsession.inside
    · rw [hsince]
      intro op hop
      obtain ⟨op', hop', hoffset, hdata⟩ := hsteady.comes op hop
      obtain ⟨entry, hentry, hplace, hbatch⟩ := hsession.owned op' hop'
      exact ⟨entry, hentry, hplace.trans hoffset, hbatch.trans hdata⟩

/-- The state in which a segment has just been opened: at the start of the process,
or by a rotate anywhere in a run. -/
inductive Opened : WalEngine → Prop
  | boot (depth : ℕ) (segs : SortedMap ℕ Bytes) (startLsn : ℕ) (mode : Mode) (pool : List Batch) :
      Opened (new depth (Files.ofSegs segs) startLsn mode pool)
  | rotate {depth : ℕ} {segs : SortedMap ℕ Bytes} {startLsn : ℕ} {mode : Mode} {pool : List Batch}
      {engine after : WalEngine} (hreach : Machine.Reach step Feeds
        (new depth (Files.ofSegs segs) startLsn mode pool) engine)
      (hseals : engine.Seals .drain) (hstep : engine.step .drain = some after) : Opened after

/-- Guard of the runs within one segment. -/
def WithinSegment (engine : WalEngine) (act : Act) : Prop :=
  Feeds engine act ∧ ¬ engine.Seals act

instance (engine : WalEngine) (act : Act) : Decidable (engine.Seals act) :=
  match hpc : engine.pc with
  | .draining boundaryLsn =>
      decidable_of_iff (act = .drain ∧ engine.shouldPark = true)
        ⟨fun h => ⟨h.1, h.2, boundaryLsn, hpc⟩, fun h => ⟨h.1, h.2.1⟩⟩
  | .top => isFalse fun h => by simp [Seals, hpc] at h
  | .plan => isFalse fun h => by simp [Seals, hpc] at h
  | .reaping _ _ => isFalse fun h => by simp [Seals, hpc] at h
  | .drainWait _ => isFalse fun h => by simp [Seals, hpc] at h

instance (engine : WalEngine) (act : Act) : Decidable (WithinSegment engine act) :=
  inferInstanceAs (Decidable (_ ∧ _))

theorem seals_inv (hseals : engine.Seals .drain) (hstep : engine.step .drain = some after) :
    ∃ boundaryLsn, engine.pc = .draining boundaryLsn ∧
      after = engine.sealSegment boundaryLsn := by
  obtain ⟨-, hidle, -⟩ := hseals
  cases stepped hstep with
  | @drain boundaryLsn hpc =>
      refine ⟨boundaryLsn, hpc, ?_⟩
      rw [drain, if_pos hidle]

theorem Opened.facts (hopened : Opened engine) :
    engine.Sound ∧ engine.Filled ∧ engine.line = [] := by
  cases hopened with
  | boot depth segs startLsn mode pool =>
      exact ⟨sound_new _ _ _ _ _, filled_new _ _ _ _ _, rfl⟩
  | @rotate _ _ _ _ _ before _ hreach hseals hstep =>
      obtain ⟨hsound, hfilled⟩ := filled_reach hreach
      have hidle := hseals.2.1
      obtain ⟨boundaryLsn, hpc, rfl⟩ := seals_inv hseals hstep
      have hdone := writesDone_of_park hidle
      simp only [shouldPark, decide_eq_true_eq] at hidle
      have htodo : before.todo = [] := by simp [todo, hpc, Pc.todo]
      have hsound' := sound_sealSegment hsound boundaryLsn hidle.1 hidle.2 htodo
      exact ⟨hsound', filled_seal hsound hfilled boundaryLsn hdone,
        line_eq_nil hsound' hidle.1 hidle.2⟩

/-- What a segment held when it was opened. -/
theorem Opened.image_eq (hopened : Opened engine) :
    engine.image = readSeg engine.files engine.seg.startLsn := by
  obtain ⟨hsound, hfilled, hline⟩ := hopened.facts
  have hcovers : Covers engine.disk.cache 0 engine.image.length := by
    intro index _ hindex
    rcases hfilled.holes index (by omega) with hheld | ⟨op, hop, -⟩
    · exact hheld
    · rw [hline] at hop
      cases hop
  rw [readSeg_active hsound rfl, eq_full_of_covers hsound.stored.agrees hcovers, contents_full]

theorem session_reach {opened : WalEngine} (hopened : Opened opened)
    (hreach : Machine.Reach step WithinSegment opened engine) :
    engine.Sound ∧ engine.Filled ∧ Session opened engine := by
  induction hreach with
  | start =>
      obtain ⟨hsound, hfilled, hline⟩ := hopened.facts
      exact ⟨hsound, hfilled, session_open hline⟩
  | @next state after act _ hguard hstep ih =>
      have hkeep : ∀ engine after : WalEngine,
          (engine.Sound ∧ engine.Filled ∧ Session opened engine) →
          Move (fun kind _ => kind ≠ .sealed) engine after →
            after.Sound ∧ after.Filled ∧ Session opened after := by
        intro engine after h hmove
        refine ⟨sound_move h.1 hmove, filled_move h.1 h.2.1 (hmove.mono fun _ _ _ => trivial), ?_⟩
        exact session_move (fun _ hpermit => hpermit rfl) h.1 h.2.2 hmove
      exact takes_keeps hkeep ih hguard.1 (fun _ _ => Takes.ne_sealed hguard.2) hstep

/-- The entry the ring holds for a write starts at the first byte that is still
missing and stays within the batch. -/
theorem sqe_write_inv {op : WriteOp} {startLsn seg offset : ℕ} {data : Bytes}
    (hdone : op.done ≤ op.data.out.length)
    (hsqe : (IoWork.write op).sqe startLsn = .write seg offset data) :
    seg = startLsn ∧ offset = op.offset + op.done ∧
      data = (op.data.out.drop op.done).take data.length ∧
      op.done + data.length ≤ op.data.out.length := by
  simp only [IoWork.sqe, Sqe.write.injEq] at hsqe
  obtain ⟨rfl, rfl, rfl⟩ := hsqe
  refine ⟨rfl, rfl, ?_, ?_⟩
  · rw [List.length_take, List.take_eq_take_min]
  · simp only [List.length_take, List.length_drop]
    omega

/-- A submitted write is built from an operation in line. -/
theorem Sound.exists_op (hsound : engine.Sound) {item : Entry}
    (hitem : item ∈ engine.ring.entries ++ engine.ring.sq) {seg offset : ℕ} {data : Bytes}
    (hsqe : item.sqe = .write seg offset data) :
    ∃ op, engine.inflight.lookup item.idx = some (.write op) ∧ .write op ∈ engine.line ∧
      seg = engine.seg.startLsn ∧ offset = op.offset + op.done ∧
      data = (op.data.out.drop op.done).take data.length ∧
      op.done + data.length ≤ op.data.out.length := by
  obtain ⟨work, hwork, hbuilt⟩ := hsound.ringed.built item hitem
  rw [hsqe] at hbuilt
  cases work with
  | fsync target => cases hbuilt
  | remove start => cases hbuilt
  | write op =>
      have hop := mem_line_of_lookup hsound.ringed.keyed hwork
      have hdone := (hsound.tracked.writes op hop).2.1.le
      exact ⟨op, hwork, hop, sqe_write_inv hdone hbuilt.symm⟩

/-- Within one segment, whatever is queued, submitted, cut short and retried in
whatever order: the queued batches have disjoint ranges that tile the segment in
LSN order from its length at open to `seg.offset`; every submitted write starts at
the first missing byte of its own range and stays in it; and once no write is
pending or in flight, the file is what it was at open with the buffers of the
batches behind it. -/
theorem segment_layout {opened : WalEngine} (hopened : Opened opened)
    (hreach : Machine.Reach step WithinSegment opened engine) :
    (engine.queued = opened.queued ++ engine.since opened.queued ∧
      (∀ entry ∈ engine.since opened.queued, entry.seg = opened.seg.startLsn)) ∧
    (engine.since opened.queued).Pairwise (fun earlier later =>
      earlier.offset + earlier.batch.out.length ≤ later.offset ∧
        earlier.batch.lsnHi ≤ later.batch.lsnLow) ∧
    Tiled (readSeg opened.files opened.seg.startLsn).length opened.lastIngestedLsn
      (engine.since opened.queued) ∧
    engine.seg.offset = (readSeg opened.files opened.seg.startLsn).length +
      ((engine.since opened.queued).flatMap fun entry => entry.batch.out).length ∧
    (∀ item ∈ engine.ring.entries ++ engine.ring.sq, ∀ seg offset data,
      item.sqe = .write seg offset data →
        ∃ op, engine.inflight.lookup item.idx = some (.write op) ∧
          ∃ entry ∈ engine.since opened.queued, entry.batch = op.data ∧
            seg = opened.seg.startLsn ∧ offset = entry.offset + op.done ∧
            data = (entry.batch.out.drop op.done).take data.length ∧
            op.done + data.length ≤ entry.batch.out.length) ∧
    (engine.WritesDone → readSeg engine.files opened.seg.startLsn =
      readSeg opened.files opened.seg.startLsn ++
        (engine.since opened.queued).flatMap fun entry => entry.batch.out) := by
  obtain ⟨hsound, hfilled, hsession⟩ := session_reach hopened hreach
  have hlaid := hsession.laid
  rw [← hopened.image_eq]
  refine ⟨⟨hlaid.kept, hsession.inside⟩, hlaid.tiled.pairwise, hlaid.tiled, ?_, ?_, ?_⟩
  · rw [← hsound.stored.length_image, hlaid.image, List.length_append]
  · intro item hitem seg offset data hsqe
    obtain ⟨op, hwork, hop, hseg, hoffset, hdata, hbound⟩ := hsound.exists_op hitem hsqe
    obtain ⟨entry, hentry, hplace, hbatch⟩ := hsession.owned op hop
    refine ⟨op, hwork, entry, hentry, hbatch, ?_, ?_, ?_, ?_⟩
    · rw [hseg, hsession.startLsn]
    · rw [hoffset, hplace]
    · rw [hbatch]
      exact hdata
    · rw [hbatch]
      exact hbound
  · intro hdone
    rw [readSeg_active hsound hsession.startLsn, hfilled.holes.cache_eq hsound hdone,
      contents_full, hlaid.image]

/-- Two batches behind three old bytes: the second lands first, the first in two
pieces. -/
theorem segment_layout_two :
    ∃ engine, Machine.Reach step WithinSegment
        (new 128 (Files.ofSegs (SortedMap.empty.insert 5 [1, 2, 3])) 5 .noFsync []) engine ∧
      engine.WritesDone ∧ engine.queued.map Queued.offset = [3, 30] ∧
      readSeg engine.files 5 = [1, 2, 3] ++ engine.queued.flatMap fun entry => entry.batch.out := by
  let first : Batch := ⟨[⟨.smallPut 65 66, 7, none, 0⟩], [], 5, 6, 0⟩
  let second : Batch := ⟨[⟨.smallPut 65 67, 7, none, 1⟩], [], 6, 7, 1⟩
  obtain ⟨engine, hreach, hdone⟩ := @Machine.exists_reach _ _ step WithinSegment
    (new 128 (Files.ofSegs (SortedMap.empty.insert 5 [1, 2, 3])) 5 .noFsync []) _
    [.arrive (.write first), .poll, .plan, .reap, .arrive (.write second), .poll, .plan, .reap,
      .start 0, .start 1, .complete 1 27, .complete 0 5, .poll, .plan, .reap, .send, .reap, .reap,
      .poll, .plan, .reap, .start 0, .complete 0 22, .poll, .plan, .reap, .send, .reap]
    (fun engine => engine.shouldPark = true ∧ engine.queued.map Queued.offset = [3, 30])
    (by decide +kernel)
  obtain ⟨hidle, hoffsets⟩ : engine.shouldPark = true ∧
      engine.queued.map Queued.offset = [3, 30] := of_decide_eq_true hdone
  have hwrites := writesDone_of_park hidle
  have hlayout := segment_layout (Opened.boot 128 (SortedMap.empty.insert 5 [1, 2, 3]) 5
    .noFsync []) hreach
  exact ⟨engine, hreach, hwrites, hoffsets, hlayout.2.2.2.2.2 hwrites⟩

end WalEngine

end InMemoryDb.Stage3
