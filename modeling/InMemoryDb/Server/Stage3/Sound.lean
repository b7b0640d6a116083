import InMemoryDb.Server.Stage3.Line
import InMemoryDb.Storage.Recover

/-!
# What the ring, the file and the queues agree on

The invariant behind every durability result about the engine.  `Ringed` is
about the ring alone, `Stored` about the active segment file and its intended
image, `Tracked` about what the engine may conclude from a completion.
-/

namespace InMemoryDb.Stage3

open SparseFile WalFormat Recover

namespace WalEngine

/-- `handle_batch` appends the records of the batch and counts its PUTs. -/
theorem encodeItems_eq (out : Bytes) (lsn : ℕ) (items : List Request) :
    encodeItems out lsn items =
      (out ++ encodeAll (records lsn items), lsn + (puts items).length) := by
  induction items generalizing out lsn with
  | nil => simp [encodeItems, records, encodeAll, puts]
  | cons req items ih =>
      cases hop : req.op with
      | put =>
          simp [encodeItems, hop, ih, records, puts, encodeRecord_eq, encodeAll]
          omega
      | get => simp [encodeItems, hop, ih, records, puts]
      | unknown code => simp [encodeItems, hop, ih, records, puts]

/-- The batch has its place in the active segment, and its buffer holds its
records. -/
structure Placed (engine : WalEngine) (batch : Batch) (offset : ℕ) : Prop where
  located : Located engine.image offset batch.out
  encoded : batch.out = encodeAll batch.redo
  queued : ∃ entry ∈ engine.queued, entry.seg = engine.seg.startLsn ∧ entry.offset = offset ∧
    entry.batch.redo = batch.redo ∧ entry.batch.out = batch.out ∧
    entry.batch.lsnLow = batch.lsnLow ∧ entry.batch.lsnHi = batch.lsnHi

/-- The ring keeps the drain rule, and every entry was built for the active
segment. -/
structure Ringed (engine : WalEngine) : Prop where
  keyed : engine.Keyed
  barrier : engine.ring.entries.Pairwise fun earlier later =>
    (earlier.sqe.drains ∨ later.sqe.drains) → later.phase = .queued
  waiting : ∀ entry ∈ engine.ring.sq, entry.phase = .queued
  built : ∀ entry ∈ engine.ring.entries ++ engine.ring.sq, ∃ work,
    engine.inflight.lookup entry.idx = some work ∧ entry.sqe = work.sqe engine.seg.startLsn
  seen : ∀ entry ∈ engine.ring.entries, ∀ seen, entry.phase = .running seen →
    entry.sqe.drains → seen = engine.disk.cache

/-- The active segment file exists and holds nothing but parts of its image. -/
structure Stored (engine : WalEngine) : Prop where
  opened : ∃ file, engine.files.lookup engine.seg.startLsn = some file
  grows : ∀ seg file, engine.files.lookup seg = some file → Grows file.stable file.cache
  length_image : engine.image.length = engine.seg.offset
  agrees : Agrees engine.disk.cache engine.image

/-- A successful fsync waits to be reaped. -/
def Flushed (engine : WalEngine) : Prop :=
  ∃ cqe ∈ engine.posted, 0 ≤ cqe.result ∧
    ∃ target, engine.inflight.lookup cqe.userData = some (.fsync target)

/-- A batch in `awaiting_fsync` is written, and on stable storage as soon as a
successful fsync is posted. -/
def Waits (engine : WalEngine) (batch : Batch) : Prop :=
  ∃ offset, engine.Placed batch offset ∧ Covers engine.disk.cache offset batch.out.length ∧
    (engine.Flushed → Covers engine.disk.stable offset batch.out.length)

/-- The completion says that the write is done in full. -/
def Full (op : WriteOp) (cqe : Cqe) : Prop :=
  0 ≤ cqe.result ∧ op.data.out.length ≤ op.done + cqe.result.toNat

instance (op : WriteOp) (cqe : Cqe) : Decidable (Full op cqe) :=
  inferInstanceAs (Decidable (_ ∧ _))

/-- What is known about the operations in line. -/
structure Tracked (engine : WalEngine) : Prop where
  removes : ∀ start, .remove start ∈ engine.line → start < engine.seg.startLsn
  writes : ∀ op, .write op ∈ engine.line → engine.Placed op.data op.offset ∧
    op.done < op.data.out.length ∧ Covers engine.disk.cache op.offset op.done
  reported : ∀ cqe ∈ engine.posted, ∀ op,
    engine.inflight.lookup cqe.userData = some (.write op) → 0 ≤ cqe.result →
      op.done + cqe.result.toNat ≤ op.data.out.length ∧
        Covers engine.disk.cache (op.offset + op.done) cqe.result.toNat
  awaits : ∀ batch ∈ engine.awaitingFsync, engine.Waits batch
  flushed : engine.posted.Pairwise fun early late => ∀ op target,
    engine.inflight.lookup early.userData = some (.write op) → Full op early →
      engine.inflight.lookup late.userData = some (.fsync target) → 0 ≤ late.result →
        Covers engine.disk.stable op.offset op.data.out.length

/-- Everything that is waiting in the channel has the shape stage 2 gives it. -/
def Fed (engine : WalEngine) : Prop :=
  ∀ batch, .write batch ∈ engine.msgRx → FromStage2 engine.ack batch

structure Sound (engine : WalEngine) : Prop where
  ringed : engine.Ringed
  stored : engine.Stored
  tracked : engine.Tracked
  fed : engine.Fed

/-! ## Frames -/

variable {engine after : WalEngine}

theorem disk_congr (hfiles : after.files = engine.files)
    (hseg : after.seg.startLsn = engine.seg.startLsn) : after.disk = engine.disk := by
  simp [disk, hfiles, hseg]

theorem Ringed.frame (hringed : engine.Ringed) (hkeyed : after.Keyed)
    (hentries : after.ring.entries = engine.ring.entries)
    (hsq : after.ring.sq = engine.ring.sq)
    (hlookup : ∀ entry ∈ engine.ring.entries ++ engine.ring.sq,
      after.inflight.lookup entry.idx = engine.inflight.lookup entry.idx)
    (hseg : after.seg.startLsn = engine.seg.startLsn) (hdisk : after.disk = engine.disk) :
    after.Ringed := by
  refine ⟨hkeyed, ?_, ?_, ?_, ?_⟩
  · rw [hentries]
    exact hringed.barrier
  · rw [hsq]
    exact hringed.waiting
  · rw [hentries, hsq, hseg]
    intro entry hentry
    rw [hlookup entry hentry]
    exact hringed.built entry hentry
  · rw [hentries, hdisk]
    exact hringed.seen

theorem Stored.frame (hstored : engine.Stored) (hfiles : after.files = engine.files)
    (hseg : after.seg = engine.seg) (himage : after.image = engine.image) : after.Stored := by
  refine ⟨?_, ?_, ?_, ?_⟩
  · rw [hfiles, hseg]
    exact hstored.opened
  · rw [hfiles]
    exact hstored.grows
  · rw [himage, hseg]
    exact hstored.length_image
  · rw [disk_congr hfiles (by rw [hseg]), himage]
    exact hstored.agrees

theorem Placed.frame {batch : Batch} {offset : ℕ} (hplaced : engine.Placed batch offset)
    (hseg : after.seg.startLsn = engine.seg.startLsn) {more : Bytes} {news : List Queued}
    (himage : after.image = engine.image ++ more)
    (hqueued : after.queued = engine.queued ++ news) : after.Placed batch offset := by
  refine ⟨?_, hplaced.encoded, ?_⟩
  · rw [himage]
    exact hplaced.located.append more
  · obtain ⟨entry, hentry, hrest⟩ := hplaced.queued
    refine ⟨entry, ?_, ?_⟩
    · rw [hqueued]
      exact List.mem_append_left _ hentry
    · rw [hseg]
      exact hrest

/-- What the engine knows stays true while the file grows and completions are
only taken away; new operations and new waiting batches come with their own
evidence. -/
theorem Tracked.extend (htracked : engine.Tracked)
    (hplaced : ∀ batch offset, engine.Placed batch offset → after.Placed batch offset)
    (hcache : Grows engine.disk.cache after.disk.cache)
    (hstable : Grows engine.disk.stable after.disk.stable)
    (hremoves : ∀ start, .remove start ∈ after.line → start < after.seg.startLsn)
    (hwrites : ∀ op, .write op ∈ after.line → .write op ∈ engine.line ∨
      (after.Placed op.data op.offset ∧ op.done < op.data.out.length ∧
        Covers after.disk.cache op.offset op.done))
    (hposted : List.Sublist after.posted engine.posted)
    (hlookup : ∀ cqe ∈ after.posted,
      after.inflight.lookup cqe.userData = engine.inflight.lookup cqe.userData)
    (hawaits : ∀ batch ∈ after.awaitingFsync,
      batch ∈ engine.awaitingFsync ∨ after.Waits batch) : after.Tracked := by
  have hflushed : after.Flushed → engine.Flushed := by
    rintro ⟨cqe, hcqe, hres, target, hwork⟩
    exact ⟨cqe, hposted.mem hcqe, hres, target, hlookup cqe hcqe ▸ hwork⟩
  refine ⟨hremoves, ?_, ?_, ?_, ?_⟩
  · intro op hop
    rcases hwrites op hop with hold | hnew
    · obtain ⟨hat, hdone, hcovers⟩ := htracked.writes op hold
      exact ⟨hplaced _ _ hat, hdone, hcovers.mono hcache⟩
    · exact hnew
  · intro cqe hcqe op hwork hres
    rw [hlookup cqe hcqe] at hwork
    obtain ⟨hbound, hcovers⟩ := htracked.reported cqe (hposted.mem hcqe) op hwork hres
    exact ⟨hbound, hcovers.mono hcache⟩
  · intro batch hbatch
    rcases hawaits batch hbatch with hold | hnew
    · obtain ⟨offset, hat, hcovers, hflush⟩ := htracked.awaits batch hold
      exact ⟨offset, hplaced _ _ hat, hcovers.mono hcache,
        fun h => (hflush (hflushed h)).mono hstable⟩
    · exact hnew
  · refine (htracked.flushed.sublist hposted).imp_of_mem ?_
    intro early late hearly hlate hpair op target hwork hfull hfsync hres
    rw [hlookup early hearly] at hwork
    rw [hlookup late hlate] at hfsync
    exact (hpair op target hwork hfull hfsync hres).mono hstable

/-- The common case: the store is untouched. -/
theorem Tracked.frame (htracked : engine.Tracked) (hdisk : after.disk = engine.disk)
    (hseg : after.seg.startLsn = engine.seg.startLsn) (himage : after.image = engine.image)
    (hqueued : after.queued = engine.queued)
    (hremoves : ∀ start, .remove start ∈ after.line → start < engine.seg.startLsn)
    (hwrites : ∀ op, .write op ∈ after.line → .write op ∈ engine.line)
    (hposted : List.Sublist after.posted engine.posted)
    (hlookup : ∀ cqe ∈ after.posted,
      after.inflight.lookup cqe.userData = engine.inflight.lookup cqe.userData)
    (hawaits : ∀ batch ∈ after.awaitingFsync, batch ∈ engine.awaitingFsync) :
    after.Tracked := by
  refine htracked.extend ?_ ?_ ?_ ?_ (fun op hop => Or.inl (hwrites op hop)) hposted hlookup
    fun batch hbatch => Or.inl (hawaits batch hbatch)
  · intro batch offset hplaced
    exact hplaced.frame hseg (by rw [himage, List.append_nil]) (by rw [hqueued, List.append_nil])
  · rw [hdisk]
    exact Grows.refl _
  · rw [hdisk]
    exact Grows.refl _
  · rw [hseg]
    exact hremoves

/-! ## The moves of the engine thread -/

/-- A move that touches neither the store nor the line. -/
theorem Sound.frame (hsound : engine.Sound) (hfiles : after.files = engine.files)
    (hseg : after.seg = engine.seg) (himage : after.image = engine.image)
    (hqueued : after.queued = engine.queued) (hinflight : after.inflight = engine.inflight)
    (hring : after.ring = engine.ring) (htodo : after.todo = engine.todo)
    (hpending : after.pending = engine.pending)
    (hawaiting : after.awaitingFsync = engine.awaitingFsync) (hfed : after.Fed) :
    after.Sound := by
  obtain ⟨hringed, hstored, htracked, -⟩ := hsound
  have htickets : after.tickets = engine.tickets := tickets_frame htodo hring
  have hline : after.line = engine.line := line_congr htickets hinflight hpending
  have hposted : after.posted = engine.posted := by rw [posted, posted, htodo, hring]
  have hstart : after.seg.startLsn = engine.seg.startLsn := by rw [hseg]
  have hdisk : after.disk = engine.disk := disk_congr hfiles hstart
  refine ⟨?_, hstored.frame hfiles hseg himage, ?_, hfed⟩
  · exact hringed.frame (hringed.keyed.congr (List.Perm.of_eq htickets) hinflight)
      (by rw [hring]) (by rw [hring]) (fun _ _ => by rw [hinflight]) hstart hdisk
  · refine htracked.frame hdisk hstart himage hqueued ?_ ?_ (by rw [hposted])
      (fun _ _ => by rw [hinflight]) (by rw [hawaiting]; exact fun _ h => h)
    · rw [hline]
      exact htracked.removes
    · rw [hline]
      exact fun _ h => h

theorem sound_push (hsound : engine.Sound) {work : IoWork} {rest : List IoWork}
    (hpending : engine.pending = work :: rest) : (engine.push work rest).Sound := by
  obtain ⟨hringed, hstored, htracked, hfed⟩ := hsound
  have hline := line_push hringed.keyed hpending
  refine ⟨⟨hringed.keyed.push work rest, hringed.barrier, ?_, ?_, hringed.seen⟩,
    hstored.frame rfl rfl rfl, ?_, hfed⟩
  · intro entry hentry
    rcases List.mem_append.mp hentry with hold | hnew
    · exact hringed.waiting entry hold
    · rw [List.mem_singleton.mp hnew]
  · intro entry hentry
    rw [push, ← List.append_assoc] at hentry
    rcases List.mem_append.mp hentry with hold | hnew
    · rw [lookup_push hringed.keyed work rest (idx_mem_tickets hold)]
      exact hringed.built entry hold
    · rw [List.mem_singleton.mp hnew]
      exact ⟨work, lookup_push_self engine work rest, rfl⟩
  · refine htracked.frame rfl rfl rfl rfl ?_ ?_ (List.Sublist.refl _) ?_ fun _ h => h
    · rw [hline]
      exact htracked.removes
    · rw [hline]
      exact fun _ h => h
    · intro cqe hcqe
      exact lookup_push hringed.keyed work rest (userData_mem_tickets hcqe)

theorem sound_beginReap (hsound : engine.Sound) (ret : Return) (htodo : engine.todo = []) :
    (engine.beginReap ret).Sound := by
  obtain ⟨hringed, hstored, htracked, hfed⟩ := hsound
  have htickets := tickets_beginReap engine ret htodo
  have hline : (engine.beginReap ret).line = engine.line := line_congr htickets rfl rfl
  have hposted : (engine.beginReap ret).posted = engine.posted := by
    simp only [posted, htodo]
    simp [beginReap, todo, Pc.todo]
  refine ⟨?_, hstored.frame rfl rfl rfl, ?_, hfed⟩
  · exact hringed.frame (hringed.keyed.congr (List.Perm.of_eq htickets) rfl) rfl rfl
      (fun _ _ => rfl) rfl rfl
  · refine htracked.frame rfl rfl rfl rfl ?_ ?_ (by rw [hposted]) (fun _ _ => rfl) fun _ h => h
    · rw [hline]
      exact htracked.removes
    · rw [hline]
      exact fun _ h => h

theorem sound_submitRing (hsound : engine.Sound) : engine.submitRing.Sound := by
  obtain ⟨hringed, hstored, htracked, hfed⟩ := hsound
  have htickets := tickets_submitRing engine
  have hline : engine.submitRing.line = engine.line := line_congr htickets rfl rfl
  refine ⟨⟨hringed.keyed.congr (List.Perm.of_eq htickets) rfl, ?_, by simp [submitRing,
    IoUring.submit], ?_, ?_⟩, hstored.frame rfl rfl rfl, ?_, hfed⟩
  · refine List.pairwise_append.mpr ⟨hringed.barrier, ?_, ?_⟩
    · exact List.pairwise_of_forall_mem_list fun _ _ later hlater _ => hringed.waiting later hlater
    · exact fun _ _ later hlater _ => hringed.waiting later hlater
  · intro entry hentry
    exact hringed.built entry (by simpa [submitRing, IoUring.submit] using hentry)
  · intro entry hentry seen hrunning
    rcases List.mem_append.mp hentry with hold | hnew
    · exact hringed.seen entry hold seen hrunning
    · rw [hringed.waiting entry hnew] at hrunning
      cases hrunning
  · refine htracked.frame rfl rfl rfl rfl ?_ ?_ (List.Sublist.refl _) (fun _ _ => rfl)
      fun _ h => h
    · rw [hline]
      exact htracked.removes
    · rw [hline]
      exact fun _ h => h

theorem sound_pop (hsound : engine.Sound) {cqe : Cqe} {rest : List Cqe} {ret : Return}
    {work : IoWork} (hpc : engine.pc = .reaping (cqe :: rest) ret)
    (hwork : engine.inflight.lookup cqe.userData = some work) :
    (engine.pop cqe rest ret).Sound := by
  obtain ⟨hringed, hstored, htracked, hfed⟩ := hsound
  have hline := line_pop hringed.keyed hpc hwork
  refine ⟨?_, hstored.frame rfl rfl rfl, ?_, hfed⟩
  · refine hringed.frame (hringed.keyed.pop hpc) rfl rfl ?_ rfl rfl
    intro entry hentry
    exact lookup_pop hringed.keyed hpc (idx_mem_tickets hentry)
  · refine htracked.frame rfl rfl rfl rfl ?_ ?_ ?_ ?_ fun _ h => h
    · intro start hstart
      exact htracked.removes start (by rw [hline]; exact List.mem_cons_of_mem _ hstart)
    · intro op hop
      rw [hline]
      exact List.mem_cons_of_mem _ hop
    · rw [posted_pop hpc]
      exact List.sublist_cons_self _ _
    · intro other hother
      exact lookup_pop hringed.keyed hpc (userData_mem_tickets hother)

/-- A write that is reaped as done is in the file, and on stable storage if a
successful fsync was posted behind it. -/
theorem waits_reapWritten (hsound : engine.Sound) {cqe : Cqe} {rest : List Cqe} {ret : Return}
    {op : WriteOp} (hpc : engine.pc = .reaping (cqe :: rest) ret)
    (hwork : engine.inflight.lookup cqe.userData = some (.write op)) (hfull : Full op cqe) :
    (engine.pop cqe rest ret).Waits op.data := by
  obtain ⟨hringed, -, htracked, -⟩ := hsound
  have hop : .write op ∈ engine.line := mem_line_of_lookup hringed.keyed hwork
  obtain ⟨hat, hdone, hcovers⟩ := htracked.writes op hop
  have hposted := posted_pop hpc
  obtain ⟨hbound, hrange⟩ := htracked.reported cqe (by rw [hposted]; simp) op hwork hfull.1
  have hall : op.done + cqe.result.toNat = op.data.out.length := le_antisymm hbound hfull.2
  refine ⟨op.offset, ⟨hat.located, hat.encoded, hat.queued⟩, ?_, ?_⟩
  · have hjoin := hcovers.join hrange
    rwa [hall] at hjoin
  · rintro ⟨late, hlate, hres, target, hfsync⟩
    have hpairs := htracked.flushed
    rw [hposted, List.pairwise_cons] at hpairs
    rw [lookup_pop hringed.keyed hpc (userData_mem_tickets hlate)] at hfsync
    exact hpairs.1 late hlate op target hwork hfull hfsync hres

theorem Waits.congr {batch batch' : Batch} (hwaits : engine.Waits batch)
    (hout : batch'.out = batch.out) (hredo : batch'.redo = batch.redo)
    (hlow : batch'.lsnLow = batch.lsnLow) (hhi : batch'.lsnHi = batch.lsnHi) :
    engine.Waits batch' := by
  obtain ⟨offset, hat, hcovers, hflush⟩ := hwaits
  refine ⟨offset, ⟨?_, ?_, ?_⟩, ?_, ?_⟩
  · rw [hout]
    exact hat.located
  · rw [hout, hredo]
    exact hat.encoded
  · rw [hout, hredo, hlow, hhi]
    exact hat.queued
  · rw [hout]
    exact hcovers
  · rw [hout]
    exact hflush

theorem sound_reapWritten (hsound : engine.Sound) {cqe : Cqe} {rest : List Cqe}
    {ret : Return} {op : WriteOp} (hpc : engine.pc = .reaping (cqe :: rest) ret)
    (hwork : engine.inflight.lookup cqe.userData = some (.write op)) (hfull : Full op cqe) :
    ((engine.pop cqe rest ret).reapWritten op.data).Sound := by
  obtain ⟨hringed, hstored, htracked, hfed⟩ := sound_pop hsound hpc hwork
  have hwaits := waits_reapWritten hsound hpc hwork hfull
  rw [reapWritten_eq]
  refine ⟨?_, hstored.frame rfl rfl rfl, ?_, hfed⟩
  · exact hringed.frame (hringed.keyed.congr (List.Perm.refl _) rfl) rfl rfl (fun _ _ => rfl)
      rfl rfl
  · refine htracked.extend (fun _ _ h => h.frame rfl (List.append_nil _).symm
      (List.append_nil _).symm) (Grows.refl _) (Grows.refl _) htracked.removes
      (fun _ h => Or.inl h) (List.Sublist.refl _) (fun _ _ => rfl) ?_
    intro batch hbatch
    rcases List.mem_append.mp hbatch with hold | hnew
    · exact Or.inl hold
    · right
      split_ifs at hnew with hsettled
      · simp at hnew
      · rw [List.mem_singleton.mp hnew]
        obtain ⟨offset, hat, hcovers, hflush⟩ := hwaits.congr (Acker.advance_out _ _ _)
          (Acker.advance_redo _ _ _) (Acker.advance_lsnLow _ _ _) (Acker.advance_lsnHi _ _ _)
        exact ⟨offset, ⟨hat.located, hat.encoded, hat.queued⟩, hcovers, hflush⟩

/-- A retried write keeps its place; what it has written so far is covered. -/
theorem sound_reapRetry (hsound : engine.Sound) {cqe : Cqe} {rest : List Cqe} {ret : Return}
    {op : WriteOp} {done : ℕ} (planner : FsyncPlanner)
    (hpc : engine.pc = .reaping (cqe :: rest) ret)
    (hwork : engine.inflight.lookup cqe.userData = some (.write op))
    (hdone : (done = op.done ∧ cqe.result < 0) ∨
      (done = op.done + cqe.result.toNat ∧ 0 ≤ cqe.result ∧ done < op.data.out.length)) :
    { engine.pop cqe rest ret with
      fsyncPlanner := planner
      pending := IoWork.write { op with done := done } :: engine.pending }.Sound := by
  obtain ⟨hringed, hstored, htracked, hfed⟩ := sound_pop hsound hpc hwork
  have hop : .write op ∈ engine.line := mem_line_of_lookup hsound.ringed.keyed hwork
  obtain ⟨hat, hless, hcovers⟩ := hsound.tracked.writes op hop
  have hnew : done < op.data.out.length ∧ Covers engine.disk.cache op.offset done := by
    rcases hdone with ⟨rfl, -⟩ | ⟨rfl, hres, hlt⟩
    · exact ⟨hless, hcovers⟩
    · have hreported := hsound.tracked.reported cqe (by rw [posted_pop hpc]; simp) op hwork hres
      exact ⟨hlt, hcovers.join hreported.2⟩
  refine ⟨?_, hstored.frame rfl rfl rfl, ?_, hfed⟩
  · exact hringed.frame (hringed.keyed.congr (List.Perm.refl _) rfl) rfl rfl (fun _ _ => rfl)
      rfl rfl
  · refine htracked.extend (fun _ _ h => h.frame rfl (List.append_nil _).symm
      (List.append_nil _).symm) (Grows.refl _) (Grows.refl _) ?_ ?_ (List.Sublist.refl _)
      (fun _ _ => rfl) fun _ h => Or.inl h
    · intro start hstart
      rcases mem_line_retry.mp hstart with heq | hold
      · cases heq
      · exact htracked.removes start hold
    · intro other hother
      rcases mem_line_retry.mp hother with heq | hold
      · right
        simp only [IoWork.write.injEq] at heq
        subst heq
        exact ⟨⟨hat.located, hat.encoded, hat.queued⟩, hnew⟩
      · exact Or.inl hold

theorem sound_releaseDurable (hsound : engine.Sound) (planner : FsyncPlanner) :
    { engine.releaseDurable with fsyncPlanner := planner }.Sound := by
  obtain ⟨hringed, hstored, htracked, hfed⟩ := hsound
  refine ⟨?_, hstored.frame rfl rfl rfl, ?_, hfed⟩
  · exact hringed.frame (hringed.keyed.congr (List.Perm.refl _) rfl) rfl rfl (fun _ _ => rfl)
      rfl rfl
  · exact htracked.frame rfl rfl rfl rfl htracked.removes (fun _ h => h) (List.Sublist.refl _)
      (fun _ _ => rfl) (by simp [releaseDurable])

/-- Operations that carry no data may join the end of the line. -/
theorem sound_append (hsound : engine.Sound) (planner : FsyncPlanner) (works : List IoWork)
    (hworks : ∀ work ∈ works, (∃ target, work = .fsync target) ∨
      ∃ start, work = .remove start ∧ start < engine.seg.startLsn) :
    { engine with fsyncPlanner := planner, pending := engine.pending ++ works }.Sound := by
  obtain ⟨hringed, hstored, htracked, hfed⟩ := hsound
  have hline : { engine with
      fsyncPlanner := planner, pending := engine.pending ++ works }.line =
      engine.line ++ works := (List.append_assoc _ _ _).symm
  refine ⟨?_, hstored.frame rfl rfl rfl, ?_, hfed⟩
  · exact hringed.frame (hringed.keyed.congr (List.Perm.refl _) rfl) rfl rfl (fun _ _ => rfl)
      rfl rfl
  · refine htracked.frame rfl rfl rfl rfl ?_ ?_ (List.Sublist.refl _) (fun _ _ => rfl)
      fun _ h => h
    · intro start hstart
      rw [hline] at hstart
      rcases List.mem_append.mp hstart with hold | hnew
      · exact htracked.removes start hold
      · rcases hworks _ hnew with ⟨target, htarget⟩ | ⟨other, hother, hlt⟩
        · cases htarget
        · cases hother
          exact hlt
    · intro op hop
      rw [hline] at hop
      rcases List.mem_append.mp hop with hold | hnew
      · exact hold
      · rcases hworks _ hnew with ⟨target, htarget⟩ | ⟨other, hother, hlt⟩
        · cases htarget
        · cases hother

theorem encodeAll_ne_nil {records : List (ℕ × Bytes)} (hrecords : records ≠ []) :
    encodeAll records ≠ [] := by
  cases records with
  | nil => exact absurd rfl hrecords
  | cons rec records =>
      intro hnil
      rw [encodeAll, List.flatMap_cons, List.append_eq_nil_iff] at hnil
      exact record_ne_nil _ _ hnil.1

theorem sound_enqueue (hsound : engine.Sound) {batch : Batch} {rest : List WalMsg}
    (hmsg : engine.msgRx = .write batch :: rest)
    (hbatch : { engine with msgRx := rest }.handleBatch batch = .ok after) : after.Sound := by
  obtain ⟨hringed, hstored, htracked, hfed⟩ := hsound
  have hshape : FromStage2 engine.ack batch := hfed batch (by simp [hmsg])
  obtain ⟨hlow, hcount, out, hout, rfl⟩ := handleBatch_inv hbatch
  have hencoded : out = encodeAll batch.redo := by
    rw [hout, encodeItems_eq, hshape.out]
    rfl
  have hnonempty : 0 < out.length := by
    apply List.length_pos_of_ne_nil
    rw [hencoded]
    apply encodeAll_ne_nil
    apply List.ne_nil_of_length_pos
    rw [Batch.redo, length_records]
    exact hshape.walWork
  refine ⟨?_, ?_, ?_, ?_⟩
  · exact hringed.frame (hringed.keyed.congr (List.Perm.refl _) rfl) rfl rfl (fun _ _ => rfl)
      rfl rfl
  · refine ⟨hstored.opened, hstored.grows, ?_, hstored.agrees.append out⟩
    simp [hstored.length_image]
  · refine htracked.extend ?_ (Grows.refl _) (Grows.refl _) ?_ ?_ (List.Sublist.refl _)
      (fun _ _ => rfl) fun _ h => Or.inl h
    · exact fun _ _ hplaced => hplaced.frame rfl rfl rfl
    · intro start hstart
      apply htracked.removes start
      simpa [line, worksAt, tickets, todo, IoWork.ofBatch] using hstart
    · intro op hop
      rcases List.mem_append.mp hop with hold | hpend
      · exact Or.inl (List.mem_append_left _ hold)
      · rcases List.mem_append.mp hpend with hold | hnew
        · exact Or.inl (List.mem_append_right _ hold)
        · right
          simp only [IoWork.ofBatch, List.mem_singleton, IoWork.write.injEq] at hnew
          subst hnew
          refine ⟨⟨?_, hencoded, ?_⟩, hnonempty, covers_zero _ _⟩
          · rw [← hstored.length_image]
            exact located_append_self _ _
          · exact ⟨_, List.mem_append_right _ (List.mem_singleton_self _), rfl, rfl, rfl, rfl,
              rfl, rfl⟩
  · intro other hother
    exact hfed other (by rw [hmsg]; exact List.mem_cons_of_mem _ hother)

/-- A freshly opened segment: the image is what the file holds. -/
theorem stored_open {files : Files} {startLsn : ℕ}
    (hgrows : ∀ seg file, files.lookup seg = some file → Grows file.stable file.cache)
    (hfiles : engine.files = (Segment.open files startLsn).1)
    (hseg : engine.seg = (Segment.open files startLsn).2)
    (himage : engine.image = readSeg files startLsn) : engine.Stored := by
  cases hlookup : files.lookup startLsn with
  | some file =>
      simp only [Segment.open, hlookup] at hfiles hseg
      have hread : readSeg files startLsn = contents file.cache := by
        simp [readSeg, cacheOf, hlookup]
      have hdisk : engine.disk = file := by simp [disk, hfiles, hseg, hlookup]
      refine ⟨⟨file, by rw [hfiles, hseg, hlookup]⟩, by rw [hfiles]; exact hgrows, ?_, ?_⟩
      · rw [himage, hread, hseg, length_contents]
      · rw [hdisk, himage, hread]
        exact agrees_contents _
  | none =>
      simp only [Segment.open, hlookup] at hfiles hseg
      have hread : readSeg files startLsn = [] := by
        simp [readSeg, cacheOf, hlookup, contents]
      have hdisk : engine.disk = File.empty := by simp [disk, hfiles, hseg]
      refine ⟨⟨File.empty, by rw [hfiles, hseg, SortedMap.lookup_insert_self]⟩, ?_, ?_, ?_⟩
      · intro seg file hfile
        rw [hfiles] at hfile
        by_cases hsame : startLsn = seg
        · rw [hsame, SortedMap.lookup_insert_self, Option.some.injEq] at hfile
          rw [← hfile]
          exact Grows.refl _
        · rw [SortedMap.lookup_insert_ne _ _ hsame] at hfile
          exact hgrows seg file hfile
      · rw [himage, hread, hseg]
        rfl
      · rw [hdisk, himage, hread]
        exact agrees_contents []

/-- An engine with nothing in line and nobody waiting. -/
theorem sound_idle (hstored : engine.Stored) (hfed : engine.Fed) (hkeyed : engine.Keyed)
    (hinflight : engine.inflight = ∅) (hpending : engine.pending = [])
    (hawaiting : engine.awaitingFsync = []) : engine.Sound := by
  have htickets := tickets_eq_nil hkeyed hinflight
  have hline : engine.line = [] := by rw [line, htickets, hpending]; rfl
  have hposted : engine.posted = [] := by
    apply List.eq_nil_iff_forall_not_mem.mpr
    intro cqe hcqe
    have hmem := userData_mem_tickets hcqe
    rw [htickets] at hmem
    cases hmem
  have hentries : engine.ring.entries ++ engine.ring.sq = [] := by
    apply List.eq_nil_iff_forall_not_mem.mpr
    intro entry hentry
    have hmem := idx_mem_tickets hentry
    rw [htickets] at hmem
    cases hmem
  obtain ⟨hnone, hsq⟩ := List.append_eq_nil_iff.mp hentries
  refine ⟨⟨hkeyed, ?_, ?_, ?_, ?_⟩, hstored, ⟨?_, ?_, ?_, ?_, ?_⟩, hfed⟩
  · simp [hnone]
  · simp [hsq]
  · simp [hentries]
  · simp [hnone]
  · simp [hline]
  · simp [hline]
  · simp [hposted]
  · simp [hawaiting]
  · simp [hposted]

theorem sound_sealSegment (hsound : engine.Sound) (boundaryLsn : ℕ)
    (hpending : engine.pending = []) (hinflight : engine.inflight = ∅)
    (htodo : engine.todo = []) : (engine.sealSegment boundaryLsn).Sound := by
  have hgrows : ∀ seg file,
      (engine.files.insert engine.seg.startLsn (engine.disk.flush engine.disk.cache)).lookup seg =
        some file → Grows file.stable file.cache := by
    intro seg file hfile
    by_cases hsame : engine.seg.startLsn = seg
    · rw [hsame, SortedMap.lookup_insert_self, Option.some.injEq] at hfile
      rw [← hfile]
      exact Grows.refl _
    · rw [SortedMap.lookup_insert_ne _ _ hsame] at hfile
      exact hsound.stored.grows seg file hfile
  have hkeyed : (engine.sealSegment boundaryLsn).Keyed := by
    have htickets := @tickets_frame engine (engine.sealSegment boundaryLsn) htodo.symm rfl
    exact hsound.ringed.keyed.congr (List.Perm.of_eq htickets) rfl
  exact sound_idle (stored_open hgrows rfl rfl rfl) hsound.fed hkeyed hinflight hpending rfl

/-! ## The moves of the kernel -/

theorem sound_start (hsound : engine.Sound) {position : ℕ} {ring : IoUring}
    (hstart : startEntry engine.files engine.ring position = some ring) :
    { engine with ring := ring }.Sound := by
  obtain ⟨hringed, hstored, htracked, hfed⟩ := hsound
  have htickets := tickets_start engine hstart
  have hline : { engine with ring := ring }.line = engine.line := line_congr htickets rfl rfl
  obtain ⟨front, entry, back, hentries, hqueued, hmay, rfl⟩ := startEntry_inv hstart
  have hbuilt := hringed.built
  have hbarrier := hringed.barrier
  have hseen := hringed.seen
  rw [hentries] at hbuilt hbarrier hseen
  refine ⟨⟨hringed.keyed.congr (List.Perm.of_eq htickets) rfl, ?_, hringed.waiting, ?_, ?_⟩,
    hstored.frame rfl rfl rfl, ?_, hfed⟩
  · obtain ⟨hfront, hrest, hcross⟩ := List.pairwise_append.mp hbarrier
    obtain ⟨hhead, hback⟩ := List.pairwise_cons.mp hrest
    refine List.pairwise_append.mpr ⟨hfront, List.pairwise_cons.mpr ⟨hhead, hback⟩, ?_⟩
    intro earlier hearlier later hlater hdrains
    rcases List.mem_cons.mp hlater with rfl | hlater
    · obtain ⟨hno, hno'⟩ := hmay earlier hearlier
      simp [hno, hno'] at hdrains
    · exact hcross earlier hearlier later (List.mem_cons_of_mem _ hlater) hdrains
  · intro other hother
    have hcases : other = { entry with phase := .running (entry.sqe.view engine.files) } ∨
        other ∈ (front ++ entry :: back) ++ engine.ring.sq := by
      simp only [List.mem_append, List.mem_cons] at hother ⊢
      tauto
    rcases hcases with rfl | hold
    · exact hbuilt entry (by simp)
    · exact hbuilt other hold
  · intro other hother seen hrunning hdrains
    have hcases : other = { entry with phase := .running (entry.sqe.view engine.files) } ∨
        other ∈ front ++ entry :: back := by
      simp only [List.mem_append, List.mem_cons] at hother ⊢
      tauto
    rcases hcases with rfl | hold
    · obtain ⟨work, -, hsqe⟩ := hbuilt entry (by simp)
      obtain ⟨file, hfile⟩ := hstored.opened
      simp only [Phase.running.injEq] at hrunning
      rw [← hrunning]
      cases work with
      | write op => simp [hsqe, IoWork.sqe, Sqe.drains] at hdrains
      | fsync target => simp [hsqe, IoWork.sqe, Sqe.view, cacheOf, disk, hfile]
      | remove start => simp [hsqe, IoWork.sqe, Sqe.drains] at hdrains
    · exact hseen other hold seen hrunning hdrains
  · refine htracked.frame rfl rfl rfl rfl ?_ ?_ (List.Sublist.refl _) (fun _ _ => rfl)
      fun _ h => h
    · rw [hline]
      exact htracked.removes
    · rw [hline]
      exact fun _ h => h

theorem disk_grows (hstored : engine.Stored) :
    Grows engine.disk.stable engine.disk.cache := by
  obtain ⟨file, hfile⟩ := hstored.opened
  have hdisk : engine.disk = file := by simp [disk, hfile]
  rw [hdisk]
  exact hstored.grows _ file hfile

/-- The active file after a change to it. -/
theorem stored_update (hstored : engine.Stored) {file : File}
    (hfiles : after.files = engine.files.insert engine.seg.startLsn file)
    (hseg : after.seg = engine.seg) (himage : after.image = engine.image)
    (hgrows : Grows file.stable file.cache) (hagrees : Agrees file.cache engine.image) :
    after.Stored ∧ after.disk = file := by
  have hdisk : after.disk = file := by simp [disk, hfiles, hseg]
  refine ⟨⟨⟨file, by rw [hfiles, hseg, SortedMap.lookup_insert_self]⟩, ?_, ?_, ?_⟩, hdisk⟩
  · intro seg other hother
    rw [hfiles] at hother
    by_cases hsame : engine.seg.startLsn = seg
    · rw [hsame, SortedMap.lookup_insert_self, Option.some.injEq] at hother
      rw [← hother]
      exact hgrows
    · rw [SortedMap.lookup_insert_ne _ _ hsame] at hother
      exact hstored.grows seg other hother
  · rw [himage, hseg]
    exact hstored.length_image
  · rw [hdisk, himage]
    exact hagrees

/-- What a completion leaves in the active file, and what its result says. -/
structure Landed (engine after : WalEngine) (work : IoWork) (res : ℤ) : Prop where
  stored : after.Stored
  cache : Grows engine.disk.cache after.disk.cache
  stable : Grows engine.disk.stable after.disk.stable
  write : ∀ op, work = .write op → 0 ≤ res → op.done + res.toNat ≤ op.data.out.length ∧
    Covers after.disk.cache (op.offset + op.done) res.toNat
  fills : ∀ index value, Holds after.disk.cache index value →
    Holds engine.disk.cache index value ∨ ∃ op, work = .write op ∧
      op.offset + op.done ≤ index ∧ index < op.offset + op.done + res.toNat
  fsync : ∀ target, work = .fsync target → 0 ≤ res → after.disk.stable = engine.disk.cache
  others : (∀ start, work ≠ .remove start) → ∀ seg, engine.seg.startLsn ≠ seg →
    after.files.lookup seg = engine.files.lookup seg

theorem landed_nothing (hstored : engine.Stored) {work : IoWork} {res : ℤ}
    (hfiles : after.files = engine.files) (hseg : after.seg = engine.seg)
    (himage : after.image = engine.image) (hres : res < 0) : Landed engine after work res := by
  have hdisk : after.disk = engine.disk := disk_congr hfiles (by rw [hseg])
  refine ⟨hstored.frame hfiles hseg himage, ?_, ?_, ?_, ?_, ?_, ?_⟩
  · rw [hdisk]
    exact Grows.refl _
  · rw [hdisk]
    exact Grows.refl _
  · exact fun _ _ h => absurd h (not_le.mpr hres)
  · rw [hdisk]
    exact fun _ _ hold => Or.inl hold
  · exact fun _ _ h => absurd h (not_le.mpr hres)
  · intro _ seg _
    rw [hfiles]

theorem landed_write (hstored : engine.Stored) {op : WriteOp}
    (hplaced : engine.Placed op.data op.offset) (hdone : op.done < op.data.out.length)
    {res : ℤ} {seen : Sparse UInt8}
    (hmay : ((IoWork.write op).sqe engine.seg.startLsn).mayReturn res = true)
    (hfiles : after.files =
      ((IoWork.write op).sqe engine.seg.startLsn).effect engine.files seen res)
    (hseg : after.seg = engine.seg) (himage : after.image = engine.image) :
    Landed engine after (.write op) res := by
  by_cases hres : res < 0
  · exact landed_nothing hstored (by simpa [IoWork.sqe, Sqe.effect, hres] using hfiles) hseg
      himage hres
  obtain ⟨file, hfile⟩ := hstored.opened
  have hdisk : engine.disk = file := by simp [disk, hfile]
  have hagrees := hstored.agrees
  rw [hdisk] at hagrees
  set length := (op.data.out.drop op.done).length % 2 ^ 32 with hlength
  have hbound : res.toNat ≤ min length (op.data.out.drop op.done).length := by
    simp only [IoWork.sqe, Sqe.mayReturn, decide_eq_true_eq, List.length_take] at hmay
    omega
  have hpiece : (((op.data.out.drop op.done).take length).take res.toNat) =
      (op.data.out.drop op.done).take res.toNat := by
    rw [List.take_take, Nat.min_eq_left (hbound.trans (min_le_left _ _))]
  have hcount : ((op.data.out.drop op.done).take res.toNat).length = res.toNat := by
    rw [List.length_take, Nat.min_eq_left (hbound.trans (min_le_right _ _))]
  obtain ⟨hagrees', hcache⟩ := pwrite_piece hagrees hplaced.located op.done res.toNat
  have hfiles' : after.files = engine.files.insert engine.seg.startLsn
      { file with
        cache := pwrite file.cache (op.offset + op.done)
          ((op.data.out.drop op.done).take res.toNat) } := by
    rw [hfiles]
    simp only [IoWork.sqe, Sqe.effect, hres, if_false, hfile, ← hlength, hpiece]
  obtain ⟨hafter, hdisk'⟩ := stored_update hstored hfiles' hseg himage
    ((hstored.grows _ file hfile).trans hcache) hagrees'
  refine ⟨hafter, ?_, ?_, ?_, ?_, ?_, ?_⟩
  · rw [hdisk', hdisk]
    exact hcache
  · rw [hdisk', hdisk]
    exact Grows.refl _
  · intro other hother _
    cases hother
    constructor
    · have hrest := hbound.trans (min_le_right _ _)
      rw [List.length_drop] at hrest
      omega
    · rw [hdisk']
      have hcovers := covers_pwrite file.cache (op.offset + op.done)
        ((op.data.out.drop op.done).take res.toNat)
      rwa [hcount] at hcovers
  · rw [hdisk', hdisk]
    intro index value hold
    rcases holds_pwrite hold with hbefore | ⟨hlow, hhigh⟩
    · exact Or.inl hbefore
    · rw [hcount] at hhigh
      exact Or.inr ⟨op, rfl, hlow, hhigh⟩
  · exact fun _ h => by cases h
  · intro _ seg hne
    rw [hfiles', SortedMap.lookup_insert_ne _ _ hne]

theorem landed_fsync (hstored : engine.Stored) {target : ℕ} {res : ℤ} {seen : Sparse UInt8}
    (hseen : seen = engine.disk.cache)
    (hfiles : after.files =
      ((IoWork.fsync target).sqe engine.seg.startLsn).effect engine.files seen res)
    (hseg : after.seg = engine.seg) (himage : after.image = engine.image) :
    Landed engine after (.fsync target) res := by
  by_cases hres : res < 0
  · exact landed_nothing hstored (by simpa [IoWork.sqe, Sqe.effect, hres] using hfiles) hseg
      himage hres
  obtain ⟨file, hfile⟩ := hstored.opened
  have hdisk : engine.disk = file := by simp [disk, hfile]
  rw [hdisk] at hseen
  have hfiles' : after.files =
      engine.files.insert engine.seg.startLsn { file with stable := file.cache } := by
    rw [hfiles]
    simp [IoWork.sqe, Sqe.effect, hres, hfile, File.flush, hseen]
  obtain ⟨hafter, hdisk'⟩ := stored_update hstored hfiles' hseg himage (Grows.refl _)
    (hdisk ▸ hstored.agrees)
  refine ⟨hafter, ?_, ?_, ?_, ?_, ?_, ?_⟩
  · rw [hdisk', hdisk]
    exact Grows.refl _
  · rw [hdisk', hdisk]
    exact hstored.grows _ file hfile
  · exact fun _ h => by cases h
  · rw [hdisk', hdisk]
    exact fun _ _ hold => Or.inl hold
  · intro _ _ _
    rw [hdisk', hdisk]
  · intro _ seg hne
    rw [hfiles', SortedMap.lookup_insert_ne _ _ hne]

theorem landed_remove (hstored : engine.Stored) {start : ℕ} {res : ℤ} {seen : Sparse UInt8}
    (hstart : start < engine.seg.startLsn)
    (hfiles : after.files =
      ((IoWork.remove start).sqe engine.seg.startLsn).effect engine.files seen res)
    (hseg : after.seg = engine.seg) (himage : after.image = engine.image) :
    Landed engine after (.remove start) res := by
  by_cases hres : res < 0
  · exact landed_nothing hstored (by simpa [IoWork.sqe, Sqe.effect, hres] using hfiles) hseg
      himage hres
  have hfiles' : after.files = engine.files.erase start := by
    rw [hfiles]
    simp [IoWork.sqe, Sqe.effect, hres]
  have hlookup : after.files.lookup engine.seg.startLsn =
      engine.files.lookup engine.seg.startLsn := by
    rw [hfiles', SortedMap.lookup_erase_ne _ hstart.ne]
  have hdisk : after.disk = engine.disk := by simp [disk, hseg, hlookup]
  refine ⟨⟨?_, ?_, ?_, ?_⟩, ?_, ?_, ?_, ?_, ?_, fun hkind => absurd rfl (hkind start)⟩
  · rw [hseg, hlookup]
    exact hstored.opened
  · intro seg file hfile
    rw [hfiles'] at hfile
    exact hstored.grows seg file (SortedMap.lookup_of_lookup_erase _ hfile)
  · rw [himage, hseg]
    exact hstored.length_image
  · rw [hdisk, himage]
    exact hstored.agrees
  · rw [hdisk]
    exact Grows.refl _
  · rw [hdisk]
    exact Grows.refl _
  · exact fun _ h => by cases h
  · rw [hdisk]
    exact fun _ _ hold => Or.inl hold
  · exact fun _ h => by cases h

/-- A completed entry was built for an operation of the line; while it ran, no
fsync was running beside it. -/
theorem complete_inv (hsound : engine.Sound) {position : ℕ} {res : ℤ} {files : Files}
    {ring : IoUring}
    (hcomplete : completeEntry engine.files engine.ring position res = some (files, ring)) :
    ∃ front idx work back, engine.inflight.lookup idx = some work ∧
      List.Sublist (front ++ back) engine.ring.entries ∧
      (∀ entry ∈ front ++ back, ∀ seen, entry.phase = .running seen →
        entry.sqe.drains = false) ∧
      ring = { engine.ring with
        entries := front ++ back, cq := engine.ring.cq ++ [⟨idx, res⟩] } ∧
      Landed engine { engine with files := files, ring := ring } work res := by
  obtain ⟨hringed, hstored, htracked, -⟩ := hsound
  obtain ⟨front, idx, sqe, seen, back, hentries, hmay, hfiles, hring⟩ :=
    completeEntry_inv hcomplete
  have hmem : (⟨idx, sqe, .running seen⟩ : Entry) ∈ engine.ring.entries := by simp [hentries]
  obtain ⟨work, hwork, hsqe⟩ := hringed.built _ (List.mem_append_left _ hmem)
  simp only at hwork hsqe
  have hline : work ∈ engine.line := mem_line_of_lookup hringed.keyed hwork
  refine ⟨front, idx, work, back, hwork, ?_, ?_, hring, ?_⟩
  · rw [hentries]
    exact (List.Sublist.refl front).append (List.sublist_cons_self _ back)
  · intro entry hentry entrySeen hrunning
    have hbarrier := hringed.barrier
    rw [hentries] at hbarrier
    obtain ⟨-, hrest, hcross⟩ := List.pairwise_append.mp hbarrier
    rcases List.mem_append.mp hentry with hfront | hback
    · by_contra hdrains
      have := hcross entry hfront _ List.mem_cons_self (Or.inl (by simpa using hdrains))
      cases this
    · by_contra hdrains
      have := (List.pairwise_cons.mp hrest).1 entry hback (Or.inr (by simpa using hdrains))
      rw [hrunning] at this
      cases this
  · subst hsqe
    cases work with
    | write op =>
        obtain ⟨hplaced, hdone, -⟩ := htracked.writes op hline
        exact landed_write hstored hplaced hdone hmay hfiles rfl rfl
    | fsync target =>
        have hseen := hringed.seen _ hmem seen rfl rfl
        exact landed_fsync hstored hseen hfiles rfl rfl
    | remove start => exact landed_remove hstored (htracked.removes start hline) hfiles rfl rfl

theorem sound_complete (hsound : engine.Sound) {position : ℕ} {res : ℤ} {files : Files}
    {ring : IoUring}
    (hcomplete : completeEntry engine.files engine.ring position res = some (files, ring)) :
    { engine with files := files, ring := ring }.Sound := by
  have hkeyed := keyed_move hsound.ringed.keyed (@Move.complete Anything engine _ _ _ _ hcomplete)
  have hline := line_complete hcomplete
  obtain ⟨front, idx, work, back, hwork, hsub, hrunning, hring, hlanded⟩ :=
    complete_inv hsound hcomplete
  obtain ⟨hringed, -, htracked, hfed⟩ := hsound
  obtain ⟨hstored, hcache, hstable, hwrite, -, hfsync, -⟩ := hlanded
  have hplaced : ∀ batch offset, engine.Placed batch offset →
      { engine with files := files, ring := ring }.Placed batch offset :=
    fun _ _ h => ⟨h.located, h.encoded, h.queued⟩
  have hposted : { engine with files := files, ring := ring }.posted =
      engine.posted ++ [⟨idx, res⟩] := by
    simp [posted, todo, hring]
  have hentries : ring.entries = front ++ back := by rw [hring]
  have hsq : ring.sq = engine.ring.sq := by rw [hring]
  rw [← hentries] at hsub hrunning
  refine ⟨⟨hkeyed, hringed.barrier.sublist hsub, ?_, ?_, ?_⟩, hstored,
    ⟨?_, ?_, ?_, ?_, ?_⟩, hfed⟩
  · simp only [hsq]
    exact hringed.waiting
  · intro entry hentry
    simp only [hsq] at hentry
    exact hringed.built entry ((hsub.append (List.Sublist.refl _)).mem hentry)
  · intro entry hentry seen hphase hdrains
    rw [hrunning entry hentry seen hphase] at hdrains
    cases hdrains
  · intro start hstart
    exact htracked.removes start (hline.mem_iff.mp hstart)
  · intro op hop
    obtain ⟨hat, hdone, hcovers⟩ := htracked.writes op (hline.mem_iff.mp hop)
    exact ⟨hplaced _ _ hat, hdone, hcovers.mono hcache⟩
  · intro cqe hcqe op hlookup hres
    rw [hposted] at hcqe
    rcases List.mem_append.mp hcqe with hold | hnew
    · obtain ⟨hbound, hcovers⟩ := htracked.reported cqe hold op hlookup hres
      exact ⟨hbound, hcovers.mono hcache⟩
    · rw [List.mem_singleton.mp hnew] at hlookup hres ⊢
      exact hwrite op (Option.some.inj (hwork.symm.trans hlookup)) hres
  · intro batch hbatch
    obtain ⟨offset, hat, hcovers, hflush⟩ := htracked.awaits batch hbatch
    refine ⟨offset, hplaced _ _ hat, hcovers.mono hcache, ?_⟩
    rintro ⟨cqe, hcqe, hres, target, hlookup⟩
    rw [hposted] at hcqe
    rcases List.mem_append.mp hcqe with hold | hnew
    · exact (hflush ⟨cqe, hold, hres, target, hlookup⟩).mono hstable
    · rw [List.mem_singleton.mp hnew] at hlookup hres
      rw [hfsync target (Option.some.inj (hwork.symm.trans hlookup)) hres]
      exact hcovers
  · rw [hposted]
    refine List.pairwise_append.mpr ⟨?_, by simp, ?_⟩
    · exact htracked.flushed.imp fun hpair op target hearly hfull hlate hres =>
        (hpair op target hearly hfull hlate hres).mono hstable
    · intro early hearly late hlate op target hlookup hfull hlatest hres
      rw [List.mem_singleton.mp hlate] at hlatest hres
      rw [hfsync target (Option.some.inj (hwork.symm.trans hlatest)) hres]
      obtain ⟨-, -, hcovers⟩ := htracked.writes op (mem_line_of_lookup hringed.keyed hlookup)
      obtain ⟨hbound, hrange⟩ := htracked.reported early hearly op hlookup hfull.1
      have hjoin := hcovers.join hrange
      rwa [le_antisymm hbound hfull.2] at hjoin

/-- Every move keeps the invariant. -/
theorem sound_move {permit : Kind → WalEngine → Prop} (hsound : engine.Sound)
    (hmove : Move permit engine after) : after.Sound := by
  cases hmove with
  | arrive msg hpermit hfeed =>
      refine hsound.frame rfl rfl rfl rfl rfl rfl rfl rfl rfl ?_
      intro batch hbatch
      rcases List.mem_append.mp hbatch with hold | hnew
      · exact hsound.fed batch hold
      · exact hfeed batch (List.mem_singleton.mp hnew).symm
  | send hpermit houtbox => exact hsound.frame rfl rfl rfl rfl rfl rfl rfl rfl rfl hsound.fed
  | giveBack hpermit houtbox => exact hsound.frame rfl rfl rfl rfl rfl rfl rfl rfl rfl hsound.fed
  | lend hpermit hpool => exact hsound.frame rfl rfl rfl rfl rfl rfl rfl rfl rfl hsound.fed
  | quiet spinBudget pc vacant htodo =>
      exact hsound.frame rfl rfl rfl rfl rfl rfl htodo rfl rfl hsound.fed
  | discard hpermit hmsg hkind =>
      refine hsound.frame rfl rfl rfl rfl rfl rfl rfl rfl rfl ?_
      intro batch hbatch
      exact hsound.fed batch (by rw [hmsg]; exact List.mem_cons_of_mem _ hbatch)
  | enqueue hmsg hbatch => exact sound_enqueue hsound hmsg hbatch
  | schedule starts hpermit hstarts =>
      refine sound_append hsound engine.fsyncPlanner _ ?_
      intro work hwork
      obtain ⟨start, hstart, rfl⟩ := List.mem_map.mp hwork
      exact Or.inr ⟨start, rfl, hstarts start hstart⟩
  | arm hdue =>
      refine sound_append hsound _ _ ?_
      intro work hwork
      exact Or.inl ⟨_, List.mem_singleton.mp hwork⟩
  | push hpending => exact sound_push hsound hpending
  | beginReap ret htodo => exact sound_beginReap hsound ret htodo
  | submit => exact sound_submitRing hsound
  | reapRemoved hpc hwork => exact sound_pop hsound hpc hwork
  | reapWritten hpermit hpc hwork hres hdone =>
      exact sound_reapWritten hsound hpc hwork ⟨hres, hdone⟩
  | reapRetry hpc hwork hdone => exact sound_reapRetry hsound _ hpc hwork hdone
  | reapDurable hpermit hpc hwork hres => exact sound_releaseDurable (sound_pop hsound hpc hwork) _
  | sealed boundaryLsn hpermit hpending hinflight htodo =>
      exact sound_sealSegment hsound boundaryLsn hpending hinflight htodo
  | start hstart => exact sound_start hsound hstart
  | complete hcomplete => exact sound_complete hsound hcomplete

theorem sound_new (depth : ℕ) (segs : SortedMap ℕ Bytes) (startLsn : ℕ) (mode : Mode)
    (pool : List Batch) : (new depth (Files.ofSegs segs) startLsn mode pool).Sound := by
  refine sound_idle (stored_open ?_ rfl rfl rfl) ?_ (keyed_new _ _ _ _ _) rfl rfl rfl
  · intro seg file hfile
    rw [Files.ofSegs, SortedMap.lookup_mapValues, Option.map_eq_some_iff] at hfile
    obtain ⟨bytes, -, rfl⟩ := hfile
    exact Grows.refl _
  · simp [Fed, new]

/-- What holds at the start and is kept by every move from a sound state holds in
every state of every run. -/
theorem reach_keeps {Inv : WalEngine → Prop} {depth : ℕ} {segs : SortedMap ℕ Bytes}
    {startLsn : ℕ} {mode : Mode} {pool : List Batch}
    (hstart : Inv (new depth (Files.ofSegs segs) startLsn mode pool))
    (hmove : ∀ engine after, engine.Sound → Inv engine → Move Anything engine after → Inv after)
    (hreach : Machine.Reach step Feeds (new depth (Files.ofSegs segs) startLsn mode pool)
      engine) : engine.Sound ∧ Inv engine := by
  induction hreach with
  | start => exact ⟨sound_new _ _ _ _ _, hstart⟩
  | next _ hfeeds hstep ih =>
      have hkeep : ∀ engine after : WalEngine, engine.Sound ∧ Inv engine →
          Move Anything engine after → after.Sound ∧ Inv after :=
        fun _ _ h hlast => ⟨sound_move h.1 hlast, hmove _ _ h.1 h.2 hlast⟩
      exact step_keeps hkeep ih hfeeds (fun _ _ _ => trivial) hstep

end WalEngine

end InMemoryDb.Stage3
