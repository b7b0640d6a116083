import InMemoryDb.Server.Stage3.Journal
import InMemoryDb.Storage.Unwritten

/-!
# Power loss in Sync mode

Recovery stops at the first torn record, so an acknowledged batch survives only
if every batch before it is on stable storage too.  The engine releases whatever
waits for an fsync, also when an earlier batch is still being retried; as long as
that does not happen, everything acknowledged is replayed.

Of what lies behind the acknowledged batches a power loss may keep any byte and
clear any other.  Recovery returns if this gives no sealed body that it cannot
interpret; a client that chooses its key and value well can bring one about.
-/

namespace InMemoryDb.Stage3

open LittleEndian SparseFile WalFormat Recover Wire

/-- What a segment may read back as after power loss: saved bytes are kept, any
other byte is what the page cache had, or zero, or missing. -/
structure PowerLoss (disk : File) (bytes : Bytes) : Prop where
  kept : ∀ index value, Holds disk.stable index value → bytes[index]? = some value
  other : ∀ index value, bytes[index]? = some value →
    value = 0 ∨ Holds disk.cache index value

/-- Bytes that are saved read back as the image has them. -/
theorem PowerLoss.take_eq {disk : File} {bytes image : Bytes} (hloss : PowerLoss disk bytes)
    (hgrows : Grows disk.stable disk.cache) (hagrees : Agrees disk.cache image) {count : ℕ}
    (hcovers : Covers disk.stable 0 count) : bytes.take count = image.take count := by
  apply List.ext_getElem?
  intro index
  by_cases hindex : index < count
  · obtain ⟨value, hvalue⟩ := hcovers index (by omega) (by omega)
    rw [List.getElem?_take_of_lt hindex, List.getElem?_take_of_lt hindex,
      hloss.kept index value hvalue, hagrees.2 index value (hgrows index value hvalue)]
  · rw [List.getElem?_take, List.getElem?_take, if_neg hindex, if_neg hindex]

/-- Where all of the image is saved, nothing but zeros can stand behind it. -/
theorem PowerLoss.eq_image {disk : File} {bytes image : Bytes} (hloss : PowerLoss disk bytes)
    (hgrows : Grows disk.stable disk.cache) (hagrees : Agrees disk.cache image)
    (hsaved : Covers disk.stable 0 image.length) :
    bytes = image ++ List.replicate (bytes.length - image.length) 0 := by
  have hfront : bytes.take image.length = image := by
    rw [hloss.take_eq hgrows hagrees hsaved, List.take_length]
  have hback : bytes.drop image.length = List.replicate (bytes.length - image.length) 0 := by
    rw [List.eq_replicate_iff, List.length_drop]
    refine ⟨rfl, fun value hvalue => ?_⟩
    obtain ⟨index, hindex⟩ := List.getElem?_of_mem hvalue
    rw [List.getElem?_drop] at hindex
    apply (hloss.other _ value hindex).resolve_right
    intro hheld
    have hinside := (List.getElem?_eq_some_iff.mp (hagrees.2 _ value hheld)).1
    omega
  calc bytes = bytes.take image.length ++ bytes.drop image.length :=
        (List.take_append_drop _ _).symm
    _ = image ++ List.replicate (bytes.length - image.length) 0 := by rw [hfront, hback]

/-- The harshest loss: everything unsaved reads as zero. -/
theorem powerLoss_stable {disk : File} (hgrows : Grows disk.stable disk.cache) :
    PowerLoss disk (contents disk.stable) := by
  refine ⟨fun index value hold => (agrees_contents disk.stable).2 index value hold, ?_⟩
  intro index value hvalue
  rw [contents, List.getElem?_map, Option.map_eq_some_iff] at hvalue
  obtain ⟨cell, hcell, rfl⟩ := hvalue
  cases cell with
  | none => exact Or.inl rfl
  | some byte => exact Or.inr (hgrows index byte hcell)

/-- The page cache reads back, but for a byte that was not saved and is cleared. -/
theorem powerLoss_clear {disk : File} (hgrows : Grows disk.stable disk.cache) {position : ℕ}
    (hunsaved : disk.stable.length ≤ position) :
    PowerLoss disk ((contents disk.cache).set position 0) := by
  refine ⟨?_, ?_⟩
  · intro index value hold
    have hindex : index < disk.stable.length := (List.getElem?_eq_some_iff.mp hold).1
    rw [List.getElem?_set_ne (by omega)]
    exact (agrees_contents disk.cache).2 index value (hgrows index value hold)
  · intro index value hvalue
    rw [List.getElem?_set] at hvalue
    split_ifs at hvalue with hsame hinside
    · exact Or.inl (Option.some.inj hvalue).symm
    · rw [contents, List.getElem?_map, Option.map_eq_some_iff] at hvalue
      obtain ⟨cell, hcell, rfl⟩ := hvalue
      cases cell with
      | none => exact Or.inl rfl
      | some byte => exact Or.inr hcell

/-- A write whose batch starts below `lsn`. -/
def IoWork.startsBelow (lsn : ℕ) : IoWork → Bool
  | .write op => op.data.lsnLow < lsn
  | _ => false

namespace WalEngine

variable {engine after : WalEngine}

/-- A batch waits for an fsync while an earlier one is still in line. -/
def overtaken (engine : WalEngine) : Bool :=
  engine.awaitingFsync.any fun batch => engine.line.any (IoWork.startsBelow batch.lsnHi)

/-- `reap_cqes` comes to the completion of an fsync. -/
def reapsFsync (engine : WalEngine) : Bool :=
  match engine.pc with
  | .reaping (cqe :: _) _ => engine.flushes cqe
  | _ => false

/-- Nothing is released past an earlier batch. -/
def Careful : Kind → WalEngine → Prop
  | .durable, engine => engine.reapsFsync = true → engine.overtaken = false
  | kind, engine => Writing kind engine

/-- Where a queued batch is: in line, waiting for an fsync, or saved. -/
def Accounted (engine : WalEngine) (entry : Queued) : Prop :=
  (∃ op, .write op ∈ engine.line ∧ op.data.lsnLow = entry.batch.lsnLow) ∨
    (∃ batch ∈ engine.awaitingFsync, batch.lsnLow = entry.batch.lsnLow) ∨
      Covers engine.disk.stable entry.offset entry.batch.out.length

/-- The segment is saved from its start to the end of the acknowledged batch. -/
def SavedUpTo (engine : WalEngine) (ack : Ack) : Prop :=
  ∃ entry ∈ engine.queued, entry.batch.redo = ack.batch.redo ∧
    Covers engine.disk.stable 0 (entry.offset + entry.batch.out.length)

structure Ledger (engine : WalEngine) : Prop where
  sync : engine.ack = Acker.new .sync
  owing : ∀ op, .write op ∈ engine.line →
    ∃ req ∈ op.data.items, req.op = .put ∧ req.resp.isSome
  accounted : ∀ entry ∈ engine.queued, engine.Accounted entry
  saved : ∀ ack ∈ engine.acked, ack.point = .durable → engine.SavedUpTo ack

theorem SavedUpTo.mono {ack : Ack} (hsaved : engine.SavedUpTo ack)
    (hqueued : ∀ entry ∈ engine.queued, entry ∈ after.queued)
    (hstable : Grows engine.disk.stable after.disk.stable) : after.SavedUpTo ack := by
  obtain ⟨entry, hentry, hredo, hcovers⟩ := hsaved
  exact ⟨entry, hqueued entry hentry, hredo, hcovers.mono hstable⟩

/-- A move that releases nothing at `Durable`. -/
theorem Ledger.frame (hledger : engine.Ledger) (hack : after.ack = engine.ack)
    (hqueued : after.queued = engine.queued)
    (hstable : Grows engine.disk.stable after.disk.stable)
    (hin : ∀ op, .write op ∈ after.line →
      ∃ op', .write op' ∈ engine.line ∧ op'.data = op.data)
    (hout : ∀ op, .write op ∈ engine.line →
      (∃ op', .write op' ∈ after.line ∧ op'.data = op.data) ∨
        ∃ batch ∈ after.awaitingFsync, batch.lsnLow = op.data.lsnLow)
    (hawaiting : ∀ batch ∈ engine.awaitingFsync, batch ∈ after.awaitingFsync)
    (hacked : ∀ ack ∈ after.acked, ack ∈ engine.acked ∨ ack.point ≠ .durable) :
    after.Ledger := by
  refine ⟨hack.trans hledger.sync, ?_, ?_, ?_⟩
  · intro op hop
    obtain ⟨op', hop', hdata⟩ := hin op hop
    rw [← hdata]
    exact hledger.owing op' hop'
  · rw [hqueued]
    intro entry hentry
    rcases hledger.accounted entry hentry with ⟨op, hop, hlsn⟩ | ⟨batch, hbatch, hlsn⟩ | hcovers
    · rcases hout op hop with ⟨op', hop', hdata⟩ | ⟨batch, hbatch, hlow⟩
      · exact Or.inl ⟨op', hop', by rw [hdata]; exact hlsn⟩
      · exact Or.inr (Or.inl ⟨batch, hbatch, hlow.trans hlsn⟩)
    · exact Or.inr (Or.inl ⟨batch, hawaiting batch hbatch, hlsn⟩)
    · exact Or.inr (Or.inr (hcovers.mono hstable))
  · intro ack hmem hpoint
    rcases hacked ack hmem with hold | hnot
    · refine (hledger.saved ack hold hpoint).mono ?_ hstable
      rw [hqueued]
      exact fun _ h => h
    · exact absurd hpoint hnot

theorem Ledger.same (hledger : engine.Ledger) (hack : after.ack = engine.ack)
    (hqueued : after.queued = engine.queued)
    (hstable : Grows engine.disk.stable after.disk.stable)
    (hline : ∀ work, work ∈ after.line ↔ work ∈ engine.line)
    (hawaiting : after.awaitingFsync = engine.awaitingFsync)
    (hacked : after.acked = engine.acked) : after.Ledger := by
  refine hledger.frame hack hqueued hstable ?_ ?_ ?_ ?_
  · exact fun op hop => ⟨op, (hline _).mp hop, rfl⟩
  · exact fun op hop => Or.inl ⟨op, (hline _).mpr hop, rfl⟩
  · rw [hawaiting]
    exact fun _ h => h
  · rw [hacked]
    exact fun _ h => Or.inl h

theorem ledger_enqueue (hsound : engine.Sound) (hledger : engine.Ledger) {batch : Batch}
    {rest : List WalMsg} (hmsg : engine.msgRx = .write batch :: rest)
    (hbatch : { engine with msgRx := rest }.handleBatch batch = .ok after) : after.Ledger := by
  have hshape : FromStage2 engine.ack batch := hsound.fed batch (by simp [hmsg])
  obtain ⟨-, -, out, -, rfl⟩ := handleBatch_inv hbatch
  refine ⟨hledger.sync, ?_, ?_, ?_⟩
  · intro op hop
    rcases List.mem_append.mp hop with hring | hpend
    · exact hledger.owing op (List.mem_append_left _ hring)
    · rcases List.mem_append.mp hpend with hpending | hnew
      · exact hledger.owing op (List.mem_append_right _ hpending)
      · simp only [IoWork.ofBatch, List.mem_singleton, IoWork.write.injEq] at hnew
        subst hnew
        obtain ⟨req, hreq⟩ := List.exists_mem_of_length_pos hshape.walWork
        obtain ⟨hmem, hput⟩ := List.mem_filter.mp hreq
        have hop : req.op = .put := by simpa using hput
        refine ⟨req, hmem, hop, (hshape.owed req hmem).mpr ?_⟩
        simp [hledger.sync, Acker.required, Request.isReadOnly, hop, Acker.new,
          AckPoint.ofMode]
        decide
  · intro entry hentry
    rcases List.mem_append.mp hentry with hentry | hnew
    · rcases hledger.accounted entry hentry with ⟨op, hop, hlsn⟩ | hwaiting
      · refine Or.inl ⟨op, ?_, hlsn⟩
        rcases List.mem_append.mp hop with hring | hpending
        · exact List.mem_append_left _ hring
        · exact List.mem_append_right _ (List.mem_append_left _ hpending)
      · exact Or.inr hwaiting
    · rw [List.mem_singleton.mp hnew]
      exact Or.inl ⟨⟨{ batch with out := out }, engine.seg.offset, 0⟩,
        List.mem_append_right _ (List.mem_append_right _ (List.mem_singleton_self _)), rfl⟩
  · intro ack hack hpoint
    exact (hledger.saved ack hack hpoint).mono (fun _ h => List.mem_append_left _ h)
      (Grows.refl _)

/-- In Sync mode no batch with a PUT is settled at `Written`. -/
theorem not_settled_written {batch : Batch} {req : Request} (hreq : req ∈ batch.items)
    (hop : req.op = .put) (hresp : req.resp.isSome) :
    Acker.isSettled ((Acker.new .sync).advance batch .written).1 = false := by
  rw [Acker.isSettled, List.all_eq_false]
  refine ⟨(Acker.new .sync).advanceReq .written req, List.mem_map_of_mem hreq, ?_⟩
  have hlevel : ¬ (Acker.new .sync).required req ≤ .written := by
    simp [Acker.required, Request.isReadOnly, hop, Acker.new, AckPoint.ofMode]
    decide
  rw [Acker.advanceReq, if_neg hlevel]
  simpa [Option.isSome_iff_ne_none] using hresp

theorem ledger_reapWritten (hsound : engine.Sound) (hledger : engine.Ledger) {cqe : Cqe}
    {rest : List Cqe} {ret : Return} {op : WriteOp}
    (hpc : engine.pc = .reaping (cqe :: rest) ret)
    (hwork : engine.inflight.lookup cqe.userData = some (.write op)) :
    ((engine.pop cqe rest ret).reapWritten op.data).Ledger := by
  have hline := line_pop hsound.ringed.keyed hpc hwork
  obtain ⟨req, hreq, hop, hresp⟩ :=
    hledger.owing op (mem_line_of_lookup hsound.ringed.keyed hwork)
  have hack : (engine.pop cqe rest ret).ack = Acker.new .sync := hledger.sync
  have hopen : Acker.isSettled
      ((engine.pop cqe rest ret).ack.advance op.data .written).1 = false := by
    rw [hack]
    exact not_settled_written hreq hop hresp
  rw [reapWritten_eq]
  simp only [hopen]
  refine hledger.frame rfl rfl (Grows.refl _) ?_ ?_ ?_ ?_
  · intro other hother
    refine ⟨other, ?_, rfl⟩
    rw [hline]
    exact List.mem_cons_of_mem _ hother
  · intro other hother
    rw [hline] at hother
    rcases List.mem_cons.mp hother with heq | hrest
    · right
      simp only [IoWork.write.injEq] at heq
      subst heq
      exact ⟨_, List.mem_append_right _ (List.mem_singleton_self _), rfl⟩
    · exact Or.inl ⟨other, hrest, rfl⟩
  · exact fun _ h => List.mem_append_left _ h
  · intro ack hmem
    rcases List.mem_append.mp hmem with hold | hnew
    · exact Or.inl hold
    · right
      rw [List.mem_singleton.mp hnew]
      simp

variable {start : ℕ} {segs : SortedMap ℕ Bytes}

/-- A waiting batch sits at the place of its queued entry. -/
theorem waits_entry (hjournal : Journal segs start engine) {batch : Batch} {entry : Queued}
    (hwaits : engine.Waits batch) (hentry : entry ∈ engine.queued)
    (hlsn : batch.lsnLow = entry.batch.lsnLow) (hflushed : engine.Flushed) :
    Covers engine.disk.stable entry.offset entry.batch.out.length := by
  obtain ⟨offset, hplaced, -, hstable⟩ := hwaits
  obtain ⟨place, hplace, -, hoffset, -, hout, hlow, -⟩ := hplaced.queued
  have hsame : place = entry := hjournal.tiled.unique hplace hentry (hlow.trans hlsn)
  rw [← hsame, hoffset, hout]
  exact hstable hflushed

theorem not_overtaken {batch : Batch} {op : WriteOp} (hclear : engine.overtaken = false)
    (hbatch : batch ∈ engine.awaitingFsync) (hop : .write op ∈ engine.line) :
    batch.lsnHi ≤ op.data.lsnLow := by
  by_contra hlt
  have htrue : engine.overtaken = true := by
    rw [overtaken, List.any_eq_true]
    refine ⟨batch, hbatch, ?_⟩
    rw [List.any_eq_true]
    exact ⟨.write op, hop, by simpa [IoWork.startsBelow] using hlt⟩
  rw [htrue] at hclear
  cases hclear

theorem ledger_reapDurable (hsound : engine.Sound) (hjournal : Journal segs start engine)
    (hbase : Covers engine.disk.stable 0 (baseOf segs start).length) (hledger : engine.Ledger)
    {cqe : Cqe} {rest : List Cqe} {ret : Return} {target : ℕ} (hclear : engine.overtaken = false)
    (hpc : engine.pc = .reaping (cqe :: rest) ret)
    (hwork : engine.inflight.lookup cqe.userData = some (.fsync target))
    (hres : 0 ≤ cqe.result) :
    { (engine.pop cqe rest ret).releaseDurable with
      fsyncPlanner := engine.fsyncPlanner.onFsyncCompleted }.Ledger := by
  have hline := line_pop hsound.ringed.keyed hpc hwork
  have hflushed : engine.Flushed :=
    ⟨cqe, by rw [posted_pop hpc]; exact List.mem_cons_self, hres, target, hwork⟩
  have hwaiting : ∀ batch ∈ engine.awaitingFsync, ∀ entry ∈ engine.queued,
      batch.lsnLow = entry.batch.lsnLow →
        Covers engine.disk.stable entry.offset entry.batch.out.length :=
    fun batch hbatch entry hentry hlsn =>
      waits_entry hjournal (hsound.tracked.awaits batch hbatch) hentry hlsn hflushed
  refine ⟨hledger.sync, ?_, ?_, ?_⟩
  · intro op hop
    refine hledger.owing op ?_
    rw [hline]
    exact List.mem_cons_of_mem _ hop
  · intro entry hentry
    rcases hledger.accounted entry hentry with ⟨op, hop, hlsn⟩ | ⟨batch, hbatch, hlsn⟩ | hcovers
    · rw [hline] at hop
      rcases List.mem_cons.mp hop with heq | hrest
      · cases heq
      · exact Or.inl ⟨op, hrest, hlsn⟩
    · exact Or.inr (Or.inr (hwaiting batch hbatch entry hentry hlsn))
    · exact Or.inr (Or.inr hcovers)
  · intro ack hack hpoint
    rcases List.mem_append.mp hack with hold | hnew
    · exact hledger.saved ack hold hpoint
    · obtain ⟨batch, hbatch, rfl⟩ := List.mem_map.mp hnew
      obtain ⟨offset, hplaced, -, -⟩ := hsound.tracked.awaits batch hbatch
      obtain ⟨entry, hentry, -, -, hredo, -, hlow, hhi⟩ := hplaced.queued
      refine ⟨entry, hentry, hredo, ?_⟩
      obtain ⟨front, back, hsplit⟩ := List.append_of_mem hentry
      have htile := hjournal.tiled front entry back hsplit
      refine hjournal.tiled.covers hbase hsplit ?_
      -- nothing at or before this batch is still in line
      intro earlier hearlier
      have hmem : earlier ∈ engine.queued := by
        rw [hsplit, List.append_cons]
        exact List.mem_append_left _ hearlier
      have hbelow : earlier.batch.lsnLow < batch.lsnHi := by
        rw [← hhi, htile.lsnHi]
        have hpos := List.length_pos_of_ne_nil htile.nonempty
        rcases List.mem_append.mp hearlier with hfront | hlast
        · obtain ⟨before, between, hfrontSplit⟩ := List.append_of_mem hfront
          have hearlierTile := hjournal.tiled before earlier (between ++ entry :: back)
            (by rw [hsplit, hfrontSplit]; simp)
          rw [htile.lsnLow, hearlierTile.lsnLow, hfrontSplit]
          simp only [List.flatMap_append, List.flatMap_cons, List.length_append]
          omega
        · rw [List.mem_singleton.mp hlast]
          omega
      rcases hledger.accounted earlier hmem with
        ⟨op, hop, hlsn⟩ | ⟨other, hother, hlsn⟩ | hcovers
      · have hle := not_overtaken hclear hbatch hop
        omega
      · exact hwaiting other hother earlier hmem hlsn
      · exact hcovers

/-- The ledger over a segment whose old contents are saved. -/
theorem ledger_journal (hsound : engine.Sound) (hjournal : Journal segs start engine)
    (hbase : Covers engine.disk.stable 0 (baseOf segs start).length) (hledger : engine.Ledger)
    (hmove : Move Careful engine after) : Journal segs start after ∧ after.Ledger := by
  have hkeyed := hsound.ringed.keyed
  have hwriting : Move Writing engine after := hmove.mono fun kind current hcareful => by
    cases kind with
    | durable => trivial
    | _ => exact hcareful
  refine ⟨journal_move hsound hjournal hwriting, ?_⟩
  cases hmove with
  | arrive msg hpermit hfeed => exact hledger.same rfl rfl (Grows.refl _) (fun _ => Iff.rfl) rfl rfl
  | send hpermit houtbox => exact hledger.same rfl rfl (Grows.refl _) (fun _ => Iff.rfl) rfl rfl
  | giveBack hpermit houtbox => exact hledger.same rfl rfl (Grows.refl _) (fun _ => Iff.rfl) rfl rfl
  | lend hpermit hpool => exact hledger.same rfl rfl (Grows.refl _) (fun _ => Iff.rfl) rfl rfl
  | quiet spinBudget pc vacant htodo =>
      have htickets := @tickets_frame engine
        { engine with spinBudget := spinBudget, pc := pc, vacant := vacant } htodo rfl
      have hline := line_congr htickets rfl rfl
      exact hledger.same rfl rfl (Grows.refl _) (fun _ => by rw [hline]) rfl rfl
  | discard hpermit hmsg hkind => exact hpermit.elim
  | enqueue hmsg hbatch => exact ledger_enqueue hsound hledger hmsg hbatch
  | schedule starts hpermit hstarts => exact hpermit.elim
  | arm hdue =>
      refine hledger.frame rfl rfl (Grows.refl _) ?_ ?_ (fun _ h => h) fun _ h => Or.inl h
      · intro op hop
        exact ⟨op, by simpa [line, worksAt, tickets, todo] using hop, rfl⟩
      · intro op hop
        exact Or.inl ⟨op, by simpa [line, worksAt, tickets, todo] using hop, rfl⟩
  | push hpending =>
      have hline := line_push hkeyed hpending
      exact hledger.same rfl rfl (Grows.refl _) (fun _ => by rw [hline]) rfl rfl
  | beginReap ret htodo =>
      have hline := @line_congr engine (engine.beginReap ret) (tickets_beginReap _ _ htodo) rfl rfl
      exact hledger.same rfl rfl (Grows.refl _) (fun _ => by rw [hline]) rfl rfl
  | submit =>
      have hline := @line_congr engine engine.submitRing (tickets_submitRing _) rfl rfl
      exact hledger.same rfl rfl (Grows.refl _) (fun _ => by rw [hline]) rfl rfl
  | reapRemoved hpc hwork =>
      exact absurd (mem_line_of_lookup hkeyed hwork) (hjournal.removes _)
  | reapWritten hpermit hpc hwork hres hdone => exact ledger_reapWritten hsound hledger hpc hwork
  | @reapRetry cqe rest ret op done hpc hwork hdone =>
      refine hledger.frame rfl rfl (Grows.refl _) ?_ ?_ (fun _ h => h) fun _ h => Or.inl h
      · intro other hother
        obtain ⟨op', hop', -, hdata⟩ := retry_comes hkeyed hpc hwork hother
        exact ⟨op', hop', hdata⟩
      · intro other hother
        obtain ⟨op', hop', -, hdata⟩ := retry_stays hkeyed done _ hpc hwork hother
        exact Or.inl ⟨op', hop', hdata⟩
  | reapDurable hpermit hpc hwork hres =>
      have hclear : engine.overtaken = false := hpermit (by simp [reapsFsync, hpc, flushes, hwork])
      exact ledger_reapDurable hsound hjournal hbase hledger hclear hpc hwork hres
  | sealed boundaryLsn hpermit hpending hinflight htodo => exact hpermit.elim
  | start hstart =>
      have hline := line_congr (tickets_start _ hstart) rfl rfl
      exact hledger.same rfl rfl (Grows.refl _) (fun _ => by rw [hline]) rfl rfl
  | complete hcomplete =>
      have hline := line_complete hcomplete
      obtain ⟨front, idx, work, back, -, -, -, -, hlanded⟩ := complete_inv hsound hcomplete
      exact hledger.same rfl rfl hlanded.stable (fun _ => hline.mem_iff) rfl rfl

theorem ledger_move (hsound : engine.Sound)
    (hinv : Journal SortedMap.empty 1 engine ∧ engine.Ledger)
    (hmove : Move Careful engine after) :
    Journal SortedMap.empty 1 after ∧ after.Ledger :=
  ledger_journal hsound hinv.1 (covers_zero _ _) hinv.2 hmove

/-! ## What survives -/

/-- The records of the batches up to a queued one stand behind the segment's old
contents. -/
theorem Journal.image_take (hjournal : Journal segs start engine) {front back : List Queued}
    {entry : Queued} (hsplit : engine.queued = front ++ entry :: back) :
    engine.image.take (entry.offset + entry.batch.out.length) = baseOf segs start ++
      encodeAll ((front ++ [entry]).flatMap fun earlier => earlier.batch.redo) := by
  have htile := hjournal.tiled front entry back hsplit
  have hhead : ((front ++ [entry]).flatMap fun earlier => earlier.batch.out) =
      encodeAll ((front ++ [entry]).flatMap fun earlier => earlier.batch.redo) := by
    refine flatMap_out fun earlier hearlier => hjournal.tiled.encoded ?_
    rw [hsplit, List.append_cons]
    exact List.mem_append_left _ hearlier
  have himage : engine.image =
      (baseOf segs start ++ (front ++ [entry]).flatMap fun earlier => earlier.batch.out) ++
        back.flatMap fun later => later.batch.out := by
    rw [hjournal.image, hsplit]
    simp
  have hlength : entry.offset + entry.batch.out.length =
      (baseOf segs start ++
        (front ++ [entry]).flatMap fun earlier => earlier.batch.out).length := by
    rw [htile.offset]
    simp [Nat.add_assoc]
  rw [himage, hlength, List.take_left, hhead]

theorem replayed_of_saved (hsound : engine.Sound)
    (hjournal : Journal SortedMap.empty 1 engine) (hlsn : engine.lastIngestedLsn < 2 ^ 64)
    {bytes : Bytes} (hloss : PowerLoss engine.disk bytes) {ack : Ack}
    (hsaved : engine.SavedUpTo ack) (state : Replay) :
    ∀ rec ∈ ack.batch.redo, rec ∈ (replaySegment 0 bytes state).1.replayed := by
  obtain ⟨entry, hentry, hredo, hcovers⟩ := hsaved
  obtain ⟨front, back, hsplit⟩ := List.append_of_mem hentry
  have htake := hloss.take_eq (disk_grows hsound.stored) hsound.stored.agrees hcovers
  rw [hjournal.image_take hsplit] at htake
  have hgood := hjournal.good hlsn (Nat.zero_le 1)
  have hbytes := List.take_append_drop (entry.offset + entry.batch.out.length) bytes
  have hempty : baseOf SortedMap.empty 1 = [] := rfl
  rw [htake, hempty, List.nil_append] at hbytes
  intro rec hrec
  rw [← hbytes, replaySegment_encodeAll]
  · refine (replayLoop_kept _ _ _ _).replayed rec (List.mem_append_right _ ?_)
    rw [List.flatMap_append]
    refine List.mem_append_right _ ?_
    rw [List.flatMap_cons, hredo]
    exact List.mem_append_left _ hrec
  · intro other hother
    apply hgood other
    rw [history, hsplit]
    simp only [List.flatMap_append, List.flatMap_cons, List.flatMap_nil, List.append_nil,
      List.mem_append] at hother ⊢
    tauto

/-- In Sync mode a PUT is answered at `Durable` only. -/
theorem durable_of_released {point : AckPoint} {req : Request} (hop : req.op = .put)
    (hreleased : ((Acker.new .sync).released point req).isSome) : point = .durable := by
  have hrequired : (Acker.new .sync).required req = .durable := by
    simp [Acker.required, Request.isReadOnly, hop, Acker.new, AckPoint.ofMode]
  rw [Acker.released, hrequired] at hreleased
  cases point with
  | applied => cases hreleased
  | written => cases hreleased
  | durable => rfl

/-- `recover` returns with every acknowledged PUT redone. -/
def Survives (engine : WalEngine) (bytes : Bytes) : Prop :=
  ∃ replay ended,
    replayDir ⟨none, SortedMap.empty.insert 1 bytes⟩ = .ok (replay, ended) ∧
    recover ⟨none, SortedMap.empty.insert 1 bytes⟩ = .ok (replay.db, replay.highest + 1) ∧
    ∀ ack ∈ engine.acked, ∀ req ∈ puts ack.batch.items,
      (engine.ack.released ack.point req).isSome →
        ∀ rec ∈ ack.batch.redo, rec ∈ replay.replayed

/-- Guard of the runs in which no fsync completion is reaped while an earlier batch than
a waiting one is still in line. -/
def CarefulFeeds (engine : WalEngine) (act : Act) : Prop :=
  PlainFeeds engine act ∧ ¬ (act = .reap ∧ engine.reapsFsync = true ∧ engine.overtaken = true)

instance (engine : WalEngine) (act : Act) : Decidable (CarefulFeeds engine act) :=
  inferInstanceAs (Decidable (_ ∧ ¬ (_ ∧ _ ∧ _)))

/-- What such a run of an empty directory maintains. -/
theorem careful_reach {depth : ℕ} {pool : List Batch}
    (hreach : Machine.Reach step CarefulFeeds
      (new depth (Files.ofSegs SortedMap.empty) 1 .sync pool) engine) :
    engine.Sound ∧ engine.Plain ∧ Journal SortedMap.empty 1 engine ∧ engine.Ledger := by
  induction hreach with
  | start =>
      refine ⟨sound_new _ _ _ _ _, ⟨?_, trivial⟩, journal_new _ _ _ _ _, rfl, ?_, ?_, ?_⟩
      · exact fun _ h => by cases h
      · exact fun _ h => by cases h
      · exact fun _ h => by cases h
      · exact fun _ h => by cases h
  | next _ hguard hstep ih =>
      refine plain_keeps (fun _ _ => ledger_move) ih.1 ih.2.1 ih.2.2 hguard.1 ?_ hstep
      intro kind current hpermit
      have hwriting := ih.2.1.permits _ kind current hpermit
      cases kind with
      | durable =>
          intro hfsync
          obtain ⟨rfl, hact⟩ := hpermit
          by_contra hnot
          exact hguard.2 ⟨hact, hfsync, by simpa using hnot⟩
      | _ => exact hwriting

/-- Once all that was queued is saved, every power loss leaves what `recover` goes through. -/
theorem sensible_of_saved {depth : ℕ} {pool : List Batch}
    (hreach : Machine.Reach step CarefulFeeds
      (new depth (Files.ofSegs SortedMap.empty) 1 .sync pool) engine)
    (hlsn : engine.lastIngestedLsn < 2 ^ 64)
    (hsaved : Covers engine.disk.stable 0 engine.image.length) {bytes : Bytes}
    (hloss : PowerLoss engine.disk bytes) : SensibleLog 0 [(1, bytes)] := by
  obtain ⟨hsound, -, hjournal, -⟩ := careful_reach hreach
  have himage : engine.image = encodeAll engine.history :=
    hjournal.image.trans (flatMap_out fun entry hentry => hjournal.tiled.encoded hentry)
  have hreadable : Readable 0 bytes := by
    rw [hloss.eq_image (disk_grows hsound.stored) hsound.stored.agrees hsaved, himage]
    have hwhole := replaySegment_encodeAll (hjournal.good hlsn (Nat.zero_le 1)) []
      ⟨Db.new, 0, []⟩
    rw [List.append_nil, replaySegment_nil] at hwhole
    exact readable_append_of_finished hwhole (readable_zeros _)
  apply sensibleLog_of_readable
  intro entry hentry
  rw [List.mem_singleton.mp hentry]
  exact hreadable

/-- Sync mode, from an empty directory: if no fsync completion is ever reaped while
an earlier batch than a waiting one is still in line, then after a power loss
`recover` returns with every acknowledged PUT redone, if and only if what is left of
the segment holds no sealed body that `recover` comes to and cannot interpret. -/
theorem power_loss_replays_acked {depth : ℕ} {pool : List Batch}
    (hreach : Machine.Reach step CarefulFeeds
      (new depth (Files.ofSegs SortedMap.empty) 1 .sync pool) engine)
    (hlsn : engine.lastIngestedLsn < 2 ^ 64) {bytes : Bytes}
    (hloss : PowerLoss engine.disk bytes) :
    engine.Survives bytes ↔ SensibleLog 0 [(1, bytes)] := by
  obtain ⟨hsound, -, hjournal, hledger⟩ := careful_reach hreach
  have hload : loadSnapshot ⟨none, SortedMap.empty.insert 1 bytes⟩ = .ok (Db.new, 0) := rfl
  constructor
  · rintro ⟨replay, ended, hdir, hrecover, -⟩
    exact (recover_eq_iff hload hdir).mp hrecover
  · intro hsensible
    have hdir := replayDir_single 1 bytes
    refine ⟨_, _, hdir, (recover_eq_iff hload hdir).mpr hsensible, ?_⟩
    intro ack hack req hreq hreleased
    have hop : req.op = .put := by simpa using (List.mem_filter.mp hreq).2
    rw [hledger.sync] at hreleased
    have hsaved := hledger.saved ack hack (durable_of_released hop hreleased)
    exact replayed_of_saved hsound hjournal hlsn hloss hsaved _

/-- One committed PUT survives. -/
theorem power_loss_replays_acked_one :
    ∃ engine bytes, Machine.Reach step CarefulFeeds
        (new 128 (Files.ofSegs SortedMap.empty) 1 .sync []) engine ∧
      engine.lastIngestedLsn < 2 ^ 64 ∧ PowerLoss engine.disk bytes ∧
      (∃ ack ∈ engine.acked, ∃ req ∈ puts ack.batch.items,
        (engine.ack.released ack.point req).isSome) ∧ engine.Survives bytes := by
  let batch : Batch := ⟨[⟨.smallPut 65 66, 7, some .ok, 0⟩], [], 1, 2, 0⟩
  obtain ⟨engine, hreach, hdone⟩ := @Machine.exists_reach _ _ step CarefulFeeds
    (new 128 (Files.ofSegs SortedMap.empty) 1 .sync []) _
    [.arrive (.write batch), .poll, .plan, .reap, .start 0, .complete 0 27, .start 0,
      .complete 0 0, .poll, .plan, .reap, .reap]
    (fun engine => engine.lastIngestedLsn < 2 ^ 64 ∧
      (∃ ack ∈ engine.acked, ∃ req ∈ puts ack.batch.items,
        (engine.ack.released ack.point req).isSome) ∧
      engine.disk.stable = full engine.image)
    (by decide +kernel)
  obtain ⟨hlsn, hacked, hsaved⟩ : engine.lastIngestedLsn < 2 ^ 64 ∧
      (∃ ack ∈ engine.acked, ∃ req ∈ puts ack.batch.items,
        (engine.ack.released ack.point req).isSome) ∧
      engine.disk.stable = full engine.image := of_decide_eq_true hdone
  have hsound : engine.Sound :=
    (journal_reach (hreach.weaken fun _ _ hguard => hguard.1)).1
  have hloss := powerLoss_stable (disk_grows hsound.stored)
  have hsensible := sensible_of_saved hreach hlsn (hsaved ▸ covers_full engine.image) hloss
  exact ⟨engine, _, hreach, hlsn, hloss, hacked,
    (power_loss_replays_acked hreach hlsn hloss).mpr hsensible⟩

/-- A PUT whose key is the checksum of the LSN 3 and its own header, with a value of 248
bytes. -/
def sealedPut : Payload where
  bytes := [opPut, 8, 0, 0, 0] ++
    (leBytes 8 (checksum (leBytes 8 3 ++ [opPut, 8, 0, 0, 0])).toNat ++ List.replicate 248 0)
  nonempty := by
    rw [List.length_append]
    exact Nat.add_pos_left (by decide) _
  bounded := by
    rw [List.length_append, List.length_append, length_leBytes, List.length_replicate]
    decide

/-- The first batch is acknowledged, the second one written and not yet saved.  Power
loss clears the second byte of its length, and so cuts its record to a sealed header
without a key: `recover` aborts. -/
theorem power_loss_aborts :
    ∃ engine bytes, Machine.Reach step CarefulFeeds
        (new 128 (Files.ofSegs SortedMap.empty) 1 .sync []) engine ∧
      engine.lastIngestedLsn < 2 ^ 64 ∧ PowerLoss engine.disk bytes ∧
      (∃ ack ∈ engine.acked, ∃ req ∈ puts ack.batch.items,
        (engine.ack.released ack.point req).isSome) ∧
      recover ⟨none, SortedMap.empty.insert 1 bytes⟩ = .error .outOfBounds := by
  let first : Batch := ⟨[⟨.smallPut 65 66, 7, some .ok, 0⟩], [], 1, 2, 0⟩
  let second : Batch := ⟨[⟨sealedPut, 7, some .ok, 1⟩], [], 2, 3, 1⟩
  obtain ⟨engine, hreach, hdone⟩ := @Machine.exists_reach _ _ step CarefulFeeds
    (new 128 (Files.ofSegs SortedMap.empty) 1 .sync []) _
    [.arrive (.write first), .poll, .plan, .reap, .start 0, .complete 0 27, .start 0,
      .complete 0 0, .poll, .plan, .reap, .reap, .send, .send, .reap,
      .arrive (.write second), .poll, .plan, .reap, .start 0, .complete 0 281]
    (fun engine => engine.lastIngestedLsn < 2 ^ 64 ∧ engine.disk.stable.length ≤ 28 ∧
      (∃ ack ∈ engine.acked, ∃ req ∈ puts ack.batch.items,
        (engine.ack.released ack.point req).isSome) ∧
      (replaySegment 0 ((contents engine.disk.cache).set 28 0) ⟨Db.new, 0, []⟩).2 =
        .panicked .outOfBounds)
    (by decide +kernel)
  obtain ⟨hlsn, hunsaved, hacked, hpanicked⟩ : engine.lastIngestedLsn < 2 ^ 64 ∧
      engine.disk.stable.length ≤ 28 ∧
      (∃ ack ∈ engine.acked, ∃ req ∈ puts ack.batch.items,
        (engine.ack.released ack.point req).isSome) ∧
      (replaySegment 0 ((contents engine.disk.cache).set 28 0) ⟨Db.new, 0, []⟩).2 =
        .panicked .outOfBounds := of_decide_eq_true hdone
  have hsound : engine.Sound :=
    (journal_reach (hreach.weaken fun _ _ hguard => hguard.1)).1
  refine ⟨engine, _, hreach, hlsn, powerLoss_clear (disk_grows hsound.stored) hunsaved, hacked, ?_⟩
  rw [recover, replayDir_single]
  generalize replaySegment 0 _ _ = result at hpanicked ⊢
  obtain ⟨replay, ended⟩ := result
  cases hpanicked
  rfl

/-- The first batch is written short and then interrupted while the second one is
written whole; the fsync that completes releases the second.  After power loss
recovery stops in the first. -/
theorem power_loss_loses_acked :
    ∃ engine bytes, Machine.Reach step PlainFeeds
        (new 128 (Files.ofSegs SortedMap.empty) 1 .sync []) engine ∧
      engine.lastIngestedLsn < 2 ^ 64 ∧ PowerLoss engine.disk bytes ∧
      ∃ replay ended,
        replayDir ⟨none, SortedMap.empty.insert 1 bytes⟩ = .ok (replay, ended) ∧
        ∃ ack ∈ engine.acked, ∃ req ∈ puts ack.batch.items,
          (engine.ack.released ack.point req).isSome ∧
          ∃ rec ∈ ack.batch.redo, rec ∉ replay.replayed := by
  let first : Batch := ⟨[⟨.smallPut 65 66, 7, some .ok, 0⟩], [], 1, 2, 0⟩
  let second : Batch := ⟨[⟨.smallPut 65 67, 7, some .ok, 1⟩], [], 2, 3, 1⟩
  obtain ⟨engine, hreach, hdone⟩ := @Machine.exists_reach _ _ step PlainFeeds
    (new 128 (Files.ofSegs SortedMap.empty) 1 .sync []) _
    [.arrive (.write first), .poll, .plan, .reap, .start 0, .complete 0 5,
      .arrive (.write second), .poll, .plan, .reap, .reap,
      .start 0, .complete 0 0, .start 0, .complete 0 27,
      .poll, .plan, .reap, .reap, .reap, .poll, .plan, .reap,
      .start 0, .complete 0 (-11), .start 0, .complete 0 0, .poll, .plan, .reap, .reap]
    (fun engine => engine.lastIngestedLsn < 2 ^ 64 ∧ ∃ ack ∈ engine.acked,
      ∃ req ∈ puts ack.batch.items, (engine.ack.released ack.point req).isSome ∧
        ∃ rec ∈ ack.batch.redo,
          rec ∉ (replaySegment 0 (contents engine.disk.stable) ⟨Db.new, 0, []⟩).1.replayed)
    (by decide +kernel)
  have hfacts := of_decide_eq_true hdone
  have hsound : engine.Sound := (journal_reach hreach).1
  exact ⟨engine, contents engine.disk.stable, hreach, hfacts.1,
    powerLoss_stable (disk_grows hsound.stored), _, _, replayDir_single 1 _, hfacts.2⟩

end WalEngine

end InMemoryDb.Stage3
