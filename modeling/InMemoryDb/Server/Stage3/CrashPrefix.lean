import InMemoryDb.Server.Stage3.Journal
import Mathlib.Data.List.TakeWhile

/-!
# A crash between concurrent writes

The writes of a segment land in any order, so a crash can leave any subset of
the batches in the file, with zeros in the gaps.  A gap is at least as long as a
record, and a record of zeros never decodes: recovery keeps exactly the batches
before the first gap.
-/

namespace InMemoryDb.Stage3

open SparseFile WalFormat Recover Wire

/-- The file after the writes of some of the batches. -/
def landed (written : List Queued) : Sparse UInt8 :=
  pwriteAll [] (written.map fun entry => (entry.offset, entry.batch.out))

/-- The longest run of batches, from the first on, that are all written. -/
def unbroken (queued written : List Queued) : List Queued :=
  queued.takeWhile fun entry => entry ∈ written

namespace WalEngine

/-- `handle_batch` on one batch after another. -/
def ingest (engine : WalEngine) : List Batch → Except Panic WalEngine
  | [] => .ok engine
  | batch :: batches => do (← engine.handleBatch batch).ingest batches

variable {engine after : WalEngine} {start : ℕ}

theorem handleBatch_keeps (hsound : engine.Sound) (hjournal : Journal SortedMap.empty start engine)
    (hinbox : engine.msgRx = []) {batch : Batch} (hshape : FromStage2 engine.ack batch)
    (hbatch : engine.handleBatch batch = .ok after) :
    after.Sound ∧ Journal SortedMap.empty start after ∧ after.msgRx = [] ∧
      after.ack = engine.ack := by
  have harrive : Move Writing engine { engine with msgRx := [.write batch] } := by
    have hmove := @Move.arrive Writing engine (.write batch) trivial fun other heq => by
      cases heq
      exact hshape
    rwa [hinbox, List.nil_append] at hmove
  have hbatch' : { engine with msgRx := [] }.handleBatch batch = .ok after := by
    rw [← hbatch, ← hinbox]
  have henqueue : Move Writing { engine with msgRx := [.write batch] } after :=
    Move.enqueue _ rfl hbatch'
  have hready := sound_move hsound harrive
  refine ⟨sound_move hready henqueue,
    journal_move hready (journal_move hsound hjournal harrive) henqueue, ?_⟩
  obtain ⟨-, -, out, -, rfl⟩ := handleBatch_inv hbatch
  exact ⟨hinbox, rfl⟩

theorem ingest_keeps {batches : List Batch} (hsound : engine.Sound)
    (hjournal : Journal SortedMap.empty start engine) (hinbox : engine.msgRx = [])
    (hbatches : ∀ batch ∈ batches, FromStage2 engine.ack batch)
    (hingest : engine.ingest batches = .ok after) :
    after.Sound ∧ Journal SortedMap.empty start after := by
  induction batches generalizing engine with
  | nil =>
      simp only [ingest, Except.ok.injEq] at hingest
      exact hingest ▸ ⟨hsound, hjournal⟩
  | cons batch batches ih =>
      rw [ingest] at hingest
      cases hbatch : engine.handleBatch batch with
      | error cause => simp [hbatch] at hingest
      | ok next =>
          rw [hbatch, ok_bind] at hingest
          obtain ⟨hsound', hjournal', hinbox', hack⟩ := handleBatch_keeps hsound hjournal hinbox
            (hbatches batch (by simp)) hbatch
          refine ih hsound' hjournal' hinbox' ?_ hingest
          rw [hack]
          exact fun other hother => hbatches other (List.mem_cons_of_mem _ hother)

end WalEngine

/-! ## The surviving file -/

variable {start : ℕ} {queued written : List Queued}

theorem Tiled.located (htiled : Tiled 0 start queued) {entry : Queued} (hentry : entry ∈ queued) :
    Located (queued.flatMap fun entry => entry.batch.out) entry.offset entry.batch.out := by
  obtain ⟨front, back, hsplit⟩ := List.append_of_mem hentry
  have htile := htiled front entry back hsplit
  have hoffset : entry.offset = (front.flatMap fun earlier => earlier.batch.out).length := by
    simpa using htile.offset
  rw [hsplit, List.flatMap_append, List.flatMap_cons, hoffset, ← List.append_assoc]
  exact (located_append_self _ _).append _

/-- What the library says about the landed writes. -/
theorem landed_facts (htiled : Tiled 0 start queued)
    (hwritten : ∀ entry ∈ written, entry ∈ queued) :
    Agrees (landed written) (queued.flatMap fun entry => entry.batch.out) ∧
      ∀ entry ∈ written, Covers (landed written) entry.offset entry.batch.out.length := by
  have hnil : Agrees ([] : Sparse UInt8) (queued.flatMap fun entry => entry.batch.out) :=
    ⟨Nat.zero_le _, fun index value hold => by simp [Holds] at hold⟩
  have hlocated : ∀ write ∈ written.map fun entry => (entry.offset, entry.batch.out),
      Located (queued.flatMap fun entry => entry.batch.out) write.1 write.2 := by
    intro write hwrite
    obtain ⟨entry, hentry, rfl⟩ := List.mem_map.mp hwrite
    exact htiled.located (hwritten entry hentry)
  refine ⟨(agrees_pwriteAll hnil hlocated).1, ?_⟩
  intro entry hentry
  exact covers_pwriteAll hnil hlocated _ (List.mem_map_of_mem hentry)

theorem mem_of_mem_unbroken {entry : Queued} (hentry : entry ∈ unbroken queued written) :
    entry ∈ written := by
  simpa using List.mem_takeWhile_imp hentry

/-- Up to the first gap the file is the records of the unbroken batches. -/
theorem take_landed (htiled : Tiled 0 start queued)
    (hwritten : ∀ entry ∈ written, entry ∈ queued) {rest : List Queued}
    (hqueued : queued = unbroken queued written ++ rest) :
    (contents (landed written)).take
        ((unbroken queued written).flatMap fun entry => entry.batch.out).length =
      encodeAll ((unbroken queued written).flatMap fun entry => entry.batch.redo) := by
  obtain ⟨hagrees, hcovers⟩ := landed_facts htiled hwritten
  have hencoded : ((unbroken queued written).flatMap fun entry => entry.batch.out) =
      encodeAll ((unbroken queued written).flatMap fun entry => entry.batch.redo) :=
    flatMap_out fun entry hentry => htiled.encoded (hwritten entry (mem_of_mem_unbroken hentry))
  have hfull : Covers (landed written) 0
      ((unbroken queued written).flatMap fun entry => entry.batch.out).length := by
    rcases List.eq_nil_or_concat (unbroken queued written) with hnil | ⟨front, last, hlast⟩
    · rw [hnil]
      exact covers_zero _ _
    · rw [List.concat_eq_append] at hlast
      have hsplit : queued = front ++ last :: rest := by
        rw [hlast] at hqueued
        simpa using hqueued
      have hend := htiled.covers (covers_zero _ _) hsplit fun earlier hearlier =>
        hcovers earlier (mem_of_mem_unbroken (hlast ▸ hearlier))
      have hoffset : last.offset = (front.flatMap fun earlier => earlier.batch.out).length := by
        simpa using (htiled front last rest hsplit).offset
      rw [hoffset] at hend
      rw [hlast]
      simpa using hend
  rw [← hencoded]
  apply List.ext_getElem?
  intro index
  by_cases hindex : index <
      ((unbroken queued written).flatMap fun entry => entry.batch.out).length
  · obtain ⟨value, hvalue⟩ := hfull index (by omega) (by omega)
    have himage := hagrees.2 index value hvalue
    rw [hqueued, List.flatMap_append, List.getElem?_append_left hindex] at himage
    rw [List.getElem?_take_of_lt hindex, himage]
    exact (agrees_contents _).2 index value hvalue
  · rw [List.getElem?_eq_none (by simpa using Or.inl (not_lt.mp hindex)),
      List.getElem?_eq_none (not_lt.mp hindex)]

/-- A batch takes at least as many bytes as the decoder needs to reject zeros. -/
theorem Tiled.twelve_le (htiled : Tiled 0 start queued) {entry : Queued}
    (hentry : entry ∈ queued) : 12 ≤ entry.batch.out.length := by
  obtain ⟨front, back, hsplit⟩ := List.append_of_mem hentry
  have htile := htiled front entry back hsplit
  rw [htile.encoded]
  cases hredo : entry.batch.redo with
  | nil => exact absurd hredo htile.nonempty
  | cons rec records =>
      rw [encodeAll, List.flatMap_cons, List.length_append, length_record]
      omega

/-- Another batch lies wholly before a batch or wholly behind it. -/
theorem Tiled.sides (htiled : Tiled 0 start queued) {front back : List Queued}
    {gap entry : Queued} (hqueued : queued = front ++ gap :: back) (hentry : entry ∈ queued)
    (hne : entry ≠ gap) :
    entry.offset + entry.batch.out.length ≤ gap.offset ∨
      gap.offset + gap.batch.out.length ≤ entry.offset := by
  have hgap := (htiled front gap back hqueued).offset
  rw [hqueued] at hentry
  rcases List.mem_append.mp hentry with hbefore | hbehind
  · left
    obtain ⟨before, between, hsplit⟩ := List.append_of_mem hbefore
    have htile := htiled before entry (between ++ gap :: back) (by rw [hqueued, hsplit]; simp)
    rw [htile.offset, hgap, hsplit]
    simp only [List.flatMap_append, List.flatMap_cons, List.length_append]
    omega
  · right
    rcases List.mem_cons.mp hbehind with heq | hbehind
    · exact absurd heq hne
    · obtain ⟨between, behind, hsplit⟩ := List.append_of_mem hbehind
      have htile := htiled (front ++ gap :: between) entry behind
        (by rw [hqueued, hsplit]; simp)
      rw [htile.offset, hgap]
      simp only [List.flatMap_append, List.flatMap_cons, List.length_append]
      omega

/-- Behind the first gap: either the file ends there, or it goes on with at
least twelve zeros. -/
theorem drop_landed (htiled : Tiled 0 start queued)
    (hwritten : ∀ entry ∈ written, entry ∈ queued) {gap : Queued} {back : List Queued}
    (hqueued : queued = unbroken queued written ++ gap :: back) (hgap : gap ∉ written) :
    (contents (landed written)).drop
        ((unbroken queued written).flatMap fun entry => entry.batch.out).length = [] ∨
      ∃ count rest, 12 ≤ count ∧ (contents (landed written)).drop
        ((unbroken queued written).flatMap fun entry => entry.batch.out).length =
          List.replicate count 0 ++ rest := by
  set front := unbroken queued written with hfront
  set bound := (front.flatMap fun entry => entry.batch.out).length with hbound
  have hoffset : gap.offset = bound :=
    (htiled front gap back hqueued).offset.trans (Nat.zero_add _)
  have hgapMem : gap ∈ queued := by
    rw [hqueued]
    exact List.mem_append_right _ List.mem_cons_self
  have hsides : ∀ entry ∈ written, entry.offset + entry.batch.out.length ≤ bound ∨
      bound + gap.batch.out.length ≤ entry.offset := by
    intro entry hentry
    rw [← hoffset]
    exact htiled.sides hqueued (hwritten entry hentry) fun heq => hgap (heq ▸ hentry)
  by_cases hshort : (landed written).length ≤ bound
  · left
    rw [List.drop_eq_nil_iff, length_contents]
    exact hshort
  · right
    have hlong : bound + gap.batch.out.length ≤ (landed written).length := by
      have hnonempty : ∀ write ∈ written.map fun entry => (entry.offset, entry.batch.out),
          write.2 ≠ [] := by
        intro write hwrite
        obtain ⟨entry, hentry, rfl⟩ := List.mem_map.mp hwrite
        apply List.ne_nil_of_length_pos
        have := htiled.twelve_le (hwritten entry hentry)
        simp only
        omega
      rcases @length_pwriteAll _ [] _ hnonempty with hzero | ⟨write, hwrite, hend⟩
      · rw [landed, hzero] at hshort
        exact absurd (Nat.zero_le _) hshort
      · obtain ⟨entry, hentry, rfl⟩ := List.mem_map.mp hwrite
        rw [landed, hend] at hshort ⊢
        simp only at hshort ⊢
        rcases hsides entry hentry with hbefore | hbehind
        · omega
        · omega
    refine ⟨gap.batch.out.length,
      (contents (landed written)).drop (bound + gap.batch.out.length),
      htiled.twelve_le hgapMem, ?_⟩
    rw [← List.drop_drop]
    conv_lhs =>
      rw [← List.take_append_drop gap.batch.out.length ((contents (landed written)).drop bound)]
    congr 1
    rw [List.eq_replicate_iff]
    constructor
    · rw [List.length_take, List.length_drop, length_contents]
      omega
    · intro byte hbyte
      obtain ⟨index, hindex, hget⟩ := List.getElem_of_mem hbyte
      rw [List.length_take, List.length_drop, length_contents] at hindex
      have hcell : (contents (landed written))[bound + index]? = some byte := by
        rw [← List.getElem?_drop,
          ← List.getElem?_take_of_lt (by omega : index < gap.batch.out.length)]
        exact List.getElem?_eq_some_iff.mpr ⟨_, hget⟩
      rw [contents, List.getElem?_map, Option.map_eq_some_iff] at hcell
      obtain ⟨cell, hcell, rfl⟩ := hcell
      cases cell with
      | none => rfl
      | some value =>
          rcases holds_pwriteAll hcell with hnil | ⟨write, hwrite, hlow, hhigh⟩
          · simp [Holds] at hnil
          · obtain ⟨entry, hentry, rfl⟩ := List.mem_map.mp hwrite
            simp only at hlow hhigh
            rcases hsides entry hentry with hbefore | hbehind
            · omega
            · omega

/-- Replay of the surviving file: exactly the unbroken batches. -/
theorem replaySegment_landed (htiled : Tiled 0 start queued)
    (hwritten : ∀ entry ∈ written, entry ∈ queued)
    (hgood : ∀ rec ∈ queued.flatMap fun entry => entry.batch.redo,
      Fits rec.1 rec.2 ∧ GoodPut rec.2 ∧ 0 < rec.1) (state : Replay) :
    ∃ ended, (ended = .finished ∨ ended = .torn) ∧
      replaySegment 0 (contents (landed written)) state =
        (state.extend ((unbroken queued written).flatMap fun entry => entry.batch.redo),
          ended) := by
  have hqueued : queued = unbroken queued written ++
      queued.dropWhile fun entry => entry ∈ written :=
    List.takeWhile_append_dropWhile.symm
  have hrecords : ∀ rec ∈ (unbroken queued written).flatMap fun entry => entry.batch.redo,
      Fits rec.1 rec.2 ∧ GoodPut rec.2 ∧ 0 < rec.1 := by
    intro rec hrec
    apply hgood rec
    rw [hqueued, List.flatMap_append]
    exact List.mem_append_left _ hrec
  have htake := take_landed htiled hwritten hqueued
  have hbytes := List.take_append_drop
    ((unbroken queued written).flatMap fun entry => entry.batch.out).length
    (contents (landed written))
  rw [htake] at hbytes
  rw [← hbytes, replaySegment_encodeAll hrecords]
  cases hrest : queued.dropWhile fun entry => decide (entry ∈ written) with
  | nil =>
      -- every batch is there, and the file ends with the last of them
      refine ⟨.finished, Or.inl rfl, ?_⟩
      rw [hrest, List.append_nil] at hqueued
      have hnil : (contents (landed written)).drop
          ((unbroken queued written).flatMap fun entry => entry.batch.out).length = [] := by
        rw [List.drop_eq_nil_iff, length_contents, ← hqueued]
        exact (landed_facts htiled hwritten).1.1
      rw [hnil, replaySegment_nil]
  | cons gap back =>
      rw [hrest] at hqueued
      have hgap : gap ∉ written := by
        have hhead := List.head?_dropWhile_not (fun entry => decide (entry ∈ written)) queued
        rw [hrest] at hhead
        simpa using hhead
      rcases drop_landed htiled hwritten hqueued hgap with hnil | ⟨count, rest, hcount, hzeros⟩
      · exact ⟨.finished, Or.inl rfl, by rw [hnil, replaySegment_nil]⟩
      · refine ⟨.torn, Or.inr rfl, ?_⟩
        rw [hzeros]
        refine replaySegment_torn 0 _ ?_ (decodeRecord_zeros hcount rest)
        intro hnil
        have hlength := congrArg List.length hnil
        simp only [List.length_append, List.length_replicate, List.length_nil] at hlength
        omega

/-- Whatever subset of the batches of a run reached the file, recovery returns the
table and the LSN of the batches before the first one that did not. -/
theorem recover_landed {depth : ℕ} {mode : Mode} {pool : List Batch} {batches : List Batch}
    {engine : WalEngine}
    (hbatches : ∀ batch ∈ batches, FromStage2 (Acker.new mode) batch)
    (hingest : (WalEngine.new depth (Files.ofSegs SortedMap.empty) 1 mode pool).ingest batches =
      .ok engine)
    (hlsn : engine.lastIngestedLsn < 2 ^ 64)
    (hwritten : ∀ entry ∈ written, entry ∈ engine.queued) :
    ∃ applied ended,
      applied = (unbroken engine.queued written).flatMap (fun entry => entry.batch.redo) ∧
      replayDir ⟨none, SortedMap.empty.insert 1 (contents (landed written))⟩ =
        .ok (⟨applyRecords Db.new applied, (applied.map Prod.fst).foldl max 0, applied⟩,
          ended) ∧
      recover ⟨none, SortedMap.empty.insert 1 (contents (landed written))⟩ =
        .ok (applyRecords Db.new applied, (applied.map Prod.fst).foldl max 0 + 1) := by
  obtain ⟨-, hjournal⟩ := WalEngine.ingest_keeps (WalEngine.sound_new _ _ _ _ _)
    (WalEngine.journal_new _ _ _ _ _) rfl hbatches hingest
  have htiled : Tiled 0 1 engine.queued := hjournal.tiled
  obtain ⟨ended, hended, hreplay⟩ := replaySegment_landed htiled hwritten
    (hjournal.good hlsn (Nat.zero_le 1)) ⟨Db.new, 0, []⟩
  have hdir := replayDir_single 1 (contents (landed written))
  rw [hreplay] at hdir
  refine ⟨_, ended, rfl, ?_, ?_⟩
  · simpa [Replay.extend] using hdir
  · rw [recover, hdir]
    rcases hended with rfl | rfl <;> rfl

/-- Three batches, the second of which did not reach the file. -/
theorem recover_landed_gap :
    ∃ engine written, ((WalEngine.new 128 (Files.ofSegs SortedMap.empty) 1 .sync []).ingest
        [⟨[⟨.smallPut 65 66, 7, some .ok, 0⟩], [], 1, 2, 0⟩,
          ⟨[⟨.smallPut 65 67, 7, some .ok, 1⟩], [], 2, 3, 1⟩,
          ⟨[⟨.smallPut 68 69, 7, some .ok, 2⟩], [], 3, 4, 2⟩] = .ok engine) ∧
      (unbroken engine.queued written).length = 1 ∧ written.length = 2 ∧
      ∃ applied ended,
        applied = (unbroken engine.queued written).flatMap (fun entry => entry.batch.redo) ∧
        replayDir ⟨none, SortedMap.empty.insert 1 (contents (landed written))⟩ =
          .ok (⟨applyRecords Db.new applied, (applied.map Prod.fst).foldl max 0, applied⟩,
            ended) ∧
        recover ⟨none, SortedMap.empty.insert 1 (contents (landed written))⟩ =
          .ok (applyRecords Db.new applied, (applied.map Prod.fst).foldl max 0 + 1) := by
  let batches : List Batch :=
    [⟨[⟨.smallPut 65 66, 7, some .ok, 0⟩], [], 1, 2, 0⟩,
      ⟨[⟨.smallPut 65 67, 7, some .ok, 1⟩], [], 2, 3, 1⟩,
      ⟨[⟨.smallPut 68 69, 7, some .ok, 2⟩], [], 3, 4, 2⟩]
  obtain ⟨engine, hengine⟩ : ∃ engine,
      (WalEngine.new 128 (Files.ofSegs SortedMap.empty) 1 .sync []).ingest batches =
        .ok engine := ⟨_, rfl⟩
  have hshape : ∀ batch ∈ batches, FromStage2 (Acker.new .sync) batch := by decide +kernel
  have hqueued : engine.queued.length = 3 ∧ engine.lastIngestedLsn < 2 ^ 64 ∧
      (unbroken engine.queued (engine.queued.eraseIdx 1)).length = 1 ∧
      (engine.queued.eraseIdx 1).length = 2 := by
    cases hengine
    decide +kernel
  refine ⟨engine, engine.queued.eraseIdx 1, hengine, hqueued.2.2.1, hqueued.2.2.2, ?_⟩
  exact recover_landed hshape hengine hqueued.2.1 fun entry hentry =>
    List.mem_of_mem_eraseIdx hentry

end InMemoryDb.Stage3
