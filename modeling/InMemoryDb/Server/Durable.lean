import InMemoryDb.Server.Acknowledged
import InMemoryDb.Server.Linearizable
import InMemoryDb.Server.ProcessCrash
import InMemoryDb.Storage.Damage

/-!
# The table after a crash

A crash leaves the segment with its old contents, the records of the first requests,
and behind them bytes of which nothing is known.  Recovery then returns the table of a
prefix of the order in which the requests took effect.  Where acknowledgements do
not overtake earlier batches, no acknowledged PUT is behind the cut.
-/

namespace InMemoryDb

open SparseFile Wire WalFormat Recover Linearization Stage2 Stage3

/-! ## The segment -/

namespace Stage3.WalEngine

variable {engine after : WalEngine} {segs : SortedMap ℕ Bytes} {start : ℕ}

/-- In a run of write messages every batch is in the active segment, and what the
segment held before is on stable storage. -/
structure Rooted (segs : SortedMap ℕ Bytes) (start : ℕ) (engine : WalEngine) : Prop where
  inside : ∀ entry ∈ engine.queued, entry.seg = engine.seg.startLsn
  base : Covers engine.disk.stable 0 (baseOf segs start).length

theorem rooted_new (depth : ℕ) (segs : SortedMap ℕ Bytes) (start : ℕ) (mode : Mode)
    (pool : List Batch) : Rooted segs start (new depth (Files.ofSegs segs) start mode pool) := by
  refine ⟨(fun _ h => by cases h), ?_⟩
  have hfile : (Files.ofSegs segs).lookup start = (segs.lookup start).map File.ofBytes :=
    SortedMap.lookup_mapValues _ _ _
  rw [baseOf]
  cases hlookup : segs.lookup start with
  | none => exact covers_zero _ _
  | some bytes =>
      rw [hlookup] at hfile
      have hdisk : (new depth (Files.ofSegs segs) start mode pool).disk = File.ofBytes bytes := by
        simp [new, disk, Segment.open, hfile]
      rw [hdisk]
      exact covers_full bytes

theorem stable_move (hsound : engine.Sound) (hmove : Move Writing engine after) :
    Grows engine.disk.stable after.disk.stable := by
  cases hmove with
  | enqueue hmsg hbatch =>
      obtain ⟨-, -, out, -, rfl⟩ := handleBatch_inv hbatch
      exact Grows.refl _
  | reapWritten hpermit hpc hwork hres hdone =>
      rw [reapWritten_eq]
      exact Grows.refl _
  | sealed boundaryLsn hpermit hpending hinflight htodo => exact hpermit.elim
  | complete hcomplete =>
      obtain ⟨front, idx, work, back, -, -, -, -, hlanded⟩ := complete_inv hsound hcomplete
      exact hlanded.stable
  | _ => exact Grows.refl _

theorem rooted_move (hsound : engine.Sound) (hrooted : Rooted segs start engine)
    (hmove : Move Writing engine after) : Rooted segs start after := by
  refine ⟨?_, hrooted.base.mono (stable_move hsound hmove)⟩
  rcases move_steady hsound hmove with
    ⟨batch, entry, rest, -, rfl, hseg, -⟩ | ⟨_, _, hpermit, -⟩ | hsteady
  · intro other hother
    rcases List.mem_append.mp hother with hold | hnew
    · exact hrooted.inside other hold
    · rw [List.mem_singleton.mp hnew]
      exact hseg
  · exact hpermit.elim
  · rw [hsteady.queued, hsteady.seg]
    exact hrooted.inside

/-- Everything a run of write messages keeps of the segment. -/
structure Kept (segs : SortedMap ℕ Bytes) (start : ℕ) (engine : WalEngine) : Prop where
  journal : Journal segs start engine
  rooted : Rooted segs start engine

theorem kept_move (hsound : engine.Sound) (hkept : Kept segs start engine)
    (hmove : Move Writing engine after) : Kept segs start after :=
  ⟨journal_move hsound hkept.journal hmove, rooted_move hsound hkept.rooted hmove⟩

theorem kept_reach {depth : ℕ} {mode : Mode} {pool : List Batch}
    (hreach : Machine.Reach step PlainFeeds (new depth (Files.ofSegs segs) start mode pool)
      engine) : engine.Sound ∧ engine.Plain ∧ Kept segs start engine := by
  induction hreach with
  | start =>
      exact ⟨sound_new _ _ _ _ _, ⟨(fun _ h => by cases h), trivial⟩, journal_new _ _ _ _ _,
        rooted_new _ _ _ _ _⟩
  | next _ hfeeds hstep ih =>
      exact plain_keeps (fun _ _ => kept_move) ih.1 ih.2.1 ih.2.2 hfeeds (ih.2.1.permits _) hstep

/-- The old contents of the segment are read back after a crash. -/
theorem Kept.begins (hkept : Kept segs start engine) {disk : File} {bytes : Bytes}
    (hgrows : Grows disk.stable disk.cache) (hagrees : Agrees disk.cache engine.image)
    (hbase : Covers disk.stable 0 (baseOf segs start).length) (hloss : PowerLoss disk bytes) :
    bytes.take (baseOf segs start).length = baseOf segs start := by
  rw [hloss.take_eq hgrows hagrees hbase, hkept.journal.image, List.take_left]

/-- A batch up to whose end the file reads back whole is among those that are left. -/
theorem Kept.remaining (hkept : Kept segs start engine) {bytes : Bytes} {entry : Queued}
    (hentry : entry ∈ engine.queued)
    (htake : bytes.take (entry.offset + entry.batch.out.length) =
      engine.image.take (entry.offset + entry.batch.out.length)) :
    ∀ rec ∈ entry.batch.redo,
      rec ∈ Recover.remaining engine.history (bytes.drop (baseOf segs start).length) := by
  obtain ⟨front, back, hsplit⟩ := List.append_of_mem hentry
  rw [hkept.journal.image_take hsplit] at htake
  have hbytes := List.take_append_drop (entry.offset + entry.batch.out.length) bytes
  rw [htake, List.append_assoc] at hbytes
  have hhistory : ((front ++ [entry]).flatMap fun earlier => earlier.batch.redo) <+:
      engine.history := by
    refine ⟨back.flatMap fun later => later.batch.redo, ?_⟩
    rw [history, hsplit, ← List.flatMap_append]
    simp
  have hstanding : encodeAll ((front ++ [entry]).flatMap fun earlier => earlier.batch.redo) <+:
      bytes.drop (baseOf segs start).length := by
    rw [← hbytes, List.drop_left]
    exact List.prefix_append _ _
  intro rec hrec
  refine (isPrefix_remaining hhistory hstanding).subset ?_
  rw [List.flatMap_append, List.flatMap_singleton]
  exact List.mem_append_right _ hrec

/-- Sync mode: as long as no fsync completion is reaped while an earlier batch than a
waiting one is in line, what was acknowledged at `Durable` is saved from the start of
the segment on. -/
theorem ledger_reach {depth : ℕ} {pool : List Batch}
    (hreach : Machine.Reach step
      (fun engine act => PlainFeeds engine act ∧
        ¬ (act = .reap ∧ engine.reapsFsync = true ∧ engine.overtaken = true))
      (new depth (Files.ofSegs segs) start .sync pool) engine) : engine.Ledger := by
  have hkeep : engine.Sound ∧ engine.Plain ∧ Kept segs start engine ∧ engine.Ledger := by
    induction hreach with
    | start =>
        refine ⟨sound_new _ _ _ _ _, ⟨(fun _ h => by cases h), trivial⟩,
          ⟨journal_new _ _ _ _ _, rooted_new _ _ _ _ _⟩, rfl, ?_, ?_, ?_⟩
        all_goals exact fun _ h => by cases h
    | @next engine after act _ hguard hstep ih =>
        refine @plain_keeps _ _ (fun engine => Kept segs start engine ∧ engine.Ledger) Careful ?_
          _ ih.1 ih.2.1 ih.2.2 hguard.1 ?_ hstep
        · intro current next hsound hinv hmove
          have hwriting : Move Writing current next := hmove.mono fun kind _ hcareful => by
            cases kind with
            | durable => trivial
            | _ => exact hcareful
          exact ⟨kept_move hsound hinv.1 hwriting,
            (ledger_journal hsound hinv.1.journal hinv.1.rooted.base hinv.2 hmove).2⟩
        · intro kind current hpermit
          have hwriting := ih.2.1.permits _ kind current hpermit
          cases kind with
          | durable =>
              intro hfsync
              obtain ⟨rfl, hact⟩ := hpermit
              by_contra hnot
              exact hguard.2 ⟨hact, hfsync, by simpa using hnot⟩
          | _ => exact hwriting
  exact hkeep.2.2.2

theorem retireFeeds_of_plain {act : Act} (hfeeds : PlainFeeds engine act) (stamp : ℕ) :
    RetireFeeds stamp engine act := by
  cases act with
  | arrive msg =>
      cases msg with
      | write batch => exact ⟨hfeeds, fun _ h => by cases h⟩
      | rotate boundaryLsn => exact hfeeds.elim
      | retire boundaryLsn => exact hfeeds.elim
  | _ => exact ⟨trivial, fun _ h => by cases h⟩

/-- As long as no write is reaped past an earlier batch, what was acknowledged at
`Written` is in the page cache from the start of the segment on. -/
theorem written_reach {depth : ℕ} {mode : Mode} {pool : List Batch}
    (htop : ∀ seg bytes, segs.lookup seg = some bytes → seg ≤ start)
    (hreach : Machine.Reach step
      (fun engine act => PlainFeeds engine act ∧ ¬ (act = .reap ∧ engine.overtakes = true))
      (new depth (Files.ofSegs segs) start mode pool) engine) :
    ∀ ack ∈ engine.acked, ack.point = .written →
      ∃ entry ∈ engine.queued, entry.batch.redo = ack.batch.redo ∧
        Covers engine.disk.cache 0 (entry.offset + entry.batch.out.length) := by
  intro ack hack hpoint
  have horder := inOrder_reach htop
    (hreach.weaken fun _ _ h => (⟨retireFeeds_of_plain h.1 0, h.2⟩ : CrashFeeds 0 _ _))
  obtain ⟨hsound, -, -, harchive⟩ :=
    archive_reach htop (hreach.weaken fun _ _ h => (retireFeeds_of_plain h.1 0).1)
  obtain ⟨-, -, hkept⟩ := kept_reach (hreach.weaken fun _ _ h => h.1)
  obtain ⟨⟨entry, hentry, hredo, hhi⟩, hbehind⟩ := horder ack hack hpoint
  obtain ⟨front, back, hsplit⟩ := List.append_of_mem hentry
  refine ⟨entry, hentry, hredo, ?_⟩
  refine harchive.covers hsound hkept.journal.holes hsplit (hkept.rooted.inside entry hentry) ?_
  rw [hhi]
  exact hbehind

end Stage3.WalEngine

/-! ## Recovery -/

/-- Replaying the records of requests is executing the requests. -/
theorem final_eq_applyRecords (db : Db) (lsn : ℕ) (items : List Request) :
    table.final db (items.map Request.call) = applyRecords db (records lsn items) := by
  induction items generalizing db lsn with
  | nil => rfl
  | cons req items ih =>
      rw [List.map_cons, Object.final, List.foldl_cons]
      change table.final _ _ = _
      cases hop : req.op with
      | put =>
          have hdata : req.data.op = .put := hop
          rw [ih _ (lsn + 1), records, if_pos hop]
          simp only [table, Request.call, hdata]
          rfl
      | get =>
          have hdata : req.data.op = .get := hop
          rw [ih _ lsn, records, if_neg (by simp [hop])]
          simp only [table, Request.call, hdata]
      | unknown code =>
          have hdata : req.data.op = .unknown code := hop
          rw [ih _ lsn, records, if_neg (by simp [hop])]
          simp only [table, Request.call, hdata]

/-- The first records are those of the first requests. -/
theorem exists_take_records {front : List (ℕ × Bytes)} {lsn : ℕ} {items : List Request}
    (hfront : front <+: records lsn items) : ∃ count, front = records lsn (items.take count) := by
  induction items generalizing front lsn with
  | nil => exact ⟨0, List.prefix_nil.mp hfront⟩
  | cons req items ih =>
      by_cases hop : req.op = .put
      · rw [records, if_pos hop] at hfront
        cases front with
        | nil => exact ⟨0, rfl⟩
        | cons rec front =>
            obtain ⟨rfl, hrest⟩ := List.cons_prefix_cons.mp hfront
            obtain ⟨count, rfl⟩ := ih hrest
            exact ⟨count + 1, by rw [List.take_succ_cons, records, if_pos hop]⟩
      · rw [records, if_neg hop] at hfront
        obtain ⟨count, rfl⟩ := ih hfront
        exact ⟨count + 1, by rw [List.take_succ_cons, records, if_neg hop]⟩

/-- A PUT whose record is among those of the first requests is one of them. -/
theorem lt_of_mem_records {startLsn count : ℕ} {front back : List Request} {req : Request}
    {body : Bytes}
    (hrec : (startLsn + (puts front).length + 1, body) ∈
      records startLsn ((front ++ req :: back).take count)) : front.length < count := by
  by_contra hle
  rw [List.take_append_of_le_length (not_lt.mp hle)] at hrec
  obtain ⟨-, hlsn, -⟩ := mem_records hrec
  have hputs : (puts (front.take count)).length ≤ (puts front).length :=
    ((List.take_sublist count front).filter _).length_le
  simp only at hlsn
  omega

/-- Recovery of a damaged directory redoes the records that are left. -/
theorem recover_remaining {dir : Dir} {start : ℕ}
    (htop : ∀ entry ∈ dir.segs.entries, entry.1 ≤ start) {state : Replay}
    (hreplay : replayDir dir = .ok (state, .finished)) (hstart : state.highest ≤ start)
    {log : List (ℕ × Bytes)} {tail : Bytes}
    (hgood : ∀ rec ∈ log, Fits rec.1 rec.2 ∧ GoodPut rec.2 ∧ start < rec.1)
    (hnoticed : Noticed log tail) :
    ∃ next, recover ⟨dir.snapshot, dir.segs.insert start (baseOf dir.segs start ++ tail)⟩ =
      .ok (applyRecords state.db (remaining log tail), next) := by
  obtain ⟨snapLsn, middle, hsnap, hbase, hdir⟩ := replayDir_insert htop hreplay
  have hlater : ∀ rec ∈ log, Fits rec.1 rec.2 ∧ GoodPut rec.2 ∧ snapLsn < rec.1 := by
    intro rec hrec
    obtain ⟨hfits, hput, hlt⟩ := hgood rec hrec
    exact ⟨hfits, hput, by omega⟩
  obtain ⟨ended, hended, hremaining⟩ := replaySegment_remaining hlater hnoticed state
  refine ⟨(state.extend (remaining log tail)).highest + 1, ?_⟩
  rw [recover, hdir, replaySegment_append_of_finished hbase, hremaining, ok_bind]
  cases ended with
  | panicked cause => exact absurd rfl (hended cause)
  | _ => rfl

/-! ## Runs -/

namespace Pipeline

variable {pipe : Pipeline} {mode : Mode} {segs : SortedMap ℕ Bytes} {db : Db} {startLsn : ℕ}

/-- The state of a run with a history. -/
theorem Observed.reach_pipe {guard : Pipeline → Act → Prop} {first seen : Observed}
    (hreach : Machine.Reach Observed.step (fun seen act => guard seen.pipe act) first seen) :
    Machine.Reach Pipeline.step guard first.pipe seen.pipe := by
  induction hreach with
  | start => exact Machine.Reach.start
  | next _ hguard hstep ih =>
      obtain ⟨after, hafter, rfl⟩ := Option.map_eq_some_iff.mp hstep
      exact ih.next hguard hafter

/-- What stage 3 does in a run in which it reaps nothing in certain states. -/
theorem engine_reach {avoid : WalEngine → Prop}
    (hreach : Machine.Reach step
      (fun pipe act => Serving pipe act ∧ ¬ (act = .wal .reap ∧ avoid pipe.wal))
      (start mode (Files.ofSegs segs) db startLsn) pipe) :
    Machine.Reach WalEngine.step
      (fun engine act => PlainFeeds engine act ∧ ¬ (act = .reap ∧ avoid engine))
      (start mode (Files.ofSegs segs) db startLsn).wal pipe.wal := by
  refine (@reach_keeps pipe _ (fun pipe => Machine.Reach WalEngine.step
    (fun engine act => PlainFeeds engine act ∧ ¬ (act = .reap ∧ avoid engine))
    (start mode (Files.ofSegs segs) db startLsn).wal pipe.wal) mode segs db startLsn
    Machine.Reach.start ?_ hreach).2
  intro pipe act after hflow hengine hguard hchange
  rcases change_engine hflow hchange with hsame | ⟨inner, hstep, -, hplain, hreap⟩
  · rw [hsame]
    exact hengine
  · exact hengine.next ⟨hplain hguard.1, fun h => hguard.2 ⟨hreap h.1, h.2⟩⟩ hstep

/-- The directory recovers to the table of the operations in `kept`, and they are the
first ones of an order that explains the history. -/
def CutBack (db : Db) (seen : Observed) (dir : Dir) (kept : List (ℕ × ℕ × Payload)) : Prop :=
  ∃ lost next, Linearizes table db seen.events (kept ++ lost) ∧
    recover dir = .ok (table.final db (kept.map Prod.snd), next)

/-- A crash after a run cuts the log off behind the first requests. -/
theorem exists_cut {dir : Dir} {state : Replay} {seen : Observed} {tail : Bytes}
    (hreplay : replayDir dir = .ok (state, .finished))
    (htop : ∀ entry ∈ dir.segs.entries, entry.1 ≤ state.highest + 1)
    (hreach : Machine.Reach Observed.step (fun seen act => Serving seen.pipe act)
      (Observed.start mode (Files.ofSegs dir.segs) state.db (state.highest + 1)) seen)
    (hlsn : seen.pipe.lsn < 2 ^ 64) (hnoticed : Noticed seen.pipe.wal.history tail) :
    ∃ count, CutBack state.db seen
        ⟨dir.snapshot, dir.segs.insert (state.highest + 1)
          (baseOf dir.segs (state.highest + 1) ++ tail)⟩ (seen.pipe.order.take count) ∧
      remaining seen.pipe.wal.history tail =
        records (state.highest + 1) (seen.pipe.applied.take count) := by
  have hpipe := Observed.reach_pipe hreach
  obtain ⟨-, hagreed, -⟩ := vouched_reach hpipe
  obtain ⟨-, hredone⟩ := reach_keeps (redone_start mode dir.segs state.db (state.highest + 1))
    (fun _ _ _ => redone_change) hpipe
  obtain ⟨-, -, hjournal⟩ := WalEngine.journal_reach hredone.engine
  have hhistory : seen.pipe.wal.history <+:
      records (state.highest + 1) seen.pipe.applied := by
    rw [← hagreed.numbered, numbered, WalEngine.logbook, List.append_assoc]
    exact List.prefix_append _ _
  have hingested : seen.pipe.wal.lastIngestedLsn < 2 ^ 64 := by
    have hlength := hhistory.length_le
    rw [length_records] at hlength
    rw [hjournal.ingested]
    rw [hagreed.lsn] at hlsn
    omega
  obtain ⟨next, hrecover⟩ := recover_remaining htop hreplay (Nat.le_succ _)
    (hjournal.good hingested (le_refl _)) hnoticed
  obtain ⟨count, hcount⟩ :=
    exists_take_records ((remaining_isPrefix seen.pipe.wal.history tail).trans hhistory)
  refine ⟨count, ⟨seen.pipe.order.drop count, next, ?_, ?_⟩, hcount⟩
  · obtain ⟨-, hexplained⟩ := explained_reach hreach
    rw [List.take_append_drop]
    exact hexplained.traced.linearizes
  · have hops : (seen.pipe.order.take count).map Prod.snd =
        (seen.pipe.applied.take count).map Request.call := by
      rw [List.map_take, order_ops, ← List.map_take]
      rfl
    rw [hrecover, hcount, hops, final_eq_applyRecords _ (state.highest + 1)]

/-- Only a PUT is answered with `Ok`. -/
theorem put_of_ok {call : ℕ × Payload} {conn : ℕ} (hok : (table.apply db call).2 = (conn, .ok)) :
    call.2.op = .put := by
  cases hop : call.2.op with
  | put => rfl
  | get =>
      simp only [table, hop, Prod.mk.injEq] at hok
      cases hfound : db.lookup (keyOf call.2.bytes) <;> simp [Sharing.Plain.found, hfound] at hok
  | unknown code => simp [table, hop] at hok

theorem ack_reach {guard : Pipeline → Act → Prop}
    (hreach : Machine.Reach step guard (start mode (Files.ofSegs segs) db startLsn) pipe) :
    pipe.ack = Acker.new mode := by
  refine (@reach_keeps pipe guard (fun pipe => pipe.ack = Acker.new mode) mode segs db startLsn
    rfl ?_ hreach).2
  intro pipe act after _ hack _ hchange
  cases hchange <;> exact hack

/-- If the records of every batch acknowledged at the level of the mode are left, so
is every PUT that was answered. -/
theorem kept_of_acked {seen : Observed} {count : ℕ}
    (hreach : Machine.Reach Observed.step (fun seen act => Serving seen.pipe act)
      (Observed.start mode (Files.ofSegs segs) db startLsn) seen)
    (hlevel : ¬ (Acker.new mode).level ≤ .applied)
    (hleft : ∀ ack ∈ seen.pipe.wal.acked, (Acker.new mode).level ≤ ack.point →
      ∀ rec ∈ ack.batch.redo, rec ∈ records startLsn (seen.pipe.applied.take count))
    {id conn : ℕ} (hret : .ret id (conn, .ok) ∈ seen.events) :
    id ∈ (seen.pipe.order.take count).map Prod.fst := by
  have hpipe := Observed.reach_pipe hreach
  obtain ⟨hflow, -, hvouched⟩ := vouched_reach hpipe
  obtain ⟨-, hexplained⟩ := explained_reach hreach
  have hack := ack_reach hpipe
  -- the response is that of a PUT, and it has left the server
  obtain ⟨before, call, behind, horder, hok⟩ :=
    hexplained.traced.linearizes.returned id (conn, .ok) hret
  obtain ⟨req, hreq, hentry⟩ : ∃ req ∈ seen.pipe.applied, (req.tag, req.call) = (id, call) := by
    have hmem : (id, call) ∈ seen.pipe.order := by
      rw [horder]
      exact List.mem_append_right _ List.mem_cons_self
    exact List.mem_map.mp hmem
  obtain ⟨rfl, rfl⟩ := Prod.mk.inj hentry
  have hop : req.op = .put := put_of_ok hok.symm
  obtain ⟨reply, hreply, htag⟩ : ∃ reply ∈ seen.pipe.chan, reply.tag = req.tag := by
    have hmem : req.tag ∈ seen.events.filterMap Event.returns :=
      List.mem_filterMap.mpr ⟨_, hret, rfl⟩
    rw [hexplained.returns] at hmem
    exact List.mem_map.mp hmem
  rw [← hack] at hlevel hleft
  obtain ⟨ack, hmem, hpoint, front, back, happlied, hrecord⟩ :=
    hvouched.logged hflow hlevel hreq hop hreply htag
  have hfront : front.length < count := by
    have hrec := hleft ack hmem hpoint _ hrecord
    rw [happlied] at hrec
    exact lt_of_mem_records hrec
  have hkept : req ∈ seen.pipe.applied.take count := by
    obtain ⟨more, rfl⟩ := Nat.exists_eq_add_of_lt hfront
    rw [happlied, Nat.add_assoc, List.take_append, List.take_of_length_le (by omega)]
    refine List.mem_append_right _ ?_
    rw [Nat.add_sub_cancel_left, List.take_succ_cons]
    exact List.mem_cons_self
  have hids : (seen.pipe.order.take count).map Prod.fst =
      (seen.pipe.applied.take count).map Request.tag := by
    change ((seen.pipe.applied.map fun req => (req.tag, req.call)).take count).map Prod.fst = _
    rw [← List.map_take, List.map_map]
    rfl
  rw [hids]
  exact List.mem_map_of_mem hkept

/-- From any directory left by clean runs, in any mode: if a crash leaves the old
contents of the segment and behind them whatever bytes, and `decode_record` does not
take the first damaged record for another one, recovery returns the table of a prefix
of an order that explains what the connections saw. -/
theorem crash_keeps_front {dir : Dir} {first : Pipeline} {seen : Observed} {tail : Bytes}
    (hclean : CleanDir dir) (hboot : boot mode dir = .ok first)
    (hreach : Machine.Reach Observed.step (fun seen act => Serving seen.pipe act) ⟨first, []⟩ seen)
    (hlsn : seen.pipe.lsn < 2 ^ 64) (hnoticed : Noticed seen.pipe.wal.history tail) :
    ∃ kept, CutBack first.db seen
      ⟨dir.snapshot, dir.segs.insert first.lsn (baseOf dir.segs first.lsn ++ tail)⟩ kept := by
  obtain ⟨state, hreplay, htop⟩ := hclean
  obtain rfl := boot_eq hreplay hboot
  obtain ⟨count, hcut, -⟩ := exists_cut hreplay htop hreach hlsn hnoticed
  exact ⟨_, hcut⟩

/-- The second of two records is torn. -/
theorem crash_keeps_front_torn :
    ∃ seen tail, Machine.Reach Observed.step (fun seen act => Serving seen.pipe act)
        (Observed.start .noFsync (Files.ofSegs SortedMap.empty) Db.new 1) seen ∧
      Noticed seen.pipe.wal.history tail ∧
      (remaining seen.pipe.wal.history tail).length = 1 ∧ seen.pipe.order.length = 2 ∧
      ∃ kept, CutBack Db.new seen ⟨none, SortedMap.empty.insert 1 tail⟩ kept := by
  obtain ⟨seen, hreach, hdone⟩ := @Machine.exists_reach _ _ Observed.step
    (fun seen act => Serving seen.pipe act)
    (Observed.start .noFsync (Files.ofSegs SortedMap.empty) Db.new 1) _
    [.accept 7 (.smallPut 65 66), .accept 8 (.smallPut 65 67), .take 2, .reply, .reply, .dispatch,
      .wal .poll]
    (fun seen => decide (seen.pipe.lsn = 3 ∧ seen.pipe.order.length = 2 ∧
      Noticed seen.pipe.wal.history ((encodeAll seen.pipe.wal.history).take 40) ∧
      (remaining seen.pipe.wal.history ((encodeAll seen.pipe.wal.history).take 40)).length = 1))
    (by decide +kernel)
  obtain ⟨hlsn, horder, hnoticed, hleft⟩ := of_decide_eq_true hdone
  exact ⟨seen, _, hreach, hnoticed, hleft, horder, @crash_keeps_front .noFsync
    ⟨none, SortedMap.empty⟩ _ seen _ cleanDir_empty rfl hreach (by rw [hlsn]; decide) hnoticed⟩

/-- What of `disk` is saved is left by the crash: if that is the whole segment up to the
end of every batch acknowledged at the level of the mode, no answered PUT is lost. -/
theorem saved_keeps_acked {dir : Dir} {state : Replay} {seen : Observed} {disk : File}
    {bytes : Bytes} (hreplay : replayDir dir = .ok (state, .finished))
    (htop : ∀ entry ∈ dir.segs.entries, entry.1 ≤ state.highest + 1)
    (hreach : Machine.Reach Observed.step (fun seen act => Serving seen.pipe act)
      (Observed.start mode (Files.ofSegs dir.segs) state.db (state.highest + 1)) seen)
    (hlsn : seen.pipe.lsn < 2 ^ 64) (hlevel : ¬ (Acker.new mode).level ≤ .applied)
    (hgrows : Grows disk.stable disk.cache) (hagrees : Agrees disk.cache seen.pipe.wal.image)
    (hbase : Grows seen.pipe.wal.disk.stable disk.stable) (hloss : PowerLoss disk bytes)
    (hsaved : ∀ ack ∈ seen.pipe.wal.acked, (Acker.new mode).level ≤ ack.point →
      ∃ entry ∈ seen.pipe.wal.queued, entry.batch.redo = ack.batch.redo ∧
        Covers disk.stable 0 (entry.offset + entry.batch.out.length))
    (hnoticed : Noticed seen.pipe.wal.history
      (bytes.drop (baseOf dir.segs (state.highest + 1)).length)) :
    ∃ kept, CutBack state.db seen ⟨dir.snapshot, dir.segs.insert (state.highest + 1) bytes⟩ kept ∧
      ∀ id conn, .ret id (conn, .ok) ∈ seen.events → id ∈ kept.map Prod.fst := by
  have hpipe := Observed.reach_pipe hreach
  obtain ⟨-, hredone⟩ := reach_keeps (redone_start mode dir.segs state.db (state.highest + 1))
    (fun _ _ _ => redone_change) hpipe
  obtain ⟨-, -, hkept⟩ := WalEngine.kept_reach hredone.engine
  have hbytes := List.take_append_drop (baseOf dir.segs (state.highest + 1)).length bytes
  rw [hkept.begins hgrows hagrees (hkept.rooted.base.mono hbase) hloss] at hbytes
  obtain ⟨count, hcut, hrecords⟩ := exists_cut hreplay htop hreach hlsn hnoticed
  rw [hbytes] at hcut
  refine ⟨_, hcut, fun id conn hret => kept_of_acked hreach hlevel ?_ hret⟩
  intro ack hack hpoint rec hrec
  obtain ⟨entry, hentry, hredo, hcovers⟩ := hsaved ack hack hpoint
  rw [← hrecords]
  exact hkept.remaining hentry (hloss.take_eq hgrows hagrees hcovers) rec (hredo ▸ hrec)

/-- Sync mode: if no fsync completion is reaped while an earlier batch than a waiting
one is still in line, then power loss leaves the table of a prefix that contains every
PUT that was answered. -/
theorem power_loss_keeps_acked {dir : Dir} {first : Pipeline} {seen : Observed} {bytes : Bytes}
    (hclean : CleanDir dir) (hboot : boot .sync dir = .ok first)
    (hreach : Machine.Reach Observed.step
      (fun seen act => Serving seen.pipe act ∧ ¬ (act = .wal .reap ∧
        seen.pipe.wal.reapsFsync = true ∧ seen.pipe.wal.overtaken = true)) ⟨first, []⟩ seen)
    (hlsn : seen.pipe.lsn < 2 ^ 64) (hloss : PowerLoss seen.pipe.wal.disk bytes)
    (hnoticed : Noticed seen.pipe.wal.history
      (bytes.drop (baseOf dir.segs first.lsn).length)) :
    ∃ kept, CutBack first.db seen ⟨dir.snapshot, dir.segs.insert first.lsn bytes⟩ kept ∧
      ∀ id conn, .ret id (conn, .ok) ∈ seen.events → id ∈ kept.map Prod.fst := by
  obtain ⟨state, hreplay, htop⟩ := hclean
  obtain rfl := boot_eq hreplay hboot
  have hpipe := @Observed.reach_pipe (fun pipe act => Serving pipe act ∧
    ¬ (act = .wal .reap ∧ pipe.wal.reapsFsync = true ∧ pipe.wal.overtaken = true)) _ _ hreach
  have hengine := @engine_reach _ _ _ _ _
    (fun engine => engine.reapsFsync = true ∧ engine.overtaken = true) hpipe
  obtain ⟨hsound, -, -⟩ := WalEngine.kept_reach (hengine.weaken fun _ _ h => h.1)
  have hledger := WalEngine.ledger_reach hengine
  refine saved_keeps_acked hreplay htop (hreach.weaken fun _ _ h => h.1) hlsn (by decide)
    (WalEngine.disk_grows hsound.stored) hsound.stored.agrees (Grows.refl _) hloss ?_ hnoticed
  intro ack hack hpoint
  refine hledger.saved ack hack ?_
  cases hcase : ack.point with
  | durable => rfl
  | _ =>
      rw [hcase] at hpoint
      exact absurd hpoint (by decide)

/-- The first PUT is answered, the second one is written but not yet synced. -/
theorem power_loss_keeps_acked_unsynced :
    ∃ seen bytes, Machine.Reach Observed.step
        (fun seen act => Serving seen.pipe act ∧ ¬ (act = .wal .reap ∧
          seen.pipe.wal.reapsFsync = true ∧ seen.pipe.wal.overtaken = true))
        (Observed.start .sync (Files.ofSegs SortedMap.empty) Db.new 1) seen ∧
      seen.events = [.call 0 (7, .smallPut 65 66), .ret 0 (7, .ok), .call 1 (8, .smallPut 65 67)] ∧
      PowerLoss seen.pipe.wal.disk bytes ∧
      ∃ kept, CutBack Db.new seen ⟨none, SortedMap.empty.insert 1 bytes⟩ kept ∧
        0 ∈ kept.map Prod.fst := by
  obtain ⟨seen, hreach, hdone⟩ := @Machine.exists_reach _ _ Observed.step
    (fun seen act => Serving seen.pipe act ∧ ¬ (act = .wal .reap ∧
      seen.pipe.wal.reapsFsync = true ∧ seen.pipe.wal.overtaken = true))
    (Observed.start .sync (Files.ofSegs SortedMap.empty) Db.new 1) _
    [.accept 7 (.smallPut 65 66), .take 1, .dispatch, .wal .poll, .wal .plan, .wal .reap,
      .wal (.start 0), .wal (.complete 0 27), .wal (.start 0), .wal (.complete 0 0), .wal .poll,
      .wal .plan, .wal .reap, .wal .reap, .wal .send, .wal .send, .accept 8 (.smallPut 65 67),
      .take 1, .dispatch, .wal .reap, .wal .poll, .wal .plan, .wal .reap, .wal (.start 0),
      .wal (.complete 0 27)]
    (fun seen => decide (seen.pipe.lsn = 3 ∧
      seen.events = [.call 0 (7, .smallPut 65 66), .ret 0 (7, .ok),
        .call 1 (8, .smallPut 65 67)] ∧
      Noticed seen.pipe.wal.history (contents seen.pipe.wal.disk.stable)))
    (by decide +kernel)
  obtain ⟨hlsn, hevents, hnoticed⟩ := of_decide_eq_true hdone
  have hpipe := @Observed.reach_pipe Serving _ _ (hreach.weaken fun _ _ h => h.1)
  obtain ⟨-, hredone⟩ := reach_keeps (redone_start .sync SortedMap.empty Db.new 1)
    (fun _ _ _ => redone_change) hpipe
  have hloss := powerLoss_stable
    (WalEngine.disk_grows (WalEngine.kept_reach hredone.engine).1.stored)
  obtain ⟨kept, hcut, hall⟩ := @power_loss_keeps_acked ⟨none, SortedMap.empty⟩ _ seen _
    cleanDir_empty rfl hreach (by rw [hlsn]; decide) hloss hnoticed
  exact ⟨seen, _, hreach, hevents, hloss, kept, hcut, hall 0 7 (by rw [hevents]; simp)⟩

/-- Async mode: if no write is reaped while an earlier batch is still in line, then a
crash of the process leaves the table of a prefix that contains every PUT that was
answered. -/
theorem process_crash_keeps_acked {dir : Dir} {first : Pipeline} {seen : Observed} {bytes : Bytes}
    (hclean : CleanDir dir) (hboot : boot .async dir = .ok first)
    (hreach : Machine.Reach Observed.step
      (fun seen act => Serving seen.pipe act ∧
        ¬ (act = .wal .reap ∧ seen.pipe.wal.overtakes = true)) ⟨first, []⟩ seen)
    (hlsn : seen.pipe.lsn < 2 ^ 64) (hcrash : ProcessCrash seen.pipe.wal.disk.cache bytes)
    (hnoticed : Noticed seen.pipe.wal.history
      (bytes.drop (baseOf dir.segs first.lsn).length)) :
    ∃ kept, CutBack first.db seen ⟨dir.snapshot, dir.segs.insert first.lsn bytes⟩ kept ∧
      ∀ id conn, .ret id (conn, .ok) ∈ seen.events → id ∈ kept.map Prod.fst := by
  obtain ⟨state, hreplay, htop⟩ := hclean
  obtain rfl := boot_eq hreplay hboot
  have hserving := hreach.weaken fun _ _ h => h.1
  have hpipe := @Observed.reach_pipe (fun pipe act => Serving pipe act ∧
    ¬ (act = .wal .reap ∧ pipe.wal.overtakes = true)) _ _ hreach
  have hengine := @engine_reach _ _ _ _ _ (fun engine => engine.overtakes = true) hpipe
  obtain ⟨hsound, -, -⟩ := WalEngine.kept_reach (hengine.weaken fun _ _ h => h.1)
  obtain ⟨hflow, -, hvouched⟩ := vouched_reach (hpipe.weaken fun _ _ h => h.1)
  have hack := ack_reach hpipe
  refine @saved_keeps_acked .async dir state seen
    ⟨seen.pipe.wal.disk.cache, seen.pipe.wal.disk.cache⟩ bytes hreplay htop hserving hlsn
    (by decide) (Grows.refl _) hsound.stored.agrees (WalEngine.disk_grows hsound.stored) hcrash ?_
    hnoticed
  intro ack hmem hpoint
  refine WalEngine.written_reach (fun seg bytes hbytes =>
    htop (seg, bytes) (SortedMap.mem_entries.mpr hbytes)) hengine ack hmem ?_
  -- below Sync nothing is acknowledged behind an fsync
  have heager : seen.pipe.wal.ack.level ≤ .written := by
    rw [hflow.ack, hack]
    decide
  have hwritten := (hvouched.wal.eager heager).2 ack hmem
  cases hcase : ack.point with
  | written => rfl
  | applied =>
      rw [hcase] at hpoint
      exact absurd hpoint (by decide)
  | durable =>
      rw [hcase] at hwritten
      exact absurd hwritten (by decide)

/-- The first PUT is answered, the second one is half written. -/
theorem process_crash_keeps_acked_half :
    ∃ seen bytes, Machine.Reach Observed.step
        (fun seen act => Serving seen.pipe act ∧
          ¬ (act = .wal .reap ∧ seen.pipe.wal.overtakes = true))
        (Observed.start .async (Files.ofSegs SortedMap.empty) Db.new 1) seen ∧
      seen.events = [.call 0 (7, .smallPut 65 66), .ret 0 (7, .ok), .call 1 (8, .smallPut 65 67)] ∧
      ProcessCrash seen.pipe.wal.disk.cache bytes ∧ bytes.length = 32 ∧
      ∃ kept, CutBack Db.new seen ⟨none, SortedMap.empty.insert 1 bytes⟩ kept ∧
        0 ∈ kept.map Prod.fst := by
  obtain ⟨seen, hreach, hdone⟩ := @Machine.exists_reach _ _ Observed.step
    (fun seen act => Serving seen.pipe act ∧
      ¬ (act = .wal .reap ∧ seen.pipe.wal.overtakes = true))
    (Observed.start .async (Files.ofSegs SortedMap.empty) Db.new 1) _
    [.accept 7 (.smallPut 65 66), .take 1, .dispatch, .wal .poll, .wal .plan, .wal .reap,
      .wal (.start 0), .wal (.complete 0 27), .wal .poll, .wal .plan, .wal .reap, .wal .send,
      .wal .send, .accept 8 (.smallPut 65 67), .take 1, .dispatch, .wal .reap, .wal .poll,
      .wal .plan, .wal .reap, .wal (.start 0), .wal (.complete 0 5)]
    (fun seen => decide (seen.pipe.lsn = 3 ∧
      seen.events = [.call 0 (7, .smallPut 65 66), .ret 0 (7, .ok),
        .call 1 (8, .smallPut 65 67)] ∧
      (contents seen.pipe.wal.disk.cache).length = 32 ∧
      Noticed seen.pipe.wal.history (contents seen.pipe.wal.disk.cache)))
    (by decide +kernel)
  obtain ⟨hlsn, hevents, hlength, hnoticed⟩ := of_decide_eq_true hdone
  obtain ⟨kept, hcut, hall⟩ := @process_crash_keeps_acked ⟨none, SortedMap.empty⟩ _ seen _
    cleanDir_empty rfl hreach (by rw [hlsn]; decide) processCrash_contents hnoticed
  exact ⟨seen, _, hreach, hevents, processCrash_contents, hlength, kept, hcut,
    hall 0 7 (by rw [hevents]; simp)⟩

end Pipeline

end InMemoryDb
