import InMemoryDb.Server.RedoLog
import InMemoryDb.Storage.Scan

/-!
# A restart behind a torn record

Recovery stops at the first bytes that are no record and leaves them where they
are.  The next process writes behind them, to a segment of a higher name or to
the very segment that ends in them, and the recovery after that stops at the
same place.
-/

namespace InMemoryDb

open SparseFile Wire WalFormat Recover Stage3

namespace Recover

/-- Bytes the decoder takes for a torn tail. -/
def TornTail (bytes : Bytes) : Prop := bytes ≠ [] ∧ decodeRecord bytes = .ok none

/-- A crash in the middle of a record leaves a torn tail. -/
theorem tornTail_take {lsn : ℕ} {blob : Bytes} (hfits : Fits lsn blob) {cut : ℕ} (hpos : 0 < cut)
    (hcut : cut < (record lsn blob).length) : TornTail ((record lsn blob).take cut) := by
  refine ⟨?_, decodeRecord_truncated hfits hcut⟩
  intro hnil
  have hlength := congrArg List.length hnil
  rw [List.length_take, List.length_nil] at hlength
  omega

/-- A directory whose segment `name` ends in a torn tail behind whole records.
The segments of `front` decode to their end; what is in those of `back` does not
matter, and there are none when the torn segment is the newest one. -/
structure TornDir (dir : Dir) (front back : List (ℕ × Bytes)) (name : ℕ)
    (whole : List (ℕ × Bytes)) (torn : Bytes) (snapLsn : ℕ) (middle : Replay) : Prop where
  entries : dir.segs.entries = front ++ (name, encodeAll whole ++ torn) :: back
  older : ∃ db, loadSnapshot dir = .ok (db, snapLsn) ∧
    replaySegments snapLsn front ⟨db, snapLsn, []⟩ = (middle, .finished)
  /-- A segment is opened at the LSN behind the last one, or at it by `rotate`. -/
  named : name ≤ middle.highest + 1
  whole : ∀ rec ∈ whole, Fits rec.1 rec.2 ∧ GoodPut rec.2
  torn : TornTail torn

/-- A replay that gets through, with the table it leaves. -/
def Rebuilds (result : Replay × Ended) (db : Db) : Prop :=
  (∀ cause, result.2 ≠ .panicked cause) ∧ result.1.db = db

theorem recover_iff_rebuilds {dir : Dir} {result : Replay × Ended}
    (hreplay : replayDir dir = .ok result) (db : Db) :
    (∃ next, recover dir = .ok (db, next)) ↔ Rebuilds result db := by
  obtain ⟨state, ended⟩ := result
  rw [recover, hreplay, ok_bind]
  cases ended with
  | panicked cause =>
      constructor
      · rintro ⟨next, hnext⟩
        cases hnext
      · exact fun hrebuilds => absurd rfl (hrebuilds.1 cause)
  | _ =>
      constructor
      · rintro ⟨next, hnext⟩
        simp only [pure_eq_ok, Except.ok.injEq, Prod.mk.injEq] at hnext
        exact ⟨fun cause h => (by cases h), hnext.1⟩
      · rintro ⟨-, rfl⟩
        exact ⟨_, rfl⟩

theorem rebuilds_torn (state : Replay) (db : Db) :
    Rebuilds (state, .torn) db ↔ db = state.db :=
  ⟨fun h => h.2.symm, fun h => ⟨fun cause hcause => (by cases hcause), h.symm⟩⟩

/-- Records that were read are redone to a table: reading and redoing come to an end, and
the PUTs the snapshot does not cover lead from the one table to the other. -/
structure Redone (snapLsn : ℕ) (read : List (ℕ × Bytes) × Ended) (db after : Db) : Prop where
  reads : ∀ cause, read.2 ≠ .panicked cause
  redoable : ∀ rec ∈ above snapLsn read.1, Redoable rec.2
  effect : applyRecords db (putRecords (above snapLsn read.1)) = after

theorem rebuilds_redo_iff (snapLsn : ℕ) (ended : Ended) (records : List (ℕ × Bytes))
    (state : Replay) (db : Db) :
    Rebuilds (redo snapLsn ended records state) db ↔
      Redone snapLsn (records, ended) state.db db := by
  induction records generalizing state with
  | nil =>
      exact ⟨fun h => ⟨h.1, fun _ hmem => (by cases hmem), h.2⟩, fun h => ⟨h.reads, h.effect⟩⟩
  | cons rec records ih =>
      rw [redo]
      split_ifs with hlsn
      · have habove : above snapLsn (rec :: records) = above snapLsn records :=
          List.filter_cons_of_neg (by simpa using hlsn)
        rw [ih]
        exact ⟨fun h => ⟨h.reads, habove ▸ h.redoable, habove ▸ h.effect⟩,
          fun h => ⟨h.reads, habove ▸ h.redoable, habove ▸ h.effect⟩⟩
      · have habove : above snapLsn (rec :: records) = rec :: above snapLsn records :=
          List.filter_cons_of_pos (by simpa using hlsn)
        by_cases hblob : Redoable rec.2
        · have heffect : applyRecords state.db (putRecords (rec :: above snapLsn records)) =
              applyRecords (applyRecords state.db (putRecords [rec]))
                (putRecords (above snapLsn records)) := by
            rw [← applyRecords_append]
            exact congrArg (applyRecords state.db) (List.filter_append [rec] _)
          rw [restore_eq hblob]
          refine (ih _).trans ⟨fun h => ⟨h.reads, ?_, ?_⟩, fun h => ⟨h.reads, ?_, ?_⟩⟩
          · rw [habove]
            exact List.forall_mem_cons.mpr ⟨hblob, h.redoable⟩
          · rw [habove, heffect]
            exact h.effect
          · have hall := h.redoable
            rw [habove] at hall
            exact (List.forall_mem_cons.mp hall).2
          · have hall := h.effect
            rw [habove, heffect] at hall
            exact hall
        · rw [restore_unredoable hblob]
          refine ⟨fun h => absurd rfl (h.1 _), fun h => absurd (h.redoable rec ?_) hblob⟩
          rw [habove]
          exact List.mem_cons_self

theorem replaySegments_torn {bytes : Bytes} (htorn : TornTail bytes) (snapLsn name : ℕ)
    (back : List (ℕ × Bytes)) (state : Replay) :
    replaySegments snapLsn ((name, bytes) :: back) state = (state, .torn) := by
  rw [replaySegments, replaySegment_torn snapLsn state htorn.1 htorn.2]

section

variable {dir : Dir} {front back : List (ℕ × Bytes)} {name : ℕ} {whole : List (ℕ × Bytes)}
  {torn : Bytes} {snapLsn : ℕ} {middle : Replay}

/-- A directory that differs only behind the whole records of the torn segment is
replayed up to there as before. -/
theorem TornDir.replayDir_eq (hdir : TornDir dir front back name whole torn snapLsn middle)
    {segs : SortedMap ℕ Bytes} {bytes : Bytes} {rest : List (ℕ × Bytes)}
    (hsegs : segs.entries = front ++ (name, encodeAll whole ++ bytes) :: rest) :
    replayDir ⟨dir.snapshot, segs⟩ =
      .ok (replaySegments snapLsn ((name, bytes) :: rest)
        (middle.extend (above snapLsn whole))) := by
  obtain ⟨db, hload, hfront⟩ := hdir.older
  have hload' : loadSnapshot ⟨dir.snapshot, segs⟩ = .ok (db, snapLsn) := hload
  rw [replayDir, hload', ok_bind]
  simp only [hsegs, replaySegments_append_of_finished hfront, replaySegments,
    replaySegment_whole hdir.whole, pure_eq_ok]

theorem TornDir.recover_eq (hdir : TornDir dir front back name whole torn snapLsn middle) :
    recover dir = .ok ((middle.extend (above snapLsn whole)).db,
      (middle.extend (above snapLsn whole)).highest + 1) := by
  have hreplay : replayDir dir = .ok (middle.extend (above snapLsn whole), .torn) := by
    rw [← replaySegments_torn hdir.torn snapLsn name back]
    exact hdir.replayDir_eq hdir.entries
  rw [recover, hreplay]
  rfl

/-- The torn segment is not behind the one the next process opens. -/
theorem TornDir.name_le (hdir : TornDir dir front back name whole torn snapLsn middle) :
    name ≤ (middle.extend (above snapLsn whole)).highest + 1 := by
  have hreplayed :=
    (replayLoop_kept snapLsn (encodeAll whole).length (encodeAll whole) middle).highest
  have hwhole := @replaySegment_whole snapLsn whole hdir.whole [] middle
  rw [List.append_nil, replaySegment_nil, replaySegment] at hwhole
  rw [hwhole] at hreplayed
  exact le_trans hdir.named (Nat.succ_le_succ hreplayed)

theorem TornDir.base (hdir : TornDir dir front back name whole torn snapLsn middle) :
    baseOf dir.segs name = encodeAll whole ++ torn := by
  have hfront : ∀ entry ∈ front, entry.1 ≠ name :=
    fun entry hentry => (dir.segs.front_lt hdir.entries entry hentry).ne
  rw [baseOf, SortedMap.lookup, hdir.entries, SortedMap.lookupList_append_right _ hfront,
    SortedMap.lookupList, if_pos rfl]
  rfl

/-- The new records are out of replay's reach: they are in another segment, or
the torn tail does not decode with them behind it either. -/
def Stuck (name start : ℕ) (torn fresh : Bytes) : Prop :=
  start = name → decodeRecord (torn ++ fresh) = .ok none

/-- What a directory is replayed to once `fresh` bytes are behind the end of the
segment `start`. -/
theorem TornDir.replayDir_fresh
    (hdir : TornDir dir front back name whole torn snapLsn middle) {start : ℕ}
    (hstart : name ≤ start) (fresh : Bytes) :
    (Stuck name start torn fresh →
      replayDir ⟨dir.snapshot, dir.segs.insert start (baseOf dir.segs start ++ fresh)⟩ =
        .ok (middle.extend (above snapLsn whole), .torn)) ∧
    (¬ Stuck name start torn fresh →
      replayDir ⟨dir.snapshot, dir.segs.insert start (baseOf dir.segs start ++ fresh)⟩ =
        .ok (replaySegments snapLsn ((name, torn ++ fresh) :: back)
          (middle.extend (above snapLsn whole)))) := by
  by_cases hsame : start = name
  · subst hsame
    have hreplay := hdir.replayDir_eq
      (dir.segs.entries_insert_replace (encodeAll whole ++ (torn ++ fresh)) hdir.entries)
    rw [hdir.base, List.append_assoc, hreplay]
    refine ⟨fun hstuck => ?_, fun _ => rfl⟩
    have htail : TornTail (torn ++ fresh) := by
      refine ⟨fun hnil => ?_, hstuck rfl⟩
      exact hdir.torn.1 (List.append_eq_nil_iff.mp hnil).1
    rw [replaySegments_torn htail]
  · refine ⟨fun _ => ?_, fun hstuck => absurd (fun h => absurd h hsame) hstuck⟩
    obtain ⟨back', hentries⟩ := dir.segs.entries_insert_behind (baseOf dir.segs start ++ fresh)
      hdir.entries (lt_of_le_of_ne hstart (Ne.symm hsame))
    rw [hdir.replayDir_eq hentries, replaySegments_torn hdir.torn]

end

end Recover

namespace Stage3.WalEngine

variable {engine : WalEngine}

/-- The server restarts on a directory with a torn tail and writes any batches to
the end.  The next recovery returns their effect in two cases only: the PUTs
leave the recovered table as it is, or the torn tail happens to decode together
with the bytes behind it, to records that have the same effect on it. -/
theorem restart_keeps_iff {dir : Dir} {front back : List (ℕ × Bytes)} {name : ℕ}
    {whole : List (ℕ × Bytes)} {torn : Bytes} {snapLsn : ℕ} {middle : Replay}
    (hdir : TornDir dir front back name whole torn snapLsn middle) {db : Db} {start : ℕ}
    (hrecover : recover dir = .ok (db, start)) {depth : ℕ} {mode : Mode} {pool : List Batch}
    (hreach : Machine.Reach step PlainFeeds (new depth (Files.ofSegs dir.segs) start mode pool)
      engine) (hidle : engine.shouldPark = true) :
    (∃ next, recover ⟨dir.snapshot, listing engine.files⟩ =
      .ok (applyRecords db engine.history, next)) ↔
      (Stuck name start torn (encodeAll engine.history) ∧
        applyRecords db engine.history = db) ∨
      (¬ Stuck name start torn (encodeAll engine.history) ∧
        Redone snapLsn (scanSegs ((name, torn ++ encodeAll engine.history) :: back)) db
          (applyRecords db engine.history)) := by
  obtain ⟨hsound, -, hjournal⟩ := journal_reach hreach
  rw [hjournal.listing_eq hsound hidle]
  rw [hdir.recover_eq, Except.ok.injEq, Prod.mk.injEq] at hrecover
  obtain ⟨rfl, rfl⟩ := hrecover
  obtain ⟨hstuck, hfree⟩ := hdir.replayDir_fresh hdir.name_le (encodeAll engine.history)
  by_cases hcase : Stuck name ((middle.extend (above snapLsn whole)).highest + 1) torn
      (encodeAll engine.history)
  · rw [recover_iff_rebuilds (hstuck hcase), rebuilds_torn]
    exact ⟨fun hsame => Or.inl ⟨hcase, hsame⟩,
      fun h => h.elim And.right fun hfree => absurd hcase hfree.1⟩
  · rw [recover_iff_rebuilds (hfree hcase), replaySegments_eq_redo, rebuilds_redo_iff]
    exact ⟨fun hrebuilds => Or.inr ⟨hcase, hrebuilds⟩,
      fun h => h.elim (fun hstuck => absurd hstuck.1 hcase) And.right⟩

/-- One PUT and the first five bytes of another. -/
def crashedDir : Dir :=
  ⟨none, SortedMap.empty.insert 1 (encodeAll [(2, (Payload.smallPut 65 66).bytes)] ++
    (record 3 (Payload.smallPut 65 67).bytes).take 5)⟩

theorem tornDir_crashedDir :
    TornDir crashedDir [] [] 1 [(2, (Payload.smallPut 65 66).bytes)]
      ((record 3 (Payload.smallPut 65 67).bytes).take 5) 0 ⟨Db.new, 0, []⟩ where
  entries := rfl
  older := ⟨Db.new, rfl, rfl⟩
  named := le_refl _
  whole := by
    intro rec hrec
    rw [List.mem_singleton.mp hrec]
    exact ⟨⟨by norm_num, by decide⟩, by decide⟩
  torn := tornTail_take ⟨by norm_num, by decide⟩ (by norm_num) (by decide)

theorem recover_crashedDir : recover crashedDir = .ok (Db.new.insertRaw [65] [66], 3) :=
  tornDir_crashedDir.recover_eq

/-- The PUT of the new run repeats what the table holds, so nothing is lost. -/
theorem restart_keeps_iff_same :
    ∃ engine, Machine.Reach step PlainFeeds
        (new 128 (Files.ofSegs crashedDir.segs) 3 .sync []) engine ∧
      engine.shouldPark = true ∧ engine.history ≠ [] ∧
      ∃ next, recover ⟨crashedDir.snapshot, listing engine.files⟩ =
        .ok (applyRecords (Db.new.insertRaw [65] [66]) engine.history, next) := by
  let batch : Batch := ⟨[⟨.smallPut 65 66, 7, some .ok, 0⟩], [], 3, 4, 0⟩
  obtain ⟨engine, hreach, hdone⟩ := @Machine.exists_reach _ _ step PlainFeeds
    (new 128 (Files.ofSegs crashedDir.segs) 3 .sync []) _
    [.arrive (.write batch), .poll, .plan, .reap, .start 0, .complete 0 27, .start 0,
      .complete 0 0, .poll, .plan, .reap, .reap]
    (fun engine => engine.shouldPark = true ∧ engine.history ≠ [] ∧
      applyRecords (Db.new.insertRaw [65] [66]) engine.history = Db.new.insertRaw [65] [66])
    (by decide +kernel)
  obtain ⟨hidle, hhistory, hsame⟩ : engine.shouldPark = true ∧ engine.history ≠ [] ∧
      applyRecords (Db.new.insertRaw [65] [66]) engine.history =
        Db.new.insertRaw [65] [66] := of_decide_eq_true hdone
  refine ⟨engine, hreach, hidle, hhistory, ?_⟩
  refine (restart_keeps_iff tornDir_crashedDir recover_crashedDir hreach hidle).mpr (Or.inl ?_)
  exact ⟨fun h => absurd h (by decide), hsame⟩

/-- A PUT acknowledged after a restart behind five bytes of a torn record is gone
after the next one. -/
theorem restart_loses_acked :
    ∃ engine, TornDir crashedDir [] [] 1 [(2, (Payload.smallPut 65 66).bytes)]
        ((record 3 (Payload.smallPut 65 67).bytes).take 5) 0 ⟨Db.new, 0, []⟩ ∧
      recover crashedDir = .ok (Db.new.insertRaw [65] [66], 3) ∧
      Machine.Reach step PlainFeeds (new 128 (Files.ofSegs crashedDir.segs) 3 .sync []) engine ∧
      engine.shouldPark = true ∧ (∃ ack ∈ engine.acked, ack.point = .durable) ∧
      ¬ ∃ next, recover ⟨crashedDir.snapshot, listing engine.files⟩ =
        .ok (applyRecords (Db.new.insertRaw [65] [66]) engine.history, next) := by
  let batch : Batch := ⟨[⟨.smallPut 65 68, 7, some .ok, 0⟩], [], 3, 4, 0⟩
  obtain ⟨engine, hreach, hdone⟩ := @Machine.exists_reach _ _ step PlainFeeds
    (new 128 (Files.ofSegs crashedDir.segs) 3 .sync []) _
    [.arrive (.write batch), .poll, .plan, .reap, .start 0, .complete 0 27, .start 0,
      .complete 0 0, .poll, .plan, .reap, .reap, .send, .send]
    (fun engine => engine.shouldPark = true ∧ (∃ ack ∈ engine.acked, ack.point = .durable) ∧
      (recover ⟨none, listing engine.files⟩).toOption =
        some (Db.new.insertRaw [65] [66], 3) ∧
      applyRecords (Db.new.insertRaw [65] [66]) engine.history ≠ Db.new.insertRaw [65] [66])
    (by decide +kernel)
  obtain ⟨hidle, hacked, hlost, hchanged⟩ : engine.shouldPark = true ∧
      (∃ ack ∈ engine.acked, ack.point = .durable) ∧
      (recover ⟨none, listing engine.files⟩).toOption =
        some (Db.new.insertRaw [65] [66], 3) ∧
      applyRecords (Db.new.insertRaw [65] [66]) engine.history ≠
        Db.new.insertRaw [65] [66] := of_decide_eq_true hdone
  refine ⟨engine, tornDir_crashedDir, recover_crashedDir, hreach, hidle, hacked, ?_⟩
  rintro ⟨next, hnext⟩
  have hfound : recover ⟨none, listing engine.files⟩ =
      .ok (applyRecords (Db.new.insertRaw [65] [66]) engine.history, next) := hnext
  rw [hfound] at hlost
  exact hchanged (Prod.mk.inj (Option.some.inj hlost)).1

end Stage3.WalEngine

end InMemoryDb
