import InMemoryDb.Server.Numbering

/-!
# The life of a directory

One clean run after another over the same directory.  `recover` returns the LSN
to use next, stage 2 takes it for the last one used and increments it before its
first PUT.  So the first PUT of a run skips one LSN, and the numbering has a gap
as soon as a second run logs something.
-/

namespace InMemoryDb.Pipeline

open Wire WalFormat Recover Stage2 Stage3

/-- A clean run: the process boots from the directory, serves any requests, and in
the end every write has been done. -/
structure CleanRun (mode : Mode) (dir : Dir) (pipe : Pipeline) : Prop where
  served : ∃ first, boot mode dir = .ok first ∧ Machine.Reach step Serving first pipe
  lsn : pipe.lsn < 2 ^ 64
  idle : pipe.Idle

/-- `Life counts dir`: clean runs from the empty directory have left `dir`; the run
at each position has applied that many PUTs. -/
inductive Life : List ℕ → Dir → Prop
  | empty : Life [] ⟨none, SortedMap.empty⟩
  | run {counts : List ℕ} {dir : Dir} {mode : Mode} {pipe : Pipeline} (hlife : Life counts dir)
      (hrun : CleanRun mode dir pipe) :
      Life (counts ++ [(puts pipe.applied).length]) (pipe.directory dir.snapshot)

/-- The records of all segments, in the order of `list_segments`. -/
def recordsRead (dir : Dir) : List (ℕ × Bytes) :=
  dir.segs.entries.flatMap fun entry => (scan entry.2).records

/-- Each LSN is one more than the one before it. -/
def Gapless (lsns : List ℕ) : Prop := lsns.IsChain fun earlier later => later = earlier + 1

/-- The runs that have applied a PUT. -/
def busy (counts : List ℕ) : List ℕ := counts.filter fun count => 0 < count

theorem busy_idle {counts : List ℕ} {count : ℕ} (hcount : count = 0) :
    busy (counts ++ [count]) = busy counts := by
  simp [busy, hcount]

theorem busy_snoc {counts : List ℕ} {count : ℕ} (hcount : count ≠ 0) :
    busy (counts ++ [count]) = busy counts ++ [count] := by
  simp [busy, Nat.pos_of_ne_zero hcount]

theorem gapless_range' (first count : ℕ) : Gapless (List.range' first count) := by
  induction count generalizing first with
  | zero => exact List.IsChain.nil
  | succ count ih =>
      rw [List.range'_succ]
      refine List.IsChain.cons (ih (first + 1)) ?_
      intro next hnext
      cases count with
      | zero => cases hnext
      | succ count => exact (Option.some.inj hnext).symm

/-! ## What the runs leave -/

/-- What is known of a directory after the runs: its segments are whole records,
and the last LSN in them is the highest one recovery sees. -/
structure Left (counts : List ℕ) (dir : Dir) (state : Replay) : Prop where
  replay : replayDir dir = .ok (state, .finished)
  names : ∀ entry ∈ dir.segs.entries, entry.1 ≤ state.highest + 1
  whole : ∀ entry ∈ dir.segs.entries,
    ∃ records, entry.2 = encodeAll records ∧ ∀ rec ∈ records, Fits rec.1 rec.2
  last : ∀ lsn ∈ ((recordsRead dir).map Prod.fst).getLast?, lsn = state.highest
  logged : recordsRead dir = [] ↔ busy counts = []
  gapless : Gapless ((recordsRead dir).map Prod.fst) ↔ (busy counts).length ≤ 1

theorem left_empty : Left [] ⟨none, SortedMap.empty⟩ ⟨Db.new, 0, []⟩ := by
  refine ⟨rfl, ?_, ?_, ?_, ?_, ?_⟩
  · intro entry hentry
    cases hentry
  · intro entry hentry
    cases hentry
  · intro lsn hlsn
    cases hlsn
  · exact ⟨fun _ => rfl, fun _ => rfl⟩
  · exact ⟨fun _ => Nat.zero_le _, fun _ => List.IsChain.nil⟩

/-- Whole records behind the last segment are read behind all others. -/
theorem recordsRead_insert {dir : Dir} {start : ℕ}
    (htop : ∀ entry ∈ dir.segs.entries, entry.1 ≤ start)
    (hwhole : ∀ entry ∈ dir.segs.entries,
      ∃ records, entry.2 = encodeAll records ∧ ∀ rec ∈ records, Fits rec.1 rec.2)
    {history : List (ℕ × Bytes)} (hfits : ∀ rec ∈ history, Fits rec.1 rec.2) :
    recordsRead ⟨dir.snapshot, dir.segs.insert start
        (baseOf dir.segs start ++ encodeAll history)⟩ = recordsRead dir ++ history := by
  obtain ⟨front, hinsert, hentries⟩ := dir.segs.insert_top htop
  have hscan : ∀ records : List (ℕ × Bytes), (∀ rec ∈ records, Fits rec.1 rec.2) →
      (scan (encodeAll records)).records = records := by
    intro records hrecords
    have hscanned := scan_encodeAll hrecords []
    rw [List.append_nil, scan_nil, List.append_nil] at hscanned
    rw [hscanned]
  rw [recordsRead, recordsRead, hinsert, List.flatMap_append, List.flatMap_singleton]
  rcases hentries with ⟨hfront, hnone⟩ | ⟨old, hfront, hsome⟩
  · rw [hfront, baseOf, hnone, Option.getD_none, List.nil_append, hscan history hfits]
  · obtain ⟨records, rfl, hrecords⟩ := hwhole (start, old) (by rw [hfront]; simp)
    have hall : ∀ rec ∈ records ++ history, Fits rec.1 rec.2 := by
      intro rec hrec
      exact (List.mem_append.mp hrec).elim (hrecords rec) (hfits rec)
    rw [hfront, baseOf, hsome, Option.getD_some, ← encodeAll_append, hscan _ hall,
      List.flatMap_append, List.flatMap_singleton, hscan _ hrecords, List.append_assoc]

theorem whole_insert {dir : Dir} {start : ℕ}
    (hwhole : ∀ entry ∈ dir.segs.entries,
      ∃ records, entry.2 = encodeAll records ∧ ∀ rec ∈ records, Fits rec.1 rec.2)
    {history : List (ℕ × Bytes)} (hfits : ∀ rec ∈ history, Fits rec.1 rec.2) :
    ∀ entry ∈ (dir.segs.insert start (baseOf dir.segs start ++ encodeAll history)).entries,
      ∃ records, entry.2 = encodeAll records ∧ ∀ rec ∈ records, Fits rec.1 rec.2 := by
  intro entry hentry
  rcases SortedMap.mem_insertList hentry with rfl | hold
  · cases hbase : dir.segs.lookup start with
    | none =>
        refine ⟨history, ?_, hfits⟩
        rw [baseOf, hbase, Option.getD_none, List.nil_append]
    | some old =>
        obtain ⟨records, hrecords, hgood⟩ :=
          hwhole (start, old) (SortedMap.mem_entries.mpr hbase)
        refine ⟨records ++ history, ?_, ?_⟩
        · rw [baseOf, hbase, Option.getD_some, encodeAll_append]
          exact congrArg (· ++ encodeAll history) hrecords
        · intro rec hrec
          exact (List.mem_append.mp hrec).elim (hgood rec) (hfits rec)
  · exact hwhole entry hold

/-- A run numbers its PUTs from the LSN behind the one `recover` returned. -/
theorem CleanRun.ran {mode : Mode} {dir : Dir} {state : Replay} {pipe : Pipeline}
    (hrun : CleanRun mode dir pipe) (hreplay : replayDir dir = .ok (state, .finished)) :
    Ran dir state pipe ∧ (puts pipe.applied).length = pipe.wal.history.length := by
  obtain ⟨first, hboot, hreach⟩ := hrun.served
  have hfirst := boot_eq hreplay hboot
  subst hfirst
  have hran := ran_of_idle hreach hrun.lsn hrun.idle
  obtain ⟨-, hagreed⟩ := agreed_reach hreach
  have hcount := hagreed.lsn
  rw [hran.lsn] at hcount
  exact ⟨hran, by omega⟩

/-- The LSNs behind a run: none are added, or the run starts two above the highest. -/
theorem gapless_append {lsns : List ℕ} {highest count : ℕ}
    (hlast : ∀ lsn ∈ lsns.getLast?, lsn = highest) (hcount : count ≠ 0) :
    Gapless (lsns ++ List.range' (highest + 1 + 1) count) ↔ lsns = [] := by
  constructor
  · intro hgapless
    by_contra hne
    obtain ⟨-, -, hjoin⟩ := List.isChain_append.mp hgapless
    have hhead : highest + 1 + 1 ∈ (List.range' (highest + 1 + 1) count).head? := by
      obtain ⟨more, rfl⟩ := Nat.exists_eq_succ_of_ne_zero hcount
      rw [List.range'_succ]
      rfl
    have hend : lsns.getLast hne ∈ lsns.getLast? := by rw [List.getLast?_eq_some_getLast hne]; rfl
    have hjump := hjoin _ hend _ hhead
    rw [hlast _ hend] at hjump
    omega
  · rintro rfl
    exact gapless_range' _ _

theorem Left.run {counts : List ℕ} {dir : Dir} {state : Replay} {mode : Mode} {pipe : Pipeline}
    (hleft : Left counts dir state) (hrun : CleanRun mode dir pipe) :
    ∃ state', Left (counts ++ [(puts pipe.applied).length]) (pipe.directory dir.snapshot)
      state' := by
  obtain ⟨hran, hcount⟩ := hrun.ran hleft.replay
  have hfits : ∀ rec ∈ pipe.wal.history, Fits rec.1 rec.2 :=
    fun rec hrec => (hran.good rec hrec).1
  have hread : recordsRead (pipe.directory dir.snapshot) =
      recordsRead dir ++ pipe.wal.history := by
    rw [hran.directory]
    exact recordsRead_insert hleft.names hleft.whole hfits
  have hwhole := @whole_insert dir (state.highest + 1) hleft.whole _ hfits
  refine ⟨state.extend pipe.wal.history, hran.replayDir hleft.replay hleft.names,
    hran.names hleft.names, ?_, ?_, ?_, ?_⟩
  · rw [hran.directory]
    exact hwhole
  · rw [hread, hran.highest, List.map_append, hran.lsns]
    split_ifs with hzero
    · rw [hzero]
      simpa using hleft.last
    · obtain ⟨more, hmore⟩ := Nat.exists_eq_succ_of_ne_zero hzero
      rw [hmore, List.range'_concat, ← List.append_assoc, List.getLast?_concat, hran.lsn, hmore]
      intro lsn hlsn
      rw [← Option.some.inj hlsn]
      omega
  · rw [hread, hcount]
    by_cases hzero : pipe.wal.history.length = 0
    · rw [busy_idle hzero, List.eq_nil_of_length_eq_zero hzero, List.append_nil]
      exact hleft.logged
    · rw [busy_snoc hzero, List.append_eq_nil_iff]
      exact ⟨fun h => absurd (congrArg List.length h.2) hzero, fun h => by simp at h⟩
  · rw [hread, hcount, List.map_append, hran.lsns]
    by_cases hzero : pipe.wal.history.length = 0
    · rw [busy_idle hzero, hzero]
      simpa using hleft.gapless
    · rw [busy_snoc hzero, gapless_append hleft.last hzero, List.map_eq_nil_iff, hleft.logged,
        List.length_append, List.length_singleton, ← List.length_eq_zero_iff]
      omega

theorem Life.left {counts : List ℕ} {dir : Dir} (hlife : Life counts dir) :
    ∃ state, Left counts dir state := by
  induction hlife with
  | empty => exact ⟨_, left_empty⟩
  | run _ hrun ih =>
      obtain ⟨state, hleft⟩ := ih
      exact hleft.run hrun

/-- After any sequence of clean runs from the empty directory, the records of its
segments carry consecutive LSNs if and only if at most one of the runs has applied
a PUT. -/
theorem lsns_gapless_iff {counts : List ℕ} {dir : Dir} (hlife : Life counts dir) :
    Gapless ((recordsRead dir).map Prod.fst) ↔
      (counts.filter fun count => 0 < count).length ≤ 1 := by
  obtain ⟨state, hleft⟩ := hlife.left
  exact hleft.gapless

/-! ## Two runs -/

/-- A run that can be evaluated is a clean run. -/
theorem exists_cleanRun {dir : Dir} {db : Db} {startLsn : ℕ}
    (hboot : recover dir = .ok (db, startLsn)) (script : List Act) (property : Pipeline → Bool)
    (hrun : (Machine.run (Machine.guarded step Serving)
      (start .noFsync (Files.ofSegs dir.segs) db startLsn) script).any fun pipe =>
        decide (pipe.lsn < 2 ^ 64 ∧ pipe.Idle) && property pipe) :
    ∃ pipe, CleanRun .noFsync dir pipe ∧ property pipe = true := by
  obtain ⟨pipe, hreach, hdone⟩ := Machine.exists_reach script _ hrun
  obtain ⟨hclean, hproperty⟩ := (Bool.and_eq_true _ _).mp hdone
  obtain ⟨hlsn, hidle⟩ : pipe.lsn < 2 ^ 64 ∧ pipe.Idle := of_decide_eq_true hclean
  refine ⟨pipe, ⟨⟨_, ?_, hreach⟩, hlsn, hidle⟩, hproperty⟩
  rw [boot, hboot, ok_bind]
  rfl

/-- One PUT, from its admission to the end of its write. -/
def onePut (value : UInt8) : List Act :=
  [.accept 7 (.smallPut 65 value), .take 1, .reply, .dispatch, .wal .poll, .wal .plan, .wal .reap,
    .wal (.start 0), .wal (.complete 0 27), .wal .poll, .wal .plan, .wal .reap, .wal .send,
    .wal .reap]

/-- The directory one PUT leaves. -/
def oneDir : Dir :=
  ⟨none, SortedMap.empty.insert 1 (encodeAll [(2, (Payload.smallPut 65 66).bytes)])⟩

theorem life_one : Life [1] oneDir := by
  obtain ⟨pipe, hrun, hdone⟩ := @exists_cleanRun ⟨none, SortedMap.empty⟩ Db.new 1 rfl (onePut 66)
    (fun pipe => decide ((puts pipe.applied).length = 1 ∧
      (listing pipe.wal.files).entries = oneDir.segs.entries)) (by decide +kernel)
  obtain ⟨hcount, hentries⟩ : (puts pipe.applied).length = 1 ∧
      (listing pipe.wal.files).entries = oneDir.segs.entries := of_decide_eq_true hdone
  have hlife := Life.run Life.empty hrun
  have hdir : pipe.directory none = oneDir := congrArg (Dir.mk none) (SortedMap.ext hentries)
  rw [hcount] at hlife
  rw [← hdir]
  exact hlife

theorem recover_oneDir : recover oneDir = .ok (Db.new.insertRaw [65] [66], 3) := rfl

/-- A run without a PUT behind a run with one. -/
theorem lsns_gapless_iff_idle :
    ∃ dir, Life [1, 0] dir ∧ Gapless ((recordsRead dir).map Prod.fst) := by
  obtain ⟨pipe, hrun, hdone⟩ := @exists_cleanRun oneDir _ 3 recover_oneDir []
    (fun pipe => decide ((puts pipe.applied).length = 0)) (by decide +kernel)
  have hlife := Life.run life_one hrun
  rw [of_decide_eq_true hdone] at hlife
  exact ⟨_, hlife, (lsns_gapless_iff hlife).mpr (by decide)⟩

/-- Two runs of one PUT each: the records carry the LSNs 2 and 4. -/
theorem second_run_skips_lsn :
    ∃ dir, Life [1, 1] dir ∧ (recordsRead dir).map Prod.fst = [2, 4] ∧
      ¬ Gapless ((recordsRead dir).map Prod.fst) := by
  obtain ⟨pipe, hrun, hdone⟩ := @exists_cleanRun oneDir _ 3 recover_oneDir (onePut 67)
    (fun pipe => decide ((puts pipe.applied).length = 1 ∧
      (recordsRead ⟨none, listing pipe.wal.files⟩).map Prod.fst = [2, 4])) (by decide +kernel)
  obtain ⟨hcount, hlsns⟩ : (puts pipe.applied).length = 1 ∧
      (recordsRead (pipe.directory none)).map Prod.fst = [2, 4] := of_decide_eq_true hdone
  have hlife := Life.run life_one hrun
  rw [hcount] at hlife
  refine ⟨_, hlife, hlsns, ?_⟩
  intro hgapless
  have hlsns' : (recordsRead (pipe.directory oneDir.snapshot)).map Prod.fst = [2, 4] := hlsns
  rw [hlsns'] at hgapless
  exact absurd (List.isChain_cons_cons.mp hgapless).1 (by decide)

end InMemoryDb.Pipeline
