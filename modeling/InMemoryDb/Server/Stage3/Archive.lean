import InMemoryDb.Server.Stage3.Journal

/-!
# The archive: all segments of a process

A rotate names the next segment after the LSN reached so far, and seals the old
one when nothing is pending or in flight.  Each batch stays in the segment that
was active when it was queued; the segments cut the log at LSNs, so that a record
lies in the last segment whose name is below its own number.
-/

namespace InMemoryDb.Stage3

open SparseFile WalFormat Recover

/-! ## When rotates are sent -/

/-- The `lsn_hi` of the last batch sent, `lsn` when there is none. -/
def lastSent (lsn : ℕ) (msgs : List WalMsg) : ℕ := msgs.foldl WalMsg.reach lsn

/-- Guard of runs with rotates: the boundary is the `lsn_hi` of the last batch sent
before, the last ingested LSN when the channel has none. -/
def RotateFeeds (engine : WalEngine) : WalEngine.Act → Prop
  | .arrive (.write batch) => FromStage2 engine.ack batch
  | .arrive (.rotate boundaryLsn) => boundaryLsn = lastSent engine.lastIngestedLsn engine.msgRx
  | _ => True

instance (engine : WalEngine) : (act : WalEngine.Act) → Decidable (RotateFeeds engine act)
  | .arrive (.write batch) => inferInstanceAs (Decidable (FromStage2 engine.ack batch))
  | .arrive (.rotate boundaryLsn) => inferInstanceAs (Decidable (boundaryLsn = _))
  | .arrive (.retire _) => isTrue trivial
  | .poll => isTrue trivial
  | .plan => isTrue trivial
  | .reap => isTrue trivial
  | .drain => isTrue trivial
  | .wake => isTrue trivial
  | .start _ => isTrue trivial
  | .complete _ _ => isTrue trivial
  | .send => isTrue trivial
  | .lend => isTrue trivial
  | .slab _ => isTrue trivial

theorem RotateFeeds.feeds {engine : WalEngine} {act : WalEngine.Act}
    (h : RotateFeeds engine act) : Feeds engine act := by
  cases act with
  | arrive msg =>
      cases msg with
      | write batch => exact h
      | rotate boundaryLsn => trivial
      | retire boundaryLsn => trivial
  | _ => trivial

namespace WalEngine

variable {engine after : WalEngine}

/-- Every rotate in the channel, and the one under way, is for the LSN reached when
its turn comes. -/
structure Timely (engine : WalEngine) : Prop where
  waiting : ∀ front boundaryLsn back, engine.msgRx = front ++ .rotate boundaryLsn :: back →
    boundaryLsn = lastSent engine.lastIngestedLsn front
  running : ∀ boundaryLsn, engine.pc.boundary = some boundaryLsn →
    boundaryLsn = engine.lastIngestedLsn

theorem Timely.frame (htimely : engine.Timely) (hmsgRx : after.msgRx = engine.msgRx)
    (hingested : after.lastIngestedLsn = engine.lastIngestedLsn)
    (hpc : ∀ boundaryLsn, after.pc.boundary = some boundaryLsn →
      engine.pc.boundary = some boundaryLsn) : after.Timely := by
  refine ⟨?_, ?_⟩
  · rw [hmsgRx, hingested]
    exact htimely.waiting
  · intro boundaryLsn hboundary
    rw [hingested]
    exact htimely.running boundaryLsn (hpc boundaryLsn hboundary)

theorem timely_arrive (htimely : engine.Timely) {msg : WalMsg}
    (hguard : RotateFeeds engine (.arrive msg)) :
    { engine with msgRx := engine.msgRx ++ [msg] }.Timely := by
  refine ⟨?_, htimely.running⟩
  intro front boundaryLsn back hsplit
  have hsnoc := @Sequence.forall_split_snoc _
    (fun front msg => ∀ boundaryLsn, msg = .rotate boundaryLsn →
      boundaryLsn = lastSent engine.lastIngestedLsn front) engine.msgRx
    (fun front msg back hsplit boundaryLsn hmsg =>
      htimely.waiting front boundaryLsn back (hmsg ▸ hsplit)) msg
    (by
      rintro boundaryLsn rfl
      exact hguard)
  exact hsnoc front _ back hsplit boundaryLsn rfl

/-- The next message is taken. -/
theorem Timely.tail (htimely : engine.Timely) {msg : WalMsg} {rest : List WalMsg}
    (hmsg : engine.msgRx = msg :: rest) (hmsgRx : after.msgRx = rest)
    (hingested : after.lastIngestedLsn = msg.reach engine.lastIngestedLsn)
    (hpc : ∀ boundaryLsn, after.pc.boundary = some boundaryLsn → msg = .rotate boundaryLsn) :
    after.Timely := by
  refine ⟨?_, ?_⟩
  · intro front boundaryLsn back hsplit
    rw [hmsgRx] at hsplit
    rw [hingested]
    exact htimely.waiting (msg :: front) boundaryLsn back (by rw [hmsg, hsplit]; rfl)
  · intro boundaryLsn hboundary
    have hrotate := hpc boundaryLsn hboundary
    rw [hingested, hrotate]
    exact htimely.waiting [] boundaryLsn rest (by rw [hmsg, hrotate]; rfl)

theorem timely_step {act : Act} (htimely : engine.Timely) (hguard : RotateFeeds engine act)
    (hstep : engine.step act = some after) : after.Timely := by
  rcases step_channel hstep with ⟨msg, rfl, rfl⟩ | ⟨msg, rest, -, hmsg, hrest, hingested, hpc⟩ |
    ⟨hsame, hingested, hpc⟩
  · exact timely_arrive htimely hguard
  · exact htimely.tail hmsg hrest hingested hpc
  · exact htimely.frame hsame hingested hpc

/-! ## Where the batches are -/

/-- The batches queued for a segment. -/
def queuedIn (queued : List Queued) (seg : ℕ) : List Queued :=
  queued.filter fun entry => entry.seg = seg

/-- What a segment holds once every write has landed: its old contents, and the
batches queued for it. -/
def wholeOf (segs : SortedMap ℕ Bytes) (queued : List Queued) (seg : ℕ) : Bytes :=
  baseOf segs seg ++ (queuedIn queued seg).flatMap fun entry => entry.batch.out

theorem wholeOf_append (segs : SortedMap ℕ Bytes) (front back : List Queued) (seg : ℕ) :
    wholeOf segs (front ++ back) seg =
      wholeOf segs front seg ++ (queuedIn back seg).flatMap fun entry => entry.batch.out := by
  rw [wholeOf, wholeOf, queuedIn, List.filter_append, List.flatMap_append, List.append_assoc]
  rfl

theorem wholeOf_snoc (segs : SortedMap ℕ Bytes) (queued : List Queued) (entry : Queued) :
    wholeOf segs (queued ++ [entry]) entry.seg =
      wholeOf segs queued entry.seg ++ entry.batch.out := by
  rw [wholeOf_append, queuedIn, List.filter_cons_of_pos (by simp), List.filter_nil,
    List.flatMap_singleton]

theorem wholeOf_snoc_ne (segs : SortedMap ℕ Bytes) (queued : List Queued) {entry : Queued}
    {seg : ℕ} (hne : entry.seg ≠ seg) :
    wholeOf segs (queued ++ [entry]) seg = wholeOf segs queued seg := by
  rw [wholeOf_append, queuedIn, List.filter_cons_of_neg (by simpa using hne), List.filter_nil,
    List.flatMap_nil, List.append_nil]

/-- The place of a batch: its LSNs follow those of all batches before it, its bytes
those of its own segment. -/
structure Shelved (segs : SortedMap ℕ Bytes) (start : ℕ) (front : List Queued) (entry : Queued) :
    Prop where
  lsnLow : entry.batch.lsnLow = start + (front.flatMap fun earlier => earlier.batch.redo).length
  offset : entry.offset = (wholeOf segs front entry.seg).length
  encoded : Encoded entry.batch

/-- The segments cut the log at their names. -/
structure Archive (segs : SortedMap ℕ Bytes) (start : ℕ) (engine : WalEngine) : Prop where
  ingested : engine.lastIngestedLsn = start + engine.history.length
  shelved : ∀ front entry back, engine.queued = front ++ entry :: back →
    Shelved segs start front entry
  ordered : engine.queued.Pairwise fun earlier later => earlier.seg ≤ later.seg
  newest : ∀ entry ∈ engine.queued, entry.seg ≤ engine.seg.startLsn
  started : start ≤ engine.seg.startLsn
  reached : engine.seg.startLsn ≤ engine.lastIngestedLsn
  below : ∀ entry ∈ engine.queued, entry.seg ≤ entry.batch.lsnLow
  cuts : ∀ entry ∈ engine.queued, ∀ seg file, engine.files.lookup seg = some file →
    seg ≤ entry.seg ∨ entry.batch.lsnHi ≤ seg
  names : ∀ seg file, engine.files.lookup seg = some file → seg ≤ engine.seg.startLsn
  image : engine.image = wholeOf segs engine.queued engine.seg.startLsn
  sealed : ∀ seg file, engine.seg.startLsn ≠ seg → engine.files.lookup seg = some file →
    file.cache = full (wholeOf segs engine.queued seg)

variable {segs : SortedMap ℕ Bytes} {start : ℕ}

theorem Archive.lsnHi_le (harchive : Archive segs start engine) {entry : Queued}
    (hentry : entry ∈ engine.queued) : entry.batch.lsnHi ≤ engine.lastIngestedLsn := by
  obtain ⟨front, back, hsplit⟩ := List.append_of_mem hentry
  have hshelved := harchive.shelved front entry back hsplit
  rw [hshelved.encoded.lsnHi, hshelved.lsnLow, harchive.ingested, history, hsplit]
  simp only [List.flatMap_append, List.flatMap_cons, List.length_append]
  omega

theorem archive_new {depth : ℕ} {mode : Mode} {pool : List Batch}
    (htop : ∀ seg bytes, segs.lookup seg = some bytes → seg ≤ start) :
    Archive segs start (new depth (Files.ofSegs segs) start mode pool) := by
  have hseg : (new depth (Files.ofSegs segs) start mode pool).seg.startLsn = start :=
    Segment.open_startLsn _ _
  have hlookup : ∀ seg, start ≠ seg →
      (new depth (Files.ofSegs segs) start mode pool).files.lookup seg =
        (segs.lookup seg).map File.ofBytes := by
    intro seg hne
    rw [← SortedMap.lookup_mapValues]
    exact Segment.open_others _ hne
  refine ⟨rfl, ?_, List.Pairwise.nil, ?_, hseg.ge, hseg.le, ?_, ?_, ?_, ?_, ?_⟩
  · intro front entry back hsplit
    cases front <;> cases hsplit
  · exact fun _ h => by cases h
  · exact fun _ h => by cases h
  · exact fun _ h => by cases h
  · intro seg file hfile
    rw [hseg]
    by_cases hsame : start = seg
    · exact hsame.ge
    · rw [hlookup seg hsame, Option.map_eq_some_iff] at hfile
      obtain ⟨bytes, hbytes, -⟩ := hfile
      exact htop seg bytes hbytes
  · rw [hseg, wholeOf]
    exact (readSeg_ofSegs segs start).trans (List.append_nil _).symm
  · intro seg file hne hfile
    rw [hseg] at hne
    rw [hlookup seg hne, Option.map_eq_some_iff] at hfile
    obtain ⟨bytes, hbytes, rfl⟩ := hfile
    have hwhole : wholeOf segs [] seg = bytes := by
      rw [wholeOf, baseOf, hbytes]
      exact List.append_nil _
    change full bytes = full (wholeOf segs [] seg)
    rw [hwhole]

theorem Archive.queue (harchive : Archive segs start engine) {entry : Queued}
    (rest : List WalMsg) (hseg : entry.seg = engine.seg.startLsn)
    (hoffset : entry.offset = engine.image.length)
    (hlow : entry.batch.lsnLow = engine.lastIngestedLsn) (hencoded : Encoded entry.batch) :
    Archive segs start (engine.queue entry rest) := by
  have hmem : ∀ other ∈ (engine.queue entry rest).queued,
      other ∈ engine.queued ∨ other = entry := by
    intro other hother
    rcases List.mem_append.mp hother with hold | hnew
    · exact Or.inl hold
    · exact Or.inr (List.mem_singleton.mp hnew)
  refine ⟨?_, ?_, ?_, ?_, harchive.started, ?_, ?_, ?_, harchive.names, ?_, ?_⟩
  · change entry.batch.lsnHi = start +
      ((engine.queued ++ [entry]).flatMap fun other => other.batch.redo).length
    rw [hencoded.lsnHi, hlow, harchive.ingested, history, List.flatMap_append, List.length_append,
      List.flatMap_singleton, Nat.add_assoc]
  · refine Sequence.forall_split_snoc harchive.shelved ⟨?_, ?_, hencoded⟩
    · rw [hlow, harchive.ingested]
      rfl
    · rw [hoffset, harchive.image, hseg]
  · refine List.pairwise_append.mpr ⟨harchive.ordered, List.pairwise_singleton _ _, ?_⟩
    intro earlier hearlier later hlater
    rw [List.mem_singleton.mp hlater, hseg]
    exact harchive.newest earlier hearlier
  · intro other hother
    change other.seg ≤ engine.seg.startLsn
    rcases hmem other hother with hold | rfl
    · exact harchive.newest other hold
    · exact hseg.le
  · change engine.seg.startLsn ≤ entry.batch.lsnHi
    rw [hencoded.lsnHi, hlow]
    exact harchive.reached.trans (Nat.le_add_right _ _)
  · intro other hother
    rcases hmem other hother with hold | rfl
    · exact harchive.below other hold
    · rw [hseg, hlow]
      exact harchive.reached
  · intro other hother seg file hfile
    rcases hmem other hother with hold | rfl
    · exact harchive.cuts other hold seg file hfile
    · left
      rw [hseg]
      exact harchive.names seg file hfile
  · change engine.image ++ entry.batch.out =
      wholeOf segs (engine.queued ++ [entry]) engine.seg.startLsn
    rw [harchive.image, ← hseg, wholeOf_snoc]
  · intro seg file hne hfile
    have hother : entry.seg ≠ seg := hseg ▸ hne
    change file.cache = full (wholeOf segs (engine.queued ++ [entry]) seg)
    rw [wholeOf_snoc_ne segs engine.queued hother]
    exact harchive.sealed seg file hne hfile

theorem Archive.steady (harchive : Archive segs start engine) {permit : Kind → WalEngine → Prop}
    (hsound : engine.Sound) (hsteady : Steady permit engine after) : Archive segs start after := by
  have hfiles : ∀ seg file, after.files.lookup seg = some file →
      ∃ old, engine.files.lookup seg = some old ∧ (engine.seg.startLsn ≠ seg → file = old) := by
    intro seg file hfile
    by_cases hactive : engine.seg.startLsn = seg
    · obtain ⟨old, hold⟩ := hsound.stored.opened
      exact ⟨old, hactive ▸ hold, fun hne => absurd hactive hne⟩
    · rcases hsteady.others seg hactive with hsame | ⟨-, hnone⟩
      · exact ⟨file, hsame ▸ hfile, fun _ => rfl⟩
      · rw [hnone] at hfile
        cases hfile
  refine ⟨?_, ?_, ?_, ?_, ?_, ?_, ?_, ?_, ?_, ?_, ?_⟩
  · rw [hsteady.ingested, harchive.ingested, history, history, hsteady.queued]
  · rw [hsteady.queued]
    exact harchive.shelved
  · rw [hsteady.queued]
    exact harchive.ordered
  · rw [hsteady.queued, hsteady.seg]
    exact harchive.newest
  · rw [hsteady.seg]
    exact harchive.started
  · rw [hsteady.seg, hsteady.ingested]
    exact harchive.reached
  · rw [hsteady.queued]
    exact harchive.below
  · rw [hsteady.queued]
    intro entry hentry seg file hfile
    obtain ⟨old, hold, -⟩ := hfiles seg file hfile
    exact harchive.cuts entry hentry seg old hold
  · rw [hsteady.seg]
    intro seg file hfile
    obtain ⟨old, hold, -⟩ := hfiles seg file hfile
    exact harchive.names seg old hold
  · rw [hsteady.image, hsteady.queued, hsteady.seg]
    exact harchive.image
  · rw [hsteady.queued, hsteady.seg]
    intro seg file hne hfile
    obtain ⟨old, hold, hsame⟩ := hfiles seg file hfile
    rw [hsame hne]
    exact harchive.sealed seg old hne hold

/-- The files just before the next segment is opened. -/
theorem Archive.sealedFiles (harchive : Archive segs start engine) (hsound : engine.Sound)
    (hholes : engine.Holes) (hdone : engine.WritesDone) {seg : ℕ} {file : File}
    (hfile : (engine.files.insert engine.seg.startLsn
      (engine.disk.flush engine.disk.cache)).lookup seg = some file) :
    (∃ old, engine.files.lookup seg = some old) ∧
      file.cache = full (wholeOf segs engine.queued seg) := by
  by_cases hactive : engine.seg.startLsn = seg
  · subst hactive
    rw [SortedMap.lookup_insert_self, Option.some.injEq] at hfile
    refine ⟨hsound.stored.opened, ?_⟩
    rw [← hfile, ← harchive.image]
    exact hholes.cache_eq hsound hdone
  · rw [SortedMap.lookup_insert_ne _ _ hactive] at hfile
    exact ⟨⟨file, hfile⟩, harchive.sealed seg file hactive hfile⟩

/-- Nothing was ever queued for a segment behind the active one. -/
theorem Archive.wholeOf_next (harchive : Archive segs start engine)
    (htop : ∀ seg bytes, segs.lookup seg = some bytes → seg ≤ start) {seg : ℕ}
    (hseg : engine.seg.startLsn < seg) : wholeOf segs engine.queued seg = [] := by
  have hbase : baseOf segs seg = [] := by
    cases hlookup : segs.lookup seg with
    | none =>
        rw [baseOf, hlookup]
        rfl
    | some bytes =>
        have hle := (htop seg bytes hlookup).trans harchive.started
        omega
  have hnone : queuedIn engine.queued seg = [] := by
    apply List.filter_eq_nil_iff.mpr
    intro entry hentry
    have hle := harchive.newest entry hentry
    simp only [decide_eq_true_eq]
    omega
  rw [wholeOf, hbase, hnone]
  rfl

/-- Batches follow one another in LSN order, and within a segment by offset. -/
theorem Archive.pairwise (harchive : Archive segs start engine) :
    engine.queued.Pairwise fun earlier later =>
      earlier.batch.lsnHi ≤ later.batch.lsnLow ∧ (earlier.seg = later.seg →
        earlier.offset + earlier.batch.out.length ≤ later.offset) := by
  apply Sequence.pairwise_of_split
  intro front later back hsplit earlier hearlier
  obtain ⟨before, between, rfl⟩ := List.append_of_mem hearlier
  have hlater := harchive.shelved _ later back hsplit
  have hplace := harchive.shelved before earlier (between ++ later :: back) (by rw [hsplit]; simp)
  constructor
  · rw [hlater.lsnLow, hplace.encoded.lsnHi, hplace.lsnLow]
    simp only [List.flatMap_append, List.flatMap_cons, List.length_append]
    omega
  · intro hseg
    have hparts : before ++ earlier :: between = (before ++ [earlier]) ++ between := by simp
    rw [hlater.offset, hplace.offset, ← hseg, hparts, wholeOf_append, wholeOf_snoc,
      List.length_append, List.length_append]
    omega

/-- Sealing the segment at the LSN reached cuts the log there. -/
theorem Archive.cut (harchive : Archive segs start engine)
    (htop : ∀ seg bytes, segs.lookup seg = some bytes → seg ≤ start) (hsound : engine.Sound)
    (hholes : engine.Holes) (hdone : engine.WritesDone) :
    Archive segs start (engine.sealSegment engine.lastIngestedLsn) := by
  set next := engine.lastIngestedLsn with hnext
  set files := engine.files.insert engine.seg.startLsn (engine.disk.flush engine.disk.cache)
    with hfiles
  have hseg : (engine.sealSegment next).seg.startLsn = next := Segment.open_startLsn files next
  have hlookup : ∀ seg file, (engine.sealSegment next).files.lookup seg = some file →
      seg = next ∨ files.lookup seg = some file := by
    intro seg file hfile
    by_cases hsame : next = seg
    · exact Or.inl hsame.symm
    · right
      rw [← Segment.open_others files hsame]
      exact hfile
  refine ⟨harchive.ingested, harchive.shelved, harchive.ordered, ?_, ?_, ?_, harchive.below, ?_,
    ?_, ?_, ?_⟩
  · rw [hseg]
    exact fun entry hentry => (harchive.newest entry hentry).trans harchive.reached
  · rw [hseg]
    exact harchive.started.trans harchive.reached
  · exact hseg.le
  · intro entry hentry seg file hfile
    rcases hlookup seg file hfile with rfl | hold
    · exact Or.inr (harchive.lsnHi_le hentry)
    · obtain ⟨⟨old, hold⟩, -⟩ := harchive.sealedFiles hsound hholes hdone hold
      exact harchive.cuts entry hentry seg old hold
  · rw [hseg]
    intro seg file hfile
    rcases hlookup seg file hfile with rfl | hold
    · exact le_rfl
    · obtain ⟨⟨old, hold⟩, -⟩ := harchive.sealedFiles hsound hholes hdone hold
      exact (harchive.names seg old hold).trans harchive.reached
  · rw [hseg]
    change readSeg files next = wholeOf segs engine.queued next
    rw [readSeg, cacheOf]
    cases hopened : files.lookup next with
    | some file =>
        obtain ⟨-, hcache⟩ := harchive.sealedFiles hsound hholes hdone hopened
        simp only [hcache, contents_full]
    | none =>
        have hne : engine.seg.startLsn ≠ next := by
          intro heq
          rw [hfiles, heq, SortedMap.lookup_insert_self] at hopened
          cases hopened
        have hlt := lt_of_le_of_ne harchive.reached hne
        rw [harchive.wholeOf_next htop hlt]
        rfl
  · rw [hseg]
    intro seg file hne hfile
    rcases hlookup seg file hfile with rfl | hold
    · exact absurd rfl hne
    · exact (harchive.sealedFiles hsound hholes hdone hold).2

theorem archive_move {permit : Kind → WalEngine → Prop}
    (hsealed : ∀ current, ¬ permit .sealed current) (hsound : engine.Sound)
    (harchive : Archive segs start engine) (hmove : Move permit engine after) :
    Archive segs start after := by
  rcases move_steady hsound hmove with
    ⟨batch, entry, rest, -, rfl, hseg, hoffset, hlow, hencoded, -⟩ | ⟨_, _, hpermit, -⟩ | hsteady
  · exact harchive.queue rest hseg hoffset hlow hencoded
  · exact absurd hpermit (hsealed _)
  · exact harchive.steady hsound hsteady

/-- What the moves that seal nothing keep beside the archive is kept by a step that takes
only such moves. -/
theorem unsealed_keeps {Inv : WalEngine → Prop} {permit : Kind → WalEngine → Prop}
    (hsealed : ∀ current, ¬ permit .sealed current)
    (hmove : ∀ engine after, engine.Sound → Archive segs start engine → Inv engine →
      Move permit engine after → Inv after) {act : Act} (hsound : engine.Sound)
    (harchive : Archive segs start engine) (hinv : Inv engine) (hfeeds : Feeds engine act)
    (hpermit : ∀ kind current, engine.Takes act kind current → permit kind current)
    (hstep : engine.step act = some after) : Archive segs start after ∧ Inv after := by
  have hkeep : ∀ engine after : WalEngine,
      engine.Sound ∧ Archive segs start engine ∧ Inv engine → Move permit engine after →
        after.Sound ∧ Archive segs start after ∧ Inv after := by
    rintro engine after ⟨hsound, harchive, hinv⟩ hpermitted
    exact ⟨sound_move hsound hpermitted, archive_move hsealed hsound harchive hpermitted,
      hmove engine after hsound harchive hinv hpermitted⟩
  exact (takes_keeps hkeep ⟨hsound, harchive, hinv⟩ hfeeds hpermit hstep).2

/-- Everything a run with rotates maintains, whatever is retired. -/
theorem archive_reach {depth : ℕ} {mode : Mode} {pool : List Batch}
    (htop : ∀ seg bytes, segs.lookup seg = some bytes → seg ≤ start)
    (hreach : Machine.Reach step RotateFeeds (new depth (Files.ofSegs segs) start mode pool)
      engine) : engine.Sound ∧ engine.Filled ∧ engine.Timely ∧ Archive segs start engine := by
  induction hreach with
  | start =>
      refine ⟨sound_new _ _ _ _ _, filled_new _ _ _ _ _, ⟨?_, ?_⟩, archive_new htop⟩
      · intro front boundaryLsn back hsplit
        cases front <;> cases hsplit
      · exact fun _ h => by cases h
  | @next engine after act hbefore hguard hstep ih =>
      obtain ⟨hsound, hfilled, htimely, harchive⟩ := ih
      have hfeeds := hguard.feeds
      obtain ⟨hsound', hfilled'⟩ :=
        filled_reach (hbefore.weaken (fun _ _ => RotateFeeds.feeds) |>.next hfeeds hstep)
      refine ⟨hsound', hfilled', timely_step htimely hguard hstep, ?_⟩
      by_cases hseals : engine.Seals act
      · obtain rfl := hseals.1
        have hdone := writesDone_of_park hseals.2.1
        obtain ⟨boundaryLsn, hpc, rfl⟩ := seals_inv hseals hstep
        have hboundary := htimely.running boundaryLsn (by rw [hpc]; rfl)
        rw [hboundary]
        exact harchive.cut htop hsound hfilled.holes hdone
      · have hkeep := @unsealed_keeps engine after segs start (fun _ => True)
          (fun kind _ => kind ≠ .sealed) (fun _ hpermit => hpermit rfl) fun _ _ _ _ _ _ => trivial
        exact (hkeep hsound harchive trivial hfeeds (fun _ _ => Takes.ne_sealed hseals) hstep).1

/-! ## What is removed -/

/-- A step that takes a rotate or retire message. -/
theorem takesControl_inv {act : Act} (htakes : engine.TakesControl act)
    (hstep : engine.step act = some after) :
    engine.pc = .top ∧
    ((∃ boundaryLsn rest, engine.msgRx = .rotate boundaryLsn :: rest ∧
      after = { engine with
        msgRx := rest, spinBudget := defaultSpinBudget, pc := .draining boundaryLsn }) ∨
    ∃ boundaryLsn rest, ∃ starts : List ℕ, engine.msgRx = .retire boundaryLsn :: rest ∧
      (∀ start ∈ starts, start < boundaryLsn) ∧
      after = { engine with
        msgRx := rest, spinBudget := defaultSpinBudget, pc := .plan
        pending := engine.pending ++ starts.map IoWork.remove }) := by
  obtain ⟨rfl, msg, rest, hmsg, hkind⟩ := htakes
  cases stepped hstep with
  | poll hpc hpoll =>
      refine ⟨hpc, ?_⟩
      rcases poll_inv hpoll with ⟨hnone, -, -⟩ | ⟨batch, more, middle, hwrite, -, -⟩ |
        ⟨boundaryLsn, more, hrotate, hafter⟩ | ⟨boundaryLsn, more, hretire, -, hafter⟩
      · rw [hnone] at hmsg
        cases hmsg
      · rw [hwrite] at hmsg
        cases hmsg
        exact absurd rfl (hkind batch)
      · exact Or.inl ⟨boundaryLsn, more, hrotate, hafter⟩
      · refine Or.inr ⟨boundaryLsn, more, _, hretire, ?_, hafter⟩
        intro start hstart
        simpa using (List.mem_filter.mp hstart).2

/-- Sealing a segment removes no file. -/
theorem sealSegment_keeps {boundaryLsn seg : ℕ} (hsound : (engine.sealSegment boundaryLsn).Sound)
    (hfile : ∃ file, engine.files.lookup seg = some file) :
    ∃ file, (engine.sealSegment boundaryLsn).files.lookup seg = some file := by
  by_cases hopened : boundaryLsn = seg
  · subst hopened
    have hstart : (engine.sealSegment boundaryLsn).seg.startLsn = boundaryLsn :=
      Segment.open_startLsn _ _
    have hthere := hsound.stored.opened
    rwa [hstart] at hthere
  · change ∃ file, (Segment.open (engine.files.insert engine.seg.startLsn
      (engine.disk.flush engine.disk.cache)) boundaryLsn).1.lookup seg = some file
    rw [Segment.open_others _ hopened]
    by_cases hactive : engine.seg.startLsn = seg
    · rw [hactive, SortedMap.lookup_insert_self]
      exact ⟨_, rfl⟩
    · rw [SortedMap.lookup_insert_ne _ _ hactive]
      exact hfile

/-- Only segments below `bound` are removed. -/
structure Present (bound : ℕ) (engine : WalEngine) : Prop where
  removes : ∀ lsn, .remove lsn ∈ engine.line → lsn < bound
  files : ∀ entry ∈ engine.queued, bound ≤ entry.seg →
    ∃ file, engine.files.lookup entry.seg = some file
  retires : ∀ boundaryLsn, .retire boundaryLsn ∈ engine.msgRx → boundaryLsn ≤ bound

variable {bound : ℕ}

/-- What retire messages a step leaves in the channel. -/
theorem retires_step {act : Act} (hguard : ∀ boundaryLsn, act = .arrive (.retire boundaryLsn) →
      boundaryLsn ≤ bound)
    (hretires : ∀ boundaryLsn, .retire boundaryLsn ∈ engine.msgRx → boundaryLsn ≤ bound)
    (hstep : engine.step act = some after) :
    ∀ boundaryLsn, .retire boundaryLsn ∈ after.msgRx → boundaryLsn ≤ bound := by
  intro boundaryLsn hmem
  rcases step_channel hstep with ⟨msg, rfl, rfl⟩ | ⟨msg, rest, -, hmsg, hrest, -, -⟩ |
    ⟨hsame, -, -⟩
  · rcases List.mem_append.mp hmem with hold | hnew
    · exact hretires boundaryLsn hold
    · exact hguard boundaryLsn (by rw [List.mem_singleton.mp hnew])
  · rw [hrest] at hmem
    exact hretires boundaryLsn (by rw [hmsg]; exact List.mem_cons_of_mem _ hmem)
  · rw [hsame] at hmem
    exact hretires boundaryLsn hmem

/-- Moves other than control moves add no removal, and lose no file but those in
line for removal. -/
theorem present_move (hsound : engine.Sound)
    (hremoves : ∀ lsn, .remove lsn ∈ engine.line → lsn < bound)
    (hfiles : ∀ entry ∈ engine.queued, bound ≤ entry.seg →
      ∃ file, engine.files.lookup entry.seg = some file)
    (hmove : Move Writing engine after) :
    (∀ lsn, .remove lsn ∈ after.line → lsn < bound) ∧
      ∀ entry ∈ after.queued, bound ≤ entry.seg →
        ∃ file, after.files.lookup entry.seg = some file := by
  have hsound' := sound_move hsound hmove
  rcases move_steady hsound hmove with
    ⟨batch, entry, rest, -, rfl, hseg, -⟩ | ⟨_, _, hpermit, -⟩ | hsteady
  · constructor
    · intro lsn hlsn
      rw [line_queue] at hlsn
      rcases List.mem_append.mp hlsn with hold | hnew
      · exact hremoves lsn hold
      · simp [IoWork.ofBatch] at hnew
    · intro other hother hbound
      rcases List.mem_append.mp hother with hold | hnew
      · exact hfiles other hold hbound
      · rw [List.mem_singleton.mp hnew, hseg]
        exact hsound.stored.opened
  · exact hpermit.elim
  · constructor
    · intro lsn hlsn
      rcases hsteady.removes lsn hlsn with hold | hcontrol
      · exact hremoves lsn hold
      · exact hcontrol.elim
    · rw [hsteady.queued]
      intro entry hentry hbound
      by_cases hactive : engine.seg.startLsn = entry.seg
      · rw [← hactive, ← hsteady.seg]
        exact hsound'.stored.opened
      · rcases hsteady.others entry.seg hactive with hsame | ⟨hremove, -⟩
        · rw [hsame]
          exact hfiles entry hentry hbound
        · exact absurd (hremoves _ hremove) (not_lt.mpr hbound)

theorem present_step {act : Act} (hsound : engine.Sound) (hpresent : Present bound engine)
    (hfeeds : Feeds engine act)
    (hguard : ∀ boundaryLsn, act = .arrive (.retire boundaryLsn) → boundaryLsn ≤ bound)
    (hstep : engine.step act = some after) : Present bound after := by
  have hretires := retires_step hguard hpresent.retires hstep
  by_cases hseals : engine.Seals act
  · obtain rfl := hseals.1
    have hidle := hseals.2.1
    obtain ⟨boundaryLsn, hpc, rfl⟩ := seals_inv hseals hstep
    simp only [shouldPark, decide_eq_true_eq] at hidle
    have htodo : engine.todo = [] := by simp [todo, hpc, Pc.todo]
    have hsound' := sound_sealSegment hsound boundaryLsn hidle.1 hidle.2 htodo
    refine ⟨?_, ?_, hretires⟩
    · rw [line_eq_nil hsound' hidle.1 hidle.2]
      exact fun _ h => by cases h
    · intro entry hentry hbound
      exact sealSegment_keeps hsound' (hpresent.files entry hentry hbound)
  by_cases hcontrol : engine.TakesControl act
  · obtain ⟨hpc, ⟨boundaryLsn, rest, hmsg, rfl⟩ |
      ⟨boundaryLsn, rest, starts, hmsg, hstarts, rfl⟩⟩ := takesControl_inv hcontrol hstep
    · refine ⟨?_, hpresent.files, hretires⟩
      have htickets := @tickets_frame engine { engine with
        msgRx := rest, spinBudget := defaultSpinBudget, pc := .draining boundaryLsn }
        (by simp [todo, hpc, Pc.todo]) rfl
      rw [line_congr htickets rfl rfl]
      exact hpresent.removes
    · refine ⟨?_, hpresent.files, hretires⟩
      have htickets := @tickets_frame engine { engine with
        msgRx := rest, spinBudget := defaultSpinBudget, pc := .plan
        pending := engine.pending ++ starts.map IoWork.remove }
        (by simp [todo, hpc, Pc.todo]) rfl
      have hline : { engine with
          msgRx := rest, spinBudget := defaultSpinBudget, pc := .plan
          pending := engine.pending ++ starts.map IoWork.remove }.line =
          engine.line ++ starts.map IoWork.remove := by
        rw [line, htickets, line, List.append_assoc]
        rfl
      rw [hline]
      intro lsn hlsn
      rcases List.mem_append.mp hlsn with hold | hnew
      · exact hpresent.removes lsn hold
      · obtain ⟨start, hstart, heq⟩ := List.mem_map.mp hnew
        cases heq
        exact lt_of_lt_of_le (hstarts _ hstart) (hpresent.retires boundaryLsn (by simp [hmsg]))
  · have hkeep := @takes_keeps
      (fun engine => engine.Sound ∧ (∀ lsn, .remove lsn ∈ engine.line → lsn < bound) ∧
        ∀ entry ∈ engine.queued, bound ≤ entry.seg →
          ∃ file, engine.files.lookup entry.seg = some file) Writing
      (fun _ _ h hmove => ⟨sound_move h.1 hmove, present_move h.1 h.2.1 h.2.2 hmove⟩)
      engine after act ⟨hsound, hpresent.removes, hpresent.files⟩ hfeeds
      (fun kind current htakes => by
        cases kind with
        | control => exact hcontrol htakes
        | sealed => exact hseals htakes.2
        | _ => trivial) hstep
    exact ⟨hkeep.2.1, hkeep.2.2, hretires⟩

theorem present_reach {guard : WalEngine → Act → Prop} {depth : ℕ} {mode : Mode}
    {pool : List Batch}
    (hguard : ∀ engine act, guard engine act → RotateFeeds engine act ∧
      ∀ boundaryLsn, act = .arrive (.retire boundaryLsn) → boundaryLsn ≤ bound)
    (htop : ∀ seg bytes, segs.lookup seg = some bytes → seg ≤ start)
    (hreach : Machine.Reach step guard (new depth (Files.ofSegs segs) start mode pool) engine) :
    Present bound engine := by
  induction hreach with
  | start =>
      refine ⟨?_, ?_, ?_⟩
      · exact fun _ h => by cases h
      · exact fun _ h => by cases h
      · exact fun _ h => by cases h
  | next hbefore hpermit hstep ih =>
      have hsound := (archive_reach htop (hbefore.weaken fun _ _ h => (hguard _ _ h).1)).1
      obtain ⟨hfeeds, hretire⟩ := hguard _ _ hpermit
      exact present_step hsound ih hfeeds.feeds hretire hstep

end WalEngine

end InMemoryDb.Stage3
