import InMemoryDb.Server.Stage3.Layout

/-!
# The rounds of one write

A write is submitted, completed and, when bytes are left, submitted again.  The
length of a submission is the number of bytes left, narrowed to 32 bits.  So the
rounds of a write come to an end when its buffer is shorter than 4 GiB; a longer
buffer is never written in full, and a submission that asks for nothing is
repeated for ever.
-/

namespace InMemoryDb.Stage3

open SparseFile WalFormat Recover

/-- The number of bytes an entry asks the kernel to write. -/
def Sqe.asks : Sqe → ℕ
  | .write _ _ data => data.length
  | _ => 0

/-- `EINTR` and `EAGAIN`. -/
def Transient (res : ℤ) : Prop := res = -eIntr ∨ res = -eAgain

instance (res : ℤ) : Decidable (Transient res) := inferInstanceAs (Decidable (_ ∨ _))

namespace IoWork

/-- The verdict on an operation after `count` completions; an operation that is
to be retried is submitted again. -/
def cycle (work : IoWork) (results : ℕ → ℤ) : ℕ → Verdict
  | 0 => .retry work
  | count + 1 =>
      match cycle work results count with
      | .retry next => next.complete (results count)
      | verdict => verdict

/-- Completions of the rounds of `work`: results of 32 bits that the submitted
entries allow. -/
def Answers (seg : ℕ) (work : IoWork) (results : ℕ → ℤ) : Prop :=
  ∀ count next, cycle work results count = .retry next →
    (next.sqe seg).mayReturn (results count) = true ∧
      -2 ^ 31 ≤ results count ∧ results count < 2 ^ 31

/-- The kernel writes at least one byte of every request that has one, and
returns no errors but finitely many transient ones. -/
structure Fair (seg : ℕ) (work : IoWork) (results : ℕ → ℤ) : Prop where
  answers : Answers seg work results
  writes : ∀ count next, cycle work results count = .retry next → ¬Transient (results count) →
    0 ≤ results count ∧ (0 < (next.sqe seg).asks → 0 < results count)
  transients : {count | Transient (results count)}.Finite

/-- Every submission for an unfinished write asks for at least one byte. -/
def NeverEmpty (seg : ℕ) (work : IoWork) : Prop :=
  ∀ results, Answers seg work results → ∀ count op,
    cycle work results count = .retry (.write op) → op.done < op.data.out.length →
      0 < ((IoWork.write op).sqe seg).asks

/-- Some completion finishes the write, with all bytes of its buffer done. -/
def Ends (work : IoWork) (results : ℕ → ℤ) : Prop :=
  ∃ count op, cycle work results count = .retry (.write op) ∧
    op.done + (results count).toNat = op.data.out.length ∧
    cycle work results (count + 1) = .ok (some op.data)

/-! ## One round -/

variable {seg offset done : ℕ} {batch : Batch} {next : IoWork} {res : ℤ} {results : ℕ → ℤ}

theorem asks_write (seg offset done : ℕ) (batch : Batch) :
    ((IoWork.write ⟨batch, offset, done⟩).sqe seg).asks = (batch.out.length - done) % 2 ^ 32 := by
  simp only [sqe, Sqe.asks, List.length_take, List.length_drop]
  exact min_eq_left (Nat.mod_le _ _)

theorem le_asks (hreturn : ((IoWork.write ⟨batch, offset, done⟩).sqe seg).mayReturn res = true) :
    res ≤ ((batch.out.length - done) % 2 ^ 32 : ℕ) := by
  rw [← asks_write seg offset]
  exact of_decide_eq_true hreturn

theorem complete_write (batch : Batch) (offset done : ℕ) (res : ℤ) :
    (IoWork.write ⟨batch, offset, done⟩).complete res =
      if Transient res then .retry (.write ⟨batch, offset, done⟩)
      else if res < 0 then .fatal (-res)
      else if done + res.toNat < batch.out.length then
        .retry (.write ⟨batch, offset, done + res.toNat⟩)
      else .ok (some batch) := rfl

/-- What a retried write has gained. -/
theorem complete_retry (hretry : (IoWork.write ⟨batch, offset, done⟩).complete res = .retry next) :
    next = .write ⟨batch, offset, done⟩ ∨
      0 ≤ res ∧ next = .write ⟨batch, offset, done + res.toNat⟩ := by
  rw [complete_write] at hretry
  split_ifs at hretry with htransient hfatal hless
  · cases hretry
    exact Or.inl rfl
  · cases hretry
    exact Or.inr ⟨not_lt.mp hfatal, rfl⟩

theorem cycle_succ {count : ℕ} {work : IoWork} (h : cycle work results count = .retry next) :
    cycle work results (count + 1) = next.complete (results count) := by
  rw [cycle, h]

theorem exists_of_cycle_retry {count : ℕ} {work : IoWork}
    (h : cycle work results (count + 1) = .retry next) :
    ∃ before, cycle work results count = .retry before ∧
      before.complete (results count) = .retry next := by
  rw [cycle] at h
  split at h
  next before hbefore => exact ⟨before, hbefore, h⟩
  next verdict hverdict => exact absurd h (hverdict next)

/-! ## A buffer shorter than 4 GiB -/

/-- A write that is retried is still the write of its batch. -/
theorem cycle_data {count : ℕ} (h : cycle (ofBatch batch offset) results count = .retry next) :
    ∃ done, next = .write ⟨batch, offset, done⟩ := by
  induction count generalizing next with
  | zero =>
      cases h
      exact ⟨0, rfl⟩
  | succ count ih =>
      obtain ⟨before, hbefore, hcomplete⟩ := exists_of_cycle_retry h
      obtain ⟨done, rfl⟩ := ih hbefore
      rcases complete_retry hcomplete with rfl | ⟨-, rfl⟩
      · exact ⟨done, rfl⟩
      · exact ⟨done + (results count).toNat, rfl⟩

theorem neverEmpty_of_lt (hshort : batch.out.length < 2 ^ 32) :
    NeverEmpty seg (ofBatch batch offset) := by
  intro results _ count op hop hunfinished
  obtain ⟨done, hwrite⟩ := cycle_data hop
  cases hwrite
  rw [asks_write, Nat.mod_eq_of_lt (by omega)]
  exact Nat.sub_pos_of_lt hunfinished

/-- Every round that is not a transient error writes a byte. -/
theorem Fair.gains (hfair : Fair seg (ofBatch batch offset) results)
    (hshort : batch.out.length < 2 ^ 32) (count : ℕ) :
    Ends (ofBatch batch offset) results ∨
      ∃ done, cycle (ofBatch batch offset) results count = .retry (.write ⟨batch, offset, done⟩) ∧
        done ≤ batch.out.length ∧
        count ≤ done + Nat.count (fun round => Transient (results round)) count := by
  induction count with
  | zero => exact Or.inr ⟨0, rfl, Nat.zero_le _, Nat.zero_le _⟩
  | succ count ih =>
      rcases ih with hends | ⟨done, hcycle, hdone, hcount⟩
      · exact Or.inl hends
      have hnext := cycle_succ hcycle
      rw [complete_write] at hnext
      rw [Nat.count_succ]
      by_cases htransient : Transient (results count)
      · rw [if_pos htransient] at hnext ⊢
        exact Or.inr ⟨done, hnext, hdone, by omega⟩
      · obtain ⟨hres, hpositive⟩ := hfair.writes count _ hcycle htransient
        have hbound := le_asks (hfair.answers count _ hcycle).1
        rw [asks_write] at hpositive
        rw [Nat.mod_eq_of_lt (by omega)] at hbound hpositive
        rw [if_neg htransient, if_neg (not_lt.mpr hres)] at hnext
        rw [if_neg htransient]
        split_ifs at hnext with hless
        · exact Or.inr ⟨_, hnext, hless.le, by omega⟩
        · have hall : done + (results count).toNat = batch.out.length := by omega
          exact Or.inl ⟨count, _, hcycle, hall, hnext⟩

theorem Fair.ends (hfair : Fair seg (ofBatch batch offset) results)
    (hshort : batch.out.length < 2 ^ 32) : Ends (ofBatch batch offset) results := by
  have hdelays : ∀ count, Nat.count (fun round => Transient (results round)) count ≤
      hfair.transients.toFinset.card := by
    intro count
    rw [Nat.count_eq_card_filter_range]
    apply Finset.card_le_card
    intro round hround
    rw [Set.Finite.mem_toFinset]
    exact (Finset.mem_filter.mp hround).2
  rcases hfair.gains hshort (batch.out.length + hfair.transients.toFinset.card + 1) with
    hends | ⟨done, -, hdone, hcount⟩
  · exact hends
  · have := hdelays (batch.out.length + hfair.transients.toFinset.card + 1)
    omega

/-! ## A buffer of 4 GiB or more -/

/-- The bytes beyond a multiple of 4 GiB are all that the submissions ask for. -/
theorem Answers.left (hanswers : Answers seg (ofBatch batch offset) results)
    (hlong : 2 ^ 32 ≤ batch.out.length) {count done : ℕ}
    (hcycle : cycle (ofBatch batch offset) results count = .retry (.write ⟨batch, offset, done⟩)) :
    done + 2 ^ 32 ≤ batch.out.length := by
  induction count generalizing done with
  | zero =>
      cases hcycle
      omega
  | succ count ih =>
      obtain ⟨before, hbefore, hcomplete⟩ := exists_of_cycle_retry hcycle
      obtain ⟨old, rfl⟩ := cycle_data hbefore
      have hold := ih hbefore
      have hbound := le_asks (hanswers count _ hbefore).1
      rcases complete_retry hcomplete with hsame | ⟨hres, hmore⟩
      · cases hsame
        exact hold
      · cases hmore
        omega

theorem Answers.not_ends (hanswers : Answers seg (ofBatch batch offset) results)
    (hlong : 2 ^ 32 ≤ batch.out.length) : ¬Ends (ofBatch batch offset) results := by
  rintro ⟨count, op, hcycle, hdone, -⟩
  obtain ⟨done, hop⟩ := cycle_data hcycle
  cases hop
  have hleft := hanswers.left hlong hcycle
  have hbound := le_asks (hanswers count _ hcycle).1
  change done + (results count).toNat = batch.out.length at hdone
  omega

/-- A kernel that writes a byte at a time, as long as there is one to write. -/
def bytewise (limit count : ℕ) : ℤ := if count < limit then 1 else 0

theorem not_transient_bytewise (limit count : ℕ) : ¬Transient (bytewise limit count) := by
  unfold bytewise
  split_ifs <;> decide

theorem cycle_bytewise (batch : Batch) (offset : ℕ) (hlong : 2 ^ 32 ≤ batch.out.length)
    (count : ℕ) :
    cycle (ofBatch batch offset) (bytewise (batch.out.length % 2 ^ 32)) count =
      .retry (.write ⟨batch, offset, min count (batch.out.length % 2 ^ 32)⟩) := by
  induction count with
  | zero => rw [Nat.zero_min]; rfl
  | succ count ih =>
      have hmod := Nat.mod_lt batch.out.length (by decide : 0 < 2 ^ 32)
      rw [cycle_succ ih, complete_write, if_neg (not_transient_bytewise _ _)]
      by_cases hmore : count < batch.out.length % 2 ^ 32
      · have hone : bytewise (batch.out.length % 2 ^ 32) count = 1 := if_pos hmore
        rw [hone, if_neg (by decide), min_eq_left hmore.le, min_eq_left hmore,
          if_pos (by rw [Int.toNat_one]; omega), Int.toNat_one]
      · have hzero : bytewise (batch.out.length % 2 ^ 32) count = 0 := if_neg hmore
        rw [hzero, if_neg (by decide), min_eq_right (not_lt.mp hmore), min_eq_right (by omega),
          if_pos (by rw [Int.toNat_zero]; omega), Int.toNat_zero, add_zero]

/-- That kernel is a fair one. -/
theorem fair_bytewise (seg offset : ℕ) (hlong : 2 ^ 32 ≤ batch.out.length) :
    Fair seg (ofBatch batch offset) (bytewise (batch.out.length % 2 ^ 32)) := by
  have hround : ∀ count next,
      cycle (ofBatch batch offset) (bytewise (batch.out.length % 2 ^ 32)) count = .retry next →
        (next.sqe seg).asks = batch.out.length % 2 ^ 32 - count ∧
          ((next.sqe seg).mayReturn (bytewise (batch.out.length % 2 ^ 32) count) = true ↔
            bytewise (batch.out.length % 2 ^ 32) count ≤ (next.sqe seg).asks) := by
    intro count next hnext
    rw [cycle_bytewise batch offset hlong] at hnext
    cases hnext
    refine ⟨?_, decide_eq_true_iff⟩
    rw [asks_write]
    omega
  refine ⟨?_, ?_, ?_⟩
  · intro count next hnext
    obtain ⟨hasks, hreturn⟩ := hround count next hnext
    rw [hreturn, hasks, bytewise]
    split_ifs <;> omega
  · intro count next hnext _
    rw [(hround count next hnext).1, bytewise]
    split_ifs <;> omega
  · have hempty : {count | Transient (bytewise (batch.out.length % 2 ^ 32) count)} = ∅ :=
      Set.eq_empty_of_forall_notMem fun count => not_transient_bytewise _ count
    rw [hempty]
    exact Set.finite_empty

theorem not_neverEmpty (hlong : 2 ^ 32 ≤ batch.out.length) :
    ¬NeverEmpty seg (ofBatch batch offset) := by
  intro hnever
  have hcycle := cycle_bytewise batch offset hlong (batch.out.length % 2 ^ 32)
  rw [min_self] at hcycle
  have hunfinished : batch.out.length % 2 ^ 32 < batch.out.length := by omega
  have hasks := hnever _ (fair_bytewise seg offset hlong).answers _ _ hcycle hunfinished
  rw [asks_write] at hasks
  omega

end IoWork

/-! ## The batches of stage 2 -/

/-- The size of the redo records of a batch: twenty bytes around the body of
every PUT. -/
def redoSize (items : List Request) : ℕ :=
  ((puts items).map fun req => 20 + req.data.bytes.length).sum

/-- The batch that `handle_batch` queues: its redo buffer is filled. -/
def encoded (batch : Batch) : Batch :=
  { batch with out := (WalEngine.encodeItems batch.out batch.lsnLow batch.items).1 }

theorem length_encodeAll_records (lsn : ℕ) (items : List Request) :
    (encodeAll (records lsn items)).length = redoSize items := by
  induction items generalizing lsn with
  | nil => rfl
  | cons req items ih =>
      by_cases hop : req.op = .put
      · have hcons : redoSize (req :: items) = 20 + req.data.bytes.length + redoSize items := by
          simp [redoSize, puts, hop]
        rw [records, if_pos hop, hcons, ← ih (lsn + 1)]
        rw [encodeAll, List.flatMap_cons, List.length_append, length_record]
        rfl
      · have hskip : redoSize (req :: items) = redoSize items := by
          simp [redoSize, puts, hop]
        rw [records, if_neg hop, hskip, ih]

theorem length_encoded_out (batch : Batch) :
    (encoded batch).out.length = batch.out.length + redoSize batch.items := by
  rw [encoded, WalEngine.encodeItems_eq, List.length_append, length_encodeAll_records]

/-- For the batches of stage 2, whose redo buffer is empty, both halves of the
progress of a write hold exactly when the records of the batch take less than
4 GiB: no submission is empty, and a fair kernel finishes the write. -/
theorem write_progress_iff (seg offset : ℕ) (batch : Batch) :
    (IoWork.NeverEmpty seg (IoWork.ofBatch (encoded batch) offset) ↔
      batch.out.length + redoSize batch.items < 2 ^ 32) ∧
    ((∀ results, IoWork.Fair seg (IoWork.ofBatch (encoded batch) offset) results →
        IoWork.Ends (IoWork.ofBatch (encoded batch) offset) results) ↔
      batch.out.length + redoSize batch.items < 2 ^ 32) := by
  rw [← length_encoded_out]
  constructor
  · constructor
    · intro hnever
      by_contra hlong
      exact IoWork.not_neverEmpty (not_lt.mp hlong) hnever
    · exact IoWork.neverEmpty_of_lt
  · constructor
    · intro hends
      by_contra hlong
      have hfair := IoWork.fair_bytewise seg offset (not_lt.mp hlong)
      exact hfair.answers.not_ends (not_lt.mp hlong) (hends _ hfair)
    · intro hshort results hfair
      exact hfair.ends hshort

/-! ## A batch of 4 GiB -/

/-- The PUT of `size` zeros under the empty key. -/
def zerosPut (size : ℕ) (hsize : 5 + size ≤ maxPayload) : Payload where
  bytes := [Wire.opPut, 0, 0, 0, 0] ++ List.replicate size 0
  nonempty := by
    rw [List.length_append]
    exact Nat.add_pos_left (by decide) _
  bounded := by
    rw [List.length_append, List.length_replicate]
    exact hsize

theorem length_zerosPut (size : ℕ) (hsize : 5 + size ≤ maxPayload) :
    (zerosPut size hsize).bytes.length = 5 + size := by
  rw [zerosPut, List.length_append, List.length_replicate]
  rfl

theorem wellFormed_zerosPut (size : ℕ) (hsize : 5 + size ≤ maxPayload) :
    Wire.WellFormed (zerosPut size hsize).bytes := by
  have hkey : Wire.keyLength (zerosPut size hsize).bytes = 0 := rfl
  rw [Wire.WellFormed, hkey, length_zerosPut, Wire.bodyHdr]
  omega

/-- A batch of such PUTs, as stage 2 sends it when every request waits for an
fsync. -/
def zerosBatch (count size : ℕ) (hsize : 5 + size ≤ maxPayload) : Batch :=
  ⟨List.replicate count ⟨zerosPut size hsize, 0, some .ok, 0⟩, [], 0, count, 0⟩

theorem puts_zerosBatch (count size : ℕ) (hsize : 5 + size ≤ maxPayload) :
    puts (zerosBatch count size hsize).items = (zerosBatch count size hsize).items := by
  rw [puts, List.filter_eq_self]
  intro req hreq
  rw [List.eq_of_mem_replicate hreq]
  rfl

theorem fromStage2_zerosBatch {count : ℕ} (size : ℕ) (hcount : 0 < count)
    (hsize : 5 + size ≤ maxPayload) :
    FromStage2 (Acker.new .sync) (zerosBatch count size hsize) where
  executed req hreq := by
    rw [List.eq_of_mem_replicate hreq]
    exact Or.inr (wellFormed_zerosPut size hsize)
  out := rfl
  walWork := by
    rw [puts_zerosBatch, zerosBatch, List.length_replicate]
    exact hcount
  lsnHi := by
    rw [puts_zerosBatch, zerosBatch, List.length_replicate, Nat.zero_add]
  owed req hreq := by
    rw [List.eq_of_mem_replicate hreq]
    exact iff_of_true rfl (show ¬AckPoint.durable ≤ .applied by decide)

theorem redoSize_zerosBatch (count size : ℕ) (hsize : 5 + size ≤ maxPayload) :
    redoSize (zerosBatch count size hsize).items = count * (25 + size) := by
  rw [redoSize, puts_zerosBatch, zerosBatch, List.map_replicate, List.sum_replicate,
    length_zerosPut, smul_eq_mul]
  congr 1
  omega

/-- Half a batch of PUTs whose records take 8 MiB each: the first submission
asks for nothing. -/
theorem write_progress_fails :
    ¬∀ ack batch, FromStage2 ack batch → batch.items.length ≤ maxBatch → ∀ seg offset,
      IoWork.NeverEmpty seg (IoWork.ofBatch (encoded batch) offset) ∧
        ∀ results, IoWork.Fair seg (IoWork.ofBatch (encoded batch) offset) results →
          IoWork.Ends (IoWork.ofBatch (encoded batch) offset) results := by
  intro hall
  have hsize : 5 + (2 ^ 23 - 25) ≤ maxPayload := by decide
  have hcount : (zerosBatch 512 (2 ^ 23 - 25) hsize).items.length ≤ maxBatch := by
    rw [zerosBatch, List.length_replicate]
    decide
  have hlength : 2 ^ 32 ≤ (encoded (zerosBatch 512 (2 ^ 23 - 25) hsize)).out.length := by
    rw [length_encoded_out, redoSize_zerosBatch]
    exact Nat.le_add_left_of_le (by decide)
  have hstage := fromStage2_zerosBatch (2 ^ 23 - 25) (by decide : 0 < 512) hsize
  exact IoWork.not_neverEmpty hlength (hall _ _ hstage hcount 0 0).1

/-! ## The engine -/

/-- In every run, an empty write in the ring is the write of a batch of 4 GiB or
more. -/
theorem WalEngine.submitted_nonempty {engine : WalEngine} {depth : ℕ} {segs : SortedMap ℕ Bytes}
    {startLsn : ℕ} {mode : Mode} {pool : List Batch}
    (hreach : Machine.Reach step Feeds (new depth (Files.ofSegs segs) startLsn mode pool) engine)
    (hshort : ∀ entry ∈ engine.queued, entry.batch.out.length < 2 ^ 32) {item : Entry}
    (hitem : item ∈ engine.ring.entries ++ engine.ring.sq) {seg offset : ℕ} {data : Bytes}
    (hsqe : item.sqe = .write seg offset data) : data ≠ [] := by
  obtain ⟨hsound, -⟩ := @reach_keeps engine (fun _ => True) depth segs startLsn mode pool
    trivial (fun _ _ _ _ _ => trivial) hreach
  obtain ⟨work, hwork, hbuilt⟩ := hsound.ringed.built item hitem
  obtain ⟨op, hop, hline, -⟩ := hsound.exists_op hitem hsqe
  rw [hop] at hwork
  cases hwork
  obtain ⟨hplaced, hunfinished, -⟩ := hsound.tracked.writes op hline
  obtain ⟨entry, hentry, -, -, -, hout, -⟩ := hplaced.queued
  have hlength : data.length = (op.data.out.length - op.done) % 2 ^ 32 := by
    rw [← IoWork.asks_write engine.seg.startLsn op.offset, ← hbuilt, hsqe]
    rfl
  have hbound := hshort entry hentry
  rw [hout] at hbound
  apply List.ne_nil_of_length_pos
  omega

end InMemoryDb.Stage3
