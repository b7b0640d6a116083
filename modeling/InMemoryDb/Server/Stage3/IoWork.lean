import InMemoryDb.Lib.SortedMap
import InMemoryDb.Lib.SparseFile
import InMemoryDb.Server.Types

/-!
# The I/O vocabulary of the WAL engine

What can be in flight, how each operation ends, when an fsync is armed, and
what the ring does with a submission.  The kernel keeps the usual contract of
`IO_DRAIN`: a drained entry starts only when every earlier submission has
completed, and no later submission starts before it has completed.
-/

namespace InMemoryDb.Stage3

open SparseFile

/-! ## `fsync_planner.rs` -/

/-- When durability is requested. -/
inductive FsyncCadence where
  | never
  | consistently
  | bytes (limit : ℕ)
  deriving DecidableEq

def FsyncCadence.ofMode : Mode → FsyncCadence
  | .noFsync => never
  | .sync => consistently
  | .async => bytes (2 ^ 20)

structure FsyncPlanner where
  cadence : FsyncCadence
  dirtyBytes : ℕ
  flushRunning : Bool
  deriving DecidableEq

namespace FsyncPlanner

def new (cadence : FsyncCadence) : FsyncPlanner := ⟨cadence, 0, false⟩

/-- Whether the dirty bytes are to be flushed now. -/
def due (planner : FsyncPlanner) : Bool :=
  if planner.dirtyBytes = 0 then false
  else
    match planner.cadence with
    | .never => false
    | .consistently => !planner.flushRunning
    | .bytes limit => planner.dirtyBytes ≥ limit

/-- `should_fsync`: a `true` answer consumes the window. -/
def shouldFsync (planner : FsyncPlanner) : Bool × FsyncPlanner :=
  if planner.due then (true, { planner with dirtyBytes := 0, flushRunning := true })
  else (false, planner)

def onFsyncCompleted (planner : FsyncPlanner) : FsyncPlanner :=
  { planner with flushRunning := false }

def onWriteQueued (planner : FsyncPlanner) (count : ℕ) : FsyncPlanner :=
  { planner with dirtyBytes := planner.dirtyBytes + count }

end FsyncPlanner

/-! ## `io_work.rs` -/

structure WriteOp where
  data : Batch
  offset : ℕ
  done : ℕ
  deriving DecidableEq

/-- One unit of in-flight I/O.  A segment file is named by its start LSN. -/
inductive IoWork where
  | write (op : WriteOp)
  | fsync (target : ℕ)
  | remove (startLsn : ℕ)
  deriving DecidableEq

inductive Verdict where
  | ok (batch : Option Batch)
  | retry (work : IoWork)
  | durable
  | fatal (code : ℤ)
  deriving DecidableEq

def eIntr : ℤ := 4
def eAgain : ℤ := 11

/-- A submission queue entry, with the file it was built for. -/
inductive Sqe where
  | write (seg offset : ℕ) (data : Bytes)
  | fsync (seg : ℕ)
  | unlink (startLsn : ℕ)
  deriving DecidableEq

/-- `flags(squeue::Flags::IO_DRAIN)` is set on fsyncs only. -/
def Sqe.drains : Sqe → Bool
  | .fsync _ => true
  | _ => false

namespace IoWork

def ofBatch (data : Batch) (offset : ℕ) : IoWork := .write ⟨data, offset, 0⟩

/-- The entry built for the segment `seg`.  The length of a write is narrowed
to 32 bits. -/
def sqe (seg : ℕ) : IoWork → Sqe
  | .write op =>
      let remainder := op.data.out.drop op.done
      let length := remainder.length % 2 ^ 32
      .write seg (op.offset + op.done) (remainder.take length)
  | .fsync _ => .fsync seg
  | .remove startLsn => .unlink startLsn

def complete (work : IoWork) (res : ℤ) : Verdict :=
  match work with
  | .write op =>
      if res = -eIntr ∨ res = -eAgain then .retry (.write op)
      else if res < 0 then .fatal (-res)
      else
        let op := { op with done := op.done + res.toNat }
        if op.done < op.data.out.length then .retry (.write op) else .ok (some op.data)
  | .fsync _ => if res < 0 then .fatal (-res) else .durable
  | .remove _ => .ok none

/-- The bytes a retried write puts back on the dirty account. -/
def unwritten : IoWork → ℕ
  | .write op => op.data.out.length - op.done
  | _ => 0

end IoWork

/-! ## Files and the ring -/

/-- A segment file: what the page cache holds and what is on stable storage.
`none` marks a byte that was never written. -/
structure File where
  cache : Sparse UInt8
  stable : Sparse UInt8
  deriving DecidableEq

abbrev Files := SortedMap ℕ File

def File.empty : File := ⟨[], []⟩

/-- A file that has been on disk since before the process started. -/
def File.ofBytes (bytes : Bytes) : File := ⟨full bytes, full bytes⟩

/-- A directory nobody has touched since the process started. -/
def Files.ofSegs (segs : SortedMap ℕ Bytes) : Files := segs.mapValues File.ofBytes

/-- `sync` and `fdatasync` seen from the file: `seen` is what the page cache
held when the flush started. -/
def File.flush (file : File) (seen : Sparse UInt8) : File := { file with stable := seen }

inductive Phase where
  | queued
  | running (seen : Sparse UInt8)
  deriving DecidableEq

/-- An entry the kernel owns. -/
structure Entry where
  idx : ℕ
  sqe : Sqe
  phase : Phase
  deriving DecidableEq

structure Cqe where
  userData : ℕ
  result : ℤ
  deriving DecidableEq

/-- The ring: entries pushed but not submitted, entries the kernel owns in
submission order, completions in completion order. -/
structure IoUring where
  sq : List Entry
  entries : List Entry
  cq : List Cqe
  deriving DecidableEq

namespace IoUring

def empty : IoUring := ⟨[], [], []⟩

/-- `submit`: the kernel takes over everything in the submission queue. -/
def submit (ring : IoUring) : IoUring :=
  { ring with sq := [], entries := ring.entries ++ ring.sq }

end IoUring

/-- The page cache of a segment file, empty when there is no such file. -/
def cacheOf (files : Files) (seg : ℕ) : Sparse UInt8 :=
  match files.lookup seg with
  | some file => file.cache
  | none => []

/-- The drain rule: a drained entry waits for everything submitted before it,
and holds back everything submitted after it. -/
def mayStart (entries : List Entry) (position : ℕ) (entry : Entry) : Bool :=
  if entry.sqe.drains then position = 0
  else (entries.take position).all fun earlier => !earlier.sqe.drains

/-- What the file of an entry holds when the entry starts. -/
def Sqe.view (files : Files) : Sqe → Sparse UInt8
  | .fsync seg => cacheOf files seg
  | _ => []

/-- The kernel starts the entry at `position`. -/
def startEntry (files : Files) (ring : IoUring) (position : ℕ) : Option IoUring :=
  match ring.entries[position]? with
  | some entry =>
      if entry.phase = .queued ∧ mayStart ring.entries position entry then
        some { ring with
          entries := ring.entries.set position
            { entry with phase := .running (entry.sqe.view files) } }
      else none
  | none => none

/-- Results the kernel may give: any error, or a count within the request. -/
def Sqe.mayReturn : Sqe → ℤ → Bool
  | .write _ _ data, res => res ≤ data.length
  | .fsync _, res => res ≤ 0
  | .unlink _, res => res ≤ 0

/-- What a completed entry leaves behind.  A write with result `res` stores the
first `res` bytes of the request at its offset. -/
def Sqe.effect (files : Files) (seen : Sparse UInt8) (res : ℤ) : Sqe → Files
  | .write seg offset data =>
      if res < 0 then files
      else
        match files.lookup seg with
        | some file =>
            files.insert seg { file with cache := pwrite file.cache offset (data.take res.toNat) }
        | none => files
  | .fsync seg =>
      if res < 0 then files
      else
        match files.lookup seg with
        | some file => files.insert seg (file.flush seen)
        | none => files
  | .unlink startLsn => if res < 0 then files else files.erase startLsn

/-- The kernel completes the entry at `position` with result `res`. -/
def completeEntry (files : Files) (ring : IoUring) (position : ℕ) (res : ℤ) :
    Option (Files × IoUring) :=
  match ring.entries[position]? with
  | some ⟨idx, sqe, .running seen⟩ =>
      if sqe.mayReturn res then
        some (sqe.effect files seen res,
          { ring with
            entries := ring.entries.eraseIdx position, cq := ring.cq ++ [⟨idx, res⟩] })
      else none
  | _ => none

/-- What the kernel has checked when it starts an entry. -/
theorem startEntry_inv {files : Files} {ring after : IoUring} {position : ℕ}
    (h : startEntry files ring position = some after) :
    ∃ front entry back, ring.entries = front ++ entry :: back ∧ entry.phase = .queued ∧
      (∀ earlier ∈ front, earlier.sqe.drains = false ∧ entry.sqe.drains = false) ∧
      after = { ring with
        entries := front ++ { entry with phase := .running (entry.sqe.view files) } :: back } := by
  unfold startEntry at h
  cases hentry : ring.entries[position]? with
  | none => simp [hentry] at h
  | some entry =>
      simp only [hentry] at h
      split_ifs at h with hmay
      obtain ⟨hphase, hstart⟩ := hmay
      obtain ⟨hlt, hget⟩ := List.getElem?_eq_some_iff.mp hentry
      have hsplit : ring.entries =
          ring.entries.take position ++ entry :: ring.entries.drop (position + 1) := by
        rw [← hget, List.getElem_cons_drop, List.take_append_drop]
      refine ⟨_, entry, _, hsplit, hphase, ?_, ?_⟩
      · intro earlier hearlier
        unfold mayStart at hstart
        split_ifs at hstart with hdrains
        · have hzero : position = 0 := by simpa using hstart
          simp [hzero] at hearlier
        · exact ⟨by simpa using List.all_eq_true.mp hstart earlier hearlier, by simpa using hdrains⟩
      · simp only [Option.some.injEq] at h
        rw [← h, List.set_eq_take_append_cons_drop, if_pos hlt]

/-- A completion takes a running entry out and posts its result. -/
theorem completeEntry_inv {files files' : Files} {ring after : IoUring} {position : ℕ} {res : ℤ}
    (h : completeEntry files ring position res = some (files', after)) :
    ∃ front idx sqe seen back, ring.entries = front ++ ⟨idx, sqe, .running seen⟩ :: back ∧
      sqe.mayReturn res = true ∧ files' = sqe.effect files seen res ∧
      after = { ring with entries := front ++ back, cq := ring.cq ++ [⟨idx, res⟩] } := by
  unfold completeEntry at h
  split at h
  next idx sqe seen hentry =>
    split_ifs at h with hmay
    obtain ⟨hlt, hget⟩ := List.getElem?_eq_some_iff.mp hentry
    have hsplit : ring.entries = ring.entries.take position ++
        ⟨idx, sqe, .running seen⟩ :: ring.entries.drop (position + 1) := by
      rw [← hget, List.getElem_cons_drop, List.take_append_drop]
    simp only [Option.some.injEq, Prod.mk.injEq] at h
    refine ⟨_, idx, sqe, seen, _, hsplit, hmay, h.1.symm, ?_⟩
    rw [← h.2, List.eraseIdx_eq_take_drop_succ]
  next => simp at h

/-! ## `segment.rs` -/

structure Segment where
  startLsn : ℕ
  offset : ℕ
  deriving DecidableEq

/-- `Segment::open`: creates the file when it is missing, appends otherwise. -/
def Segment.open (files : Files) (startLsn : ℕ) : Files × Segment :=
  match files.lookup startLsn with
  | some file => (files, ⟨startLsn, file.cache.length⟩)
  | none => (files.insert startLsn File.empty, ⟨startLsn, 0⟩)

@[simp]
theorem Segment.open_startLsn (files : Files) (startLsn : ℕ) :
    (Segment.open files startLsn).2.startLsn = startLsn := by
  unfold Segment.open
  cases files.lookup startLsn with
  | none => rfl
  | some file => rfl

/-- Opening a segment touches no other file. -/
theorem Segment.open_others (files : Files) {startLsn seg : ℕ} (hne : startLsn ≠ seg) :
    (Segment.open files startLsn).1.lookup seg = files.lookup seg := by
  unfold Segment.open
  cases files.lookup startLsn with
  | none => exact SortedMap.lookup_insert_ne _ _ hne
  | some file => rfl

def Segment.advanceOffset (seg : Segment) (bytesSize : ℕ) : Segment × ℕ × ℕ :=
  ({ seg with offset := seg.offset + bytesSize }, seg.offset, seg.offset + bytesSize)

end InMemoryDb.Stage3
