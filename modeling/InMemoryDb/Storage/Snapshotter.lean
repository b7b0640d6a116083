import InMemoryDb.Lib.Directory
import InMemoryDb.Lib.Machine
import InMemoryDb.Storage.SnapshotFile

/-!
# Saving a snapshot, step by step

The snapshotter writes `snapshot.tmp`, flushes it, renames it to `snapshot` and
synchronises the directory.  Any of these calls may fail, the process may die between
any two of them, and the power may go: the file under `snapshot` is whole at any time,
and one whose directory was synchronised is only ever replaced by a later one.
-/

namespace InMemoryDb.Snapshot

open Directory Wire

/-- The files of the directory the snapshotter uses. -/
inductive Name
  | tmp
  | snapshot
  deriving DecidableEq

/-- What one call is asked to save: a table, the order its map is iterated in, the LSN. -/
structure Image where
  db : Db
  order : List (Bytes × Bytes)
  lsn : ℕ

def Image.bytes (image : Image) : Bytes := fileBytes image.db image.order image.lsn

/-- What every caller's table is. -/
structure Image.Fits (image : Image) : Prop where
  order : image.db.Iterates image.order
  entries : ∀ item ∈ image.order, FitsEntry item
  len : image.db.len < 2 ^ 64
  lsn : image.lsn < 2 ^ 64

/-- Where a call stands. -/
inductive Pc
  | idle
  | writing (image : Image) (inode : ℕ) (left : Bytes)
  | renaming (image : Image)
  | syncing (image : Image)

structure Saving where
  self : Snapshotter
  volume : Volume Name Bytes
  pc : Pc

/-- `Snapshotter::new`. -/
def Snapshotter.new (startLsn minLsnGap : ℕ) : Snapshotter := ⟨startLsn, minLsnGap⟩

/-- The gap the call asks for; the difference of the LSNs wraps as `u64` does. -/
def Snapshotter.Due (self : Snapshotter) (lsn : ℕ) : Prop :=
  self.minLsnGap < (lsn + 2 ^ 64 - self.lastBoundaryLsn) % 2 ^ 64

instance (self : Snapshotter) (lsn : ℕ) : Decidable (self.Due lsn) :=
  inferInstanceAs (Decidable (_ < _))

theorem Snapshotter.Due.save {self : Snapshotter} {lsn : ℕ} (hdue : self.Due lsn) (db : Db)
    (order : List (Bytes × Bytes)) (file : Option Bytes) :
    self.writeSnapshotSyncTempFunc db order file lsn =
      (true, { self with lastBoundaryLsn := lsn }, some (fileBytes db order lsn)) :=
  if_neg (not_le.mpr hdue)

namespace Saving

/-- A directory with or without a snapshot. -/
def directory (file : Option Bytes) : Volume Name Bytes where
  inodes := (file.map fun bytes => ⟨bytes, true⟩).toList
  durable name := if name = .snapshot then file.map fun _ => 0 else none
  pending := []

def start (file : Option Bytes) (startLsn minLsnGap : ℕ) : Saving :=
  ⟨Snapshotter.new startLsn minLsnGap, directory file, .idle⟩

inductive Action
  /-- The call: refused by the gap, or the temporary file is created, which may fail. -/
  | begin (image : Image) (created : Bool)
  /-- The buffered writer hands some bytes on. -/
  | write (count : ℕ)
  /-- An error returns from the call; the writer is dropped and may hand on some bytes. -/
  | fail (count : ℕ)
  /-- The buffer is empty, and `sync_data` succeeds. -/
  | flush
  | rename (renamed : Bool)
  /-- The directory is synchronised or not: the call does not look. -/
  | syncDir (synced : Bool)
  /-- The process ends and starts again. -/
  | restart (startLsn : ℕ)
  /-- The power goes. -/
  | crash (keep : List Bool) (junk : List Bytes) (startLsn : ℕ)

/-- `write_snapshot_sync_TEMP_FUNC`, one call to the system after another. -/
def step (state : Saving) : Action → Option Saving
  | .begin image created =>
      match state.pc with
      | .idle =>
          if ¬ state.self.Due image.lsn ∨ created = false then some state
          else
            let (inode, volume) := state.volume.create .tmp []
            some { state with volume := volume, pc := .writing image inode image.bytes }
      | _ => none
  | .write count =>
      match state.pc with
      | .writing image inode left => some { state with
          volume := state.volume.write inode (· ++ left.take count)
          pc := .writing image inode (left.drop count) }
      | _ => none
  | .fail count =>
      match state.pc with
      | .writing _ inode left => some { state with
          volume := state.volume.write inode (· ++ left.take count)
          pc := .idle }
      | _ => none
  | .flush =>
      match state.pc with
      | .writing image inode [] => some { state with
          volume := state.volume.flush inode
          pc := .renaming image }
      | _ => none
  | .rename renamed =>
      match state.pc with
      | .renaming image =>
          if renamed then some { state with
            volume := state.volume.rename .tmp .snapshot
            pc := .syncing image }
          else some { state with pc := .idle }
      | _ => none
  | .syncDir synced =>
      match state.pc with
      | .syncing image => some {
          self := { state.self with lastBoundaryLsn := image.lsn }
          volume := if synced then state.volume.sync else state.volume
          pc := .idle }
      | _ => none
  | .restart startLsn => some { state with
      self := Snapshotter.new startLsn state.self.minLsnGap
      pc := .idle }
  | .crash keep junk startLsn => some {
      self := Snapshotter.new startLsn state.self.minLsnGap
      volume := state.volume.crash keep junk
      pc := .idle }

/-- The calls of a run are asked to save images that are given. -/
def Asks (Given : Image → Prop) (_ : Saving) : Action → Prop
  | .begin image _ => Given image ∧ image.Fits
  | _ => True

/-! ## The invariant -/

/-- `file`, or a given image as a whole. -/
def Whole (file : Option Bytes) (Given : Image → Prop) (version : Option Bytes) : Prop :=
  version = file ∨ ∃ image, Given image ∧ image.Fits ∧ version = some image.bytes

/-- What the files hold while a call is under way. -/
def Underway (Given : Image → Prop) (self : Snapshotter) (volume : Volume Name Bytes) : Pc → Prop
  | .idle => True
  | .writing image inode left =>
      (Given image ∧ image.Fits ∧ self.Due image.lsn) ∧ volume.names .tmp = some inode ∧
        ∃ written, volume.content inode = some written ∧ written ++ left = image.bytes
  | .renaming image =>
      (Given image ∧ image.Fits ∧ self.Due image.lsn) ∧ ∃ inode,
        volume.names .tmp = some inode ∧ volume.inodes[inode]? = some ⟨image.bytes, true⟩
  | .syncing image =>
      (Given image ∧ image.Fits) ∧ volume.read .snapshot = some image.bytes

structure Kept (file : Option Bytes) (Given : Image → Prop) (state : Saving) : Prop where
  apart : state.volume.Apart .tmp .snapshot
  whole : ∀ version ∈ state.volume.versions .snapshot, Whole file Given version
  underway : Underway Given state.self state.volume state.pc

variable {file : Option Bytes} {Given : Image → Prop} {state after : Saving}

theorem apart_directory (file : Option Bytes) : (directory file).Apart .tmp .snapshot := by
  have htmp : ∀ inode, some inode ∉ (directory file).bindings .tmp := by
    intro inode hmem
    simp [Volume.bindings, directory] at hmem
  have hsnapshot : ∀ inode, some inode ∈ (directory file).bindings .snapshot →
      inode = 0 ∧ ∃ bytes, file = some bytes := by
    intro inode hmem
    cases hfile : file with
    | none => simp [Volume.bindings, directory, hfile] at hmem
    | some bytes =>
        simp only [Volume.bindings, directory, hfile, if_true, Option.map_some,
          List.filterMap_nil, List.mem_singleton, Option.some.injEq] at hmem
        exact ⟨hmem, bytes, rfl⟩
  refine ⟨?_, ?_, ?_, ?_⟩
  · rintro inode (hmem | hmem)
    · obtain ⟨rfl, bytes, rfl⟩ := hsnapshot inode hmem
      exact Nat.one_pos
    · exact (htmp inode hmem).elim
  · intro inode hmem value hvalue
    obtain ⟨rfl, bytes, rfl⟩ := hsnapshot inode hmem
    rw [← Option.some.inj hvalue]
  · intro inode hnames
    exact (htmp inode (hnames ▸ (directory file).names_mem .tmp)).elim
  · intro updates hupdates inode hnames
    exact (htmp inode (hnames ▸ Volume.rebind_bindings hupdates .tmp)).elim

theorem versions_directory (file : Option Bytes) :
    (directory file).versions .snapshot = [file] := by
  cases file with
  | none => rfl
  | some bytes => rfl

theorem kept_start (file : Option Bytes) (Given : Image → Prop) (startLsn minLsnGap : ℕ) :
    Kept file Given (start file startLsn minLsnGap) where
  apart := apart_directory file
  whole := by
    intro version hmem
    rw [start, versions_directory, List.mem_singleton] at hmem
    exact Or.inl hmem
  underway := trivial

/-! ## One step -/

/-- The call takes effect when the file is renamed. -/
def settledSelf (self : Snapshotter) : Pc → Snapshotter
  | .syncing image => { self with lastBoundaryLsn := image.lsn }
  | _ => self

end Saving

/-- A snapshot that is replaced at once: the versions a crash may leave, the latest last. -/
structure Shelf where
  self : Snapshotter
  versions : List (Option Bytes)

namespace Shelf

inductive Action
  | save (image : Image)
  | settle
  | restart (startLsn : ℕ)
  | crash (version : Option Bytes) (startLsn : ℕ)

def latest (shelf : Shelf) : Option Bytes := shelf.versions.getLast?.join

/-- The one-step writer. -/
def written (shelf : Shelf) (image : Image) : Bool × Snapshotter × Option Bytes :=
  shelf.self.writeSnapshotSyncTempFunc image.db image.order shelf.latest image.lsn

/-- A version more, if it writes one. -/
def save (shelf : Shelf) (image : Image) : Shelf where
  self := (shelf.written image).2.1
  versions :=
    if (shelf.written image).1 then shelf.versions ++ [(shelf.written image).2.2]
    else shelf.versions

def step (shelf : Shelf) : Action → Option Shelf
  | .save image => some (shelf.save image)
  | .settle => some { shelf with versions := [shelf.latest] }
  | .restart startLsn =>
      some { shelf with self := Snapshotter.new startLsn shelf.self.minLsnGap }
  | .crash version startLsn =>
      if version ∈ shelf.versions then
        some ⟨Snapshotter.new startLsn shelf.self.minLsnGap, [version]⟩
      else none

def Asks (Given : Image → Prop) (_ : Shelf) : Action → Prop
  | .save image => Given image ∧ image.Fits
  | _ => True

theorem save_due {shelf : Shelf} {image : Image} (hdue : shelf.self.Due image.lsn) :
    shelf.save image =
      ⟨{ shelf.self with lastBoundaryLsn := image.lsn }, shelf.versions ++ [some image.bytes]⟩ := by
  have hwritten : shelf.written image =
      (true, { shelf.self with lastBoundaryLsn := image.lsn }, some image.bytes) :=
    hdue.save image.db image.order shelf.latest
  simp only [save, hwritten, if_true]

end Shelf

namespace Saving

/-- The files as a snapshot that is replaced at once. -/
def shelf (state : Saving) : Shelf :=
  ⟨settledSelf state.self state.pc, state.volume.versions .snapshot⟩

variable {file : Option Bytes} {Given : Image → Prop} {state after : Saving} {action : Action}

theorem latest_shelf (state : Saving) : state.shelf.latest = state.volume.read .snapshot := by
  rw [Shelf.latest, shelf, Volume.versions_last]
  rfl

/-- What a step is on the shelf: the rename of the file saves the image of the call,
the synchronisation of the directory settles it, the process and the power go there as
here, and everything else is nothing. -/
def onShelf (state : Saving) : Action → Option Shelf.Action
  | .rename true =>
      match state.pc with
      | .renaming image => some (.save image)
      | _ => none
  | .syncDir true => some .settle
  | .restart startLsn => some (.restart startLsn)
  | .crash keep junk startLsn =>
      some (.crash ((state.volume.crash keep junk).read .snapshot) startLsn)
  | _ => none

/-- The shelf takes the step, or stays as it is. -/
def Follows (Given : Image → Prop) (before : Shelf) : Option Shelf.Action → Shelf → Prop
  | none, after => after = before
  | some action, after => Shelf.Asks Given before action ∧ before.step action = some after

theorem begin_keeps {image : Image} {created : Bool} (hkept : Kept file Given state)
    (hasks : Asks Given state (.begin image created))
    (hstep : step state (.begin image created) = some after) :
    Kept file Given after ∧
      Follows Given state.shelf (state.onShelf (.begin image created)) after.shelf := by
  simp only [step] at hstep
  split at hstep
  case h_1 hidle =>
    split_ifs at hstep with hrefused
    · obtain rfl := Option.some.inj hstep
      exact ⟨hkept, rfl⟩
    · obtain rfl := Option.some.inj hstep
      obtain ⟨hapart, hversions, hnames, hcontent⟩ := hkept.apart.create (by decide) []
      have hdue : state.self.Due image.lsn := not_not.mp fun hnot => hrefused (Or.inl hnot)
      refine ⟨⟨hapart, ?_, ⟨⟨hasks.1, hasks.2, hdue⟩, hnames, [], hcontent, rfl⟩⟩, ?_⟩
      · intro version hmem
        rw [hversions] at hmem
        exact hkept.whole version hmem
      · simp only [Follows, onShelf, shelf, hversions, settledSelf, hidle]
  case h_2 => cases hstep

theorem write_keeps {count : ℕ} (hkept : Kept file Given state)
    (hstep : step state (.write count) = some after) :
    Kept file Given after ∧
      Follows Given state.shelf (state.onShelf (.write count)) after.shelf := by
  simp only [step] at hstep
  split at hstep
  case h_1 image inode left hwriting =>
    obtain rfl := Option.some.inj hstep
    have hunderway := hkept.underway
    rw [hwriting] at hunderway
    obtain ⟨hgiven, hnames, written, hcontent, hleft⟩ := hunderway
    obtain ⟨hapart, hversions, hnames', hcontent'⟩ :=
      hkept.apart.write hnames hcontent (· ++ left.take count)
    refine ⟨⟨hapart, ?_, hgiven, hnames', _, hcontent', ?_⟩, ?_⟩
    · intro version hmem
      rw [hversions] at hmem
      exact hkept.whole version hmem
    · rw [List.append_assoc, List.take_append_drop, hleft]
    · simp only [Follows, onShelf, shelf, hversions, settledSelf, hwriting]
  case h_2 => cases hstep

theorem fail_keeps {count : ℕ} (hkept : Kept file Given state)
    (hstep : step state (.fail count) = some after) :
    Kept file Given after ∧
      Follows Given state.shelf (state.onShelf (.fail count)) after.shelf := by
  simp only [step] at hstep
  split at hstep
  case h_1 image inode left hwriting =>
    obtain rfl := Option.some.inj hstep
    have hunderway := hkept.underway
    rw [hwriting] at hunderway
    obtain ⟨-, hnames, written, hcontent, -⟩ := hunderway
    obtain ⟨hapart, hversions, -⟩ := hkept.apart.write hnames hcontent (· ++ left.take count)
    refine ⟨⟨hapart, ?_, trivial⟩, ?_⟩
    · intro version hmem
      rw [hversions] at hmem
      exact hkept.whole version hmem
    · simp only [Follows, onShelf, shelf, hversions, settledSelf, hwriting]
  case h_2 => cases hstep

theorem flush_keeps (hkept : Kept file Given state) (hstep : step state .flush = some after) :
    Kept file Given after ∧
      Follows Given state.shelf (state.onShelf .flush) after.shelf := by
  simp only [step] at hstep
  split at hstep
  case h_1 image inode hwriting =>
    obtain rfl := Option.some.inj hstep
    have hunderway := hkept.underway
    rw [hwriting] at hunderway
    obtain ⟨hgiven, hnames, written, hcontent, hleft⟩ := hunderway
    rw [List.append_nil] at hleft
    rw [hleft] at hcontent
    obtain ⟨hapart, hversions, hnames', hfile⟩ := hkept.apart.flush hnames hcontent
    refine ⟨⟨hapart, ?_, hgiven, inode, hnames', hfile⟩, ?_⟩
    · intro version hmem
      rw [hversions] at hmem
      exact hkept.whole version hmem
    · simp only [Follows, onShelf, shelf, hversions, settledSelf, hwriting]
  case h_2 => cases hstep

/-- The rename is the one step that saves the image. -/
theorem rename_keeps {renamed : Bool} (hkept : Kept file Given state)
    (hstep : step state (.rename renamed) = some after) :
    Kept file Given after ∧
      Follows Given state.shelf (state.onShelf (.rename renamed)) after.shelf := by
  simp only [step] at hstep
  split at hstep
  case h_1 image hrenaming =>
    have hunderway := hkept.underway
    rw [hrenaming] at hunderway
    obtain ⟨⟨hgiven, hfits, hdue⟩, inode, hnames, hfile⟩ := hunderway
    cases renamed with
    | true =>
        obtain rfl := Option.some.inj hstep
        obtain ⟨hapart, hversions⟩ := hkept.apart.rename (by decide) hnames hfile
        refine ⟨⟨hapart, ?_, ⟨hgiven, hfits⟩, Volume.read_of_append hversions⟩, ?_⟩
        · intro version hmem
          rw [hversions, List.mem_append, List.mem_singleton] at hmem
          rcases hmem with hold | hnew
          · exact hkept.whole version hold
          · exact Or.inr ⟨image, hgiven, hfits, hnew⟩
        · have hself : state.shelf.self = state.self := by
            simp only [shelf, hrenaming, settledSelf]
          simp only [onShelf, hrenaming]
          refine ⟨⟨hgiven, hfits⟩, ?_⟩
          rw [Shelf.step, Shelf.save_due (hself ▸ hdue), hself]
          simp only [shelf, settledSelf, hversions]
    | false =>
        obtain rfl := Option.some.inj hstep
        refine ⟨⟨hkept.apart, hkept.whole, trivial⟩, ?_⟩
        simp only [Follows, onShelf, shelf, settledSelf, hrenaming]
  case h_2 => cases hstep

theorem syncDir_keeps {synced : Bool} (hkept : Kept file Given state)
    (hstep : step state (.syncDir synced) = some after) :
    Kept file Given after ∧
      Follows Given state.shelf (state.onShelf (.syncDir synced)) after.shelf := by
  simp only [step] at hstep
  split at hstep
  case h_1 image hsyncing =>
    obtain rfl := Option.some.inj hstep
    cases synced with
    | false =>
        refine ⟨⟨hkept.apart, hkept.whole, trivial⟩, ?_⟩
        simp only [Follows, onShelf, shelf, settledSelf, hsyncing]
        rfl
    | true =>
        obtain ⟨hapart, hversions⟩ := hkept.apart.sync
        refine ⟨⟨hapart, ?_, trivial⟩, trivial, ?_⟩
        · intro version hmem
          simp only [if_true, hversions, List.mem_singleton] at hmem
          exact hmem ▸ hkept.whole _ (state.volume.read_mem .snapshot)
        · rw [Shelf.step, latest_shelf]
          simp only [shelf, settledSelf, hsyncing, if_true, hversions]
  case h_2 => cases hstep

theorem crash_keeps {keep : List Bool} {junk : List Bytes} {startLsn : ℕ}
    (hkept : Kept file Given state) (hstep : step state (.crash keep junk startLsn) = some after) :
    Kept file Given after ∧
      Follows Given state.shelf (state.onShelf (.crash keep junk startLsn)) after.shelf := by
  obtain rfl := Option.some.inj hstep
  obtain ⟨hapart, version, hmem, hversions⟩ := hkept.apart.crash keep junk
  have hread : (state.volume.crash keep junk).read .snapshot = version := by
    have hfound := (state.volume.crash keep junk).read_mem .snapshot
    rwa [hversions, List.mem_singleton] at hfound
  refine ⟨⟨hapart, ?_, trivial⟩, trivial, ?_⟩
  · intro other hother
    rw [hversions, List.mem_singleton] at hother
    exact hother ▸ hkept.whole version hmem
  · have hself : (settledSelf state.self state.pc).minLsnGap = state.self.minLsnGap := by
      cases state.pc <;> rfl
    rw [hread]
    simp only [shelf, Shelf.step, if_pos hmem, hself, hversions]
    rfl

theorem restart_keeps {startLsn : ℕ} (hkept : Kept file Given state)
    (hstep : step state (.restart startLsn) = some after) :
    Kept file Given after ∧
      Follows Given state.shelf (state.onShelf (.restart startLsn)) after.shelf := by
  obtain rfl := Option.some.inj hstep
  refine ⟨⟨hkept.apart, hkept.whole, trivial⟩, trivial, ?_⟩
  have hself : (settledSelf state.self state.pc).minLsnGap = state.self.minLsnGap := by
    cases state.pc <;> rfl
  simp only [shelf, Shelf.step, hself]
  rfl

theorem step_keeps (hkept : Kept file Given state) (hasks : Asks Given state action)
    (hstep : step state action = some after) :
    Kept file Given after ∧
      Follows Given state.shelf (state.onShelf action) after.shelf := by
  cases action with
  | begin image created => exact begin_keeps hkept hasks hstep
  | write count => exact write_keeps hkept hstep
  | fail count => exact fail_keeps hkept hstep
  | flush => exact flush_keeps hkept hstep
  | rename renamed => exact rename_keeps hkept hstep
  | syncDir synced => exact syncDir_keeps hkept hstep
  | restart startLsn => exact restart_keeps hkept hstep
  | crash keep junk startLsn => exact crash_keeps hkept hstep

theorem reach_kept {begun : Saving} (hbegun : Kept file Given begun)
    (hreach : Machine.Reach step (Asks Given) begun state) : Kept file Given state :=
  hreach.invariant hbegun fun _ _ _ hkept hasks hstep => (step_keeps hkept hasks hstep).1

/-! ## Whole runs -/

theorem load_bytes {image : Image} (hfits : image.Fits) :
    load image.bytes Db.new = .ok (some image.lsn, image.db) := by
  have hcount := length_iterates hfits.order
  have hload := load_whole hfits.lsn (by rw [hcount]; exact hfits.len) hfits.entries [] Db.new
  rw [List.append_nil, hcount, insertAll_iterates hfits.order] at hload
  exact hload

/-- The old file, or a snapshot that loads to what one of the calls was given. -/
def Loads (file : Option Bytes) (Given : Image → Prop) (found : Option Bytes) : Prop :=
  found = file ∨ ∃ image bytes, Given image ∧ found = some bytes ∧
    load bytes Db.new = .ok (some image.lsn, image.db)

theorem Whole.loads {version : Option Bytes} (hwhole : Whole file Given version) :
    Loads file Given version := by
  rcases hwhole with hfile | ⟨image, hgiven, hfits, hversion⟩
  · exact Or.inl hfile
  · exact Or.inr ⟨image, image.bytes, hgiven, hversion, load_bytes hfits⟩

/-- At any time, and wherever a crash comes, the snapshot is one that a call was given
to save, as a whole, or the one that was there at the start. -/
theorem snapshot_whole {file : Option Bytes} {Given : Image → Prop} {startLsn minLsnGap : ℕ}
    {state : Saving}
    (hreach : Machine.Reach step (Asks Given) (start file startLsn minLsnGap) state) :
    Loads file Given (state.volume.read .snapshot) ∧
      ∀ keep junk, Loads file Given ((state.volume.crash keep junk).read .snapshot) := by
  have hkept := reach_kept (kept_start file Given startLsn minLsnGap) hreach
  constructor
  · exact (hkept.whole _ (state.volume.read_mem .snapshot)).loads
  · intro keep junk
    exact (hkept.whole _ (hkept.apart.read_crash keep junk)).loads

/-- One key under its value. -/
def image : Image := ⟨Db.new.insertRaw [65] [66], [([65], [66])], 7⟩

theorem fits_image : image.Fits where
  order := by
    refine ⟨by decide, fun key value => ?_⟩
    by_cases hkey : key = [65]
    · subst hkey
      simp [image, Db.insertRaw, eq_comm]
    · rw [image, Db.insertRaw, Finmap.lookup_insert_of_ne _ hkey]
      simp [hkey, Db.new]
  entries := by
    intro item hitem
    rw [image, List.mem_singleton] at hitem
    subst hitem
    exact ⟨by norm_num, by norm_num⟩
  len := by
    have hcard : image.db.len = 1 := by decide +kernel
    rw [hcard]
    norm_num
  lsn := by
    change 7 < 2 ^ 64
    norm_num

/-- The temporary file is renamed, and the call has yet to synchronise the directory. -/
def saving : List Action :=
  [.begin image true, .write 4, .fail 3, .begin image true, .write 20, .write 20, .flush,
    .rename true]

theorem asks_saving : ∀ action ∈ saving, ∀ state, Asks (· = image) state action := by
  intro action haction state
  rw [saving] at haction
  fin_cases haction
  all_goals first
    | trivial
    | exact ⟨rfl, fits_image⟩

theorem snapshot_whole_renamed :
    ∃ state, Machine.run step (start none 1 5) saving = some state ∧
      Loads none (· = image) (state.volume.read .snapshot) ∧
      ∀ keep junk, Loads none (· = image) ((state.volume.crash keep junk).read .snapshot) := by
  obtain ⟨state, hrun⟩ : ∃ state, Machine.run step (start none 1 5) saving = some state :=
    Option.isSome_iff_exists.mp (by decide +kernel)
  exact ⟨state, hrun, snapshot_whole (Machine.reach_of_forall .start asks_saving hrun)⟩

/-- A snapshot whose call has synchronised the directory is there after every later
crash, unless it was replaced by one that a later call was given. -/
theorem snapshot_durable {file : Option Bytes} {Given Later : Image → Prop}
    {startLsn minLsnGap : ℕ} {state after later : Saving} {image : Image}
    (hreach : Machine.Reach step (Asks Given) (start file startLsn minLsnGap) state)
    (hsyncing : state.pc = .syncing image) (hsync : step state (.syncDir true) = some after)
    (hlater : Machine.Reach step (Asks Later) after later) (keep : List Bool)
    (junk : List Bytes) :
    ∃ saved bytes, (saved = image ∨ Later saved) ∧
      (later.volume.crash keep junk).read .snapshot = some bytes ∧
      load bytes Db.new = .ok (some saved.lsn, saved.db) := by
  have hkept := reach_kept (kept_start file Given startLsn minLsnGap) hreach
  have hunderway := hkept.underway
  rw [hsyncing] at hunderway
  obtain ⟨⟨-, hfits⟩, hread⟩ := hunderway
  simp only [step, hsyncing, Option.some.injEq, if_true] at hsync
  subst hsync
  obtain ⟨hapart, hversions⟩ := hkept.apart.sync
  have hsettled : Kept (some image.bytes) Later
      ⟨{ state.self with lastBoundaryLsn := image.lsn }, state.volume.sync, .idle⟩ := by
    refine ⟨hapart, fun version hmem => Or.inl ?_, trivial⟩
    rw [hversions, List.mem_singleton] at hmem
    rw [hmem, hread]
  have hthen := reach_kept hsettled hlater
  rcases hthen.whole _ (hthen.apart.read_crash keep junk) with
    hfound | ⟨saved, hsaved, hwhole, hfound⟩
  · exact ⟨image, image.bytes, Or.inl rfl, hfound, load_bytes hfits⟩
  · exact ⟨saved, saved.bytes, Or.inr hsaved, hfound, load_bytes hwhole⟩

theorem snapshot_durable_idle :
    ∃ state after, Machine.run step (start none 1 5) saving = some state ∧
      step state (.syncDir true) = some after ∧
      ∀ keep junk, ∃ saved bytes, (saved = image ∨ False) ∧
        (after.volume.crash keep junk).read .snapshot = some bytes ∧
        load bytes Db.new = .ok (some saved.lsn, saved.db) := by
  obtain ⟨state, hrun⟩ : ∃ state, Machine.run step (start none 1 5) saving = some state :=
    Option.isSome_iff_exists.mp (by decide +kernel)
  have hsyncing : state.pc = .syncing image := by
    have hpc : (Machine.run step (start none 1 5) saving).map Saving.pc = some (.syncing image) :=
      rfl
    rw [hrun] at hpc
    exact Option.some.inj hpc
  obtain ⟨after, hsync⟩ : ∃ after, step state (.syncDir true) = some after := by
    rw [step, hsyncing]
    exact ⟨_, rfl⟩
  exact ⟨state, after, hrun, hsync, fun keep junk =>
    @snapshot_durable none (· = image) (fun _ => False) 1 5 state after after image
      (Machine.reach_of_forall .start asks_saving hrun) hsyncing hsync .start keep junk⟩

/-- The steps of a call are steps of the shelf or nothing there. -/
theorem reach_shelf {file : Option Bytes} {Given : Image → Prop} {startLsn minLsnGap : ℕ}
    {state : Saving}
    (hreach : Machine.Reach step (Asks Given) (start file startLsn minLsnGap) state) :
    Machine.Reach Shelf.step (Shelf.Asks Given) ⟨Snapshotter.new startLsn minLsnGap, [file]⟩
      state.shelf := by
  have hstart : (start file startLsn minLsnGap).shelf =
      ⟨Snapshotter.new startLsn minLsnGap, [file]⟩ := by
    rw [shelf, start, versions_directory]
    rfl
  rw [← hstart]
  refine Machine.Reach.refines shelf (fun before action after hbefore hasks hstep => ?_) hreach
  have hkept := reach_kept (kept_start file Given startLsn minLsnGap) hbefore
  obtain ⟨-, hfollows⟩ := step_keeps hkept hasks hstep
  cases htaken : before.onShelf action with
  | none =>
      rw [htaken] at hfollows
      rw [hfollows]
      exact .start
  | some taken =>
      rw [htaken] at hfollows
      exact Machine.Reach.next .start hfollows.1 hfollows.2

/-- Saving a snapshot step by step, with errors and crashes anywhere, is replacing it at
once.  The renaming of the file is where a call takes effect: it adds the image of the
call as one more version; synchronising the directory leaves the latest version only, a
crash any one of them, and no other step changes anything on the shelf. -/
theorem saving_refines {file : Option Bytes} {Given : Image → Prop} {startLsn minLsnGap : ℕ}
    {state : Saving}
    (hreach : Machine.Reach step (Asks Given) (start file startLsn minLsnGap) state) :
    Machine.Reach Shelf.step (Shelf.Asks Given) ⟨Snapshotter.new startLsn minLsnGap, [file]⟩
        state.shelf ∧
      state.volume.read .snapshot = state.shelf.latest ∧
      (∀ keep junk, (state.volume.crash keep junk).read .snapshot ∈ state.shelf.versions) ∧
      (∀ action after, Asks Given state action → step state action = some after →
        Follows Given state.shelf (state.onShelf action) after.shelf) ∧
      ∀ image after, state.pc = .renaming image → step state (.rename true) = some after →
        after.shelf.versions = state.shelf.versions ++ [some image.bytes] := by
  have hkept := reach_kept (kept_start file Given startLsn minLsnGap) hreach
  refine ⟨reach_shelf hreach, (latest_shelf state).symm, hkept.apart.read_crash, ?_, ?_⟩
  · exact fun action after hasks hstep => (step_keeps hkept hasks hstep).2
  · intro image after hrenaming hstep
    have hunderway := hkept.underway
    rw [hrenaming] at hunderway
    obtain ⟨-, inode, hnames, hfile⟩ := hunderway
    obtain ⟨-, hversions⟩ := hkept.apart.rename (by decide) hnames hfile
    simp only [step, hrenaming, if_true, Option.some.injEq] at hstep
    rw [← hstep]
    exact hversions

theorem saving_refines_renamed :
    ∃ state, Machine.run step (start none 1 5) saving = some state ∧
      Machine.Reach Shelf.step (Shelf.Asks (· = image)) ⟨Snapshotter.new 1 5, [none]⟩
        state.shelf ∧
      state.volume.read .snapshot = state.shelf.latest ∧
      (∀ keep junk, (state.volume.crash keep junk).read .snapshot ∈ state.shelf.versions) ∧
      (∀ action after, Asks (· = image) state action → step state action = some after →
        Follows (· = image) state.shelf (state.onShelf action) after.shelf) ∧
      ∀ other after, state.pc = .renaming other → step state (.rename true) = some after →
        after.shelf.versions = state.shelf.versions ++ [some other.bytes] := by
  obtain ⟨state, hrun⟩ : ∃ state, Machine.run step (start none 1 5) saving = some state :=
    Option.isSome_iff_exists.mp (by decide +kernel)
  exact ⟨state, hrun, saving_refines (Machine.reach_of_forall .start asks_saving hrun)⟩

end Saving

end InMemoryDb.Snapshot
