import InMemoryDb.Server.Rotation
import InMemoryDb.Storage.Unwritten

/-!
# Batches written in part

The kernel stores the bytes of a write in order, and a retried write goes on where
the last one stopped.  So what the active file holds of a batch is its front, and
whatever else a reader finds in its place is zero: replay of the active file may
stop early, but it never takes the process down.
-/

namespace InMemoryDb.Stage3.WalEngine

open SparseFile WalFormat Recover

variable {engine after : WalEngine} {segs : SortedMap ℕ Bytes} {start : ℕ}

/-- Of every batch queued for the active segment the file holds a front. -/
def Fronted (engine : WalEngine) : Prop :=
  ∀ entry ∈ engine.queued, entry.seg = engine.seg.startLsn →
    FromFront engine.disk.cache entry.offset entry.batch.out.length

/-- With no write in line the file has no hole. -/
theorem fronted_of_idle (hsound : engine.Sound) (hholes : engine.Holes) (hline : engine.line = []) :
    engine.Fronted := by
  rintro entry - - lower index - hle - ⟨value, hvalue⟩
  have hindex : index < engine.image.length :=
    (List.getElem?_eq_some_iff.mp hvalue).1.trans_le hsound.stored.agrees.1
  rcases hholes lower (by omega) with hheld | ⟨op, hop, -⟩
  · exact hheld
  · rw [hline] at hop
    cases hop

/-- Batches of one segment that share a position are one and the same. -/
theorem Archive.offset_eq (harchive : Archive segs start engine) {entry other : Queued}
    (hentry : entry ∈ engine.queued) (hother : other ∈ engine.queued)
    (hseg : entry.seg = other.seg) {index : ℕ}
    (hin : entry.offset ≤ index ∧ index < entry.offset + entry.batch.out.length)
    (hshared : other.offset ≤ index ∧ index < other.offset + other.batch.out.length) :
    entry.offset = other.offset := by
  let Apart : Queued → Queued → Prop := fun first second => first.seg = second.seg →
    first.offset = second.offset ∨ first.offset + first.batch.out.length ≤ second.offset ∨
      second.offset + second.batch.out.length ≤ first.offset
  have hsymm : Std.Symm Apart := by
    refine ⟨fun first second hapart hsame => ?_⟩
    rcases hapart hsame.symm with heq | hbefore | hbehind
    · exact Or.inl heq.symm
    · exact Or.inr (Or.inr hbefore)
    · exact Or.inr (Or.inl hbehind)
  have hpairs : engine.queued.Pairwise Apart :=
    harchive.pairwise.imp fun hpair hsame => Or.inr (Or.inl (hpair.2 hsame))
  have hapart := hpairs.forall_of_forall (fun _ _ _ => Or.inl rfl) hentry hother hseg
  omega

theorem fronted_move (hsound : engine.Sound) (harchive : Archive segs start engine)
    (hfronted : engine.Fronted) (hmove : Move (fun kind _ => kind ≠ .sealed) engine after) :
    after.Fronted := by
  rcases move_steady hsound hmove with
    ⟨batch, entry, rest, -, rfl, -, hoffset, -⟩ | ⟨_, _, hpermit, -⟩ | hsteady
  · intro other hother hactive
    rcases List.mem_append.mp hother with hold | hnew
    · exact hfronted other hold hactive
    · -- the file ends before the place of the new batch
      rintro lower index hlow hle - ⟨value, hvalue⟩
      rw [List.mem_singleton.mp hnew, hoffset] at hlow
      have hindex : index < engine.image.length :=
        (List.getElem?_eq_some_iff.mp hvalue).1.trans_le hsound.stored.agrees.1
      omega
  · exact absurd rfl hpermit
  · rintro entry hentry hactive lower index hlow hle hindex ⟨value, hvalue⟩
    rw [hsteady.queued] at hentry
    rw [hsteady.seg] at hactive
    rcases hsteady.fills index value hvalue with hbefore | ⟨op, hop, hopLow, hopHigh, hcovers⟩
    · obtain ⟨found, hfound⟩ :=
        hfronted entry hentry hactive lower index hlow hle hindex ⟨value, hbefore⟩
      exact ⟨found, hsteady.cache lower found hfound⟩
    · obtain ⟨owner, howner, hown, hplace, -, hout, -⟩ :=
        (hsound.tracked.writes op hop).1.queued
      rw [← hplace] at hopLow hcovers
      rw [← hplace, ← hout] at hopHigh
      have hsame := harchive.offset_eq hentry howner (hactive.trans hown.symm)
        ⟨hlow.trans hle, hindex⟩ ⟨hopLow, hopHigh⟩
      by_cases hlast : lower = index
      · exact ⟨value, hlast ▸ hvalue⟩
      · exact hcovers lower (by omega) (by omega)

theorem fronted_reach {depth : ℕ} {mode : Mode} {pool : List Batch}
    (htop : ∀ seg bytes, segs.lookup seg = some bytes → seg ≤ start)
    (hreach : Machine.Reach step RotateFeeds (new depth (Files.ofSegs segs) start mode pool)
      engine) : engine.Fronted := by
  induction hreach with
  | start =>
      exact fronted_of_idle (sound_new _ _ _ _ _) (filled_new _ _ _ _ _).holes rfl
  | @next engine after act hbefore hguard hstep ih =>
      obtain ⟨hsound, -, -, harchive⟩ := archive_reach htop hbefore
      by_cases hseals : engine.Seals act
      · obtain ⟨hsound', hfilled', -⟩ := archive_reach htop (hbefore.next hguard hstep)
        obtain rfl := hseals.1
        have hidle := hseals.2.1
        obtain ⟨boundaryLsn, -, rfl⟩ := seals_inv hseals hstep
        simp only [shouldPark, decide_eq_true_eq] at hidle
        exact fronted_of_idle hsound' hfilled'.holes (line_eq_nil hsound' hidle.1 hidle.2)
      · exact (unsealed_keeps (fun _ hpermit => hpermit rfl)
          (fun _ _ hsound harchive => fronted_move hsound harchive) hsound harchive ih hguard.feeds
          (fun _ _ => Takes.ne_sealed hseals) hstep).2

/-! ## Replay of the active file -/

section Replay

variable {stamp : ℕ} {rest : Bytes}

/-- The old contents of the active segment are in the file. -/
theorem Archive.window_base (harchive : Archive segs start engine) (hsound : engine.Sound)
    (hholes : engine.Holes) :
    window engine.disk.cache 0 (baseOf segs engine.seg.startLsn).length =
      baseOf segs engine.seg.startLsn := by
  set base := baseOf segs engine.seg.startLsn with hbase
  obtain ⟨more, himage⟩ : ∃ more, engine.image = base ++ more := ⟨_, harchive.image⟩
  apply List.ext_getElem?
  intro index
  by_cases hindex : index < base.length
  · rw [getElem?_window _ _ hindex, Nat.zero_add, List.getElem?_eq_getElem hindex]
    rcases hholes index (by rw [himage, List.length_append]; omega) with
      ⟨value, hvalue⟩ | ⟨op, hop, hlow, -⟩
    · have hstored := hsound.stored.agrees.2 index value hvalue
      rw [himage, List.getElem?_append_left hindex, List.getElem?_eq_getElem hindex] at hstored
      rw [readAt_of_holds hvalue, Option.some.inj hstored]
    · -- the writes in line belong to batches behind the old contents
      obtain ⟨owner, howner, hown, hplace, -⟩ := (hsound.tracked.writes op hop).1.queued
      obtain ⟨front, back, hsplit⟩ := List.append_of_mem howner
      have hoffset := (harchive.shelved front owner back hsplit).offset
      rw [wholeOf, hown, List.length_append, ← hbase] at hoffset
      omega
  · rw [List.getElem?_eq_none (by simpa using hindex), List.getElem?_eq_none (not_lt.mp hindex)]

/-- What the file holds of a queued batch. -/
theorem Archive.window_entry (harchive : Archive segs start engine) (hsound : engine.Sound)
    (hfronted : engine.Fronted) {front back : List Queued} {entry : Queued}
    (hsplit : engine.queued = front ++ entry :: back) (hactive : entry.seg = engine.seg.startLsn) :
    ∃ kept, window engine.disk.cache entry.offset entry.batch.out.length =
      blanked entry.batch.out kept := by
  have hmem : entry ∈ engine.queued := hsplit ▸ List.mem_append_right _ List.mem_cons_self
  refine (hfronted entry hmem hactive).window_eq hsound.stored.agrees ?_
  have hparts : front ++ entry :: back = front ++ [entry] ++ back := by simp
  rw [harchive.image, hsplit, hparts, wholeOf_append, ← hactive, wholeOf_snoc,
    (harchive.shelved front entry back hsplit).offset]
  exact (located_append_self _ _).append _

/-- Replay goes through the part of the file that the batches up to any one take, if it
goes through what follows. -/
theorem Archive.readable_front (harchive : Archive segs start engine) (hsound : engine.Sound)
    (hholes : engine.Holes) (hfronted : engine.Fronted) (hlsn : engine.lastIngestedLsn < 2 ^ 64)
    (hbase : ∀ seg state, ∃ again,
      replaySegment stamp (baseOf segs seg) state = (again, .finished))
    {front back : List Queued} (hsplit : engine.queued = front ++ back)
    (hrest : Readable stamp rest) :
    Readable stamp (window engine.disk.cache 0
      (wholeOf segs front engine.seg.startLsn).length ++ rest) := by
  induction front using List.reverseRecOn generalizing back rest with
  | nil =>
      obtain ⟨again, hagain⟩ := hbase engine.seg.startLsn ⟨Db.new, 0, []⟩
      have hwhole : wholeOf segs [] engine.seg.startLsn = baseOf segs engine.seg.startLsn :=
        List.append_nil _
      rw [hwhole, harchive.window_base hsound hholes]
      exact readable_append_of_finished hagain hrest
  | append_singleton front entry ih =>
      have hparts : engine.queued = front ++ entry :: back := by rw [hsplit]; simp
      by_cases hactive : entry.seg = engine.seg.startLsn
      · have hshelved := harchive.shelved front entry back hparts
        obtain ⟨kept, hkept⟩ := harchive.window_entry hsound hfronted hparts hactive
        have hoffset := hshelved.offset
        rw [hactive] at hoffset
        rw [← hactive, wholeOf_snoc, List.length_append, hactive, window_append, Nat.zero_add,
          List.append_assoc, ← hoffset, hkept, hshelved.encoded.out, hoffset]
        refine ih hparts (readable_blanked ?_ kept hrest)
        intro rec hrec
        obtain ⟨hfits, hput, -⟩ := harchive.good hlsn rec
          (List.mem_flatMap.mpr ⟨entry, hparts ▸ List.mem_append_right _ List.mem_cons_self, hrec⟩)
        exact ⟨hfits, hput⟩
      · rw [wholeOf_snoc_ne segs front hactive]
        exact ih hparts hrest

/-- Whatever part of the writes in line has landed, replay goes through the active file. -/
theorem Archive.readable_active (harchive : Archive segs start engine) (hsound : engine.Sound)
    (hholes : engine.Holes) (hfronted : engine.Fronted) (hlsn : engine.lastIngestedLsn < 2 ^ 64)
    (hbase : ∀ seg state, ∃ again,
      replaySegment stamp (baseOf segs seg) state = (again, .finished)) (count : ℕ) :
    Readable stamp (window engine.disk.cache 0 count) := by
  have hlong := harchive.readable_front hsound hholes hfronted hlsn hbase
    (List.append_nil engine.queued).symm (@readable_zeros stamp count)
  have hzeros := window_behind hsound.stored.agrees.1 count
  rw [harchive.image] at hzeros
  have hjoin := window_append engine.disk.cache 0
    (wholeOf segs engine.queued engine.seg.startLsn).length count
  rw [Nat.zero_add, hzeros] at hjoin
  change Readable stamp (_ ++ List.replicate count default) at hlong
  rw [← hjoin, Nat.add_comm, window_append] at hlong
  exact hlong.of_append

end Replay

end InMemoryDb.Stage3.WalEngine
