import InMemoryDb.Lib.Text
import InMemoryDb.Storage.WalFormat

/-!
# Names of the WAL segments

A segment is the file `wal.` followed by its start LSN in twenty decimal digits.
`list_segments` finds the segments again by their names: it reads the directory
in whatever order the system yields it, keeps the entries whose name is `wal.`
and a number, and sorts them by that number.  Names and paths are byte strings,
and a name is read through `to_string_lossy`.
-/

namespace InMemoryDb.WalFormat

open Text

/-- `SEG_PREFIX`. -/
def segPrefix : List Char := ['w', 'a', 'l', '.']

/-- The path separator. -/
def slash : UInt8 := 0x2F

/-- `Path::join`: a separator is put in between unless the directory is empty or
ends with one; an absolute `name` replaces the directory. -/
def join (dir name : Bytes) : Bytes :=
  if name.head? = some slash then name
  else if dir.getLast? = none ∨ dir.getLast? = some slash then dir ++ name
  else dir ++ slash :: name

/-- The file name `format!("{SEG_PREFIX}{start_lsn:020}")`. -/
def segmentName (startLsn : ℕ) : Bytes := utf8 (segPrefix ++ zeroPadded 20 startLsn)

def segmentPath (dir : Bytes) (startLsn : ℕ) : Bytes := join dir (segmentName startLsn)

/-- `str::parse::<u64>`: an optional plus sign, then at least one digit. -/
def parseU64 : List Char → Option ℕ
  | [] => none
  | ['+'] => none
  | '+' :: digits => readDigits (2 ^ 64) digits 0
  | digits => readDigits (2 ^ 64) digits 0

/-- The start LSN that `list_segments` reads out of a file name. -/
def startLsn (name : Bytes) : Option ℕ := do
  let num ← (lossy name).dropPrefix? segPrefix
  parseU64 num

/-- What the file system answers about a directory: whether it exists, and the
entries that `read_dir` yields, each of which may fail on its own. -/
structure DirState (ε : Type) where
  present : Bool
  readDir : Except ε (List (Except ε Bytes))

/-- A directory whose entries are all read, in this order. -/
def DirState.reading {ε : Type} (names : List Bytes) : DirState ε :=
  ⟨true, .ok (names.map .ok)⟩

variable {ε : Type}

/-- The loop over the entries of the directory, on the segments pushed so far. -/
def pushSegments (dir : Bytes) :
    List (Except ε Bytes) → List (ℕ × Bytes) → Except ε (List (ℕ × Bytes))
  | [], segs => .ok segs
  | entry :: entries, segs => do
      let name ← entry
      match startLsn name with
      | some start => pushSegments dir entries (segs ++ [(start, join dir name)])
      | none => pushSegments dir entries segs

/-- The WAL segments of a directory, sorted by start LSN. -/
def listSegments (fs : DirState ε) (dir : Bytes) : Except ε (List (ℕ × Bytes)) :=
  if fs.present then do
    let entries ← fs.readDir
    let segs ← pushSegments dir entries []
    return segs.mergeSort fun left right => left.1 ≤ right.1
  else .ok []

/-- The name under which a file created at `path` stands in its directory. -/
def fileName (path : Bytes) : Bytes := (path.reverse.takeWhile (· ≠ slash)).reverse

/-! ## The name of one segment -/

theorem toNat_of_isDigit {c : Char} (hdigit : c.isDigit) :
    48 ≤ c.toNat ∧ c.toNat ≤ 57 := by
  rw [Char.isDigit, Bool.and_eq_true, decide_eq_true_iff, decide_eq_true_iff] at hdigit
  exact ⟨UInt32.le_iff_toNat_le.mp hdigit.1, UInt32.le_iff_toNat_le.mp hdigit.2⟩

theorem segPrefix_chars : ∀ c ∈ segPrefix, c.toNat < 0x80 ∧ c.toNat ≠ slash.toNat := by
  have hall : segPrefix.all fun c => c.toNat < 0x80 ∧ c.toNat ≠ slash.toNat := by decide
  intro c hc
  exact of_decide_eq_true (List.all_eq_true.mp hall c hc)

/-- A segment name is ASCII and has no separator in it. -/
theorem segmentName_chars (lsn : ℕ) :
    ∀ c ∈ segPrefix ++ zeroPadded 20 lsn, c.toNat < 0x80 ∧ c.toNat ≠ slash.toNat := by
  intro c hc
  rcases List.mem_append.mp hc with hmem | hdigit
  · exact segPrefix_chars c hmem
  · have hrange := toNat_of_isDigit (isDigit_of_mem_zeroPadded hdigit)
    have hslash : slash.toNat = 47 := rfl
    omega

theorem parseU64_zeroPadded {lsn : ℕ} (width : ℕ) (hlsn : lsn < 2 ^ 64) :
    parseU64 (zeroPadded width lsn) = some lsn := by
  have hread := readDigits_zeroPadded width hlsn
  have hdigits := fun c => @isDigit_of_mem_zeroPadded width lsn c
  unfold parseU64
  split
  next hnil => exact absurd hnil (zeroPadded_ne_nil width lsn)
  next hplus =>
    have := hdigits '+' (by rw [hplus]; exact List.mem_cons_self)
    exact absurd this (by decide)
  next digits _ hplus =>
    have := hdigits '+' (by rw [hplus]; exact List.mem_cons_self)
    exact absurd this (by decide)
  next => exact hread

theorem startLsn_segmentName {lsn : ℕ} (hlsn : lsn < 2 ^ 64) :
    startLsn (segmentName lsn) = some lsn := by
  rw [startLsn, segmentName, lossy_utf8 fun c hc => (segmentName_chars lsn c hc).1,
    List.dropPrefix?_append_of_beq _ (by decide)]
  exact parseU64_zeroPadded 20 hlsn

theorem startLsn_other {name : Bytes} (hname : ¬utf8 segPrefix <+: name) :
    startLsn name = none := by
  have hstrip : (lossy name).dropPrefix? segPrefix = none := by
    rw [Option.eq_none_iff_forall_ne_some]
    intro num hnum
    obtain ⟨front, hsplit, hfront⟩ := List.dropPrefix?_eq_some_iff.mp hnum
    apply hname
    apply utf8_isPrefix_of_lossy fun c hc => (segPrefix_chars c hc).1
    exact ⟨num, by rw [hsplit, eq_of_beq hfront]⟩
  rw [startLsn, hstrip]
  rfl

theorem slash_notMem_segmentName (lsn : ℕ) : slash ∉ segmentName lsn := by
  intro hmem
  rw [segmentName, utf8_ascii fun c hc => (segmentName_chars lsn c hc).1, List.mem_map] at hmem
  obtain ⟨c, hc, hslash⟩ := hmem
  obtain ⟨hascii, hne⟩ := segmentName_chars lsn c hc
  apply hne
  rw [← hslash, toNat_ofNat_ascii hascii]

/-- A file created at `segment_path` stands in the directory under its name. -/
theorem fileName_segmentPath (dir : Bytes) (lsn : ℕ) :
    fileName (segmentPath dir lsn) = segmentName lsn := by
  have hname : ∀ byte ∈ (segmentName lsn).reverse, decide (byte ≠ slash) = true := by
    intro byte hbyte
    rw [decide_eq_true_iff]
    rintro rfl
    exact slash_notMem_segmentName lsn (List.mem_reverse.mp hbyte)
  have hhead : (segmentName lsn).head? ≠ some slash := fun h =>
    slash_notMem_segmentName lsn (List.mem_of_head? h)
  rw [segmentPath, join, if_neg hhead]
  split_ifs with hdir
  · rw [fileName, List.reverse_append, List.takeWhile_append_of_pos hname]
    have hstop : dir.reverse.takeWhile (· ≠ slash) = [] := by
      rcases hdir with hempty | hlast
      · rw [List.getLast?_eq_none_iff.mp hempty]
        rfl
      · obtain ⟨front, rfl⟩ := List.getLast?_eq_some_iff.mp hlast
        rw [List.reverse_append, List.reverse_singleton, List.singleton_append,
          List.takeWhile_cons_of_neg (by simp)]
    rw [hstop, List.append_nil, List.reverse_reverse]
  · rw [fileName, List.reverse_append, List.reverse_cons, List.append_assoc,
      List.takeWhile_append_of_pos hname, List.singleton_append,
      List.takeWhile_cons_of_neg (by simp), List.append_nil, List.reverse_reverse]

/-! ## The listing -/

/-- The segment that one directory entry stands for. -/
def segmentOf (dir name : Bytes) : Option (ℕ × Bytes) :=
  (startLsn name).map fun start => (start, join dir name)

theorem pushSegments_ok (dir : Bytes) (names : List Bytes) (segs : List (ℕ × Bytes)) :
    pushSegments dir (names.map .ok) segs =
      (.ok (segs ++ names.filterMap (segmentOf dir)) : Except ε (List (ℕ × Bytes))) := by
  induction names generalizing segs with
  | nil => rw [List.map_nil, pushSegments, List.filterMap_nil, List.append_nil]
  | cons name names ih =>
      rw [List.map_cons, pushSegments, List.filterMap_cons, segmentOf]
      cases hstart : startLsn name with
      | none => simpa [hstart] using ih segs
      | some start => simpa [hstart] using ih (segs ++ [(start, join dir name)])

theorem filterMap_segmentOf (dir : Bytes) {lsns : List ℕ} {others : List Bytes}
    (hlsns : ∀ lsn ∈ lsns, lsn < 2 ^ 64) (hothers : ∀ name ∈ others, ¬utf8 segPrefix <+: name) :
    (lsns.map segmentName ++ others).filterMap (segmentOf dir) =
      lsns.map fun lsn => (lsn, segmentPath dir lsn) := by
  have hnone : others.filterMap (segmentOf dir) = [] := by
    rw [List.filterMap_eq_nil_iff]
    intro name hname
    rw [segmentOf, startLsn_other (hothers name hname), Option.map_none]
  rw [List.filterMap_append, hnone, List.append_nil, List.filterMap_map]
  rw [← List.filterMap_eq_map]
  apply List.filterMap_congr
  intro lsn hlsn
  rw [Function.comp_apply, segmentOf, startLsn_segmentName (hlsns lsn hlsn), Option.map_some]
  rfl

/-- Sorting by LSN gives the one increasing arrangement of the segments. -/
theorem mergeSort_segments (dir : Bytes) {lsns : List ℕ} {segs : List (ℕ × Bytes)}
    (hsorted : lsns.Pairwise (· < ·))
    (hperm : segs.Perm (lsns.map fun lsn => (lsn, segmentPath dir lsn))) :
    (segs.mergeSort fun left right => left.1 ≤ right.1) =
      lsns.map fun lsn => (lsn, segmentPath dir lsn) := by
  have hmem : ∀ seg ∈ segs, seg.2 = segmentPath dir seg.1 := by
    intro seg hseg
    obtain ⟨lsn, -, rfl⟩ := List.mem_map.mp (hperm.mem_iff.mp hseg)
    rfl
  apply @List.Perm.eq_of_pairwise _ fun left right => decide (left.1 ≤ right.1) = true
  · intro left right hleft hright hle hge
    have hlsn : left.1 = right.1 :=
      le_antisymm (of_decide_eq_true hle) (of_decide_eq_true hge)
    apply Prod.ext hlsn
    rw [hmem left (List.mem_mergeSort.mp hleft), hmem right (hperm.mem_iff.mpr hright), hlsn]
  · apply List.pairwise_mergeSort
    · intro a b c hab hbc
      exact decide_eq_true ((of_decide_eq_true hab).trans (of_decide_eq_true hbc))
    · intro a b
      simpa using le_total a.1 b.1
  · rw [List.pairwise_map]
    exact hsorted.imp fun hlt => decide_eq_true hlt.le
  · exact (List.mergeSort_perm _ _).trans hperm

/-- The listing is the sorted list of the segments, in whatever order the
directory is read. -/
theorem listSegments_sorted (dir : Bytes) {lsns : List ℕ} {others names : List Bytes}
    (hsorted : lsns.Pairwise (· < ·)) (hlsns : ∀ lsn ∈ lsns, lsn < 2 ^ 64)
    (hothers : ∀ name ∈ others, ¬utf8 segPrefix <+: name)
    (hnames : names.Perm (lsns.map segmentName ++ others)) :
    listSegments (.reading names) dir =
      (.ok (lsns.map fun lsn => (lsn, segmentPath dir lsn)) :
        Except ε (List (ℕ × Bytes))) := by
  have hperm := hnames.filterMap (segmentOf dir)
  rw [filterMap_segmentOf dir hlsns hothers] at hperm
  calc listSegments (.reading names) dir
      = (pushSegments dir (names.map .ok) []).map
          (·.mergeSort fun left right => left.1 ≤ right.1) := rfl
    _ = .ok ((names.filterMap (segmentOf dir)).mergeSort
          fun left right => left.1 ≤ right.1) := by
        rw [pushSegments_ok, List.nil_append]
        rfl
    _ = _ := by rw [mergeSort_segments dir hsorted hperm]

/-- The segments that were created through `segment_path` are listed again, each
once and in increasing order of their LSNs, whatever other files there are and
in whatever order the directory is read. -/
theorem listSegments_created (dir : Bytes) (lsns : Finset ℕ) (others names : List Bytes)
    (hlsns : ∀ lsn ∈ lsns, lsn < 2 ^ 64) (hothers : ∀ name ∈ others, ¬utf8 segPrefix <+: name)
    (hnames : names.Perm
      ((lsns.toList.map fun lsn => fileName (segmentPath dir lsn)) ++ others)) :
    ∃ segs, listSegments (.reading names : DirState ε) dir = .ok segs ∧
      segs.Pairwise (fun left right => left.1 < right.1) ∧
      ∀ lsn path, (lsn, path) ∈ segs ↔ lsn ∈ lsns ∧ path = segmentPath dir lsn := by
  have hsort : (lsns.toList.map fun lsn => fileName (segmentPath dir lsn)).Perm
      (lsns.sort.map segmentName) := by
    simp only [fileName_segmentPath]
    exact (lsns.sort_perm_toList (· ≤ ·)).symm.map segmentName
  refine ⟨lsns.sort.map fun lsn => (lsn, segmentPath dir lsn), ?_, ?_, ?_⟩
  · apply listSegments_sorted dir lsns.sortedLT_sort.pairwise
    · intro lsn hlsn
      exact hlsns lsn ((lsns.mem_sort _).mp hlsn)
    · exact hothers
    · exact hnames.trans (hsort.append_right others)
  · rw [List.pairwise_map]
    exact lsns.sortedLT_sort.pairwise
  · intro lsn path
    simp only [List.mem_map, Finset.mem_sort, Prod.mk.injEq]
    constructor
    · rintro ⟨start, hstart, rfl, rfl⟩
      exact ⟨hstart, rfl⟩
    · rintro ⟨hlsn, rfl⟩
      exact ⟨lsn, hlsn, rfl, rfl⟩

/-- The two ends of the range of LSNs, read in decreasing order behind other
files. -/
theorem listSegments_created_ends :
    ∃ segs,
      listSegments (.reading
        [utf8 ['l', 'o', 'g'], utf8 ['w', 'a', 'l'], segmentName (2 ^ 64 - 1), segmentName 0] :
          DirState Unit) [slash] = .ok segs ∧
      segs.Pairwise (fun left right => left.1 < right.1) ∧
      ∀ lsn path, (lsn, path) ∈ segs ↔
        lsn ∈ ({0, 2 ^ 64 - 1} : Finset ℕ) ∧ path = segmentPath [slash] lsn := by
  apply listSegments_created [slash] {0, 2 ^ 64 - 1} [utf8 ['l', 'o', 'g'], utf8 ['w', 'a', 'l']]
  · intro lsn hlsn
    simp only [Finset.mem_insert, Finset.mem_singleton] at hlsn
    omega
  · decide
  · have hlist : ({0, 2 ^ 64 - 1} : Finset ℕ).toList.Perm [0, 2 ^ 64 - 1] := by
      have hinsert := Finset.toList_insert (a := 0) (s := {2 ^ 64 - 1}) (by simp)
      rwa [Finset.toList_singleton] at hinsert
    simp only [fileName_segmentPath]
    have hread := hlist.map segmentName
    rw [List.map_cons, List.map_singleton] at hread
    exact List.perm_append_comm.trans
      (((List.Perm.swap _ _ []).trans hread.symm).append_right [_, _])

end InMemoryDb.WalFormat
