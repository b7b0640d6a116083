import InMemoryDb.Lib.LastWrite
import InMemoryDb.Storage.Snapshot

/-!
# Writing and loading snapshot files

The writer lists the table in whatever order the hash map is iterated; the loader
inserts the entries one after another.  What was written whole is loaded whole.
A file that is cut is not noticed between two entries, and inside an entry the
loader slices out of bounds.
-/

namespace InMemoryDb

open LittleEndian Wire LastWrite

namespace Db

/-- `Db::len`. -/
def len (db : Db) : ℕ := db.keys.card

/-- An order in which `Db::iter` may list the table. -/
structure Iterates (db : Db) (order : List (Bytes × Bytes)) : Prop where
  nodup : (order.map Prod.fst).Nodup
  mem_iff : ∀ key value, (key, value) ∈ order ↔ db.lookup key = some value

end Db

namespace Snapshot

/-! ## The writer -/

/-- One entry: `[k-len][key][v-len][val]`, both lengths narrowed to 32 bits. -/
def entry (item : Bytes × Bytes) : Bytes :=
  leBytes 4 item.1.length ++ (item.1 ++ (leBytes 4 item.2.length ++ item.2))

/-- The first twenty bytes of the file. -/
def header (lsn count : ℕ) : Bytes := leBytes 4 snapshotMagic ++ (leBytes 8 lsn ++ leBytes 8 count)

/-- The bytes of a snapshot of `db`, listed in `order`. -/
def fileBytes (db : Db) (order : List (Bytes × Bytes)) (lsn : ℕ) : Bytes :=
  header lsn db.len ++ order.flatMap entry

/-- The part of `Snapshotter` the writer reads. -/
structure Snapshotter where
  lastBoundaryLsn : ℕ
  minLsnGap : ℕ

/-- `write_snapshot_sync_TEMP_FUNC`, with the snapshot file before and after it.  The
difference of the LSNs wraps as `u64` does.  The temporary file is renamed over the
old one as a whole. -/
def Snapshotter.writeSnapshotSyncTempFunc (self : Snapshotter) (db : Db)
    (order : List (Bytes × Bytes)) (file : Option Bytes) (lsn : ℕ) :
    Bool × Snapshotter × Option Bytes :=
  if (lsn + 2 ^ 64 - self.lastBoundaryLsn) % 2 ^ 64 ≤ self.minLsnGap then (false, self, file)
  else (true, { self with lastBoundaryLsn := lsn }, some (fileBytes db order lsn))

/-! ## Entries -/

/-- An entry whose lengths are written in full. -/
def FitsEntry (item : Bytes × Bytes) : Prop := item.1.length < 2 ^ 32 ∧ item.2.length < 2 ^ 32

theorem length_entry (item : Bytes × Bytes) :
    (entry item).length = 8 + item.1.length + item.2.length := by
  simp only [entry, List.length_append, length_leBytes]
  omega

/-- The entries inserted one after another. -/
def insertAll (db : Db) (items : List (Bytes × Bytes)) : Db :=
  items.foldl (fun db item => db.insertRaw item.1 item.2) db

theorem insertAll_eq (db : Db) (items : List (Bytes × Bytes)) :
    insertAll db items = applyWrites db items := rfl

/-- One round of the loader's loop, at a whole entry. -/
theorem loadEntries_entry {item : Bytes × Bytes} (hitem : FitsEntry item) (count : ℕ)
    (rest : Bytes) (db : Db) :
    loadEntries (count + 1) (entry item ++ rest) db =
      loadEntries count rest (db.insertRaw item.1 item.2) := by
  obtain ⟨key, val⟩ := item
  obtain ⟨hkey, hval⟩ := hitem
  have hlength : (entry (key, val) ++ rest).length =
      8 + key.length + val.length + rest.length := by
    rw [List.length_append, length_entry]
  have hbytes : entry (key, val) ++ rest = leBytes 4 key.length ++
      (key ++ (leBytes 4 val.length ++ (val ++ rest))) := by
    simp only [entry, List.append_assoc]
  have hkeyLen : (entry (key, val) ++ rest).take 4 = leBytes 4 key.length := by
    rw [hbytes, List.take_left' (by simp)]
  have hbehind : (entry (key, val) ++ rest).drop 4 =
      key ++ (leBytes 4 val.length ++ (val ++ rest)) := by
    rw [hbytes, List.drop_left' (by simp)]
  have hvalLen : (entry (key, val) ++ rest).drop (4 + key.length) =
      leBytes 4 val.length ++ (val ++ rest) := by
    rw [← List.drop_drop, hbehind, List.drop_left]
  have hvalBytes : (entry (key, val) ++ rest).drop (8 + key.length) = val ++ rest := by
    rw [show 8 + key.length = 4 + key.length + 4 by omega, ← List.drop_drop, hvalLen,
      List.drop_left' (by simp)]
  have hrest : (entry (key, val) ++ rest).drop (8 + key.length + val.length) = rest := by
    rw [← List.drop_drop, hvalBytes, List.drop_left]
  have hreadKey : rdU32 (leBytes 4 key.length) = .ok key.length := by
    rw [rdU32_ok (by simp), List.take_of_length_le (by simp),
      leNat_leBytes_of_lt (by norm_num at hkey ⊢; exact hkey)]
  have hreadVal : rdU32 (leBytes 4 val.length) = .ok val.length := by
    rw [rdU32_ok (by simp), List.take_of_length_le (by simp),
      leNat_leBytes_of_lt (by norm_num at hval ⊢; exact hval)]
  rw [loadEntries, if_neg (by omega), slice_ok (by omega) (by omega), ok_bind]
  simp only [List.drop_zero, Nat.sub_zero, hkeyLen, hreadKey, ok_bind]
  rw [slice_ok (by omega) (by omega), ok_bind, hbehind, Nat.add_sub_cancel_left, List.take_left,
    slice_ok (by omega) (by omega), ok_bind, hvalLen,
    show 8 + key.length - (4 + key.length) = 4 by omega, List.take_left' (by simp), hreadVal,
    ok_bind, slice_ok (by omega) (by omega), ok_bind, hvalBytes, Nat.add_sub_cancel_left,
    List.take_left, hrest]

/-- The announced number of whole entries is inserted, whatever follows them. -/
theorem loadEntries_whole {items : List (Bytes × Bytes)} (hitems : ∀ item ∈ items, FitsEntry item)
    (tail : Bytes) (db : Db) :
    loadEntries items.length (items.flatMap entry ++ tail) db = .ok (insertAll db items) := by
  induction items generalizing db with
  | nil => rfl
  | cons item items ih =>
      rw [List.length_cons, List.flatMap_cons, List.append_assoc,
        loadEntries_entry (hitems item List.mem_cons_self)]
      exact ih (fun other hother => hitems other (List.mem_cons_of_mem _ hother)) _

/-! ## The header -/

@[simp]
theorem length_header (lsn count : ℕ) : (header lsn count).length = 20 := by simp [header]

/-- A file the loader does not refuse at once: twenty bytes, and the magic number. -/
def HasHeader (bytes : Bytes) : Prop := 20 ≤ bytes.length ∧ leNat (bytes.take 4) = snapshotMagic

theorem load_refused {bytes : Bytes} (hheader : ¬ HasHeader bytes) (db : Db) :
    load bytes db = .ok (none, db) := by
  by_cases hshort : bytes.length < 20
  · rw [load, if_pos hshort]
    rfl
  · have hmagic : leNat (bytes.take 4) ≠ snapshotMagic := fun h => hheader ⟨not_lt.mp hshort, h⟩
    rw [load, if_neg hshort, slice_ok (by omega) (by omega), ok_bind]
    simp only [List.drop_zero, Nat.sub_zero]
    rw [rdU32_ok (by rw [List.length_take_of_le (by omega)]), List.take_take, min_self, ok_bind,
      if_pos hmagic]
    rfl

/-- Behind a good header everything depends on the entries. -/
theorem load_eq {bytes : Bytes} (hheader : HasHeader bytes) (db : Db) :
    load bytes db =
      (loadEntries (leNat ((bytes.drop 12).take 8)) (bytes.drop 20) db).map fun after =>
        (some (leNat ((bytes.drop 4).take 8)), after) := by
  obtain ⟨hlong, hmagic⟩ := hheader
  rw [load, if_neg (by omega), slice_ok (by omega) (by omega), ok_bind]
  simp only [List.drop_zero, Nat.sub_zero]
  rw [rdU32_ok (by rw [List.length_take_of_le (by omega)]), List.take_take, min_self, ok_bind,
    if_neg (by simpa using hmagic), slice_ok (by omega) (by omega), ok_bind,
    rdU64_ok (by simp only [List.length_take, List.length_drop]; omega), ok_bind,
    slice_ok (by omega) (by omega), ok_bind,
    rdU64_ok (by simp only [List.length_take, List.length_drop]; omega), ok_bind]
  simp only [List.take_take, show min 8 (20 - 12) = 8 from rfl]
  cases loadEntries (leNat ((bytes.drop 12).take 8)) (bytes.drop 20) db with
  | error cause => rfl
  | ok after => rfl

theorem hasHeader_header (lsn count : ℕ) (rest : Bytes) : HasHeader (header lsn count ++ rest) := by
  refine ⟨by simp, ?_⟩
  rw [header, List.append_assoc, List.take_left' (by simp), leNat_leBytes_of_lt (by decide)]

theorem drop_header (lsn count : ℕ) (rest : Bytes) :
    (header lsn count ++ rest).drop 12 = leBytes 8 count ++ rest := by
  rw [header, ← List.append_assoc (leBytes 4 snapshotMagic), List.append_assoc,
    List.drop_left' (by simp)]

/-- A whole file is loaded whole, whatever follows the announced entries. -/
theorem load_whole {lsn : ℕ} (hlsn : lsn < 2 ^ 64) {items : List (Bytes × Bytes)}
    (hcount : items.length < 2 ^ 64) (hitems : ∀ item ∈ items, FitsEntry item) (tail : Bytes)
    (db : Db) :
    load (header lsn items.length ++ (items.flatMap entry ++ tail)) db =
      .ok (some lsn, insertAll db items) := by
  have hstamp : ((header lsn items.length ++ (items.flatMap entry ++ tail)).drop 4).take 8 =
      leBytes 8 lsn := by
    rw [header, List.append_assoc, List.drop_left' (by simp), List.append_assoc,
      List.take_left' (by simp)]
  have hnumber : ((header lsn items.length ++ (items.flatMap entry ++ tail)).drop 12).take 8 =
      leBytes 8 items.length := by
    rw [drop_header, List.take_left' (by simp)]
  rw [load_eq (hasHeader_header lsn _ _), hstamp, hnumber, List.drop_left' (by simp),
    leNat_leBytes_of_lt (by norm_num at hlsn ⊢; exact hlsn),
    leNat_leBytes_of_lt (by norm_num at hcount ⊢; exact hcount), loadEntries_whole hitems]
  rfl

/-! ## All or nothing -/

/-- A header and exactly the announced number of whole entries, with `tail` behind
them. -/
structure Complete (bytes : Bytes) (lsn : ℕ) (items : List (Bytes × Bytes)) (tail : Bytes) :
    Prop where
  stamp : lsn < 2 ^ 64
  count : items.length < 2 ^ 64
  entries : ∀ item ∈ items, FitsEntry item
  split : bytes = header lsn items.length ++ (items.flatMap entry ++ tail)

/-- What loading should guarantee: no access out of bounds, an LSN only for a complete
file, all of whose entries are then inserted, and otherwise an untouched table.
`Follows` says what may stand behind the announced entries. -/
def AllOrNothing (Follows : Bytes → Prop) (bytes : Bytes) (db : Db) : Prop :=
  match load bytes db with
  | .error _ => False
  | .ok (some lsn, after) =>
      ∃ items tail, Follows tail ∧ Complete bytes lsn items tail ∧ after = insertAll db items
  | .ok (none, after) => after = db

/-- Loading is all or nothing exactly for the files that are refused at once, for a
short header or a wrong magic number, and for those that are complete.  This is so
whether or not bytes are allowed behind the last entry. -/
theorem all_or_nothing_iff (Follows : Bytes → Prop) (bytes : Bytes) (db : Db) :
    AllOrNothing Follows bytes db ↔
      ¬ HasHeader bytes ∨ ∃ lsn items tail, Follows tail ∧ Complete bytes lsn items tail := by
  constructor
  · intro hload
    by_cases hheader : HasHeader bytes
    · right
      rw [AllOrNothing, load_eq hheader] at hload
      cases hentries : loadEntries (leNat ((bytes.drop 12).take 8)) (bytes.drop 20) db with
      | error cause =>
          rw [hentries] at hload
          exact hload.elim
      | ok after =>
          rw [hentries] at hload
          obtain ⟨items, tail, hfollows, hcomplete, -⟩ := hload
          exact ⟨_, items, tail, hfollows, hcomplete⟩
    · exact Or.inl hheader
  · rintro (hheader | ⟨lsn, items, tail, hfollows, hcomplete⟩)
    · rw [AllOrNothing, load_refused hheader]
    · rw [AllOrNothing, hcomplete.split,
        load_whole hcomplete.stamp hcomplete.count hcomplete.entries, ← hcomplete.split]
      exact ⟨items, tail, hfollows, hcomplete, rfl⟩

/-- Two entries are announced.  Cut behind the first the file is loaded as if it were
whole; cut inside the second the process aborts. -/
theorem cut_snapshot_loaded :
    load (header 5 2 ++ entry ([65], [66])) Db.new =
        .ok (some 5, Db.new.insertRaw [65] [66]) ∧
      ¬ AllOrNothing (fun _ => True) (header 5 2 ++ entry ([65], [66])) Db.new ∧
      load (header 5 2 ++ entry ([65], [66]) ++ (entry ([67], [68])).take 4) Db.new =
        .error .outOfBounds := by
  have hload : load (header 5 2 ++ entry ([65], [66])) Db.new =
      .ok (some 5, Db.new.insertRaw [65] [66]) := by decide +kernel
  refine ⟨hload, ?_, by decide +kernel⟩
  rw [AllOrNothing, hload]
  rintro ⟨items, tail, -, hcomplete, -⟩
  -- the header says two, and ten bytes hold at most one entry
  have hcount : items.length = 2 := by
    have hnumber : leBytes 8 2 = leBytes 8 items.length := by
      have hbehind := congrArg (List.drop 12) hcomplete.split
      rw [drop_header, drop_header] at hbehind
      exact (List.append_inj hbehind (by simp)).1
    have hcounts := congrArg leNat hnumber
    rw [leNat_leBytes_of_lt (by norm_num), leNat_leBytes_of_lt (by
      have hlt := hcomplete.count
      norm_num at hlt ⊢
      exact hlt)] at hcounts
    exact hcounts.symm
  have hlength := congrArg List.length hcomplete.split
  match items, hcount with
  | [first, second], _ =>
      simp only [List.length_append, length_header, length_entry, List.flatMap_cons,
        List.flatMap_nil, List.length_nil, List.length_cons] at hlength
      omega

/-! ## The round trip -/

/-- Entries under different keys give each key its own value. -/
theorem insertAll_iterates {db : Db} {order : List (Bytes × Bytes)} (horder : db.Iterates order) :
    insertAll Db.new order = db := by
  apply Finmap.ext_lookup
  intro key
  rw [insertAll_eq, lookup_applyWrites]
  have hnew : (Db.new).lookup key = none := Finmap.lookup_empty _
  rw [hnew, Option.or_none]
  apply Option.ext
  intro value
  rw [lastWrite_eq_some_iff horder.nodup, horder.mem_iff]

theorem length_iterates {db : Db} {order : List (Bytes × Bytes)} (horder : db.Iterates order) :
    order.length = db.len := by
  have hkeys : (order.map Prod.fst).toFinset = db.keys := by
    ext key
    rw [List.mem_toFinset, List.mem_map, Finmap.mem_keys, Finmap.mem_iff]
    constructor
    · rintro ⟨⟨other, value⟩, hitem, rfl⟩
      exact ⟨value, (horder.mem_iff other value).mp hitem⟩
    · rintro ⟨value, hvalue⟩
      exact ⟨(key, value), (horder.mem_iff key value).mpr hvalue, rfl⟩
  rw [Db.len, ← hkeys, List.toFinset_card_of_nodup horder.nodup, List.length_map]

/-- What the snapshotter writes, in any order of iteration, is loaded to the LSN and
the table it was written from. -/
theorem snapshot_round_trip {self after : Snapshotter} {db : Db} {order : List (Bytes × Bytes)}
    {lsn : ℕ} {old new : Option Bytes} (horder : db.Iterates order)
    (hsizes : ∀ item ∈ order, item.1.length < 2 ^ 32 ∧ item.2.length < 2 ^ 32)
    (hlen : db.len < 2 ^ 64) (hlsn : lsn < 2 ^ 64)
    (hwrite : self.writeSnapshotSyncTempFunc db order old lsn = (true, after, new)) :
    ∃ bytes, new = some bytes ∧ load bytes Db.new = .ok (some lsn, db) := by
  have hnew : new = some (fileBytes db order lsn) := by
    rw [Snapshotter.writeSnapshotSyncTempFunc] at hwrite
    split_ifs at hwrite
    · simp at hwrite
    · simp only [Prod.mk.injEq] at hwrite
      exact hwrite.2.2.symm
  refine ⟨_, hnew, ?_⟩
  have hcount := length_iterates horder
  have hload := load_whole hlsn (by rw [hcount]; exact hlen) hsizes [] Db.new
  rw [List.append_nil, hcount, insertAll_iterates horder] at hload
  exact hload

/-- The empty key and an empty value among the entries. -/
theorem snapshot_round_trip_empty :
    ∃ bytes, ((Snapshotter.mk 1 500000).writeSnapshotSyncTempFunc
        ((Db.new.insertRaw [] [7]).insertRaw [65] []) [([65], []), ([], [7])] none 600002).2.2 =
          some bytes ∧
      load bytes Db.new = .ok (some 600002, (Db.new.insertRaw [] [7]).insertRaw [65] []) := by
  refine @snapshot_round_trip ⟨1, 500000⟩ ⟨600002, 500000⟩ _ [([65], []), ([], [7])] 600002 none _
    ⟨by decide, ?_⟩ (by decide) (by decide +kernel) (by decide) rfl
  intro key value
  by_cases hkey : key = [65]
  · subst hkey
    simp [Db.insertRaw, eq_comm]
  · rw [Db.insertRaw, Finmap.lookup_insert_of_ne _ hkey]
    by_cases hempty : key = []
    · subst hempty
      simp [Db.insertRaw, eq_comm]
    · rw [Db.insertRaw, Finmap.lookup_insert_of_ne _ hempty]
      simp [hkey, hempty, Db.new]

end Snapshot

end InMemoryDb
