import InMemoryDb.Lib.RefCount
import InMemoryDb.Storage.Db

/-!
# The table at the level of cells

`Db` maps keys to reference-counted values.  A `get` hands out the cell, and a
`put` has three paths: a fresh cell for a new key, an overwrite in place when the
length matches and nobody else holds the cell, a fresh cell in the old one's
place otherwise.  Whichever it takes, the table changes at the key alone, and no
reference held elsewhere sees a difference.
-/

namespace InMemoryDb

open RefCount

/-- `Db`: keys to cells. -/
structure SharedDb where
  heap : Heap Bytes
  map : Finmap fun _ : Bytes => ℕ

namespace SharedDb

def new : SharedDb := ⟨Heap.empty, ∅⟩

def get (db : SharedDb) (key : Bytes) : Option ℕ := db.map.lookup key

/-- `Arc::get_mut` gives access when the reference is the only one. -/
def put (db : SharedDb) (key value : Bytes) : SharedDb :=
  match db.map.lookup key with
  | some slot =>
      if (db.heap.read slot).map List.length = some value.length ∧ db.heap.strong slot = 1 then
        { db with heap := db.heap.write slot value }
      else
        let fresh := db.heap.alloc value
        ⟨fresh.1.release slot, db.map.insert key fresh.2⟩
  | none =>
      let fresh := db.heap.alloc value
      ⟨fresh.1, db.map.insert key fresh.2⟩

/-- The references the table holds. -/
def slots (db : SharedDb) : Multiset ℕ := db.map.entries.map Sigma.snd

/-- What a reader of the table finds under a key. -/
def view (db : SharedDb) (key : Bytes) : Option Bytes := (db.map.lookup key).bind db.heap.read

/-! ## References of the table -/

theorem mem_slots {db : SharedDb} {key : Bytes} {cell : ℕ} (hcell : db.map.lookup key = some cell) :
    cell ∈ db.slots :=
  Multiset.mem_map.mpr ⟨⟨key, cell⟩, Finmap.lookup_eq_some_iff.mp hcell, rfl⟩

/-- The references of the table without a key. -/
def others (db : SharedDb) (key : Bytes) : Multiset ℕ := (db.map.erase key).entries.map Sigma.snd

theorem mem_others {db : SharedDb} {key other : Bytes} {cell : ℕ} (hne : key ≠ other)
    (hcell : db.map.lookup other = some cell) : cell ∈ db.others key := by
  rw [← Finmap.lookup_erase_ne hne.symm] at hcell
  exact Multiset.mem_map.mpr ⟨⟨other, cell⟩, Finmap.lookup_eq_some_iff.mp hcell, rfl⟩

theorem slots_insert (heap : Heap Bytes) (db : SharedDb) (key : Bytes) (cell : ℕ) :
    (⟨heap, db.map.insert key cell⟩ : SharedDb).slots = cell ::ₘ db.others key := by
  have hmap : db.map.insert key cell = (db.map.erase key).insert key cell := by
    apply Finmap.ext_lookup
    intro other
    by_cases hother : other = key
    · subst hother
      rw [Finmap.lookup_insert, Finmap.lookup_insert]
    · rw [Finmap.lookup_insert_of_ne _ hother, Finmap.lookup_insert_of_ne _ hother,
        Finmap.lookup_erase_ne hother]
  rw [slots, hmap, Finmap.entries_insert_of_notMem Finmap.notMem_erase_self, Multiset.map_cons]
  rfl

theorem slots_of_lookup {db : SharedDb} {key : Bytes} {cell : ℕ}
    (hcell : db.map.lookup key = some cell) : db.slots = cell ::ₘ db.others key := by
  have hmap : db.map.insert key cell = db.map := by
    apply Finmap.ext_lookup
    intro other
    by_cases hother : other = key
    · subst hother
      rw [Finmap.lookup_insert, hcell]
    · rw [Finmap.lookup_insert_of_ne _ hother]
  have hslots := slots_insert db.heap db key cell
  rw [hmap] at hslots
  exact hslots

theorem slots_of_none {db : SharedDb} {key : Bytes} (hnone : db.map.lookup key = none) :
    db.slots = db.others key := by
  have hmap : db.map.erase key = db.map := by
    apply Finmap.ext_lookup
    intro other
    by_cases hother : other = key
    · subst hother
      rw [Finmap.lookup_erase, hnone]
    · rw [Finmap.lookup_erase_ne hother]
  rw [others, hmap]
  rfl

/-! ## The paths of `put` -/

/-- The table changes at one key, the counts stay right, and the references held
elsewhere read what they read before. -/
structure Overwrites (key value : Bytes) (held : Multiset ℕ) (before after : SharedDb) : Prop where
  owned : Owned after.heap (after.slots + held)
  view_self : after.view key = some value
  view_ne : ∀ other, key ≠ other → after.view other = before.view other
  held : ∀ cell ∈ held, after.heap.read cell = before.heap.read cell

variable {db : SharedDb} {key value : Bytes} {held : Multiset ℕ} {slot : ℕ}

/-- A view through cells that read the same is the same. -/
theorem view_congr {after : SharedDb} {other : Bytes}
    (hmap : after.map.lookup other = db.map.lookup other)
    (hread : ∀ cell, db.map.lookup other = some cell →
      after.heap.read cell = db.heap.read cell) : after.view other = db.view other := by
  rw [view, view, hmap]
  cases hcell : db.map.lookup other with
  | none => rfl
  | some cell => exact hread cell hcell

theorem overwrites_insert (howned : Owned db.heap (db.slots + held))
    (hnone : db.map.lookup key = none) :
    Overwrites key value held db
      ⟨(db.heap.alloc value).1, db.map.insert key (db.heap.alloc value).2⟩ := by
  refine ⟨?_, ?_, ?_, ?_⟩
  · rw [slots_insert, Multiset.cons_add, ← slots_of_none hnone]
    exact howned.alloc value
  · rw [view, Finmap.lookup_insert]
    exact Heap.read_alloc_self
  · intro other hne
    refine view_congr (Finmap.lookup_insert_of_ne _ hne.symm) fun cell hcell => ?_
    exact howned.read_alloc (Multiset.mem_add.mpr (Or.inl (mem_slots hcell)))
  · exact fun cell hcell => howned.read_alloc (Multiset.mem_add.mpr (Or.inr hcell))

theorem overwrites_inPlace (howned : Owned db.heap (db.slots + held))
    (hslot : db.map.lookup key = some slot) (hunique : db.heap.strong slot = 1) :
    Overwrites key value held db { db with heap := db.heap.write slot value } := by
  have hlive := howned.live (Multiset.mem_add.mpr (Or.inl (mem_slots hslot)))
  have hsplit := howned
  rw [slots_of_lookup hslot, Multiset.cons_add] at hsplit
  refine ⟨howned.write slot value, ?_, ?_, ?_⟩
  · rw [view, hslot]
    exact Heap.read_write_self hlive
  · intro other hne
    refine view_congr rfl fun cell hcell => ?_
    exact hsplit.read_write hunique (Multiset.mem_add.mpr (Or.inl (mem_others hne hcell)))
  · exact fun cell hcell => hsplit.read_write hunique (Multiset.mem_add.mpr (Or.inr hcell))

theorem overwrites_replace (howned : Owned db.heap (db.slots + held))
    (hslot : db.map.lookup key = some slot) :
    Overwrites key value held db
      ⟨(db.heap.alloc value).1.release slot, db.map.insert key (db.heap.alloc value).2⟩ := by
  refine ⟨?_, ?_, ?_, ?_⟩
  · have hfresh := howned.alloc value
    rw [slots_of_lookup hslot, Multiset.cons_add, Multiset.cons_swap] at hfresh
    rw [slots_insert, Multiset.cons_add]
    exact hfresh.release
  · rw [view, Finmap.lookup_insert, Option.bind_some, Heap.read_release]
    exact Heap.read_alloc_self
  · intro other hne
    refine view_congr (Finmap.lookup_insert_of_ne _ hne.symm) fun cell hcell => ?_
    rw [Heap.read_release]
    exact howned.read_alloc (Multiset.mem_add.mpr (Or.inl (mem_slots hcell)))
  · intro cell hcell
    rw [Heap.read_release]
    exact howned.read_alloc (Multiset.mem_add.mpr (Or.inr hcell))

/-- Whichever path it takes, `put` overwrites its key and nothing else. -/
theorem put_overwrites (howned : Owned db.heap (db.slots + held)) (key value : Bytes) :
    Overwrites key value held db (db.put key value) := by
  unfold put
  split
  next slot hslot =>
    split_ifs with hpath
    · exact overwrites_inPlace howned hslot hpath.2
    · exact overwrites_replace howned hslot
  next hnone => exact overwrites_insert howned hnone

/-- Nobody but the table holds its cells, and they hold the values of `table`. -/
def Holds (db : SharedDb) (table : Db) : Prop :=
  Owned db.heap db.slots ∧ ∀ key, db.view key = table.lookup key

theorem holds_new : new.Holds Db.new := ⟨owned_empty, fun _ => rfl⟩

/-- Every table of values is held by some table of cells. -/
theorem exists_holds (table : Db) : ∃ db : SharedDb, db.Holds table := by
  induction table using Finmap.induction_on with
  | H entries =>
      induction entries using AList.insertRec with
      | H0 => exact ⟨new, holds_new⟩
      | IH key value entries hkey ih =>
          obtain ⟨db, howned, hview⟩ := ih
          rw [← Multiset.add_zero db.slots] at howned
          have hput := put_overwrites howned key value
          refine ⟨db.put key value, ?_, ?_⟩
          · rw [← Multiset.add_zero (db.put key value).slots]
            exact hput.owned
          · intro other
            rw [← Finmap.insert_toFinmap]
            by_cases hother : key = other
            · subst hother
              rw [hput.view_self, Finmap.lookup_insert]
            · rw [hput.view_ne other hother, hview, Finmap.lookup_insert_of_ne _ (Ne.symm hother)]

end SharedDb

end InMemoryDb
