import Mathlib.Tactic

/-!
# Finite maps listed in key order

A directory listing that is always sorted by key before use is the same data as
a finite map kept as a strictly increasing association list.  The order is a
field of the structure, so a map has exactly one representation and one
listing.
-/

namespace InMemoryDb

/-- A finite map from `κ` to `α`, listed by increasing key. -/
structure SortedMap (κ α : Type*) [LT κ] where
  entries : List (κ × α)
  sorted : entries.Pairwise fun left right => left.1 < right.1

namespace SortedMap

variable {κ α : Type*} [LinearOrder κ]

@[ext]
theorem ext {left right : SortedMap κ α} (h : left.entries = right.entries) :
    left = right := by
  cases left
  cases right
  simpa using h

def empty : SortedMap κ α := ⟨[], List.Pairwise.nil⟩

/-- The value stored under `key` in an association list. -/
def lookupList (key : κ) : List (κ × α) → Option α
  | [] => none
  | (other, value) :: rest =>
      if other = key then some value else lookupList key rest

def lookup (map : SortedMap κ α) (key : κ) : Option α :=
  lookupList key map.entries

/-- Store `value` under `key`, replacing an entry of that key. -/
def insertList (key : κ) (value : α) : List (κ × α) → List (κ × α)
  | [] => [(key, value)]
  | (other, old) :: rest =>
      if key < other then (key, value) :: (other, old) :: rest
      else if key = other then (key, value) :: rest
      else (other, old) :: insertList key value rest

theorem mem_insertList {key : κ} {value : α} {entries : List (κ × α)}
    {entry : κ × α} (hmem : entry ∈ insertList key value entries) :
    entry = (key, value) ∨ entry ∈ entries := by
  induction entries with
  | nil => simpa [insertList] using hmem
  | cons head rest ih =>
      obtain ⟨other, old⟩ := head
      simp only [insertList] at hmem
      split_ifs at hmem with hlt heq
      · simpa using hmem
      · rcases List.mem_cons.mp hmem with h | h
        · exact Or.inl h
        · exact Or.inr (List.mem_cons_of_mem _ h)
      · rcases List.mem_cons.mp hmem with h | h
        · exact Or.inr (by simp [h])
        · exact (ih h).imp_right (List.mem_cons_of_mem _)

theorem sorted_insertList (key : κ) (value : α) {entries : List (κ × α)}
    (hsorted : entries.Pairwise fun left right => left.1 < right.1) :
    (insertList key value entries).Pairwise fun left right => left.1 < right.1 := by
  induction entries with
  | nil => simp [insertList]
  | cons head rest ih =>
      obtain ⟨other, old⟩ := head
      obtain ⟨hhead, hrest⟩ := List.pairwise_cons.mp hsorted
      simp only [insertList]
      split_ifs with hlt heq
      · refine List.pairwise_cons.mpr ⟨?_, hsorted⟩
        intro entry hentry
        rcases List.mem_cons.mp hentry with rfl | h
        · exact hlt
        · exact hlt.trans (hhead entry h)
      · subst heq
        exact List.pairwise_cons.mpr ⟨hhead, hrest⟩
      · refine List.pairwise_cons.mpr ⟨?_, ih hrest⟩
        intro entry hentry
        rcases mem_insertList hentry with rfl | h
        · exact lt_of_le_of_ne (not_lt.mp hlt) (Ne.symm heq)
        · exact hhead entry h

def insert (map : SortedMap κ α) (key : κ) (value : α) : SortedMap κ α :=
  ⟨insertList key value map.entries, sorted_insertList key value map.sorted⟩

/-- Drop the entry of `key`, if there is one. -/
def erase (map : SortedMap κ α) (key : κ) : SortedMap κ α :=
  ⟨map.entries.filter fun entry => entry.1 ≠ key, map.sorted.filter _⟩

/-- Apply a function to every stored value. -/
def mapValues {β : Type*} (f : α → β) (map : SortedMap κ α) : SortedMap κ β :=
  ⟨map.entries.map fun entry => (entry.1, f entry.2),
    (List.pairwise_map.mpr map.sorted)⟩

theorem lookupList_insertList (key other : κ) (value : α) (entries : List (κ × α)) :
    lookupList other (insertList key value entries) =
      if key = other then some value else lookupList other entries := by
  induction entries with
  | nil => simp [insertList, lookupList]
  | cons head rest ih =>
      obtain ⟨found, old⟩ := head
      by_cases hlt : key < found
      · simp [insertList, hlt, lookupList]
      by_cases heq : key = found
      · subst heq
        by_cases hother : key = other <;> simp [insertList, lookupList, hother]
      by_cases hother : key = other
      · subst hother
        simp [insertList, hlt, heq, lookupList, Ne.symm heq, ih]
      · simp [insertList, hlt, heq, lookupList, ih, hother]

@[simp]
theorem lookup_insert_self (map : SortedMap κ α) (key : κ) (value : α) :
    (map.insert key value).lookup key = some value := by
  simp [lookup, insert, lookupList_insertList]

theorem lookup_insert_ne (map : SortedMap κ α) {key other : κ} (value : α)
    (hne : key ≠ other) : (map.insert key value).lookup other = map.lookup other := by
  simp [lookup, insert, lookupList_insertList, hne]

theorem lookup_erase_ne (map : SortedMap κ α) {key other : κ} (hne : key ≠ other) :
    (map.erase key).lookup other = map.lookup other := by
  obtain ⟨entries, hsorted⟩ := map
  simp only [lookup, erase]
  clear hsorted
  induction entries with
  | nil => rfl
  | cons head rest ih =>
      obtain ⟨found, old⟩ := head
      by_cases hfound : found = key
      · subst hfound
        simpa [lookupList, hne] using ih
      · by_cases hother : found = other
        · simp [lookupList, hother, Ne.symm hne]
        · simpa [lookupList, hfound, hother] using ih

theorem lookupList_eq_none {key : κ} {entries : List (κ × α)}
    (hne : ∀ entry ∈ entries, entry.1 ≠ key) : lookupList key entries = none := by
  induction entries with
  | nil => rfl
  | cons head rest ih =>
      obtain ⟨other, old⟩ := head
      rw [lookupList, if_neg (hne (other, old) (by simp)),
        ih fun entry h => hne entry (List.mem_cons_of_mem _ h)]

theorem ne_of_lookupList_eq_none {key : κ} {entries : List (κ × α)}
    (hnone : lookupList key entries = none) : ∀ entry ∈ entries, entry.1 ≠ key := by
  induction entries with
  | nil =>
      intro entry hentry
      cases hentry
  | cons head rest ih =>
      obtain ⟨other, old⟩ := head
      rw [lookupList] at hnone
      split_ifs at hnone with heq
      intro entry hentry
      rcases List.mem_cons.mp hentry with rfl | hrest
      · exact heq
      · exact ih hnone entry hrest

theorem lookup_erase_self (map : SortedMap κ α) (key : κ) : (map.erase key).lookup key = none :=
  lookupList_eq_none fun _ hentry => by simpa using (List.mem_filter.mp hentry).2

/-- What is found after an erasure was there before. -/
theorem lookup_of_lookup_erase (map : SortedMap κ α) {key other : κ} {value : α}
    (h : (map.erase key).lookup other = some value) : map.lookup other = some value := by
  by_cases hsame : key = other
  · subst hsame
    rw [lookup_erase_self] at h
    cases h
  · rwa [map.lookup_erase_ne hsame] at h

theorem lookupList_map {β : Type*} (f : α → β) (key : κ) (entries : List (κ × α)) :
    lookupList key (entries.map fun entry => (entry.1, f entry.2)) =
      (lookupList key entries).map f := by
  induction entries with
  | nil => rfl
  | cons head rest ih =>
      obtain ⟨found, old⟩ := head
      by_cases hfound : found = key <;> simp [lookupList, hfound, ih]

@[simp]
theorem lookup_mapValues {β : Type*} (f : α → β) (map : SortedMap κ α) (key : κ) :
    (map.mapValues f).lookup key = (map.lookup key).map f :=
  lookupList_map f key map.entries

theorem lookupList_of_lt {key : κ} {entries : List (κ × α)}
    (hlt : ∀ entry ∈ entries, key < entry.1) : lookupList key entries = none :=
  lookupList_eq_none fun entry hentry => (hlt entry hentry).ne'

/-- A map is determined by its lookups. -/
theorem ext_lookup {left right : SortedMap κ α}
    (h : ∀ key, left.lookup key = right.lookup key) : left = right := by
  obtain ⟨left, hleft⟩ := left
  obtain ⟨right, hright⟩ := right
  simp only [lookup] at h
  apply SortedMap.ext
  simp only
  induction left generalizing right with
  | nil =>
      cases right with
      | nil => rfl
      | cons entry rest => simpa [lookupList] using h entry.1
  | cons entry rest ih =>
      obtain ⟨key, value⟩ := entry
      obtain ⟨hkey, hrest⟩ := List.pairwise_cons.mp hleft
      cases right with
      | nil => simpa [lookupList] using h key
      | cons entry' rest' =>
          obtain ⟨key', value'⟩ := entry'
          obtain ⟨hkey', hrest'⟩ := List.pairwise_cons.mp hright
          -- the smaller of the two first keys would be missing on the other side
          have hsame : key = key' := by
            rcases lt_trichotomy key key' with hlt | heq | hlt
            · have hfound := h key
              rw [lookupList, if_pos rfl, lookupList, if_neg hlt.ne', lookupList_of_lt
                fun entry hentry => hlt.trans (hkey' entry hentry)] at hfound
              cases hfound
            · exact heq
            · have hfound := h key'
              rw [lookupList, if_neg hlt.ne', lookupList_of_lt
                (fun entry hentry => hlt.trans (hkey entry hentry)), lookupList,
                if_pos rfl] at hfound
              cases hfound
          subst hsame
          have hvalue : value = value' := by simpa [lookupList] using h key
          subst hvalue
          have htail : ∀ other, lookupList other rest = lookupList other rest' := by
            intro other
            by_cases hother : key = other
            · subst hother
              rw [lookupList_of_lt hkey, lookupList_of_lt hkey']
            · simpa [lookupList, hother] using h other
          rw [ih hrest rest' hrest' htail]

/-- A key is stored behind all smaller ones. -/
theorem insertList_append {key : κ} (value : α) {front : List (κ × α)}
    (hfront : ∀ entry ∈ front, entry.1 < key) (rest : List (κ × α)) :
    insertList key value (front ++ rest) = front ++ insertList key value rest := by
  induction front with
  | nil => rfl
  | cons head front ih =>
      obtain ⟨other, old⟩ := head
      have hother : other < key := hfront (other, old) (by simp)
      rw [List.cons_append, insertList, if_neg (not_lt.mpr hother.le), if_neg hother.ne',
        ih fun entry h => hfront entry (List.mem_cons_of_mem _ h)]
      rfl

/-- A key above all others goes to the end of the listing. -/
theorem entries_insert_last (map : SortedMap κ α) {key : κ} (value : α)
    (hlast : ∀ entry ∈ map.entries, entry.1 < key) :
    (map.insert key value).entries = map.entries ++ [(key, value)] := by
  have happend := insertList_append value hlast []
  rw [List.append_nil] at happend
  exact happend

theorem front_lt (map : SortedMap κ α) {front back : List (κ × α)} {entry : κ × α}
    (hentries : map.entries = front ++ entry :: back) : ∀ other ∈ front, other.1 < entry.1 := by
  have hsorted := map.sorted
  rw [hentries] at hsorted
  exact fun other hother =>
    (List.pairwise_append.mp hsorted).2.2 other hother entry List.mem_cons_self

/-- Replacing a value leaves the rest of the listing. -/
theorem entries_insert_replace (map : SortedMap κ α) {key : κ} (value : α) {old : α}
    {front back : List (κ × α)} (hentries : map.entries = front ++ (key, old) :: back) :
    (map.insert key value).entries = front ++ (key, value) :: back := by
  have hfront : ∀ other ∈ front, other.1 < key := map.front_lt hentries
  change insertList key value map.entries = _
  rw [hentries, insertList_append value hfront, insertList, if_neg (lt_irrefl key), if_pos rfl]

/-- Storing a larger key leaves the listing up to an entry as it is. -/
theorem entries_insert_behind (map : SortedMap κ α) {key : κ} (value : α)
    {front back : List (κ × α)} {entry : κ × α} (hentries : map.entries = front ++ entry :: back)
    (hlt : entry.1 < key) :
    ∃ back', (map.insert key value).entries = front ++ entry :: back' := by
  refine ⟨insertList key value back, ?_⟩
  have hfront : ∀ other ∈ front ++ [entry], other.1 < key := by
    intro other hother
    rcases List.mem_append.mp hother with hmem | hmem
    · exact (map.front_lt hentries other hmem).trans hlt
    · rw [List.mem_singleton.mp hmem]
      exact hlt
  have happend := insertList_append value hfront back
  rw [List.append_assoc, List.append_assoc] at happend
  change insertList key value map.entries = _
  rw [hentries]
  exact happend

theorem lookupList_append_right {key : κ} {front : List (κ × α)} (back : List (κ × α))
    (hne : ∀ entry ∈ front, entry.1 ≠ key) :
    lookupList key (front ++ back) = lookupList key back := by
  induction front with
  | nil => rfl
  | cons head rest ih =>
      obtain ⟨other, old⟩ := head
      rw [List.cons_append, lookupList, if_neg (hne (other, old) (by simp)),
        ih fun entry h => hne entry (List.mem_cons_of_mem _ h)]

theorem mem_of_lookupList {key : κ} {value : α} {entries : List (κ × α)}
    (hfound : lookupList key entries = some value) : (key, value) ∈ entries := by
  induction entries with
  | nil => cases hfound
  | cons head rest ih =>
      obtain ⟨other, old⟩ := head
      rw [lookupList] at hfound
      split_ifs at hfound with heq
      · rw [Option.some.injEq] at hfound
        rw [heq, hfound]
        exact List.mem_cons_self
      · exact List.mem_cons_of_mem _ (ih hfound)

/-- The listing has exactly what is stored. -/
theorem mem_entries {map : SortedMap κ α} {key : κ} {value : α} :
    (key, value) ∈ map.entries ↔ map.lookup key = some value := by
  refine ⟨?_, mem_of_lookupList⟩
  intro hmem
  obtain ⟨front, back, hsplit⟩ := List.append_of_mem hmem
  have hfront : ∀ entry ∈ front, entry.1 ≠ key := fun entry hentry =>
    (map.front_lt hsplit entry hentry).ne
  rw [lookup, hsplit, lookupList_append_right _ hfront, lookupList, if_pos rfl]

theorem keys_sorted (map : SortedMap κ α) : (map.entries.map Prod.fst).Pairwise (· < ·) :=
  List.pairwise_map.mpr map.sorted

/-- The listing with a key at or above all others: the rest, and that key at the
end, whatever is stored under it. -/
theorem insert_top (map : SortedMap κ α) {key : κ}
    (htop : ∀ entry ∈ map.entries, entry.1 ≤ key) :
    ∃ front, (∀ value, (map.insert key value).entries = front ++ [(key, value)]) ∧
      ((map.entries = front ∧ map.lookup key = none) ∨
        ∃ old, map.entries = front ++ [(key, old)] ∧ map.lookup key = some old) := by
  cases hfound : map.lookup key with
  | none =>
      have hlt : ∀ entry ∈ map.entries, entry.1 < key := by
        intro entry hentry
        refine lt_of_le_of_ne (htop entry hentry) fun heq => ?_
        exact ne_of_lookupList_eq_none hfound entry hentry heq
      exact ⟨map.entries, fun value => map.entries_insert_last value hlt, Or.inl ⟨rfl, rfl⟩⟩
  | some old =>
      obtain ⟨front, back, hsplit⟩ := List.append_of_mem (mem_of_lookupList hfound)
      have hsorted := map.sorted
      rw [hsplit] at hsorted
      have hback : back = [] := by
        refine List.eq_nil_iff_forall_not_mem.mpr fun entry hentry => ?_
        have hlt := (List.pairwise_cons.mp (List.pairwise_append.mp hsorted).2.1).1 entry hentry
        exact absurd (htop entry (by rw [hsplit]; simp [hentry])) (not_le.mpr hlt)
      subst hback
      exact ⟨front, fun value => map.entries_insert_replace value hsplit,
        Or.inr ⟨old, hsplit, rfl⟩⟩

end SortedMap

end InMemoryDb
