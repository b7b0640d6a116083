import Mathlib.Data.List.Infix
import Mathlib.Tactic

/-!
# Sequences in the order of a key

A sequence in increasing order of a key is consumed from the front if whatever
is taken next has nothing below it left behind.  One in non-decreasing order is
the concatenation of its groups, key by key.
-/

namespace InMemoryDb.Sequence

variable {α : Type*} {key : α → ℕ}

/-- A lower set of an increasing sequence, listed in increasing order, is a
prefix of it. -/
theorem isPrefix_of_lower {next rest : List α}
    (hrest : rest.Pairwise fun early late => key early < key late)
    (hnext : next.Pairwise fun early late => key early < key late)
    (hsub : ∀ elem ∈ next, elem ∈ rest)
    (hlower : ∀ elem ∈ next, ∀ other ∈ rest, key other < key elem → other ∈ next) :
    next <+: rest := by
  induction rest generalizing next with
  | nil =>
      have hnil : next = [] := List.eq_nil_iff_forall_not_mem.mpr fun elem helem =>
        List.not_mem_nil (hsub elem helem)
      rw [hnil]
  | cons head rest ih =>
      cases next with
      | nil => exact List.nil_prefix
      | cons first next =>
          obtain ⟨hhead, htail⟩ := List.pairwise_cons.mp hrest
          obtain ⟨hfirst, hlater⟩ := List.pairwise_cons.mp hnext
          have heq : first = head := by
            rcases List.mem_cons.mp (hsub first List.mem_cons_self) with heq | hmem
            · exact heq
            · have hbelow := hlower first List.mem_cons_self head List.mem_cons_self
                (hhead first hmem)
              rcases List.mem_cons.mp hbelow with heq | hmore
              · exact heq.symm
              · exact absurd (hfirst head hmore) (Nat.lt_asymm (hhead first hmem))
          subst heq
          refine List.prefix_cons_inj first |>.mpr (ih htail hlater ?_ ?_)
          · intro elem helem
            rcases List.mem_cons.mp (hsub elem (List.mem_cons_of_mem _ helem)) with rfl | hmem
            · exact absurd (hfirst _ helem) (lt_irrefl _)
            · exact hmem
          · intro elem helem other hother hlt
            have hbelow := hlower elem (List.mem_cons_of_mem _ helem) other
              (List.mem_cons_of_mem _ hother) hlt
            rcases List.mem_cons.mp hbelow with rfl | hmem
            · exact absurd (hhead _ hother) (lt_irrefl _)
            · exact hmem

/-- What is taken next extends the prefix that was taken before. -/
theorem isPrefix_append_of_lower {whole front next : List α}
    (hwhole : whole.Pairwise fun early late => key early < key late)
    (hfront : front <+: whole)
    (hnext : next.Pairwise fun early late => key early < key late)
    (hsub : ∀ elem ∈ next, elem ∈ whole) (hnew : ∀ elem ∈ next, elem ∉ front)
    (hlower : ∀ elem ∈ next, ∀ other ∈ whole, key other < key elem →
      other ∈ front ∨ other ∈ next) : front ++ next <+: whole := by
  obtain ⟨rest, rfl⟩ := hfront
  obtain ⟨-, hrest, hcross⟩ := List.pairwise_append.mp hwhole
  refine (List.prefix_append_right_inj front).mpr (isPrefix_of_lower hrest hnext ?_ ?_)
  · intro elem helem
    exact (List.mem_append.mp (hsub elem helem)).resolve_left (hnew elem helem)
  · intro elem helem other hother hlt
    refine (hlower elem helem other (List.mem_append_right _ hother) hlt).resolve_left ?_
    intro hmem
    exact absurd (hcross other hmem other hother) (lt_irrefl _)

theorem getElem?_of_isPrefix {front whole : List α} (hfront : front <+: whole) {position : ℕ}
    {elem : α} (helem : front[position]? = some elem) : whole[position]? = some elem := by
  obtain ⟨hlt, heq⟩ := List.getElem?_eq_some_iff.mp helem
  rw [List.prefix_iff_getElem?.mp hfront position hlt, heq]

/-- A prefix and the element behind it. -/
theorem concat_isPrefix {front whole : List α} (hfront : front <+: whole) {last : α}
    (hlast : whole[front.length]? = some last) : front ++ [last] <+: whole := by
  obtain ⟨rest, rfl⟩ := hfront
  rw [List.getElem?_append_right le_rfl, Nat.sub_self] at hlast
  obtain ⟨tail, rfl⟩ : ∃ tail, rest = last :: tail := by
    cases rest with
    | nil => cases hlast
    | cons head tail => exact ⟨tail, by rw [Option.some.inj hlast]⟩
  exact ⟨tail, by rw [List.append_assoc, List.singleton_append]⟩

/-! ## Growing at the end -/

/-- A property of each element and those before it, when an element is added. -/
theorem forall_split_snoc {property : List α → α → Prop} {items : List α}
    (hitems : ∀ front item back, items = front ++ item :: back → property front item) {last : α}
    (hlast : property items last) :
    ∀ front item back, items ++ [last] = front ++ item :: back → property front item := by
  intro front item back hsplit
  rcases List.eq_nil_or_concat back with rfl | ⟨back, other, rfl⟩
  · obtain ⟨rfl, hsame⟩ := List.append_inj' hsplit rfl
    rw [← (List.cons.inj hsame).1]
    exact hlast
  · rw [List.concat_eq_append, ← List.cons_append, ← List.append_assoc] at hsplit
    exact hitems front item back (List.append_inj' hsplit rfl).1

/-- A relation of each element to those before it holds pairwise. -/
theorem pairwise_of_split {relation : α → α → Prop} {items : List α}
    (hitems : ∀ front item back, items = front ++ item :: back →
      ∀ earlier ∈ front, relation earlier item) : items.Pairwise relation := by
  induction items using List.reverseRecOn with
  | nil => exact List.Pairwise.nil
  | append_singleton front last ih =>
      refine List.pairwise_append.mpr ⟨ih ?_, List.pairwise_singleton _ _, ?_⟩
      · intro before item behind hsplit
        exact hitems before item (behind ++ [last]) (by rw [hsplit]; simp)
      · intro earlier hearlier later hlater
        rw [List.mem_singleton.mp hlater]
        exact hitems front last [] rfl earlier hearlier

/-! ## Groups -/

/-- The elements with the least key come first. -/
theorem filter_least_append {items : List α}
    (hordered : items.Pairwise fun early late => key early ≤ key late) {least : ℕ}
    (hleast : ∀ item ∈ items, least ≤ key item) :
    (items.filter fun item => key item = least) ++ (items.filter fun item => key item ≠ least) =
      items := by
  induction items with
  | nil => rfl
  | cons head items ih =>
      obtain ⟨hhead, hrest⟩ := List.pairwise_cons.mp hordered
      by_cases heq : key head = least
      · rw [List.filter_cons_of_pos (by simpa using heq),
          List.filter_cons_of_neg (by simpa using heq), List.cons_append,
          ih hrest fun item hitem => hleast item (List.mem_cons_of_mem _ hitem)]
      · have hlt : least < key head := lt_of_le_of_ne (hleast head List.mem_cons_self) (Ne.symm heq)
        have hnone : ∀ item ∈ head :: items, key item ≠ least := by
          intro item hitem
          rcases List.mem_cons.mp hitem with rfl | hmem
          · exact heq
          · exact (lt_of_lt_of_le hlt (hhead item hmem)).ne'
        rw [List.filter_eq_nil_iff.mpr fun item hitem => by simpa using hnone item hitem,
          List.filter_eq_self.mpr fun item hitem => by simpa using hnone item hitem,
          List.nil_append]

/-- A sequence in the order of its keys is the concatenation of its groups, over any
increasing list that has all the keys. -/
theorem flatMap_groups {items : List α}
    (hordered : items.Pairwise fun early late => key early ≤ key late) {keys : List ℕ}
    (hkeys : keys.Pairwise (· < ·)) (hall : ∀ item ∈ items, key item ∈ keys) :
    (keys.flatMap fun name => items.filter fun item => key item = name) = items := by
  induction keys generalizing items with
  | nil =>
      rw [List.eq_nil_iff_forall_not_mem.mpr fun item hitem => List.not_mem_nil (hall item hitem)]
      rfl
  | cons least keys ih =>
      obtain ⟨hleast, hrest⟩ := List.pairwise_cons.mp hkeys
      have hbounds : ∀ item ∈ items, least ≤ key item := by
        intro item hitem
        rcases List.mem_cons.mp (hall item hitem) with heq | hmem
        · exact heq.ge
        · exact (hleast _ hmem).le
      have hothers : (keys.flatMap fun name => items.filter fun item => key item = name) =
          items.filter fun item => key item ≠ least := by
        have hgroups : ∀ name ∈ keys, (items.filter fun item => key item = name) =
            (items.filter fun item => key item ≠ least).filter fun item => key item = name := by
          intro name hname
          rw [List.filter_filter]
          apply List.filter_congr
          intro item _
          have hne := (hleast name hname).ne'
          by_cases heq : key item = name
          · simp [heq, hne]
          · simp [heq]
        rw [List.flatMap_congr hgroups]
        apply ih (hordered.filter _) hrest
        intro item hitem
        obtain ⟨hmem, hne⟩ := List.mem_filter.mp hitem
        exact (List.mem_cons.mp (hall item hmem)).resolve_left (by simpa using hne)
      rw [List.flatMap_cons, hothers, filter_least_append hordered hbounds]

end InMemoryDb.Sequence
