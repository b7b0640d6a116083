import Mathlib.Tactic

/-!
# Replacing a file atomically

A directory binds names to inodes.  Its updates since the last synchronisation are
pending: a crash keeps some of them, each as a whole, and leaves anything in a file
written since its last flush.  A file that is written under a scratch name, flushed and
then renamed is replaced as a whole: after a crash the name shows what it showed at the
last synchronisation, or what was renamed onto it since.
-/

namespace InMemoryDb.Directory

variable {ν β : Type*}

structure Inode (β : Type*) where
  content : β
  flushed : Bool

abbrev Names (ν : Type*) := ν → Option ℕ

/-- The names an update binds or unbinds. -/
abbrev Update (ν : Type*) := ν → Option (Option ℕ)

def apply (names : Names ν) (update : Update ν) : Names ν :=
  fun name => (update name).getD (names name)

/-- What the names mean after some updates. -/
def rebind (names : Names ν) (updates : List (Update ν)) : Names ν := updates.foldl apply names

/-- The updates a crash keeps. -/
def kept : List Bool → List (Update ν) → List (Update ν)
  | true :: keep, update :: updates => update :: kept keep updates
  | false :: keep, _ :: updates => kept keep updates
  | _, _ => []

structure Volume (ν β : Type*) where
  inodes : List (Inode β)
  durable : Names ν
  pending : List (Update ν)

namespace Volume

variable (volume : Volume ν β)

def names : Names ν := rebind volume.durable volume.pending

def content (inode : ℕ) : Option β := volume.inodes[inode]?.map Inode.content

/-- What the process reads under a name. -/
def read (name : ν) : Option β := (volume.names name).bind volume.content

/-- Everything a crash may leave the name bound to. -/
def bindings (name : ν) : List (Option ℕ) :=
  volume.durable name :: volume.pending.filterMap fun update => update name

/-- What the name may show after a crash, if none of these files is torn. -/
def versions (name : ν) : List (Option β) :=
  (volume.bindings name).map fun bound => bound.bind volume.content

def setInode (inode : ℕ) (value : Inode β) : Volume ν β :=
  { volume with inodes := volume.inodes.set inode value }

/-- An empty file under the name: the file that is there, truncated, or a new one. -/
def create [DecidableEq ν] (name : ν) (empty : β) : ℕ × Volume ν β :=
  match volume.names name with
  | some inode => (inode, volume.setInode inode ⟨empty, false⟩)
  | none =>
      (volume.inodes.length,
        { volume with
          inodes := volume.inodes ++ [⟨empty, false⟩]
          pending := volume.pending ++
            [fun other => if other = name then some (some volume.inodes.length) else none] })

def write (inode : ℕ) (change : β → β) : Volume ν β :=
  match volume.content inode with
  | some content => volume.setInode inode ⟨change content, false⟩
  | none => volume

def flush (inode : ℕ) : Volume ν β :=
  match volume.content inode with
  | some content => volume.setInode inode ⟨content, true⟩
  | none => volume

/-- One update takes the file from its old name and puts it under the new one. -/
def rename [DecidableEq ν] (source target : ν) : Volume ν β :=
  match volume.names source with
  | some inode =>
      { volume with
        pending := volume.pending ++
          [fun other =>
            if other = target then some (some inode)
            else if other = source then some none
            else none] }
  | none => volume

/-- The directory is written out. -/
def sync : Volume ν β := { volume with durable := volume.names, pending := [] }

/-- A crash, and the directory as it is found then. -/
def crash (keep : List Bool) (junk : List β) : Volume ν β :=
  { inodes := volume.inodes.mapIdx fun number inode =>
      if inode.flushed then inode else ⟨junk.getD number inode.content, true⟩
    durable := rebind volume.durable (kept keep volume.pending)
    pending := [] }

end Volume

/-! ## Bindings -/

theorem kept_sublist (keep : List Bool) (updates : List (Update ν)) :
    (kept keep updates).Sublist updates := by
  induction updates generalizing keep with
  | nil => cases keep with
    | nil => exact List.Sublist.refl _
    | cons bit keep => cases bit <;> exact List.Sublist.refl _
  | cons update updates ih =>
      cases keep with
      | nil => exact List.nil_sublist _
      | cons bit keep =>
          cases bit with
          | true => exact (ih keep).cons_cons update
          | false => exact (ih keep).cons update

theorem rebind_append (names : Names ν) (first second : List (Update ν)) :
    rebind names (first ++ second) = rebind (rebind names first) second := List.foldl_append

/-- A name is bound as before, or by one of the updates. -/
theorem rebind_mem (names : Names ν) (updates : List (Update ν)) (name : ν) :
    rebind names updates name ∈ names name :: updates.filterMap fun update => update name := by
  induction updates generalizing names with
  | nil => exact List.mem_cons_self
  | cons update updates ih =>
      have hmem := ih (apply names update)
      rw [rebind, List.foldl_cons, ← rebind]
      cases hbound : update name with
      | none =>
          have hsame : apply names update name = names name := by simp [apply, hbound]
          simp only [List.filterMap_cons, hbound, ← hsame]
          exact hmem
      | some bound =>
          have hnew : apply names update name = bound := by simp [apply, hbound]
          simp only [List.filterMap_cons, hbound, ← hnew]
          exact List.mem_cons_of_mem _ hmem

/-- A name is bound by the last of the updates that say anything about it. -/
theorem rebind_last (names : Names ν) (updates : List (Update ν)) (name : ν) :
    (names name :: updates.filterMap fun update => update name).getLast? =
      some (rebind names updates name) := by
  induction updates generalizing names with
  | nil => rfl
  | cons update updates ih =>
      have hlast := ih (apply names update)
      rw [rebind, List.foldl_cons, ← rebind, ← hlast]
      cases hbound : update name with
      | none =>
          have hsame : apply names update name = names name := by simp [apply, hbound]
          simp only [List.filterMap_cons, hbound, hsame]
      | some bound =>
          have hnew : apply names update name = bound := by simp [apply, hbound]
          simp only [List.filterMap_cons, hbound, hnew, List.getLast?_cons_cons]

namespace Volume

variable {volume : Volume ν β} {name : ν}

theorem names_mem (volume : Volume ν β) (name : ν) :
    volume.names name ∈ volume.bindings name := rebind_mem _ _ _

/-- Whatever updates a crash keeps, they leave the name bound as at one of these times. -/
theorem rebind_bindings {updates : List (Update ν)} (hupdates : updates.Sublist volume.pending)
    (name : ν) : rebind volume.durable updates name ∈ volume.bindings name := by
  refine (List.Sublist.cons_cons _ (hupdates.filterMap _)).mem (rebind_mem _ _ _)

theorem versions_last (volume : Volume ν β) (name : ν) :
    (volume.versions name).getLast? = some (volume.read name) := by
  rw [versions, List.getLast?_map, bindings, rebind_last]
  rfl

/-! ## A scratch name and a name that is only renamed onto -/

/-- The files a crash may leave under `target` are flushed, and none of them is the one
under `scratch`. -/
structure Apart (volume : Volume ν β) (scratch target : ν) : Prop where
  bounded : ∀ inode, some inode ∈ volume.bindings target ∨ some inode ∈ volume.bindings scratch →
    inode < volume.inodes.length
  sealed : ∀ inode, some inode ∈ volume.bindings target → ∀ file,
    volume.inodes[inode]? = some file → file.flushed = true
  unshared : ∀ inode, volume.names scratch = some inode → some inode ∉ volume.bindings target
  crossed : ∀ updates : List (Update ν), updates.Sublist volume.pending → ∀ inode,
    rebind volume.durable updates scratch = some inode →
      rebind volume.durable updates target ≠ some inode

variable {scratch target : ν}

theorem versions_congr {other : Volume ν β} (hbindings : other.bindings name = volume.bindings name)
    (hcontent : ∀ inode, some inode ∈ volume.bindings name →
      other.content inode = volume.content inode) :
    other.versions name = volume.versions name := by
  rw [versions, versions, hbindings]
  refine List.map_congr_left fun bound hbound => ?_
  cases bound with
  | none => rfl
  | some inode => exact hcontent inode hbound

/-- A file that is under neither name for good may change. -/
theorem Apart.setInode (hapart : volume.Apart scratch target) {inode : ℕ} (value : Inode β)
    (hinode : some inode ∉ volume.bindings target) :
    (volume.setInode inode value).Apart scratch target ∧
      (volume.setInode inode value).versions target = volume.versions target := by
  refine ⟨⟨?_, ?_, hapart.unshared, hapart.crossed⟩, versions_congr rfl ?_⟩
  · intro other hother
    rw [Volume.setInode, List.length_set]
    exact hapart.bounded other hother
  · intro other hother file hfile
    have hne : inode ≠ other := fun heq => hinode (heq ▸ hother)
    rw [Volume.setInode, List.getElem?_set_ne hne] at hfile
    exact hapart.sealed other hother file hfile
  · intro other hother
    have hne : inode ≠ other := fun heq => hinode (heq ▸ hother)
    rw [content, content, Volume.setInode, List.getElem?_set_ne hne]

theorem content_setInode {inode : ℕ} (value : Inode β) (hlt : inode < volume.inodes.length) :
    (volume.setInode inode value).inodes[inode]? = some value := by
  rw [setInode, List.getElem?_set_self hlt]

theorem Apart.lt_length (hapart : volume.Apart scratch target) {inode : ℕ}
    (hinode : volume.names scratch = some inode) : inode < volume.inodes.length :=
  hapart.bounded inode (Or.inr (hinode ▸ volume.names_mem scratch))

/-- A name that is bound for the first time. -/
theorem Apart.bind [DecidableEq ν] (hapart : volume.Apart scratch target)
    (hne : scratch ≠ target) (file : Inode β) {after : Volume ν β}
    (hafter : after = { volume with
      inodes := volume.inodes ++ [file]
      pending := volume.pending ++
        [fun other => if other = scratch then some (some volume.inodes.length) else none] }) :
    after.Apart scratch target ∧ after.versions target = volume.versions target ∧
      after.names scratch = some volume.inodes.length := by
  have hbindings : after.bindings target = volume.bindings target := by
    rw [hafter, bindings, List.filterMap_append]
    simp [bindings, hne.symm]
  have hscratch : after.bindings scratch =
      volume.bindings scratch ++ [some volume.inodes.length] := by
    rw [hafter, bindings, List.filterMap_append]
    simp [bindings]
  have hnames : after.names scratch = some volume.inodes.length := by
    rw [hafter, names, rebind_append]
    simp [rebind, apply]
  have hlength : after.inodes.length = volume.inodes.length + 1 := by simp [hafter]
  have hfresh : some volume.inodes.length ∉ volume.bindings target := fun hmem =>
    lt_irrefl _ (hapart.bounded _ (Or.inl hmem))
  refine ⟨⟨?_, ?_, ?_, ?_⟩, versions_congr hbindings ?_, hnames⟩
  · rintro inode (hmem | hmem)
    · rw [hbindings] at hmem
      rw [hlength]
      exact (hapart.bounded inode (Or.inl hmem)).trans (Nat.lt_succ_self _)
    · rw [hscratch, List.mem_append, List.mem_singleton] at hmem
      rw [hlength]
      rcases hmem with hold | hnew
      · exact (hapart.bounded inode (Or.inr hold)).trans (Nat.lt_succ_self _)
      · rw [Option.some.inj hnew]
        exact Nat.lt_succ_self _
  · intro inode hmem other hother
    rw [hbindings] at hmem
    rw [hafter, List.getElem?_append_left (hapart.bounded inode (Or.inl hmem))] at hother
    exact hapart.sealed inode hmem other hother
  · intro inode hinode
    rw [hnames, Option.some.injEq] at hinode
    rw [hbindings, ← hinode]
    exact hfresh
  · intro updates hupdates inode hinode htarget
    rw [hafter] at hupdates hinode htarget
    obtain ⟨front, back, rfl, hfront, hback⟩ := List.sublist_append_iff.mp hupdates
    have hbefore : rebind volume.durable front target = some inode := by
      rw [rebind_append] at htarget
      rcases List.sublist_singleton.mp hback with rfl | rfl
      · exact htarget
      · simpa [rebind, apply, hne.symm] using htarget
    rw [rebind_append] at hinode
    rcases List.sublist_singleton.mp hback with rfl | rfl
    · exact hapart.crossed front hfront inode hinode hbefore
    · have hlast : volume.inodes.length = inode := by simpa [rebind, apply] using hinode
      exact hfresh (hlast ▸ hbefore ▸ rebind_bindings hfront target)
  · intro inode hmem
    rw [content, content, hafter,
      List.getElem?_append_left (hapart.bounded inode (Or.inl hmem))]

theorem Apart.create [DecidableEq ν] (hapart : volume.Apart scratch target)
    (hne : scratch ≠ target) (empty : β) :
    (volume.create scratch empty).2.Apart scratch target ∧
      (volume.create scratch empty).2.versions target = volume.versions target ∧
      (volume.create scratch empty).2.names scratch = some (volume.create scratch empty).1 ∧
      (volume.create scratch empty).2.content (volume.create scratch empty).1 = some empty := by
  unfold Volume.create
  cases hnames : volume.names scratch with
  | some inode =>
      obtain ⟨hafter, hversions⟩ := hapart.setInode ⟨empty, false⟩ (hapart.unshared inode hnames)
      refine ⟨hafter, hversions, hnames, ?_⟩
      rw [content, content_setInode _ (hapart.lt_length hnames)]
      rfl
  | none =>
      obtain ⟨hafter, hversions, hbound⟩ := hapart.bind hne ⟨empty, false⟩ rfl
      refine ⟨hafter, hversions, hbound, ?_⟩
      simp [content]

/-- The scratch file is written. -/
theorem Apart.write (hapart : volume.Apart scratch target) {inode : ℕ} {value : β}
    (hnames : volume.names scratch = some inode) (hcontent : volume.content inode = some value)
    (change : β → β) :
    (volume.write inode change).Apart scratch target ∧
      (volume.write inode change).versions target = volume.versions target ∧
      (volume.write inode change).names scratch = some inode ∧
      (volume.write inode change).content inode = some (change value) := by
  unfold Volume.write
  simp only [hcontent]
  obtain ⟨hafter, hversions⟩ :=
    hapart.setInode ⟨change value, false⟩ (hapart.unshared inode hnames)
  refine ⟨hafter, hversions, hnames, ?_⟩
  rw [content, content_setInode _ (hapart.lt_length hnames)]
  rfl

theorem Apart.flush (hapart : volume.Apart scratch target) {inode : ℕ} {value : β}
    (hnames : volume.names scratch = some inode) (hcontent : volume.content inode = some value) :
    (volume.flush inode).Apart scratch target ∧
      (volume.flush inode).versions target = volume.versions target ∧
      (volume.flush inode).names scratch = some inode ∧
      (volume.flush inode).inodes[inode]? = some ⟨value, true⟩ := by
  unfold Volume.flush
  simp only [hcontent]
  obtain ⟨hafter, hversions⟩ := hapart.setInode ⟨value, true⟩ (hapart.unshared inode hnames)
  exact ⟨hafter, hversions, hnames, content_setInode _ (hapart.lt_length hnames)⟩

/-- A flushed scratch file becomes one more version. -/
theorem Apart.rename [DecidableEq ν] (hapart : volume.Apart scratch target)
    (hne : scratch ≠ target) {inode : ℕ} {value : β} (hnames : volume.names scratch = some inode)
    (hfile : volume.inodes[inode]? = some ⟨value, true⟩) :
    (volume.rename scratch target).Apart scratch target ∧
      (volume.rename scratch target).versions target = volume.versions target ++ [some value] := by
  unfold Volume.rename
  simp only [hnames]
  set update : Update ν := fun other =>
    if other = target then some (some inode) else if other = scratch then some none else none
    with hupdate
  have htarget : update target = some (some inode) := by simp [hupdate]
  have hscratch : update scratch = some none := by simp [hupdate, hne]
  have hbindings : ({ volume with pending := volume.pending ++ [update] } : Volume ν β).bindings
      target = volume.bindings target ++ [some inode] := by
    rw [bindings, List.filterMap_append]
    simp [bindings, htarget]
  have hbindings' : ({ volume with pending := volume.pending ++ [update] } : Volume ν β).bindings
      scratch = volume.bindings scratch ++ [none] := by
    rw [bindings, List.filterMap_append]
    simp [bindings, hscratch]
  refine ⟨⟨?_, ?_, ?_, ?_⟩, ?_⟩
  · intro other hother
    rw [hbindings, hbindings', List.mem_append, List.mem_append, List.mem_singleton,
      List.mem_singleton] at hother
    rcases hother with (hold | hnew) | (hold | hnone)
    · exact hapart.bounded other (Or.inl hold)
    · rw [Option.some.inj hnew]
      exact hapart.lt_length hnames
    · exact hapart.bounded other (Or.inr hold)
    · cases hnone
  · intro other hother file hother'
    rw [hbindings, List.mem_append, List.mem_singleton] at hother
    rcases hother with hold | hnew
    · exact hapart.sealed other hold file hother'
    · rw [Option.some.inj hnew] at hother'
      rw [← Option.some.inj (hfile.symm.trans hother')]
  · intro other hother
    rw [names, rebind_append] at hother
    simp [rebind, apply, hscratch] at hother
  · intro updates hupdates other hother
    obtain ⟨front, back, rfl, hfront, hback⟩ := List.sublist_append_iff.mp hupdates
    rw [rebind_append] at hother ⊢
    rcases List.sublist_singleton.mp hback with rfl | rfl
    · exact hapart.crossed front hfront other hother
    · simp [rebind, apply, hscratch] at hother
  · rw [versions, hbindings, List.map_append, versions]
    refine congrArg₂ (· ++ ·) rfl ?_
    change [volume.content inode] = [some value]
    rw [content, hfile]
    rfl

theorem bindings_sync (volume : Volume ν β) (name : ν) :
    volume.sync.bindings name = [volume.names name] := rfl

theorem Apart.sync (hapart : volume.Apart scratch target) :
    volume.sync.Apart scratch target ∧ volume.sync.versions target = [volume.read target] := by
  have hmem : ∀ name, ∀ inode, some inode ∈ volume.sync.bindings name →
      some inode ∈ volume.bindings name := by
    intro name inode hinode
    rw [bindings_sync, List.mem_singleton] at hinode
    rw [hinode]
    exact volume.names_mem name
  refine ⟨⟨?_, ?_, ?_, ?_⟩, rfl⟩
  · exact fun inode hinode => hapart.bounded inode
      (hinode.imp (hmem target inode) (hmem scratch inode))
  · exact fun inode hinode => hapart.sealed inode (hmem target inode hinode)
  · exact fun inode hnames hinode =>
      hapart.unshared inode hnames (hmem target inode hinode)
  · intro updates hupdates inode hnames htarget
    rw [List.sublist_nil.mp hupdates] at hnames htarget
    refine hapart.unshared inode hnames ?_
    rw [← show volume.names target = some inode from htarget]
    exact volume.names_mem target

theorem bindings_crash (volume : Volume ν β) (keep : List Bool) (junk : List β) (name : ν) :
    (volume.crash keep junk).bindings name =
      [rebind volume.durable (kept keep volume.pending) name] := rfl

/-- After a crash the name shows one of its versions, whole. -/
theorem Apart.crash (hapart : volume.Apart scratch target) (keep : List Bool) (junk : List β) :
    (volume.crash keep junk).Apart scratch target ∧
      ∃ version ∈ volume.versions target,
        (volume.crash keep junk).versions target = [version] := by
  have hkept := kept_sublist keep volume.pending
  have hmem : ∀ name, ∀ inode, some inode ∈ (volume.crash keep junk).bindings name →
      some inode ∈ volume.bindings name := by
    intro name inode hinode
    rw [bindings_crash, List.mem_singleton] at hinode
    rw [hinode]
    exact rebind_bindings hkept name
  have hfiles : ∀ inode, some inode ∈ volume.bindings target →
      (volume.crash keep junk).inodes[inode]? = volume.inodes[inode]? := by
    intro inode hinode
    rw [Volume.crash, List.getElem?_mapIdx]
    cases hfile : volume.inodes[inode]? with
    | none => rfl
    | some file => simp [hapart.sealed inode hinode file hfile]
  refine ⟨⟨?_, ?_, ?_, ?_⟩, ?_⟩
  · intro inode hinode
    rw [Volume.crash, List.length_mapIdx]
    exact hapart.bounded inode (hinode.imp (hmem target inode) (hmem scratch inode))
  · intro inode hinode file hfile
    have hbefore := hmem target inode hinode
    rw [hfiles inode hbefore] at hfile
    exact hapart.sealed inode hbefore file hfile
  · intro inode hnames hinode
    rw [bindings_crash, List.mem_singleton] at hinode
    exact hapart.crossed _ hkept inode hnames hinode.symm
  · intro updates hupdates inode hnames htarget
    rw [List.sublist_nil.mp hupdates] at hnames htarget
    exact hapart.crossed _ hkept inode hnames htarget
  · refine ⟨_, List.mem_map_of_mem (rebind_bindings hkept target), ?_⟩
    rw [versions, bindings_crash, List.map_singleton]
    cases hbound : rebind volume.durable (kept keep volume.pending) target with
    | none => rfl
    | some inode =>
        refine congrArg (fun value => [value]) ?_
        change (volume.crash keep junk).content inode = volume.content inode
        rw [content, content, hfiles inode (hbound ▸ rebind_bindings hkept target)]

theorem read_of_append {other : Volume ν β} {value : Option β}
    (hversions : other.versions name = volume.versions name ++ [value]) :
    other.read name = value := by
  have hlast := other.versions_last name
  rw [hversions, List.getLast?_append, List.getLast?_singleton] at hlast
  exact (Option.some.inj hlast).symm

theorem read_mem (volume : Volume ν β) (name : ν) : volume.read name ∈ volume.versions name :=
  List.mem_of_getLast? (volume.versions_last name)

theorem Apart.read_crash (hapart : volume.Apart scratch target) (keep : List Bool)
    (junk : List β) : (volume.crash keep junk).read target ∈ volume.versions target := by
  obtain ⟨-, version, hmem, hversions⟩ := hapart.crash keep junk
  have hread := (volume.crash keep junk).read_mem target
  rw [hversions, List.mem_singleton] at hread
  exact hread ▸ hmem

end Volume

end InMemoryDb.Directory
