import Mathlib.Tactic

/-!
# Self-delimiting frames

A decoder that takes one frame off the front of a buffer, run until it finds no
more.  On any cut of a concatenation of frames it returns the frames that lie
wholly before the cut and keeps the rest, and so it does when the bytes arrive
in chunks.  On bytes that are no frames of anything, what it returns still does
not depend on how they arrive, as long as later bytes never change its mind.
-/

namespace InMemoryDb.Frames

variable {α β : Type*}

/-- The decoder inverts the encoder at the front of a buffer and waits on a frame
that has not arrived in full. -/
structure Delimits (encode : α → List β) (decode : List β → Option (α × List β))
    (good : α → Prop) : Prop where
  nonempty : ∀ item, good item → 0 < (encode item).length
  whole : ∀ item, good item → ∀ rest, decode (encode item ++ rest) = some (item, rest)
  short : ∀ item, good item → ∀ cut < (encode item).length,
    decode ((encode item).take cut) = none

/-- Take frames off the front until the decoder finds none. -/
def drainLoop (decode : List β → Option (α × List β)) : ℕ → List β → List α × List β
  | 0, buffer => ([], buffer)
  | fuel + 1, buffer =>
      match decode buffer with
      | none => ([], buffer)
      | some (item, rest) =>
          (item :: (drainLoop decode fuel rest).1, (drainLoop decode fuel rest).2)

/-- A frame takes at least one byte, so the buffer's length bounds the rounds. -/
def drain (decode : List β → Option (α × List β)) (buffer : List β) : List α × List β :=
  drainLoop decode buffer.length buffer

/-- The bytes of a list of frames. -/
def stream (encode : α → List β) (items : List α) : List β := items.flatMap encode

/-- How many of the frames lie wholly in the first `cut` bytes. -/
def wholeCount (encode : α → List β) : List α → ℕ → ℕ
  | [], _ => 0
  | item :: items, cut =>
      if (encode item).length ≤ cut then
        wholeCount encode items (cut - (encode item).length) + 1
      else 0

section Count

variable (encode : α → List β)

@[simp]
theorem stream_nil : stream encode [] = [] := rfl

@[simp]
theorem stream_cons (item : α) (items : List α) :
    stream encode (item :: items) = encode item ++ stream encode items := rfl

theorem wholeCount_le (items : List α) (cut : ℕ) : wholeCount encode items cut ≤ items.length := by
  induction items generalizing cut with
  | nil => exact le_refl _
  | cons item items ih =>
      rw [wholeCount, List.length_cons]
      split_ifs with hfits
      · exact Nat.succ_le_succ (ih _)
      · exact Nat.zero_le _

/-- The frames counted are those that end before the cut. -/
theorem le_wholeCount_iff (items : List α) (cut count : ℕ) (hcount : count ≤ items.length) :
    count ≤ wholeCount encode items cut ↔
      (stream encode (items.take count)).length ≤ cut := by
  induction items generalizing cut count with
  | nil =>
      have hzero : count = 0 := by simpa using hcount
      simp [hzero, wholeCount]
  | cons item items ih =>
      cases count with
      | zero => simp
      | succ count =>
          have hrest : count ≤ items.length := by simpa using hcount
          rw [wholeCount, List.take_succ_cons, stream_cons, List.length_append]
          split_ifs with hfits
          · rw [Nat.succ_le_succ_iff, ih _ _ hrest]
            omega
          · constructor
            · intro h
              omega
            · intro h
              omega

theorem wholeCount_mono (items : List α) {cut later : ℕ} (hcut : cut ≤ later) :
    wholeCount encode items cut ≤ wholeCount encode items later := by
  have hcount := wholeCount_le encode items cut
  rw [le_wholeCount_iff encode items later _ hcount]
  exact ((le_wholeCount_iff encode items cut _ hcount).mp le_rfl).trans hcut

theorem wholeCount_stream (items : List α) :
    wholeCount encode items (stream encode items).length = items.length := by
  apply le_antisymm (wholeCount_le encode items _)
  rw [le_wholeCount_iff encode items _ _ le_rfl, List.take_length]

@[simp]
theorem stream_append (front back : List α) :
    stream encode (front ++ back) = stream encode front ++ stream encode back :=
  List.flatMap_append

/-- Frames known to lie before the cut may be counted first. -/
theorem wholeCount_drop (items : List α) {cut count : ℕ} (hcount : count ≤ items.length)
    (hcut : (stream encode (items.take count)).length ≤ cut) :
    wholeCount encode items cut =
      count + wholeCount encode (items.drop count)
        (cut - (stream encode (items.take count)).length) := by
  induction items generalizing cut count with
  | nil =>
      have hzero : count = 0 := by simpa using hcount
      simp [hzero]
  | cons item items ih =>
      cases count with
      | zero => simp
      | succ count =>
          have hrest : count ≤ items.length := by simpa using hcount
          rw [List.take_succ_cons, stream_cons, List.length_append] at hcut ⊢
          rw [wholeCount, if_pos (by omega), ih hrest (by omega), List.drop_succ_cons,
            Nat.sub_add_eq]
          omega

/-- The bytes before the cut that belong to no whole frame. -/
def leftover (items : List α) (cut : ℕ) : List β :=
  (stream encode (items.drop (wholeCount encode items cut))).take
    (cut - (stream encode (items.take (wholeCount encode items cut))).length)

/-- A cut of a stream is its whole frames and what is left over. -/
theorem take_stream (items : List α) (cut : ℕ) :
    (stream encode items).take cut =
      stream encode (items.take (wholeCount encode items cut)) ++ leftover encode items cut := by
  have hfits := (le_wholeCount_iff encode items cut _ (wholeCount_le encode items cut)).mp le_rfl
  have hsplit : stream encode items =
      stream encode (items.take (wholeCount encode items cut)) ++
        stream encode (items.drop (wholeCount encode items cut)) := by
    rw [← stream_append, List.take_append_drop]
  conv_lhs => rw [hsplit, List.take_append, List.take_of_length_le hfits]
  rfl

theorem leftover_drop (items : List α) {cut count : ℕ} (hcount : count ≤ items.length)
    (hcut : (stream encode (items.take count)).length ≤ cut) :
    leftover encode items cut =
      leftover encode (items.drop count) (cut - (stream encode (items.take count)).length) := by
  rw [leftover, leftover, wholeCount_drop encode items hcount hcut, List.drop_drop,
    List.take_add, stream_append, List.length_append, Nat.sub_add_eq]

theorem leftover_stream (items : List α) :
    leftover encode items (stream encode items).length = [] := by
  rw [leftover, wholeCount_stream, List.drop_length, stream_nil, List.take_nil]

/-- What is left over is less than the next frame. -/
theorem leftover_short (items : List α) (cut : ℕ) :
    leftover encode items cut = [] ∨ ∃ item ∈ items, ∃ part < (encode item).length,
      leftover encode items cut = (encode item).take part := by
  induction items generalizing cut with
  | nil =>
      left
      rw [leftover, List.drop_nil, stream_nil, List.take_nil]
  | cons item items ih =>
      rw [leftover, wholeCount]
      split_ifs with hfits
      · rw [List.take_succ_cons, List.drop_succ_cons, stream_cons, List.length_append,
          Nat.sub_add_eq]
        refine (ih (cut - (encode item).length)).imp_right ?_
        rintro ⟨other, hother, part, hpart⟩
        exact ⟨other, List.mem_cons_of_mem _ hother, part, hpart⟩
      · right
        refine ⟨item, List.mem_cons_self, cut, by omega, ?_⟩
        rw [List.take_zero, List.drop_zero, stream_nil, List.length_nil, Nat.sub_zero, stream_cons,
          List.take_append_of_le_length (by omega)]

/-- Nothing is left over exactly when the cut is between two frames. -/
theorem leftover_eq_nil_iff (items : List α) {cut : ℕ}
    (hcut : cut ≤ (stream encode items).length) :
    leftover encode items cut = [] ↔
      ∃ count ≤ items.length, cut = (stream encode (items.take count)).length := by
  have hcount := wholeCount_le encode items cut
  constructor
  · intro hnil
    refine ⟨wholeCount encode items cut, hcount, ?_⟩
    have hlength := congrArg List.length (take_stream encode items cut)
    rw [List.length_take_of_le hcut, hnil, List.append_nil] at hlength
    exact hlength
  · rintro ⟨count, hle, rfl⟩
    rw [leftover_drop encode items hle le_rfl, Nat.sub_self, leftover, Nat.zero_sub, List.take_zero]

end Count

section Drain

variable {encode : α → List β} {decode : List β → Option (α × List β)} {good : α → Prop}

/-- What is decoded from a part of a stream is the first frame of the stream. -/
theorem Delimits.decode_within (hframes : Delimits encode decode good) (hnil : decode [] = none)
    {items : List α} (hitems : ∀ item ∈ items, good item) {buffer : List β}
    (hwithin : buffer <+: stream encode items) {item : α} {rest : List β}
    (hdecode : decode buffer = some (item, rest)) :
    ∃ more, items = item :: more ∧ buffer = encode item ++ rest := by
  cases items with
  | nil =>
      rw [List.prefix_nil.mp hwithin, hnil] at hdecode
      cases hdecode
  | cons first more =>
      have hfirst : good first := hitems first List.mem_cons_self
      rw [stream_cons] at hwithin
      by_cases hfits : (encode first).length ≤ buffer.length
      · obtain ⟨tail, rfl⟩ :=
          List.prefix_of_prefix_length_le (List.prefix_append _ _) hwithin hfits
        rw [hframes.whole first hfirst, Option.some.injEq, Prod.mk.injEq] at hdecode
        obtain ⟨rfl, rfl⟩ := hdecode
        exact ⟨more, rfl, rfl⟩
      · have hpart : buffer <+: encode first :=
          List.prefix_of_prefix_length_le hwithin (List.prefix_append _ _) (by omega)
        rw [List.prefix_iff_eq_take.mp hpart, hframes.short first hfirst _ (by omega)] at hdecode
        cases hdecode

theorem drainLoop_none {buffer : List β} (hnone : decode buffer = none) (fuel : ℕ) :
    drainLoop decode fuel buffer = ([], buffer) := by
  cases fuel with
  | zero => rfl
  | succ fuel => rw [drainLoop, hnone]

/-- Any cut of a stream of frames is drained to its whole frames and the rest. -/
theorem drainLoop_take (hframes : Delimits encode decode good) (hnil : decode [] = none)
    {items : List α} (hitems : ∀ item ∈ items, good item) (cut fuel : ℕ)
    (hfuel : ((stream encode items).take cut).length ≤ fuel) :
    drainLoop decode fuel ((stream encode items).take cut) =
      (items.take (wholeCount encode items cut), leftover encode items cut) := by
  induction items generalizing cut fuel with
  | nil =>
      rw [stream_nil, List.take_nil, drainLoop_none hnil]
      simp [leftover, wholeCount]
  | cons item items ih =>
      have hitem : good item := hitems item List.mem_cons_self
      have hpos := hframes.nonempty item hitem
      by_cases hfits : (encode item).length ≤ cut
      · obtain ⟨more, rfl⟩ := Nat.exists_eq_add_of_le hfits
        have htake : (stream encode (item :: items)).take ((encode item).length + more) =
            encode item ++ (stream encode items).take more := by
          rw [stream_cons, List.take_length_add_append]
        rw [htake] at hfuel ⊢
        cases fuel with
        | zero =>
            rw [List.length_append] at hfuel
            omega
        | succ fuel =>
            have hrest := ih (fun other hother => hitems other (List.mem_cons_of_mem _ hother))
              more fuel (by rw [List.length_append] at hfuel; omega)
            rw [drainLoop, hframes.whole item hitem]
            simp only [hrest]
            rw [leftover, leftover, wholeCount, if_pos (Nat.le_add_right _ _),
              Nat.add_sub_cancel_left, List.take_succ_cons, List.drop_succ_cons, stream_cons,
              List.length_append, Nat.add_sub_add_left]
      · have htake : (stream encode (item :: items)).take cut = (encode item).take cut := by
          rw [stream_cons, List.take_append_of_le_length (by omega)]
        rw [htake, drainLoop_none (hframes.short item hitem cut (by omega)), leftover, wholeCount,
          if_neg hfits, List.take_zero, List.drop_zero, stream_nil, List.length_nil, Nat.sub_zero,
          htake]

theorem drain_take (hframes : Delimits encode decode good) (hnil : decode [] = none)
    {items : List α} (hitems : ∀ item ∈ items, good item) (cut : ℕ) :
    drain decode ((stream encode items).take cut) =
      (items.take (wholeCount encode items cut), leftover encode items cut) :=
  drainLoop_take hframes hnil hitems cut _ le_rfl

/-- A chunk that continues what has arrived so far completes the frames between
the two cuts. -/
theorem drain_chunk (hframes : Delimits encode decode good) (hnil : decode [] = none)
    {items : List α} (hitems : ∀ item ∈ items, good item) {received chunk : List β}
    (hwithin : received ++ chunk <+: stream encode items) :
    items.take (wholeCount encode items received.length) ++
        (drain decode (leftover encode items received.length ++ chunk)).1 =
      items.take (wholeCount encode items (received ++ chunk).length) ∧
    (drain decode (leftover encode items received.length ++ chunk)).2 =
      leftover encode items (received ++ chunk).length := by
  set count := wholeCount encode items received.length with hdef
  have hcount : count ≤ items.length := wholeCount_le encode items _
  have hfits : (stream encode (items.take count)).length ≤ received.length :=
    (le_wholeCount_iff encode items _ _ hcount).mp le_rfl
  have hlater : (stream encode (items.take count)).length ≤ (received ++ chunk).length := by
    rw [List.length_append]
    omega
  have hreceived : received = (stream encode items).take received.length :=
    List.prefix_iff_eq_take.mp ((List.prefix_append _ _).trans hwithin)
  have hboth : received ++ chunk = (stream encode items).take (received ++ chunk).length :=
    List.prefix_iff_eq_take.mp hwithin
  have hsplit : stream encode items =
      stream encode (items.take count) ++ stream encode (items.drop count) := by
    rw [← stream_append, List.take_append_drop]
  have hbuffer : leftover encode items received.length ++ chunk =
      (stream encode (items.drop count)).take
        ((received ++ chunk).length - (stream encode (items.take count)).length) := by
    apply @List.append_cancel_left _ (stream encode (items.take count))
    rw [← List.append_assoc, ← take_stream, ← hreceived, hboth]
    conv_lhs => rw [hsplit, List.take_append, List.take_of_length_le hlater]
    rw [List.length_take_of_le hwithin.length_le]
  rw [hbuffer, drain_take hframes hnil fun item hitem => hitems item (List.mem_of_mem_drop hitem)]
  constructor
  · rw [wholeCount_drop encode items hcount hlater, List.take_add]
  · rw [leftover_drop encode items hcount hlater]

/-- Feed chunks one after another, draining after each. -/
def feedAll (decode : List β → Option (α × List β)) : List β → List (List β) → List α × List β
  | buffer, [] => ([], buffer)
  | buffer, chunk :: chunks =>
      let drained := drain decode (buffer ++ chunk)
      let later := feedAll decode drained.2 chunks
      (drained.1 ++ later.1, later.2)

theorem feedAll_append (hframes : Delimits encode decode good) (hnil : decode [] = none)
    {items : List α} (hitems : ∀ item ∈ items, good item) (received : List β)
    (chunks : List (List β)) (hwithin : received ++ chunks.flatten <+: stream encode items) :
    items.take (wholeCount encode items received.length) ++
        (feedAll decode (leftover encode items received.length) chunks).1 =
      items.take (wholeCount encode items (received ++ chunks.flatten).length) ∧
    (feedAll decode (leftover encode items received.length) chunks).2 =
      leftover encode items (received ++ chunks.flatten).length := by
  induction chunks generalizing received with
  | nil => simp [feedAll]
  | cons chunk chunks ih =>
      rw [List.flatten_cons, ← List.append_assoc] at hwithin ⊢
      obtain ⟨hnow, hkept⟩ := drain_chunk hframes hnil hitems
        ((List.prefix_append (received ++ chunk) chunks.flatten).trans hwithin)
      obtain ⟨hlater, hlast⟩ := ih (received ++ chunk) hwithin
      simp only [feedAll]
      rw [hkept, ← List.append_assoc, hnow]
      exact ⟨hlater, hlast⟩

/-- However the bytes of a list of frames are cut into chunks, they are drained to
that list and nothing is left. -/
theorem feedAll_stream (hframes : Delimits encode decode good) (hnil : decode [] = none)
    {items : List α} (hitems : ∀ item ∈ items, good item) {chunks : List (List β)}
    (hchunks : chunks.flatten = stream encode items) :
    feedAll decode [] chunks = (items, []) := by
  have hempty : leftover encode items ([] : List β).length = [] := by
    rw [leftover, List.length_nil, Nat.zero_sub, List.take_zero]
  have hzero : wholeCount encode items ([] : List β).length = 0 := by
    cases items with
    | nil => rfl
    | cons item items =>
        have hpos := hframes.nonempty item (hitems item List.mem_cons_self)
        rw [wholeCount, if_neg (by rw [List.length_nil]; omega)]
  obtain ⟨hall, hlast⟩ := feedAll_append hframes hnil hitems [] chunks
    (by rw [List.nil_append, hchunks])
  rw [hempty, hzero, List.take_zero, List.nil_append, List.nil_append, hchunks,
    wholeCount_stream, List.take_length] at hall
  rw [hempty, List.nil_append, hchunks, leftover_stream] at hlast
  exact Prod.ext hall hlast

end Drain

section Stable

/-- A decoder that takes something off the front as soon as it is there in full:
whatever arrives later does not change it. -/
structure Stable (decode : List β → Option (α × List β)) : Prop where
  shrinks : ∀ buffer item rest, decode buffer = some (item, rest) → rest.length < buffer.length
  append : ∀ buffer item rest, decode buffer = some (item, rest) →
    ∀ more, decode (buffer ++ more) = some (item, rest ++ more)

variable {decode : List β → Option (α × List β)}

theorem Stable.drainLoop_fuel (hstable : Stable decode) (fuel : ℕ) {buffer : List β}
    (hfuel : buffer.length ≤ fuel) : drainLoop decode fuel buffer = drain decode buffer := by
  induction fuel using Nat.strong_induction_on generalizing buffer with
  | _ fuel ih =>
      cases hdecode : decode buffer with
      | none => rw [drain, drainLoop_none hdecode, drainLoop_none hdecode]
      | some taken =>
          obtain ⟨item, rest⟩ := taken
          have hless := hstable.shrinks buffer item rest hdecode
          obtain ⟨size, hsize⟩ : ∃ size, buffer.length = size + 1 :=
            Nat.exists_eq_succ_of_ne_zero (by omega)
          obtain ⟨more, rfl⟩ : ∃ more, fuel = more + 1 :=
            Nat.exists_eq_succ_of_ne_zero (by omega)
          rw [drain, hsize, drainLoop, drainLoop, hdecode]
          simp only [ih more (by omega) (show rest.length ≤ more by omega),
            ih size (by omega) (show rest.length ≤ size by omega)]

/-- One round of draining. -/
theorem Stable.drain_some (hstable : Stable decode) {buffer : List β} {item : α} {rest : List β}
    (hdecode : decode buffer = some (item, rest)) :
    drain decode buffer = (item :: (drain decode rest).1, (drain decode rest).2) := by
  have hless := hstable.shrinks buffer item rest hdecode
  obtain ⟨size, hsize⟩ : ∃ size, buffer.length = size + 1 :=
    Nat.exists_eq_succ_of_ne_zero (by omega)
  rw [drain, hsize, drainLoop, hdecode]
  simp only [hstable.drainLoop_fuel size (show rest.length ≤ size by omega)]

theorem drain_none {buffer : List β} (hnone : decode buffer = none) :
    drain decode buffer = ([], buffer) :=
  drainLoop_none hnone _

/-- Induction along the rounds of draining. -/
theorem Stable.drain_induction (hstable : Stable decode) {motive : List β → Prop}
    (none : ∀ buffer, decode buffer = none → motive buffer)
    (some : ∀ buffer item rest, decode buffer = some (item, rest) → motive rest → motive buffer)
    (buffer : List β) : motive buffer := by
  induction hlength : buffer.length using Nat.strong_induction_on generalizing buffer with
  | _ length ih =>
      cases hdecode : decode buffer with
      | none => exact none buffer hdecode
      | some taken =>
          obtain ⟨item, rest⟩ := taken
          have hless := hstable.shrinks buffer item rest hdecode
          exact some buffer item rest hdecode (ih rest.length (by omega) rest rfl)

/-- Draining goes on until the decoder finds nothing more. -/
theorem Stable.decode_drain (hstable : Stable decode) (buffer : List β) :
    decode (drain decode buffer).2 = none := by
  induction buffer using hstable.drain_induction with
  | none buffer hnone =>
      rw [drain_none hnone]
      exact hnone
  | some buffer item rest hdecode ih =>
      rw [hstable.drain_some hdecode]
      exact ih

end Stable

/-! ## What is left of a stream -/

section Standing

variable [DecidableEq β] (encode : α → List β)

/-- The frames that a buffer which should begin with them still has in front. -/
def standing : List α → List β → List α
  | [], _ => []
  | item :: items, buffer =>
      if encode item <+: buffer then item :: standing items (buffer.drop (encode item).length)
      else []

theorem standing_isPrefix (items : List α) (buffer : List β) :
    standing encode items buffer <+: items := by
  induction items generalizing buffer with
  | nil => exact List.prefix_refl _
  | cons item items ih =>
      rw [standing]
      split_ifs with hitem
      · exact (List.prefix_cons_inj item).mpr (ih _)
      · exact List.nil_prefix

theorem stream_standing (items : List α) (buffer : List β) :
    stream encode (standing encode items buffer) <+: buffer := by
  induction items generalizing buffer with
  | nil => exact List.nil_prefix
  | cons item items ih =>
      rw [standing]
      split_ifs with hitem
      · obtain ⟨rest, rfl⟩ := hitem
        rw [stream_cons, List.drop_left]
        exact (List.prefix_append_right_inj _).mpr (ih rest)
      · exact List.nil_prefix

/-- Frames the buffer begins with are still standing. -/
theorem isPrefix_standing {front items : List α} {buffer : List β} (hfront : front <+: items)
    (hbuffer : stream encode front <+: buffer) : front <+: standing encode items buffer := by
  induction front generalizing items buffer with
  | nil => exact List.nil_prefix
  | cons item front ih =>
      obtain ⟨back, rfl⟩ := hfront
      obtain ⟨rest, rfl⟩ := hbuffer
      have hitem : encode item <+: stream encode (item :: front) ++ rest := by
        rw [stream_cons, List.append_assoc]
        exact List.prefix_append _ _
      rw [List.cons_append, standing, if_pos hitem, stream_cons, List.append_assoc,
        List.drop_left]
      exact (List.prefix_cons_inj item).mpr
        (ih (List.prefix_append _ _) (List.prefix_append _ _))

end Standing

end InMemoryDb.Frames
