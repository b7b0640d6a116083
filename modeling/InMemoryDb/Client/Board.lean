import InMemoryDb.Client.Link
import InMemoryDb.Lib.Machine

/-!
# Calls and connections

What the two clients share: the queue of calls and the connections, one after
another.  A call moves from the queue into the writer's hands and from there onto
a connection; it is in one place at any time.
-/

namespace InMemoryDb.Client

open Wire Frames Stage1

/-- The queue of calls, the history of those that left it, and the connections,
newest first. -/
structure Board where
  /-- Every call made. -/
  made : List Call
  rx : List Call
  /-- All handles of the client are dropped. -/
  closed : Bool
  /-- The calls the writer answered itself, with an error. -/
  refused : List Call
  links : List Link
  deriving DecidableEq

/-- The capacity of the queue. -/
def queueSize : ℕ := 512

namespace Board

def new : Board := ⟨[], [], false, [], []⟩

/-- `call` of a client up to the wait for the result. -/
def call (board : Board) (request : Wire.Call) : Option Board :=
  if board.closed = false ∧ board.rx.length < queueSize then
    some { board with
      made := board.made ++ [⟨request, board.made.length⟩]
      rx := board.rx ++ [⟨request, board.made.length⟩] }
  else none

/-- Change the current connection. -/
def onLink (board : Board) (change : Link → Option Link) : Option Board :=
  match board.links with
  | [] => none
  | link :: past => (change link).map fun after => { board with links := after :: past }

/-- Everything that became of calls so far. -/
def outcomes (board : Board) : List (ℕ × Outcome) :=
  board.refused.map (fun call => (call.tx, .lost)) ++ board.links.flatMap Link.outcomes

variable {board after : Board} {hand : List Call} {unsent unsent' : Option Bytes}
  {idle idle' : Prop}

/-- Every call is in one place: refused, on one connection, with the writer (`hand`),
or in the queue.  All connections are over but the current one, and that one too
when the client is `idle`.  While the writer serves the current connection, what it
has encoded for it is written but for the bytes `unsent`. -/
structure Inv (board : Board) (hand : List Call) (unsent : Option Bytes) (idle : Prop) :
    Prop where
  numbered : board.made.map Call.tx = List.range board.made.length
  sized : ∀ call ∈ board.made, call.request.bodyLen ≤ maxPayload
  custody : (board.refused ++ board.links.flatMap Link.frames ++ hand ++ board.rx).Perm board.made
  links : ∀ link ∈ board.links, link.Inv
  past : ∀ link ∈ board.links.tail, link.reader = .done
  pending : ∀ link ∈ board.links.head?, ∀ bytes, unsent = some bytes →
    link.sent ++ bytes = encodeCalls (link.frames.map Call.request)
  ended : idle → ∀ link ∈ board.links, link.reader = .done

/-- The writer stops serving the connection, or goes on with the same bytes to go. -/
theorem Inv.weaken (hinv : board.Inv hand unsent idle)
    (hunsent : ∀ bytes, unsent' = some bytes → unsent = some bytes) (hidle : idle' → idle) :
    board.Inv hand unsent' idle' :=
  ⟨hinv.numbered, hinv.sized, hinv.custody, hinv.links, hinv.past,
    fun link hlink bytes hbytes => hinv.pending link hlink bytes (hunsent bytes hbytes),
    fun h => hinv.ended (hidle h)⟩

theorem Inv.call (hinv : board.Inv hand unsent idle) {request : Wire.Call}
    (hsize : request.bodyLen ≤ maxPayload) (hcall : board.call request = some after) :
    after.Inv hand unsent idle := by
  rw [Board.call] at hcall
  split_ifs at hcall with hroom
  cases hcall
  refine ⟨?_, ?_, ?_, hinv.links, hinv.past, hinv.pending, hinv.ended⟩
  · simp [hinv.numbered, List.range_succ]
  · intro other hother
    rcases List.mem_append.mp hother with hold | hnew
    · exact hinv.sized other hold
    · rw [List.mem_singleton.mp hnew]
      exact hsize
  · change (_ ++ (board.rx ++ [_])).Perm _
    rw [← List.append_assoc]
    exact hinv.custody.append_right _

theorem Inv.close (hinv : board.Inv hand unsent idle) :
    { board with closed := true }.Inv hand unsent idle :=
  ⟨hinv.numbered, hinv.sized, hinv.custody, hinv.links, hinv.past, hinv.pending, hinv.ended⟩

/-- The writer takes the call at the front of the queue. -/
theorem Inv.take (hinv : board.Inv hand unsent idle) {call : Call} {rest : List Call}
    (hrx : board.rx = call :: rest) :
    { board with rx := rest }.Inv (hand ++ [call]) unsent idle := by
  refine ⟨hinv.numbered, hinv.sized, ?_, hinv.links, hinv.past, hinv.pending, hinv.ended⟩
  have hcustody := hinv.custody
  rw [hrx] at hcustody
  simpa using hcustody

/-- The writer answers a call itself. -/
theorem Inv.refuse {call : Call} (hinv : board.Inv [call] unsent idle) :
    { board with refused := board.refused ++ [call] }.Inv [] unsent idle := by
  refine ⟨hinv.numbered, hinv.sized, List.Perm.trans ?_ hinv.custody, hinv.links, hinv.past,
    hinv.pending, hinv.ended⟩
  simp only [List.append_assoc, List.nil_append]
  apply List.Perm.append_left
  exact List.perm_append_comm_assoc _ _ _

theorem onLink_inv {change : Link → Option Link} (hafter : board.onLink change = some after) :
    ∃ link past next, board.links = link :: past ∧ change link = some next ∧
      after = { board with links := next :: past } := by
  rw [Board.onLink] at hafter
  split at hafter
  next => cases hafter
  next link past hlinks =>
    obtain ⟨next, hnext, rfl⟩ := Option.map_eq_some_iff.mp hafter
    exact ⟨link, past, next, hlinks, hnext, rfl⟩

/-- The current connection changes; `more` are the calls that go onto it. -/
theorem Inv.relink {more : List Call} (hinv : board.Inv (more ++ hand) unsent idle)
    {link next : Link} {past : List Link} (hlinks : board.links = link :: past)
    (hnext : next.Inv) (hframes : next.frames = link.frames ++ more)
    (hpending : ∀ bytes, unsent' = some bytes →
      next.sent ++ bytes = encodeCalls (next.frames.map Call.request))
    (hended : idle' → next.reader = .done) :
    { board with links := next :: past }.Inv hand unsent' idle' := by
  have hpast := hinv.past
  rw [hlinks] at hpast
  refine ⟨hinv.numbered, hinv.sized, List.Perm.trans ?_ hinv.custody, ?_, hpast, ?_, ?_⟩
  · rw [hlinks, List.flatMap_cons, List.flatMap_cons, hframes]
    simp only [List.append_assoc]
    apply List.Perm.append_left
    apply List.Perm.append_left
    exact List.perm_append_comm_assoc _ _ _
  · intro other hother
    rcases List.mem_cons.mp hother with rfl | hold
    · exact hnext
    · exact hinv.links other (by simp [hlinks, hold])
  · intro other hother bytes hbytes
    cases hother
    exact hpending bytes hbytes
  · intro hidle other hother
    rcases List.mem_cons.mp hother with rfl | hold
    · exact hended hidle
    · exact hpast other hold

/-- A change on the reader's side of the current connection. -/
theorem Inv.onLink (hinv : board.Inv hand unsent idle) {change : Link → Option Link}
    (hkeeps : ∀ link next, change link = some next → link.Keeps next)
    (hafter : board.onLink change = some after) : after.Inv hand unsent idle := by
  obtain ⟨link, past, next, hlinks, hnext, rfl⟩ := onLink_inv hafter
  have hkeep := hkeeps link next hnext
  have hlinked := hkeep.inv (hinv.links link (by simp [hlinks]))
  refine @Inv.relink _ _ _ unsent _ idle [] hinv _ _ _ hlinks hlinked (by simp [hkeep.frames]) ?_ ?_
  · intro bytes hbytes
    rw [hkeep.sent, hkeep.frames]
    exact hinv.pending link (by simp [hlinks]) bytes hbytes
  · intro hidle
    exact hkeep.done (hinv.ended hidle link (by simp [hlinks]))

/-- The current connection is over, whatever the writer was doing. -/
theorem Inv.hangUp (hinv : board.Inv hand unsent idle) {change : Link → Option Link}
    (hkeeps : ∀ link next, change link = some next → link.Keeps next ∧ next.reader = .done)
    (hafter : board.onLink change = some after) : after.Inv hand none True := by
  obtain ⟨link, past, next, hlinks, hnext, rfl⟩ := onLink_inv hafter
  obtain ⟨hkeep, hdone⟩ := hkeeps link next hnext
  have hlinked := hkeep.inv (hinv.links link (by simp [hlinks]))
  exact @Inv.relink _ _ _ none _ True [] hinv _ _ _ hlinks hlinked (by simp [hkeep.frames])
    (fun _ h => by cases h) fun _ => hdone

/-- The socket takes some of the bytes that are left. -/
theorem Inv.write {rest : Bytes} (hinv : board.Inv hand (some rest) idle) {count : ℕ}
    (hafter : board.onLink (fun link => some (link.write (rest.take count))) = some after) :
    after.Inv hand (some (rest.drop count)) idle := by
  obtain ⟨link, past, next, hlinks, hnext, rfl⟩ := onLink_inv hafter
  cases hnext
  have hparts : link.sent ++ rest.take count ++ rest.drop count =
      encodeCalls (link.frames.map Call.request) := by
    rw [List.append_assoc, List.take_append_drop]
    exact hinv.pending link (by simp [hlinks]) rest rfl
  have hlinked := (hinv.links link (by simp [hlinks])).write ⟨_, hparts⟩
  refine @Inv.relink _ _ _ _ _ idle [] hinv _ _ _ hlinks hlinked (by simp [Link.write]) ?_ ?_
  · intro bytes hbytes
    cases hbytes
    exact hparts
  · exact fun hidle => hinv.ended hidle link (by simp [hlinks])

/-- Calls are encoded for the current connection. -/
theorem Inv.push {batch : List Call} {buf : Bytes}
    (hinv : board.Inv (batch ++ hand) (some buf) False)
    (hafter : board.onLink (fun link => some (batch.foldl Link.push link)) = some after) :
    after.Inv hand (some (buf ++ encodeCalls (batch.map Call.request))) False := by
  obtain ⟨link, past, next, hlinks, hnext, rfl⟩ := onLink_inv hafter
  cases hnext
  have hsized : ∀ call ∈ batch, call.request.bodyLen ≤ maxPayload := fun call hcall =>
    hinv.sized call (hinv.custody.mem_iff.mp (by simp [hcall]))
  obtain ⟨hlinked, hframes, hsent⟩ :=
    (hinv.links link (by simp [hlinks])).pushes hsized
  refine @Inv.relink _ _ _ _ _ False batch hinv _ _ _ hlinks hlinked hframes ?_ (fun h => h.elim)
  intro bytes hbytes
  cases hbytes
  rw [hsent, hframes, List.map_append, Link.encodeCalls_append, ← List.append_assoc,
    hinv.pending link (by simp [hlinks]) buf rfl]

/-- A new connection, once all others are over. -/
theorem Inv.connect (hinv : board.Inv hand unsent idle) (hidle : idle) :
    { board with links := Link.new :: board.links }.Inv hand (some []) False := by
  refine ⟨hinv.numbered, hinv.sized, hinv.custody, ?_, hinv.ended hidle, ?_, fun h => h.elim⟩
  · intro link hlink
    rcases List.mem_cons.mp hlink with rfl | hold
    · exact Link.inv_new
    · exact hinv.links link hold
  · intro link hlink bytes hbytes
    cases hlink
    cases hbytes
    rfl

/-! ## What callers see -/

/-- What is promised of the calls of a client, where `result` is what `call` makes of
an outcome and `tornDown` are the connections the client is done with. -/
structure Matched (board : Board) (result : Outcome → Except String Resp)
    (tornDown : List Link) : Prop where
  /-- A call has at most one outcome. -/
  once : (board.outcomes.map Prod.fst).Nodup
  /-- An answer is the response to the call's own frame, on the connection that frame
  was sent on. -/
  own : ∀ entry ∈ board.outcomes, ∀ resp, result entry.2 = .ok resp →
    ∃ link ∈ board.links, ∃ (index : ℕ) (call : Call) (data : Payload),
      board.made[entry.1]? = some call ∧ link.frames[index]? = some call ∧
      link.outcomes[index]? = some entry ∧ (handleConn link.sent)[index]? = some data ∧
      data.bytes = call.request.body ∧ link.answered[index]? = some resp
  /-- A connection carries the frames of its own calls and nothing else. -/
  written : ∀ link ∈ board.links, link.sent <+: encodeCalls (link.frames.map Call.request)
  /-- No call has its frame on two connections, or twice on one. -/
  single : ((board.links.flatMap Link.frames).map Call.tx).Nodup
  /-- No call is left unresolved on a connection that is torn down. -/
  resolved : ∀ link ∈ tornDown, ∀ call ∈ link.frames, ∃ outcome, (call.tx, outcome) ∈ link.outcomes

theorem Inv.nodup (hinv : board.Inv hand unsent idle) :
    ((board.refused ++ board.links.flatMap Link.frames).map Call.tx).Nodup := by
  have hall : ((board.refused ++ board.links.flatMap Link.frames ++ hand ++ board.rx).map
      Call.tx).Nodup := by
    rw [(hinv.custody.map Call.tx).nodup_iff, hinv.numbered]
    exact List.nodup_range
  rw [List.append_assoc, List.map_append] at hall
  exact hall.of_append_left

/-- The calls of a connection that have an outcome, in the order of their frames. -/
theorem outcomes_sublist {links : List Link} (hlinks : ∀ link ∈ links, link.Inv) :
    ((links.flatMap Link.outcomes).map Prod.fst).Sublist
      ((links.flatMap Link.frames).map Call.tx) := by
  induction links with
  | nil => exact List.Sublist.refl _
  | cons link links ih =>
      have hrest := ih fun other hother => hlinks other (List.mem_cons_of_mem _ hother)
      have hfirst := (hlinks link List.mem_cons_self).lined
      rw [List.flatMap_cons, List.flatMap_cons, List.map_append, List.map_append, hfirst]
      exact (List.sublist_append_left _ _).append hrest

/-- A call is found among those made under its number. -/
theorem Inv.made (hinv : board.Inv hand unsent idle) {call : Call} (hcall : call ∈ board.made) :
    board.made[call.tx]? = some call := by
  obtain ⟨index, hindex, rfl⟩ := List.getElem_of_mem hcall
  have hnumber : (board.made.map Call.tx)[index]? = some index := by
    rw [hinv.numbered, List.getElem?_range hindex]
  rw [List.getElem?_map, List.getElem?_eq_getElem hindex, Option.map_some,
    Option.some.injEq] at hnumber
  rw [hnumber, List.getElem?_eq_getElem hindex]

theorem Inv.matched (hinv : board.Inv hand unsent idle) (gone : String) {tornDown : List Link}
    (htorn : ∀ link ∈ tornDown, link ∈ board.links ∧ link.reader = .done) :
    board.Matched (Outcome.result gone) tornDown := by
  have hnodup := hinv.nodup
  refine ⟨?_, ?_, fun link hlink => (hinv.links link hlink).written, ?_, ?_⟩
  · rw [outcomes, List.map_append, List.map_map]
    rw [List.map_append] at hnodup
    exact ((List.Sublist.refl _).append (outcomes_sublist hinv.links)).nodup hnodup
  · intro entry hentry resp hresult
    obtain ⟨tx, outcome⟩ := entry
    cases outcome with
    | lost => cases hresult
    | dropped => cases hresult
    | ok answer =>
        cases hresult
        rcases List.mem_append.mp hentry with hrefused | hlinked
        · obtain ⟨call, -, hcall⟩ := List.mem_map.mp hrefused
          cases hcall
        · obtain ⟨link, hlink, hmem⟩ := List.mem_flatMap.mp hlinked
          obtain ⟨index, hindex⟩ := List.mem_iff_getElem?.mp hmem
          obtain ⟨call, data, hcall, rfl, hanswered, hdata, hbytes⟩ :=
            (hinv.links link hlink).answer hindex
          have hmade : call ∈ board.made := by
            refine hinv.custody.mem_iff.mp (List.mem_append_left _ (List.mem_append_left _ ?_))
            exact List.mem_append_right _
              (List.mem_flatMap.mpr ⟨link, hlink, List.mem_of_getElem? hcall⟩)
          exact ⟨link, hlink, index, call, data, hinv.made hmade, hcall, hindex, hdata, hbytes,
            hanswered⟩
  · rw [List.map_append] at hnodup
    exact hnodup.of_append_right
  · intro link hlink call hcall
    obtain ⟨hmem, hdone⟩ := htorn link hlink
    have htx : call.tx ∈ link.outcomes.map Prod.fst := by
      rw [(hinv.links link hmem).resolved hdone]
      exact List.mem_map_of_mem hcall
    obtain ⟨entry, hentry, hfst⟩ := List.mem_map.mp htx
    exact ⟨entry.2, by rw [← hfst]; exact hentry⟩

end Board

end InMemoryDb.Client
