import InMemoryDb.Lib.Sequence
import InMemoryDb.Server.Flow

/-!
# The order of responses

Both clients match responses to calls by position.  Stage 2 answers a GET at
once, stage 3 answers everything else when its write or fsync is done, so a GET
can overtake an earlier PUT of its connection, and a batch can overtake another
one.  These are the only ways the order is lost: as long as neither happens,
every connection receives its responses in the order of its requests.
-/

namespace InMemoryDb

open Wire Recover Stage2 Stage3 Relation

/-- The responses for one connection. -/
def onConn (conn : ℕ) (replies : List Reply) : List Reply :=
  replies.filter fun reply => reply.conn = conn

/-- In the order of the requests. -/
def ByTag (replies : List Reply) : Prop := replies.Pairwise fun early late => early.tag < late.tag

theorem byTag_filterMap {items : List Request} {answer : Request → Option Reply}
    (hanswer : ∀ req reply, answer req = some reply → req.owed = some reply)
    (hitems : items.Pairwise fun early late => early.tag < late.tag) :
    ByTag (items.filterMap answer) := by
  refine hitems.filterMap _ ?_
  intro early late hlt first hfirst second hsecond
  have hfirst' := hanswer early first hfirst
  have hsecond' := hanswer late second hsecond
  simp only [Request.owed, Option.map_eq_some_iff] at hfirst' hsecond'
  obtain ⟨-, -, rfl⟩ := hfirst'
  obtain ⟨-, -, rfl⟩ := hsecond'
  exact hlt

theorem byTag_owedOf {items : List Request}
    (hitems : items.Pairwise fun early late => early.tag < late.tag) : ByTag (owedOf items) :=
  byTag_filterMap (fun _ _ h => h) hitems

theorem byTag_released {ack : Acker} {batch : Batch} {point : AckPoint}
    (hitems : batch.items.Pairwise fun early late => early.tag < late.tag) :
    ByTag (ack.advance batch point).2 := by
  refine byTag_filterMap ?_ hitems
  intro req reply hreleased
  rw [Acker.released] at hreleased
  split_ifs at hreleased
  exact hreleased

theorem ByTag.onConn {replies : List Reply} (h : ByTag replies) (conn : ℕ) :
    ByTag (onConn conn replies) := h.filter _

namespace Stage3.Desk

/-- The responses of the batches whose write is not done. -/
def unwritten (desk : Desk) : Multiset Reply :=
  desk.waiting.bind fun items => (owedOf items : Multiset Reply)

/-- The responses stage 3 is sending, and behind them those that wait for an
fsync: the order they leave in. -/
def leaving (desk : Desk) : List Reply :=
  desk.outbox.filterMap Out.reply? ++ desk.awaiting.flatMap Batch.owed

theorem held_eq (desk : Desk) :
    desk.held = (desk.leaving : Multiset Reply) + desk.unwritten := by
  rw [held, leaving, unwritten, ← Multiset.coe_add]

theorem leaving_release (desk : Desk) (ack : Acker) :
    (desk.release ack).leaving = desk.leaving := by
  simp only [leaving, release, List.filterMap_append, filterMap_released, List.flatMap_nil,
    List.append_nil]

/-- Below `Durable` a finished write releases everything. -/
theorem required_le_written {ack : Acker} (hlevel : ack.level ≠ .durable) (batch : Batch) :
    ∀ req ∈ batch.items, ack.required req ≤ .written := by
  intro req _
  rw [Acker.required]
  split_ifs with hread
  · exact AckPoint.applied_le _
  · cases hcase : ack.level with
    | applied => decide
    | written => decide
    | durable => exact absurd hcase hlevel

/-- Whatever the mode, a batch whose write is done queues up behind the others. -/
theorem leaving_written {desk : Desk} {ack : Acker} {batch : Batch}
    (rest : Multiset (List Request))
    (howed : ∀ req ∈ batch.items, req.resp.isSome → ¬ ack.required req ≤ .applied)
    (hawaiting : ack.level = .durable ∨ desk.awaiting.flatMap Batch.owed = []) :
    (desk.written ack batch rest).leaving = desk.leaving ++ batch.owed := by
  have hrecycle : (if Acker.isSettled (ack.advance batch .written).1 then
      [Out.recycle (ack.advance batch .written).1] else []).filterMap Out.reply? = [] := by
    split_ifs <;> rfl
  have hleaving : (desk.written ack batch rest).leaving =
      desk.outbox.filterMap Out.reply? ++ (ack.advance batch .written).2 ++
        (desk.awaiting.flatMap Batch.owed ++ (ack.advance batch .written).1.owed) := by
    simp only [leaving, written, List.filterMap_append, filterMap_sends, hrecycle,
      List.append_nil, List.flatMap_append, owed_of_settled]
  rw [hleaving, leaving]
  by_cases hdurable : ack.level = .durable
  · obtain ⟨hsent, hleft⟩ := @Acker.advance_none ack batch .written (by
      intro req hreq hreached
      by_contra hne
      have hrequired := howed req hreq (Option.isSome_iff_ne_none.mpr hne)
      rw [Acker.required, hdurable] at hreached hrequired
      split_ifs at hreached hrequired with hread
      · exact hrequired (AckPoint.applied_le _)
      · exact absurd hreached (by decide))
    rw [hsent, hleft, List.append_nil, List.append_assoc]
  · obtain ⟨hsent, hleft⟩ := Acker.advance_all (required_le_written hdurable batch)
    rw [hsent, hleft, hawaiting.resolve_left hdurable, List.append_nil, List.append_nil,
      List.append_nil]

end Stage3.Desk

namespace Pipeline

variable {pipe after : Pipeline}

/-! ## The two ways of overtaking -/

/-- Somebody still holds back, or has dropped, a response for an older request
of the same connection: stage 3, stage 2's own batch, or a recycled batch. -/
def HeldBack (pipe : Pipeline) (sent : Reply) : Prop :=
  ∃ other ∈ pipe.wal.desk.held + pipe.lost + pipe.handOwed,
    other.conn = sent.conn ∧ other.tag < sent.tag

/-- An older request of a connection in the batch has its response in another
batch whose write is not done, or was dropped. -/
def Overtakes (pipe : Pipeline) (batch : Batch) : Prop :=
  ∃ reply ∈ batch.owed, ∃ other ∈ pipe.wal.desk.unwritten + pipe.lost,
    other.conn = reply.conn ∧ other.tag < reply.tag ∧ other ∉ batch.owed

/-- Guard: above `Applied`, stage 2 sends nothing to a connection that an older
response is held back from, and stage 3 reaps no full write of a batch that
overtakes. -/
def InOrder (pipe : Pipeline) : Act → Prop
  | .reply => pipe.ack.level = .applied ∨ ∀ sent ∈ pipe.outbox.take 1, ¬ HeldBack pipe sent
  | .wal .reap =>
      pipe.ack.level = .applied ∨ ∀ batch ∈ pipe.wal.nextWritten.toList, ¬ Overtakes pipe batch
  | _ => True

/-! ## The invariant -/

/-- What holds between stage 2 and a desk; the desk is a parameter because a
step of stage 3 passes through several. -/
structure Lined (pipe : Pipeline) (desk : Desk) : Prop where
  ledger : (pipe.computed : Multiset Reply) = pipe.chan + pipe.outbox + pipe.handOwed +
    desk.held + pipe.lost
  /-- What stage 2 has in its hands is newer than all that went through them. -/
  newer : ∀ late ∈ pipe.outbox ++ pipe.handOwed,
    ∀ early ∈ desk.held + (pipe.lost : Multiset Reply), early.tag < late.tag
  sorted : ∀ items ∈ desk.waiting, items.Pairwise fun early late => early.tag < late.tag
  waiting : ∀ items ∈ desk.waiting, ∀ req ∈ items,
    req.resp.isSome → ¬ pipe.ack.required req ≤ .applied
  awaiting : pipe.ack.level = .durable ∨ desk.awaiting.flatMap Batch.owed = []
  applied : pipe.ack.level = .applied → desk.held = 0 ∧ pipe.lost = [] ∧ pipe.handOwed = []
  fifo : ∀ conn, onConn conn (pipe.chan ++ desk.leaving) <+: onConn conn pipe.computed

theorem Flow.byTag (hflow : pipe.Flow) : ByTag pipe.computed := by
  apply List.pairwise_map.mp
  rw [hflow.tags_computed]
  exact List.pairwise_lt_range

/-- The responses of different holders are different. -/
theorem Lined.fresh {desk : Desk} (hlined : pipe.Lined desk) (hflow : pipe.Flow) {reply : Reply}
    (hreply : reply ∈ desk.unwritten ∨ reply ∈ pipe.outbox) :
    reply ∉ pipe.chan ++ desk.leaving := by
  have hnodup : (pipe.computed : Multiset Reply).Nodup :=
    Multiset.coe_nodup.mpr (List.Nodup.of_map _ hflow.nodup_tags)
  have hledger : (pipe.computed : Multiset Reply) =
      (pipe.chan ++ desk.leaving : List Reply) + (desk.unwritten + pipe.outbox) +
        (pipe.handOwed + pipe.lost : Multiset Reply) := by
    rw [hlined.ledger, desk.held_eq, ← Multiset.coe_add]
    abel
  rw [hledger, Multiset.nodup_add, Multiset.nodup_add] at hnodup
  intro hmem
  refine Multiset.disjoint_left.mp hnodup.1.2.2 (Multiset.mem_coe.mpr hmem) ?_
  rcases hreply with hunwritten | houtbox
  · exact Multiset.mem_add.mpr (Or.inl hunwritten)
  · exact Multiset.mem_add.mpr (Or.inr (Multiset.mem_coe.mpr houtbox))

theorem Lined.mem_computed {desk : Desk} (hlined : pipe.Lined desk) {reply : Reply} :
    reply ∈ pipe.computed ↔ reply ∈ pipe.chan ++ desk.leaving ∨ reply ∈ pipe.outbox ∨
      reply ∈ pipe.handOwed ∨ reply ∈ desk.unwritten ∨ reply ∈ pipe.lost := by
  rw [← Multiset.mem_coe, hlined.ledger, desk.held_eq]
  simp only [Multiset.mem_add, Multiset.mem_coe, List.mem_append]
  tauto

/-- Responses that leave next, with nothing older left behind, keep the order. -/
theorem Lined.extend {desk : Desk} (hlined : pipe.Lined desk) (hflow : pipe.Flow)
    {next : List Reply} (hnext : ByTag next)
    (hfrom : ∀ reply ∈ next, reply ∈ desk.unwritten ∨ reply ∈ pipe.outbox)
    (hlower : ∀ reply ∈ next, ∀ other ∈ pipe.computed, other.conn = reply.conn →
      other.tag < reply.tag → other ∈ pipe.chan ++ desk.leaving ∨ other ∈ next) (conn : ℕ) :
    onConn conn (pipe.chan ++ desk.leaving ++ next) <+: onConn conn pipe.computed := by
  rw [onConn, List.filter_append]
  refine @Sequence.isPrefix_append_of_lower _ Reply.tag _ _ _ (hflow.byTag.onConn conn)
    (hlined.fifo conn) (hnext.onConn conn) ?_ ?_ ?_
  · intro reply hreply
    obtain ⟨hmem, hconn⟩ := List.mem_filter.mp hreply
    refine List.mem_filter.mpr ⟨hlined.mem_computed.mpr ?_, hconn⟩
    rcases hfrom reply hmem with hunwritten | houtbox
    · exact Or.inr (Or.inr (Or.inr (Or.inl hunwritten)))
    · exact Or.inr (Or.inl houtbox)
  · intro reply hreply hold
    exact hlined.fresh hflow (hfrom reply (List.mem_filter.mp hreply).1)
      (List.mem_filter.mp hold).1
  · intro reply hreply other hother hlt
    obtain ⟨hmem, hconn⟩ := List.mem_filter.mp hreply
    obtain ⟨hcomputed, hconn'⟩ := List.mem_filter.mp hother
    have hsame : other.conn = reply.conn := by
      rw [decide_eq_true_eq] at hconn hconn'
      rw [hconn, hconn']
    rcases hlower reply hmem other hcomputed hsame hlt with hold | hnew
    · exact Or.inl (List.mem_filter.mpr ⟨hold, hconn'⟩)
    · exact Or.inr (List.mem_filter.mpr ⟨hnew, hconn'⟩)

/-! ## Stage 3 -/

theorem Lined.written {desk : Desk} (hlined : pipe.Lined desk) (hflow : pipe.Flow) {batch : Batch}
    {rest : Multiset (List Request)} (hwaiting : desk.waiting = batch.items ::ₘ rest)
    (hle : desk.unwritten ≤ pipe.wal.desk.unwritten)
    (hguard : pipe.ack.level = .applied ∨ ¬ Overtakes pipe batch) :
    pipe.Lined (desk.written pipe.ack batch rest) := by
  have hmem : batch.items ∈ desk.waiting := by
    rw [hwaiting]
    exact Multiset.mem_cons_self _ _
  have hrest : ∀ items ∈ rest, items ∈ desk.waiting := by
    intro items hitems
    rw [hwaiting]
    exact Multiset.mem_cons_of_mem hitems
  have hheld : (desk.written pipe.ack batch rest).held = desk.held :=
    Desk.held_inner (@Desk.Inner.written pipe.ack (fun _ => True) desk batch rest trivial hwaiting)
  have howed := hlined.waiting batch.items hmem
  have hleaving := Desk.leaving_written rest howed hlined.awaiting
  refine ⟨?_, ?_, ?_, ?_, ?_, ?_, ?_⟩
  · rw [hheld]
    exact hlined.ledger
  · rw [hheld]
    exact hlined.newer
  · exact fun items hitems => hlined.sorted items (hrest items hitems)
  · exact fun items hitems => hlined.waiting items (hrest items hitems)
  · rcases hlined.awaiting with hdurable | hnone
    · exact Or.inl hdurable
    · by_cases hdurable : pipe.ack.level = .durable
      · exact Or.inl hdurable
      · have hleft := (@Acker.advance_all pipe.ack batch .written
          (Desk.required_le_written hdurable batch)).2
        right
        change (desk.awaiting ++ _).flatMap Batch.owed = []
        rw [List.flatMap_append, hnone, Desk.owed_of_settled, hleft, List.append_nil]
  · rw [hheld]
    exact hlined.applied
  · intro conn
    rw [hleaving, ← List.append_assoc]
    refine hlined.extend hflow (byTag_owedOf (hlined.sorted _ hmem)) ?_ ?_ conn
    · intro reply hreply
      left
      rw [Desk.unwritten, hwaiting, Multiset.cons_bind]
      exact Multiset.mem_add.mpr (Or.inl (Multiset.mem_coe.mpr hreply))
    · intro reply hreply other hother hconn hlt
      have hlevel : ¬ pipe.ack.level = .applied := by
        intro happlied
        have hnil : owedOf batch.items = [] := owedOf_eq_nil happlied howed
        rw [hnil] at hreply
        cases hreply
      have hreplyHeld : reply ∈ desk.held + (pipe.lost : Multiset Reply) := by
        rw [desk.held_eq, Desk.unwritten, hwaiting, Multiset.cons_bind]
        simp only [Multiset.mem_add, Multiset.mem_coe]
        exact Or.inl (Or.inr (Or.inl hreply))
      have hclear : other ∈ pipe.wal.desk.unwritten + (pipe.lost : Multiset Reply) →
          other ∈ batch.owed := by
        intro hbehind
        by_contra hout
        exact hguard.resolve_left hlevel ⟨reply, hreply, other, hbehind, hconn, hlt, hout⟩
      rcases hlined.mem_computed.mp hother with hgone | houtbox | hhand | hunwritten | hlost
      · exact Or.inl hgone
      · have := hlined.newer other (List.mem_append_left _ houtbox) reply hreplyHeld
        omega
      · have := hlined.newer other (List.mem_append_right _ hhand) reply hreplyHeld
        omega
      · exact Or.inr (hclear (Multiset.mem_add.mpr (Or.inl (Multiset.mem_of_le hle hunwritten))))
      · exact Or.inr (hclear (Multiset.mem_add.mpr (Or.inr (Multiset.mem_coe.mpr hlost))))

theorem Lined.release {desk : Desk} (hlined : pipe.Lined desk) :
    pipe.Lined (desk.release pipe.ack) := by
  have hheld : (desk.release pipe.ack).held = desk.held :=
    Desk.held_inner (@Desk.Inner.release pipe.ack (fun _ => True) desk)
  refine ⟨?_, ?_, hlined.sorted, hlined.waiting, Or.inr rfl, ?_, ?_⟩
  · rw [hheld]
    exact hlined.ledger
  · rw [hheld]
    exact hlined.newer
  · rw [hheld]
    exact hlined.applied
  · rw [Desk.leaving_release]
    exact hlined.fifo

/-- A step of stage 3 keeps the order. -/
theorem Lined.run (hflow : pipe.Flow) {allow : Batch → Prop}
    (hallow : ∀ batch, allow batch → pipe.ack.level = .applied ∨ ¬ Overtakes pipe batch)
    {desk : Desk} (hlined : pipe.Lined pipe.wal.desk)
    (hrun : ReflTransGen (Desk.Inner pipe.ack allow) pipe.wal.desk desk) :
    pipe.Lined desk ∧ desk.unwritten ≤ pipe.wal.desk.unwritten := by
  induction hrun with
  | refl => exact ⟨hlined, le_refl _⟩
  | tail _ hlast ih =>
      obtain ⟨hmiddle, hle⟩ := ih
      cases hlast with
      | still => exact ⟨hmiddle, hle⟩
      | log hitems =>
          exact ⟨⟨hmiddle.ledger, hmiddle.newer, hmiddle.sorted, hmiddle.waiting,
            hmiddle.awaiting, hmiddle.applied, hmiddle.fifo⟩, hle⟩
      | @written batch rest hbatch hwaiting =>
          refine ⟨hmiddle.written hflow hwaiting hle (hallow batch hbatch), le_trans ?_ hle⟩
          rw [Desk.unwritten, Desk.unwritten, hwaiting, Multiset.cons_bind]
          exact Multiset.le_add_left _ _
      | release => exact ⟨hmiddle.release, hle⟩

/-! ## Stage 2 -/

structure Queueing (pipe : Pipeline) : Prop where
  lined : pipe.Lined pipe.wal.desk
  outbox : ByTag pipe.outbox
  hand : ∀ batch, pipe.hand = some batch →
    batch.items.Pairwise fun early late => early.tag < late.tag

/-- Sending the first response of stage 2 keeps the order when no older one is
held back. -/
theorem Queueing.reply (hqueueing : pipe.Queueing) (hflow : pipe.Flow) {sent : Reply}
    {rest : List Reply} (houtbox : pipe.outbox = sent :: rest)
    (hguard : pipe.ack.level = .applied ∨ ¬ HeldBack pipe sent) :
    { pipe with outbox := rest, chan := pipe.chan ++ [sent] }.Queueing := by
  have hlined := hqueueing.lined
  have hsorted := hqueueing.outbox
  rw [houtbox, ByTag, List.pairwise_cons] at hsorted
  have hmem : sent ∈ pipe.outbox := by
    rw [houtbox]
    exact List.mem_cons_self
  have hfree : ¬ HeldBack pipe sent := by
    rcases hguard with happlied | hfree
    · obtain ⟨hheld, hlost, hhand⟩ := hlined.applied happlied
      rintro ⟨other, hother, -⟩
      rw [hheld, hlost, hhand] at hother
      simp at hother
    · exact hfree
  have hnone : onConn sent.conn pipe.wal.desk.leaving = [] := by
    refine List.filter_eq_nil_iff.mpr fun other hother hconn => hfree ?_
    have hheld : other ∈ pipe.wal.desk.held := by
      rw [Desk.held_eq]
      exact Multiset.mem_add.mpr (Or.inl (Multiset.mem_coe.mpr hother))
    refine ⟨other, ?_, by simpa using hconn, ?_⟩
    · exact Multiset.mem_add.mpr (Or.inl (Multiset.mem_add.mpr (Or.inl hheld)))
    · exact hlined.newer sent (List.mem_append_left _ hmem) other
        (Multiset.mem_add.mpr (Or.inl hheld))
  refine ⟨⟨?_, ?_, hlined.sorted, hlined.waiting, hlined.awaiting, hlined.applied, ?_⟩,
    hsorted.2, hqueueing.hand⟩
  · change _ = ((pipe.chan ++ [sent] : List Reply) : Multiset Reply) + rest + pipe.handOwed +
      pipe.wal.desk.held + pipe.lost
    rw [hlined.ledger, houtbox, ← Multiset.coe_add, ← Multiset.cons_coe,
      ← Multiset.singleton_add]
    simp only [Multiset.coe_singleton, add_assoc]
  · intro late hlate
    refine hlined.newer late ?_
    rcases List.mem_append.mp hlate with hrest | hhand
    · rw [houtbox]
      exact List.mem_append_left _ (List.mem_cons_of_mem _ hrest)
    · exact List.mem_append_right _ hhand
  · intro conn
    by_cases hconn : sent.conn = conn
    · have hextend := hlined.extend hflow (List.pairwise_singleton _ sent)
        (fun reply hreply => by
          rw [List.mem_singleton.mp hreply]
          exact Or.inr hmem)
        (fun reply hreply other hother hsame hlt => by
          rw [List.mem_singleton.mp hreply] at hsame hlt
          have hback : other ∉ pipe.wal.desk.held + (pipe.lost : Multiset Reply) +
              pipe.handOwed := fun hmem => hfree ⟨other, hmem, hsame, hlt⟩
          simp only [Desk.held_eq, Multiset.mem_add, Multiset.mem_coe, not_or] at hback
          rcases hlined.mem_computed.mp hother with hgone | hout | hhand | hunwritten | hlost
          · exact Or.inl hgone
          · rw [houtbox] at hout
            rcases List.mem_cons.mp hout with rfl | hrest
            · exact absurd hlt (lt_irrefl _)
            · exact absurd (hsorted.1 other hrest) (Nat.lt_asymm hlt)
          · exact absurd hhand hback.2
          · exact absurd hunwritten hback.1.1.2
          · exact absurd hlost hback.1.2) conn
      rw [hconn] at hnone
      rw [onConn, List.filter_append, List.filter_append] at hextend
      change onConn conn (pipe.chan ++ [sent] ++ pipe.wal.desk.leaving) <+: _
      rw [onConn, List.filter_append, List.filter_append]
      rw [onConn] at hnone
      rw [hnone, List.append_nil] at hextend ⊢
      exact hextend
    · have hskip : onConn conn (pipe.chan ++ [sent] ++ pipe.wal.desk.leaving) =
          onConn conn (pipe.chan ++ pipe.wal.desk.leaving) := by
        simp [onConn, hconn]
      change onConn conn (pipe.chan ++ [sent] ++ pipe.wal.desk.leaving) <+: _
      rw [hskip]
      exact hlined.fifo conn

theorem Queueing.take (hqueueing : pipe.Queueing) (hflow : pipe.Flow) {count : ℕ}
    {buffer batch : Batch} {pool : List Batch} {db : Db} {lsn : ℕ} (hfree : pipe.hand = none)
    (hsent : pipe.outbox = []) (hcount : count ≤ pipe.items.length)
    (hbuffer : (pipe.recycled = some buffer ∧ pool = pipe.wal.recycleTx) ∨
      (pipe.recycled = none ∧ pipe.wal.recycleTx = buffer :: pool))
    (hbatch : applyBatch pipe.db
      { buffer with items := buffer.items ++ pipe.items.take count } pipe.lsn =
        .ok (db, batch, lsn)) :
    (pipe.taken count db lsn batch pool).Queueing := by
  unfold taken
  have hcut := hflow.cut hbuffer hbatch
  obtain ⟨hsorted, hlate⟩ := hflow.cut_tags hcut
  have hlined := hqueueing.lined
  have hflow' := flow_take hflow hfree hsent hcount hbuffer hbatch
  refine ⟨⟨hflow'.ledger, ?_, hlined.sorted, hlined.waiting, hlined.awaiting, ?_, ?_⟩, ?_, ?_⟩
  · intro late hlate' early hearly
    have hmem : late ∈ batch.owed := by
      rw [(pipe.ack.advance_owed batch .applied).mem_iff]
      simpa [handOwed] using hlate'
    obtain ⟨req, hreq, htag⟩ := mem_owedOf hmem
    have hold : early ∈ pipe.computed := by
      rw [← Multiset.mem_coe, hflow.ledger, add_assoc]
      exact Multiset.mem_add.mpr (Or.inr hearly)
    have hbound := hlate req hreq
    have hbound' := hflow.tag_lt hold
    omega
  · intro happlied
    obtain ⟨hheld, hlost, -⟩ := hlined.applied happlied
    refine ⟨hheld, hlost, ?_⟩
    have hnil : owedOf (pipe.ack.advance batch .applied).1.items = [] :=
      owedOf_eq_nil happlied fun req hreq => ((hcut.executed pipe.ack).owed req hreq).mp
    change [(pipe.ack.advance batch .applied).1].flatMap Batch.owed = []
    rw [List.flatMap_singleton]
    exact hnil
  · intro conn
    refine (hlined.fifo conn).trans ?_
    change onConn conn pipe.computed <+: onConn conn (pipe.computed ++ batch.owed)
    rw [onConn, onConn, List.filter_append]
    exact List.prefix_append _ _
  · exact byTag_released hsorted
  · intro other hother
    simp only [Option.some.injEq] at hother
    rw [← hother]
    refine List.pairwise_map.mpr (hsorted.imp ?_)
    intro early late hlt
    rwa [Acker.advanceReq_tag, Acker.advanceReq_tag]

/-- Stage 2 hands its batch over to the log. -/
theorem Queueing.toLog (hqueueing : pipe.Queueing) (hflow : pipe.Flow) {batch : Batch}
    (hhand : pipe.hand = some batch) (hsent : pipe.outbox = [])
    (hwork : batch.hasWalWork = true) :
    { pipe with
      hand := none
      wal := { pipe.wal with msgRx := pipe.wal.msgRx ++ [WalMsg.write batch] } }.Queueing := by
  have hflow' := flow_change hflow (.toLog hhand hsent hwork)
  have hlined := hqueueing.lined
  have hexecuted := hflow.hand batch hhand
  have hdesk := pipe.wal.desk_arrive batch
  refine ⟨⟨hflow'.ledger, ?_, ?_, ?_, ?_, ?_, ?_⟩, hqueueing.outbox, ?_⟩
  · intro late hlate
    rw [hsent] at hlate
    cases hlate
  · rw [hdesk]
    intro items hitems
    change items ∈ batch.items ::ₘ pipe.wal.desk.waiting at hitems
    rcases Multiset.mem_cons.mp hitems with rfl | hrest
    · exact hqueueing.hand batch hhand
    · exact hlined.sorted items hrest
  · rw [hdesk]
    intro items hitems
    change items ∈ batch.items ::ₘ pipe.wal.desk.waiting at hitems
    rcases Multiset.mem_cons.mp hitems with rfl | hrest
    · exact fun req hreq => (hexecuted.owed req hreq).mp
    · exact hlined.waiting items hrest
  · exact hlined.awaiting
  · intro happlied
    obtain ⟨hheld, hlost, -⟩ := hlined.applied happlied
    have hnil : owedOf batch.items = [] :=
      owedOf_eq_nil happlied fun req hreq => (hexecuted.owed req hreq).mp
    refine ⟨?_, hlost, rfl⟩
    rw [hdesk, Desk.held_arrive, hheld, hnil]
    rfl
  · exact hlined.fifo
  · intro other hother
    cases hother

/-- Stage 2 keeps the buffer of a batch that has nothing to log. -/
theorem Queueing.toSlot (hqueueing : pipe.Queueing) (hflow : pipe.Flow) {batch : Batch}
    (hhand : pipe.hand = some batch) (hsent : pipe.outbox = [])
    (hwork : batch.hasWalWork = false) :
    { pipe with
      hand := none
      recycled := some batch.recycle
      returned := pipe.returned ++ [batch] }.Queueing := by
  have hflow' := flow_change hflow (.toSlot hhand hsent hwork)
  have hlined := hqueueing.lined
  have hexecuted := hflow.hand batch hhand
  refine ⟨⟨hflow'.ledger, ?_, hlined.sorted, hlined.waiting, hlined.awaiting, ?_,
    hlined.fifo⟩, hqueueing.outbox, ?_⟩
  · intro late hlate
    rw [hsent] at hlate
    cases hlate
  · intro happlied
    obtain ⟨hheld, hlost, -⟩ := hlined.applied happlied
    have hnil : batch.owed = [] :=
      owedOf_eq_nil happlied fun req hreq => (hexecuted.owed req hreq).mp
    refine ⟨hheld, ?_, rfl⟩
    rw [lost_toSlot, hlost, hnil]
    rfl
  · intro other hother
    cases hother

/-- A rotate or retire message carries no batch. -/
theorem Queueing.control (hqueueing : pipe.Queueing) {msg : WalMsg} (hmsg : msg.items? = none) :
    { pipe with wal := { pipe.wal with msgRx := pipe.wal.msgRx ++ [msg] } }.Queueing := by
  have hlined := hqueueing.lined
  refine ⟨?_, hqueueing.outbox, hqueueing.hand⟩
  rw [pipe.wal.desk_control hmsg]
  exact ⟨hlined.ledger, hlined.newer, hlined.sorted, hlined.waiting, hlined.awaiting,
    hlined.applied, hlined.fifo⟩

theorem Queueing.walReply (hqueueing : pipe.Queueing) (hflow : pipe.Flow) {sent : Reply}
    {rest : List Out} (houtbox : pipe.wal.outbox = .reply sent :: rest) :
    { pipe with
      wal := { pipe.wal with outbox := rest }
      chan := pipe.chan ++ [sent] }.Queueing := by
  have hflow' := flow_change hflow (.walReply houtbox)
  have hlined := hqueueing.lined
  have hheld : pipe.wal.desk.held = {sent} + { pipe.wal.desk with outbox := rest }.held :=
    Desk.held_send houtbox
  have hleaving : pipe.wal.desk.leaving =
      sent :: { pipe.wal.desk with outbox := rest }.leaving := by
    have houtbox' : pipe.wal.desk.outbox = .reply sent :: rest := houtbox
    simp only [Desk.leaving, houtbox', Desk.filterMap_reply_cons, List.cons_append]
  refine ⟨⟨hflow'.ledger, ?_, hlined.sorted, hlined.waiting, hlined.awaiting, ?_, ?_⟩,
    hqueueing.outbox, hqueueing.hand⟩
  · intro late hlate early hearly
    refine hlined.newer late hlate early ?_
    rw [hheld, add_assoc]
    exact Multiset.mem_add.mpr (Or.inr hearly)
  · intro happlied
    have hzero := (hlined.applied happlied).1
    rw [hheld] at hzero
    exact absurd hzero (by simp)
  · intro conn
    have hfifo := hlined.fifo conn
    rw [hleaving] at hfifo
    change onConn conn (pipe.chan ++ [sent] ++ { pipe.wal.desk with outbox := rest }.leaving)
      <+: _
    rw [List.append_assoc]
    exact hfifo

theorem Queueing.walRecycle (hqueueing : pipe.Queueing) (hflow : pipe.Flow) {batch : Batch}
    {rest : List Out} (houtbox : pipe.wal.outbox = .recycle batch :: rest) :
    { pipe with
      wal := { pipe.wal with
        outbox := rest
        recycleTx := pipe.wal.recycleTx ++ [batch.recycle]
        returned := pipe.wal.returned ++ [batch] } }.Queueing := by
  have hflow' := flow_change hflow (.walRecycle houtbox)
  have hlined := hqueueing.lined
  have hheld := @Desk.held_giveBack pipe.wal.desk batch rest houtbox
    (pipe.wal.recycleTx ++ [batch.recycle]) (pipe.wal.returned ++ [batch])
  have hleaving : { pipe.wal.desk with
      outbox := rest
      pool := pipe.wal.recycleTx ++ [batch.recycle]
      returned := pipe.wal.returned ++ [batch] }.leaving = pipe.wal.desk.leaving := by
    have houtbox' : pipe.wal.desk.outbox = .recycle batch :: rest := houtbox
    simp only [Desk.leaving, houtbox', Desk.filterMap_recycle_cons]
  refine ⟨⟨hflow'.ledger, ?_, hlined.sorted, hlined.waiting, hlined.awaiting, ?_, ?_⟩,
    hqueueing.outbox, hqueueing.hand⟩
  · intro late hlate early hearly
    refine hlined.newer late hlate early ?_
    rw [← hheld]
    exact hearly
  · intro happlied
    have hzero := hlined.applied happlied
    rw [← hheld] at hzero
    exact hzero
  · intro conn
    have hfifo := hlined.fifo conn
    rw [← hleaving] at hfifo
    exact hfifo

theorem queueing_change {act : Act} (hflow : pipe.Flow) (hqueueing : pipe.Queueing)
    (hguard : InOrder pipe act) (hchange : Change pipe act after) : after.Queueing := by
  have hlined := hqueueing.lined
  cases hchange with
  | accept conn data =>
      exact ⟨⟨hlined.ledger, hlined.newer, hlined.sorted, hlined.waiting, hlined.awaiting,
        hlined.applied, hlined.fifo⟩, hqueueing.outbox, hqueueing.hand⟩
  | take hfree hsent hcount hbuffer hbatch =>
      exact hqueueing.take hflow hfree hsent hcount.2.2 hbuffer hbatch
  | @reply sent rest houtbox =>
      refine hqueueing.reply hflow houtbox (hguard.imp_right fun hfree => hfree sent ?_)
      simp [houtbox]
  | toLog hhand hsent hwork => exact hqueueing.toLog hflow hhand hsent hwork
  | toSlot hhand hsent hwork => exact hqueueing.toSlot hflow hhand hsent hwork
  | rotate boundaryLsn => exact hqueueing.control rfl
  | retire boundaryLsn => exact hqueueing.control rfl
  | walReply houtbox => exact hqueueing.walReply hflow houtbox
  | walRecycle houtbox => exact hqueueing.walRecycle hflow houtbox
  | @wal act wal hinner hstep =>
      obtain ⟨-, -, hrun⟩ := WalEngine.step_desk hflow.keyed hinner hstep
      rw [hflow.ack] at hrun
      have hallow : ∀ batch, act = .reap ∧ pipe.wal.nextWritten = some batch →
          pipe.ack.level = .applied ∨ ¬ Overtakes pipe batch := by
        rintro batch ⟨rfl, hnext⟩
        exact hguard.imp_right fun hfree => hfree batch (by simp [hnext])
      obtain ⟨hafter, -⟩ := Lined.run hflow hallow hlined hrun
      exact ⟨⟨hafter.ledger, hafter.newer, hafter.sorted, hafter.waiting, hafter.awaiting,
        hafter.applied, hafter.fifo⟩, hqueueing.outbox, hqueueing.hand⟩

theorem queueing_start (mode : Mode) (files : Files) (db : Db) (startLsn : ℕ) :
    (start mode files db startLsn).Queueing := by
  refine ⟨⟨rfl, ?_, ?_, ?_, Or.inr rfl, fun _ => ⟨rfl, rfl, rfl⟩, ?_⟩, List.Pairwise.nil, ?_⟩
  · intro late hlate
    cases hlate
  · intro items hitems
    exact absurd hitems (Multiset.notMem_zero items)
  · intro items hitems
    exact absurd hitems (Multiset.notMem_zero items)
  · intro conn
    exact List.prefix_refl _
  · intro batch hbatch
    cases hbatch

/-! ## Positions -/

/-- The response stage 2 computed for a request. -/
def response (pipe : Pipeline) (req : Request) : Option Reply :=
  pipe.computed.find? fun reply => reply.tag = req.tag

/-- The requests of one connection, in the order they were admitted. -/
def requestsOf (pipe : Pipeline) (conn : ℕ) : List Request :=
  pipe.admitted.filter fun req => req.reply = conn

theorem Flow.response_eq (hflow : pipe.Flow) {reply : Reply} (hreply : reply ∈ pipe.computed)
    {req : Request} (htag : req.tag = reply.tag) : pipe.response req = some reply := by
  rw [response]
  cases hfind : pipe.computed.find? fun other => other.tag = req.tag with
  | none =>
      have hnone := List.find?_eq_none.mp hfind reply hreply
      simp [htag] at hnone
  | some other =>
      have hother : other.tag = reply.tag := by
        have h := List.find?_some hfind
        rw [decide_eq_true_eq, htag] at h
        exact h
      rw [List.inj_on_of_nodup_map hflow.nodup_tags (List.mem_of_find?_eq_some hfind) hreply
        hother]

/-- The responses of a connection are those of its first requests. -/
theorem Flow.computed_conn (hflow : pipe.Flow) (conn : ℕ) :
    (onConn conn pipe.computed).map Reply.tag =
      ((pipe.admitted.take pipe.computed.length).filter fun req => req.reply = conn).map
        Request.tag := by
  have hpairs := congrArg (fun pairs => (pairs.filter fun pair => pair.1 = conn).map Prod.snd)
    hflow.computed
  simp only [List.filter_map, List.map_map] at hpairs
  exact hpairs

/-- In every run in which nothing overtakes, whatever the mode, the batches and
the completions, the `k`-th response sent to a connection is the one computed
for its `k`-th request. -/
theorem kth_response {mode : Mode} {segs : SortedMap ℕ Bytes} {db : Db} {startLsn : ℕ}
    (hreach : Machine.Reach step InOrder (start mode (Files.ofSegs segs) db startLsn) pipe)
    (conn k : ℕ) (reply : Reply) (hreply : (onConn conn pipe.chan)[k]? = some reply) :
    ((pipe.requestsOf conn)[k]?).bind pipe.response = some reply := by
  obtain ⟨hflow, hqueueing⟩ := reach_keeps (queueing_start mode _ db startLsn)
    (fun _ _ _ => queueing_change) hreach
  have hwithin : onConn conn pipe.chan <+: onConn conn pipe.computed := by
    refine List.IsPrefix.trans ?_ (hqueueing.lined.fifo conn)
    rw [onConn, onConn, List.filter_append]
    exact List.prefix_append _ _
  have hcomputed : (onConn conn pipe.computed)[k]? = some reply :=
    Sequence.getElem?_of_isPrefix hwithin hreply
  obtain ⟨req, hreq, htag⟩ : ∃ req, ((pipe.admitted.take pipe.computed.length).filter
      fun req => req.reply = conn)[k]? = some req ∧ req.tag = reply.tag := by
    have hmap := congrArg (fun tags => tags[k]?) (hflow.computed_conn conn)
    simp only [List.getElem?_map, hcomputed, Option.map_some] at hmap
    exact Option.map_eq_some_iff.mp hmap.symm
  have hadmitted : (pipe.requestsOf conn)[k]? = some req := by
    exact Sequence.getElem?_of_isPrefix ((List.take_prefix _ _).filter _) hreq
  have hmem : reply ∈ pipe.computed :=
    (List.mem_filter.mp (List.mem_of_getElem? hcomputed)).1
  rw [hadmitted, Option.bind_some, hflow.response_eq hmem htag]

instance (pipe : Pipeline) (sent : Reply) : Decidable (HeldBack pipe sent) :=
  @Multiset.decidableExistsMultiset Reply (pipe.wal.desk.held + pipe.lost + pipe.handOwed)
    (fun other => other.conn = sent.conn ∧ other.tag < sent.tag) _

instance (pipe : Pipeline) (batch : Batch) : Decidable (Overtakes pipe batch) :=
  have _hinner (reply : Reply) : Decidable (∃ other ∈ pipe.wal.desk.unwritten + pipe.lost,
      other.conn = reply.conn ∧ other.tag < reply.tag ∧ other ∉ batch.owed) :=
    Multiset.decidableExistsMultiset
  inferInstanceAs (Decidable (∃ reply ∈ batch.owed, ∃ other ∈ pipe.wal.desk.unwritten + pipe.lost,
    other.conn = reply.conn ∧ other.tag < reply.tag ∧ other ∉ batch.owed))

instance (pipe : Pipeline) : (act : Act) → Decidable (InOrder pipe act)
  | .accept _ _ => isTrue trivial
  | .take _ => isTrue trivial
  | .reply => inferInstanceAs (Decidable (_ ∨ ∀ sent ∈ pipe.outbox.take 1, ¬ HeldBack pipe sent))
  | .dispatch => isTrue trivial
  | .rotate _ => isTrue trivial
  | .retire _ => isTrue trivial
  | .wal .reap => inferInstanceAs
      (Decidable (_ ∨ ∀ batch ∈ pipe.wal.nextWritten.toList, ¬ Overtakes pipe batch))
  | .wal (.arrive _) => isTrue trivial
  | .wal .poll => isTrue trivial
  | .wal .plan => isTrue trivial
  | .wal .drain => isTrue trivial
  | .wal .wake => isTrue trivial
  | .wal (.start _) => isTrue trivial
  | .wal (.complete _ _) => isTrue trivial
  | .wal .send => isTrue trivial
  | .wal .lend => isTrue trivial
  | .wal (.slab _) => isTrue trivial

/-- A PUT, and a GET once the PUT is answered. -/
theorem kth_response_second :
    ∃ pipe, Machine.Reach step InOrder (start .sync (Files.ofSegs SortedMap.empty) Db.new 1) pipe ∧
      ∃ reply, (onConn 7 pipe.chan)[1]? = some reply ∧
        ((pipe.requestsOf 7)[1]?).bind pipe.response = some reply := by
  obtain ⟨pipe, hreach, hdone⟩ := @Machine.exists_reach _ _ step InOrder
    (start .sync (Files.ofSegs SortedMap.empty) Db.new 1) _
    [.accept 7 (.smallPut 65 66), .take 1, .dispatch, .wal .poll, .wal .plan, .wal .reap,
      .wal (.start 0), .wal (.complete 0 27), .wal (.start 0), .wal (.complete 0 0), .wal .poll,
      .wal .plan, .wal .reap, .wal .reap, .wal .send, .wal .send, .accept 7 (.smallGet 65),
      .take 1, .reply]
    (fun pipe => ((onConn 7 pipe.chan)[1]?).isSome) (by decide +kernel)
  obtain ⟨reply, hreply⟩ := Option.isSome_iff_exists.mp hdone
  exact ⟨pipe, hreach, reply, hreply, kth_response hreach 7 1 reply hreply⟩

/-- A PUT and a GET in one batch: the first response is that of the second
request. -/
theorem kth_response_overtaken :
    ∃ pipe, Machine.Reach step (fun _ _ => True)
        (start .async (Files.ofSegs SortedMap.empty) Db.new 1) pipe ∧
      ∃ reply, (onConn 7 pipe.chan)[0]? = some reply ∧
        ((pipe.requestsOf 7)[0]?).bind pipe.response ≠ some reply := by
  obtain ⟨pipe, hreach, hdone⟩ := @Machine.exists_reach _ _ step (fun _ _ => True)
    (start .async (Files.ofSegs SortedMap.empty) Db.new 1) _
    [.accept 7 (.smallPut 65 66), .accept 7 (.smallGet 65), .take 2, .reply]
    (fun pipe => decide (((onConn 7 pipe.chan)[0]?).isSome ∧
      ((pipe.requestsOf 7)[0]?).bind pipe.response ≠ (onConn 7 pipe.chan)[0]?))
    (by decide +kernel)
  obtain ⟨hsome, hne⟩ := of_decide_eq_true hdone
  obtain ⟨reply, hreply⟩ := Option.isSome_iff_exists.mp hsome
  exact ⟨pipe, hreach, reply, hreply, hreply ▸ hne⟩

end Pipeline

end InMemoryDb
