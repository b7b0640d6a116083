import InMemoryDb.Server.Numbering
import InMemoryDb.Server.Stage3.Receipts

/-!
# What an acknowledged PUT has in the log

In Async and Sync mode the response to a PUT leaves stage 3, behind an acknowledged
batch.  The numbers of that batch are those the PUTs have in the order of execution,
so the PUT has its record among the records of the batch.
-/

namespace InMemoryDb

open Wire WalFormat Stage2 Stage3

theorem puts_append (front back : List Request) : puts (front ++ back) = puts front ++ puts back :=
  List.filter_append _ _

theorem data_answered {before after : List Request}
    (hanswered : List.Forall₂ Answered before after) :
    (after.map fun req => (req.tag, req.data)) = before.map fun req => (req.tag, req.data) := by
  induction hanswered with
  | nil => rfl
  | cons hreq _ ih => rw [List.map_cons, List.map_cons, ih, hreq.1, hreq.2.2.1]

namespace Pipeline

variable {pipe after : Pipeline} {startLsn : ℕ}

/-- The label of a batch is that of a stretch of the executed requests, numbered from
the PUTs before it on. -/
def Sited (startLsn : ℕ) (applied : List Request) (label : ℕ × List (ℕ × Payload)) : Prop :=
  ∃ front items back, applied = front ++ items ++ back ∧
    label = (startLsn + (puts front).length, items.map fun req => (req.tag, req.data))

theorem Sited.append {applied : List Request} {label : ℕ × List (ℕ × Payload)}
    (hsited : Sited startLsn applied label) (cut : List Request) :
    Sited startLsn (applied ++ cut) label := by
  obtain ⟨front, items, back, rfl, hlabel⟩ := hsited
  exact ⟨front, items, back ++ cut, List.append_assoc _ _ _, hlabel⟩

/-- The response waits for no write. -/
def Early (pipe : Pipeline) (reply : Reply) : Prop :=
  ∃ req ∈ pipe.applied, req.tag = reply.tag ∧ pipe.ack.required req ≤ .applied

/-- Every batch on its way to the log is a stretch of the executed requests, and every
response needed no write or has a receipt of stage 3. -/
structure Vouched (startLsn : ℕ) (pipe : Pipeline) : Prop where
  wal : WalEngine.Receipted (Sited startLsn pipe.applied) pipe.wal
  hand : ∀ batch, pipe.hand = some batch → Sited startLsn pipe.applied batch.label
  outbox : ∀ reply ∈ pipe.outbox, pipe.Early reply
  chan : ∀ reply ∈ pipe.chan, pipe.Early reply ∨ pipe.wal.Receipt reply

theorem vouched_start (mode : Mode) (segs : SortedMap ℕ Bytes) (db : Db) (startLsn : ℕ) :
    Vouched startLsn (start mode (Files.ofSegs segs) db startLsn) := by
  refine ⟨WalEngine.receipted_new _ _ _ _ _, ?_, ?_, ?_⟩
  all_goals exact fun _ h => by cases h

/-- What a change has to keep; requests that were executed stay executed. -/
theorem Vouched.frame {cut : List Request} (hvouched : Vouched startLsn pipe)
    (happlied : after.applied = pipe.applied ++ cut) (hack : after.ack = pipe.ack)
    (hwal : WalEngine.Receipted (Sited startLsn after.applied) after.wal)
    (hreceipts : ∀ reply, pipe.wal.Receipt reply → after.wal.Receipt reply)
    (hhand : ∀ batch, after.hand = some batch → Sited startLsn after.applied batch.label)
    (houtbox : ∀ reply ∈ after.outbox, reply ∈ pipe.outbox ∨ after.Early reply)
    (hchan : ∀ reply ∈ after.chan,
      reply ∈ pipe.chan ∨ reply ∈ pipe.outbox ∨ pipe.wal.Receipt reply) :
    Vouched startLsn after := by
  have hearly : ∀ reply, pipe.Early reply → after.Early reply := by
    rintro reply ⟨req, hreq, htag, hlevel⟩
    refine ⟨req, ?_, htag, ?_⟩
    · rw [happlied]
      exact List.mem_append_left _ hreq
    · rw [hack]
      exact hlevel
  refine ⟨hwal, hhand, ?_, ?_⟩
  · intro reply hreply
    rcases houtbox reply hreply with hold | hnew
    · exact hearly reply (hvouched.outbox reply hold)
    · exact hnew
  · intro reply hreply
    rcases hchan reply hreply with hold | hsent | hreceipt
    · exact (hvouched.chan reply hold).imp (hearly reply) (hreceipts reply)
    · exact Or.inl (hearly reply (hvouched.outbox reply hsent))
    · exact Or.inr (hreceipts reply hreceipt)

/-- The batch `take` executes is the next stretch. -/
theorem Cut.sited {mode : Mode} {segs : SortedMap ℕ Bytes} {db table' : Db}
    (hagreed : Agreed mode segs db startLsn pipe) {count lsn : ℕ} {batch : Batch}
    (hcut : Cut pipe count batch table' lsn) :
    Sited startLsn (pipe.applied ++ pipe.items.take count)
      (pipe.ack.advance batch .applied).1.label := by
  refine ⟨pipe.applied, pipe.items.take count, [], (List.append_nil _).symm, ?_⟩
  rw [label_advance, Batch.label, hcut.lsnLow, hagreed.lsn, data_answered hcut.answered]

/-- What stage 2 sends itself needs no write. -/
theorem Cut.early {count lsn : ℕ} {batch : Batch} {db : Db} (hcut : Cut pipe count batch db lsn)
    (happlied : after.applied = pipe.applied ++ pipe.items.take count)
    (hack : after.ack = pipe.ack) :
    ∀ reply ∈ (pipe.ack.advance batch .applied).2, after.Early reply := by
  intro reply hreply
  obtain ⟨req, hreq, hreleased⟩ := List.mem_filterMap.mp hreply
  obtain ⟨received, hreceived, hdata, -, htag, -⟩ := exists_received hcut.answered hreq
  unfold Acker.released at hreleased
  split_ifs at hreleased with hlevel
  simp only [Request.owed, Option.map_eq_some_iff] at hreleased
  obtain ⟨-, -, rfl⟩ := hreleased
  refine ⟨received, ?_, htag.symm, ?_⟩
  · rw [happlied]
    exact List.mem_append_right _ hreceived
  · have hsame : received.op = req.op := congrArg Payload.op hdata.symm
    rw [hack, Acker.required, Request.isReadOnly, hsame]
    exact hlevel

theorem vouched_change {mode : Mode} {segs : SortedMap ℕ Bytes} {db : Db} {act : Act}
    (hflow : pipe.Flow) (hagreed : Agreed mode segs db startLsn pipe)
    (hvouched : Vouched startLsn pipe) (hguard : Serving pipe act)
    (hchange : Change pipe act after) : Vouched startLsn after := by
  obtain ⟨cut, happlied, -⟩ := change_numbered hflow hchange
  have hgrown : WalEngine.Receipted (Sited startLsn after.applied) pipe.wal := by
    rw [happlied]
    exact hvouched.wal.mono fun label hsited => hsited.append cut
  have hhand : ∀ batch, pipe.hand = some batch → Sited startLsn after.applied batch.label := by
    rw [happlied]
    exact fun batch hbatch => (hvouched.hand batch hbatch).append cut
  cases hchange with
  | accept conn data =>
      exact hvouched.frame happlied rfl hgrown (fun _ h => h) hhand (fun _ h => Or.inl h)
        (fun _ h => Or.inl h)
  | @take count buffer batch pool table' lsn hfree hsent hcount hbuffer hbatch =>
      have hcut := hflow.cut hbuffer hbatch
      have hexact : (pipe.taken count table' lsn batch pool).applied =
          pipe.applied ++ pipe.items.take count := by
        change pipe.admitted.take (pipe.computed ++ batch.owed).length = _
        rw [(hcut.computed hflow hcount.2.2).1, List.take_add, ← hflow.items]
        rfl
      refine hvouched.frame happlied rfl ?_ (fun _ h => h) ?_ ?_ (fun _ h => Or.inl h)
      · exact hgrown.same rfl rfl (fun _ => Iff.rfl) rfl rfl rfl
      · intro other hother
        obtain rfl := Option.some.inj hother
        exact hexact ▸ hcut.sited hagreed
      · exact fun reply hreply => Or.inr (hcut.early hexact rfl reply hreply)
  | reply houtbox =>
      refine hvouched.frame happlied rfl hgrown (fun _ h => h) hhand ?_ ?_
      · rw [houtbox]
        exact fun _ h => Or.inl (List.mem_cons_of_mem _ h)
      · intro sent hsent
        rcases List.mem_append.mp hsent with hold | hnew
        · exact Or.inl hold
        · rw [houtbox, List.mem_singleton.mp hnew]
          exact Or.inr (Or.inl List.mem_cons_self)
  | @toLog batch hfull hsent hwork =>
      refine hvouched.frame happlied rfl ?_ (fun _ h => h) (fun _ h => by cases h)
        (fun _ h => Or.inl h) (fun _ h => Or.inl h)
      refine { hgrown with inbox := ?_ }
      intro other hother
      rcases List.mem_append.mp hother with hold | hnew
      · exact hgrown.inbox other hold
      · obtain rfl := WalMsg.write.inj (List.mem_singleton.mp hnew)
        exact hhand other hfull
  | toSlot hfull hsent hwork =>
      exact hvouched.frame happlied rfl hgrown (fun _ h => h) (fun _ h => by cases h)
        (fun _ h => Or.inl h) (fun _ h => Or.inl h)
  | rotate boundaryLsn => exact hguard.elim
  | retire boundaryLsn => exact hguard.elim
  | walReply houtbox =>
      refine hvouched.frame happlied rfl ?_ (fun _ h => h) hhand (fun _ h => Or.inl h) ?_
      · refine hgrown.frame rfl (fun _ h => h) (fun op hop => ⟨op, hop, rfl⟩) rfl rfl ?_
        rw [houtbox]
        exact fun _ h => List.mem_cons_of_mem _ h
      · intro sent hsent
        rcases List.mem_append.mp hsent with hold | hnew
        · exact Or.inl hold
        · refine Or.inr (Or.inr (hvouched.wal.sent sent ?_))
          rw [houtbox, List.mem_singleton.mp hnew]
          exact List.mem_cons_self
  | walRecycle houtbox =>
      refine hvouched.frame happlied rfl ?_ (fun _ h => h) hhand (fun _ h => Or.inl h)
        (fun _ h => Or.inl h)
      refine hgrown.frame rfl (fun _ h => h) (fun op hop => ⟨op, hop, rfl⟩) rfl rfl ?_
      rw [houtbox]
      exact fun _ h => List.mem_cons_of_mem _ h
  | wal hinner hstep =>
      obtain ⟨hwal, hreceipts⟩ :=
        WalEngine.receipted_step hflow.keyed hgrown hinner hstep
      exact hvouched.frame happlied rfl hwal hreceipts hhand (fun _ h => Or.inl h)
        (fun _ h => Or.inl h)

theorem vouched_reach {mode : Mode} {segs : SortedMap ℕ Bytes} {db : Db}
    (hreach : Machine.Reach step Serving (start mode (Files.ofSegs segs) db startLsn) pipe) :
    pipe.Flow ∧ Agreed mode segs db startLsn pipe ∧ Vouched startLsn pipe :=
  @reach_keeps _ _ (fun pipe => Agreed mode segs db startLsn pipe ∧ Vouched startLsn pipe) _ _ _ _
    ⟨agreed_start mode segs db startLsn, vouched_start mode segs db startLsn⟩
    (fun _ _ _ hflow h hguard hchange => ⟨agreed_change hflow h.1 hchange,
      vouched_change hflow h.1 h.2 hguard hchange⟩) hreach

/-! ## The record of a PUT -/

/-- An executed request is known by its tag. -/
theorem Flow.applied_unique (hflow : pipe.Flow) {req other : Request} (hreq : req ∈ pipe.applied)
    (hother : other ∈ pipe.applied) (htag : req.tag = other.tag) : req = other := by
  have hnodup : (pipe.applied.map Request.tag).Nodup := by
    rw [applied, List.map_take, hflow.tags]
    exact List.nodup_range.sublist (List.take_sublist _ _)
  exact List.inj_on_of_nodup_map hnodup hreq hother htag

/-- The request behind one of a batch, and its record if it is a PUT. -/
theorem Sited.request {applied : List Request} {batch : Batch}
    (hsited : Sited startLsn applied batch.label) {sent : Request} (hsent : sent ∈ batch.items) :
    ∃ front req back, applied = front ++ req :: back ∧
      (req.tag, req.data) = (sent.tag, sent.data) ∧ (req.op = .put →
        (startLsn + (puts front).length + 1, req.data.bytes) ∈ batch.redo) := by
  obtain ⟨front, items, back, rfl, hlabel⟩ := hsited
  obtain ⟨hlow, hitems⟩ := Prod.mk.inj hlabel
  have hmem : (sent.tag, sent.data) ∈ items.map fun req => (req.tag, req.data) := by
    rw [← hitems]
    exact List.mem_map_of_mem hsent
  obtain ⟨req, hreq, hsame⟩ := List.mem_map.mp hmem
  obtain ⟨early, late, rfl⟩ := List.append_of_mem hreq
  refine ⟨front ++ early, req, late ++ back, by simp, hsame, ?_⟩
  intro hop
  rw [Batch.redo, records_eq_of_data hitems, hlow, records_append, puts_append, List.length_append,
    ← Nat.add_assoc]
  refine List.mem_append_right _ ?_
  rw [records, if_pos hop]
  exact List.mem_cons_self

/-- A PUT that was answered and has to wait for a write has its record in a batch
acknowledged at its level. -/
theorem Vouched.logged (hvouched : Vouched startLsn pipe) (hflow : pipe.Flow)
    (hlevel : ¬ pipe.ack.level ≤ .applied) {req : Request} (hreq : req ∈ pipe.applied)
    (hop : req.op = .put) {reply : Reply} (hreply : reply ∈ pipe.chan)
    (htag : reply.tag = req.tag) :
    ∃ ack ∈ pipe.wal.acked, pipe.ack.level ≤ ack.point ∧
      ∃ front back, pipe.applied = front ++ req :: back ∧
        (startLsn + (puts front).length + 1, req.data.bytes) ∈ ack.batch.redo := by
  have hrequired : ∀ other : Request, other.op = .put →
      pipe.ack.required other = pipe.ack.level := by
    intro other hput
    rw [Acker.required, Request.isReadOnly, hput]
    rfl
  rcases hvouched.chan reply hreply with ⟨other, hother, hsame, hearly⟩ | hreceipt
  · -- a PUT is not answered by stage 2
    obtain rfl := hflow.applied_unique hreq hother (htag.symm.trans hsame.symm)
    rw [hrequired req hop] at hearly
    exact absurd hearly hlevel
  · obtain ⟨ack, hack, sent, hsent, hreleased⟩ := hreceipt
    obtain ⟨front, other, back, happlied, hother, hrecord⟩ :=
      (hvouched.wal.acked ack hack).request hsent
    obtain ⟨hsame, hdata⟩ := Prod.mk.inj hother
    unfold Acker.released at hreleased
    split_ifs at hreleased with hreached
    simp only [Request.owed, Option.map_eq_some_iff] at hreleased
    obtain ⟨resp, -, rfl⟩ := hreleased
    have hmem : other ∈ pipe.applied := by
      rw [happlied]
      exact List.mem_append_right _ List.mem_cons_self
    obtain rfl := hflow.applied_unique hreq hmem (htag.symm.trans hsame.symm)
    refine ⟨ack, hack, ?_, front, back, happlied, hrecord hop⟩
    rw [hflow.ack, hrequired sent ((congrArg Payload.op hdata.symm).trans hop)] at hreached
    exact hreached

end Pipeline

end InMemoryDb
