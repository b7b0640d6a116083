import InMemoryDb.Server.Flow

/-!
# Exactly one response

A batch is recycled in four places.  Stage 3 recycles settled batches only;
stage 2 recycles a batch without a PUT as it is.  Above `Applied` the level of a
request with an unknown opcode is the level of the mode, and in a batch without
a PUT nobody ever reaches it.
-/

namespace InMemoryDb

open Wire Stage2 Stage3 Relation

/-- Every request whose response was taken has had it sent. -/
def Told (sent : List ℕ) (items : List Request) : Prop :=
  ∀ req ∈ items, req.resp = none → req.tag ∈ sent

theorem append_subset_left {sent sent' : List ℕ} (hsub : sent ⊆ sent') (more : List ℕ) :
    sent ++ more ⊆ sent' ++ more :=
  List.append_subset.mpr
    ⟨List.subset_append_of_subset_left _ hsub, List.subset_append_right _ _⟩

theorem Told.mono {sent sent' : List ℕ} {items : List Request} (h : Told sent items)
    (hsub : sent ⊆ sent') : Told sent' items :=
  fun req hreq hnone => hsub (h req hreq hnone)

theorem Told.advance {sent : List ℕ} {batch : Batch} (h : Told sent batch.items) (ack : Acker)
    (point : AckPoint) :
    Told (sent ++ (ack.advance batch point).2.map Reply.tag) (ack.advance batch point).1.items := by
  intro req hreq hnone
  obtain ⟨before, hbefore, rfl⟩ := List.mem_map.mp hreq
  rw [Acker.advanceReq_tag]
  cases hresp : before.resp with
  | none => exact List.mem_append_left _ (h before hbefore hresp)
  | some resp =>
      by_cases hlevel : ack.required before ≤ point
      · have hreleased : ack.released point before = some ⟨before.reply, before.tag, resp⟩ := by
          rw [Acker.released, if_pos hlevel, Request.owed, hresp]
          rfl
        have hmem : ⟨before.reply, before.tag, resp⟩ ∈ (ack.advance batch point).2 :=
          List.mem_filterMap.mpr ⟨before, hbefore, hreleased⟩
        exact List.mem_append_right _ (List.mem_map_of_mem hmem)
      · rw [Acker.advanceReq, if_neg hlevel, hresp] at hnone
        cases hnone

/-- A settled batch has been answered in full. -/
theorem Told.all {sent : List ℕ} {batch : Batch} (h : Told sent batch.items)
    (howed : batch.owed = []) {req : Request} (hreq : req ∈ batch.items) : req.tag ∈ sent := by
  have hsettled := (Acker.isSettled_iff batch).mpr howed
  exact h req hreq (by simpa using List.all_eq_true.mp hsettled req hreq)

namespace Stage3

/-- Every batch is recycled settled, behind the last of its responses. -/
def Closing : List ℕ → List Out → Prop
  | _, [] => True
  | sent, .reply reply :: rest => Closing (sent ++ [reply.tag]) rest
  | sent, .recycle batch :: rest => (batch.owed = [] ∧ Told sent batch.items) ∧ Closing sent rest

theorem closing_append (sent : List ℕ) (front back : List Out) :
    Closing sent (front ++ back) ↔ Closing sent front ∧
      Closing (sent ++ (front.filterMap Out.reply?).map Reply.tag) back := by
  induction front generalizing sent with
  | nil => simp [Closing]
  | cons out front ih =>
      cases out with
      | reply reply =>
          rw [List.cons_append, Closing, ih, Closing, Desk.filterMap_reply_cons, List.map_cons,
            List.append_assoc, List.singleton_append]
      | recycle batch =>
          rw [List.cons_append, Closing, ih, Closing, Desk.filterMap_recycle_cons, and_assoc,
            and_assoc, and_assoc]

theorem closing_sends (sent : List ℕ) (advanced : Batch × List Reply) :
    Closing sent (WalEngine.sends advanced) := by
  obtain ⟨batch, replies⟩ := advanced
  rw [WalEngine.sends]
  induction replies generalizing sent with
  | nil => trivial
  | cons reply replies ih => exact ih _

theorem closing_recycle {sent : List ℕ} {batch : Batch} (howed : batch.owed = [])
    (htold : Told sent batch.items) : Closing sent [Out.recycle batch] :=
  ⟨⟨howed, htold⟩, trivial⟩

theorem Closing.mono {sent sent' : List ℕ} {outs : List Out} (h : Closing sent outs)
    (hsub : sent ⊆ sent') : Closing sent' outs := by
  induction outs generalizing sent sent' with
  | nil => trivial
  | cons out outs ih =>
      cases out with
      | reply reply => exact ih h (append_subset_left hsub _)
      | recycle batch => exact ⟨⟨h.1.1, h.1.2.mono hsub⟩, ih h.2 hsub⟩

/-- What stage 3 knows about the batches it holds. -/
structure Desk.Told (sent : List ℕ) (desk : Desk) : Prop where
  waiting : ∀ items ∈ desk.waiting, InMemoryDb.Told sent items
  awaiting : ∀ batch ∈ desk.awaiting,
    InMemoryDb.Told (sent ++ (desk.outbox.filterMap Out.reply?).map Reply.tag) batch.items
  outbox : Closing sent desk.outbox
  returned : ∀ batch ∈ desk.returned, batch.owed = [] ∧ InMemoryDb.Told sent batch.items

theorem closing_released {ack : Acker} {sent : List ℕ} {batches : List Batch}
    (htold : ∀ batch ∈ batches, Told sent batch.items) :
    Closing sent (batches.flatMap fun batch => WalEngine.sends (ack.advance batch .durable) ++
      [Out.recycle (ack.advance batch .durable).1]) := by
  induction batches generalizing sent with
  | nil => trivial
  | cons batch batches ih =>
      rw [List.flatMap_cons, closing_append, closing_append, Desk.filterMap_sends]
      refine ⟨⟨closing_sends _ _, closing_recycle (ack.advance_durable_owed batch) ?_⟩, ?_⟩
      · exact (htold batch List.mem_cons_self).advance ack .durable
      · apply ih
        intro other hother
        exact (htold other (List.mem_cons_of_mem _ hother)).mono (List.subset_append_left _ _)

theorem Desk.Told.inner {ack : Acker} {allow : Batch → Prop} {sent : List ℕ} {desk after : Desk}
    (htold : desk.Told sent) (hinner : Desk.Inner ack allow desk after) : after.Told sent := by
  cases hinner with
  | still => exact htold
  | log hitems => exact ⟨htold.waiting, htold.awaiting, htold.outbox, htold.returned⟩
  | @written batch rest hallow hwaiting =>
      have hbatch : InMemoryDb.Told sent batch.items :=
        htold.waiting _ (by rw [hwaiting]; exact Multiset.mem_cons_self _ _)
      have hadvanced := (hbatch.mono (List.subset_append_left sent
        ((desk.outbox.filterMap Out.reply?).map Reply.tag))).advance ack .written
      have houtbox : Closing sent (desk.outbox ++ WalEngine.sends (ack.advance batch .written)) :=
        (closing_append _ _ _).mpr ⟨htold.outbox, closing_sends _ _⟩
      refine ⟨?_, ?_, ?_, htold.returned⟩
      · intro items hitems
        exact htold.waiting items (by rw [hwaiting]; exact Multiset.mem_cons_of_mem hitems)
      · intro other hother
        rcases List.mem_append.mp hother with hold | hnew
        · refine (htold.awaiting other hold).mono ?_
          simp only [Desk.written, List.filterMap_append, List.map_append, ← List.append_assoc]
          exact fun tag htag => List.mem_append_left _ (List.mem_append_left _ htag)
        · by_cases hsettled : Acker.isSettled (ack.advance batch .written).1 = true
          · rw [if_pos hsettled] at hnew
            cases hnew
          · rw [if_neg hsettled, List.mem_singleton] at hnew
            rw [hnew]
            refine hadvanced.mono ?_
            simp only [Desk.written, List.filterMap_append, Desk.filterMap_sends, List.map_append,
              ← List.append_assoc]
            exact List.subset_append_left _ _
      · change Closing sent (desk.outbox ++ WalEngine.sends _ ++ _)
        refine (closing_append _ _ _).mpr ⟨houtbox, ?_⟩
        split_ifs with hsettled
        · refine closing_recycle ((Acker.isSettled_iff _).mp hsettled) ?_
          rw [List.filterMap_append, Desk.filterMap_sends, List.map_append, ← List.append_assoc]
          exact hadvanced
        · trivial
  | release =>
      refine ⟨htold.waiting, ?_, ?_, htold.returned⟩
      · intro other hother
        cases hother
      · exact (closing_append _ _ _).mpr ⟨htold.outbox, closing_released htold.awaiting⟩

theorem Desk.Told.run {ack : Acker} {allow : Batch → Prop} {sent : List ℕ} {desk after : Desk}
    (htold : desk.Told sent) (hrun : ReflTransGen (Desk.Inner ack allow) desk after) :
    after.Told sent := by
  induction hrun with
  | refl => exact htold
  | tail _ hlast ih => exact ih.inner hlast

theorem Desk.Told.mono {sent sent' : List ℕ} {desk : Desk} (htold : desk.Told sent)
    (hsub : sent ⊆ sent') : desk.Told sent' := by
  refine ⟨?_, ?_, htold.outbox.mono hsub, ?_⟩
  · exact fun items hitems => (htold.waiting items hitems).mono hsub
  · intro batch hbatch
    exact (htold.awaiting batch hbatch).mono (append_subset_left hsub _)
  · exact fun batch hbatch => (htold.returned batch hbatch).imp_right fun h => h.mono hsub

theorem Desk.Told.arrive {sent : List ℕ} {desk : Desk} (htold : desk.Told sent)
    {items : List Request} (hitems : InMemoryDb.Told sent items) :
    { desk with waiting := items ::ₘ desk.waiting }.Told sent := by
  refine ⟨?_, htold.awaiting, htold.outbox, htold.returned⟩
  intro other hother
  rcases Multiset.mem_cons.mp hother with rfl | hrest
  · exact hitems
  · exact htold.waiting other hrest

theorem Desk.Told.send {sent : List ℕ} {desk : Desk} (htold : desk.Told sent) {reply : Reply}
    {rest : List Out} (houtbox : desk.outbox = .reply reply :: rest) :
    { desk with outbox := rest }.Told (sent ++ [reply.tag]) := by
  have hsub : sent ⊆ sent ++ [reply.tag] := List.subset_append_left _ _
  have hclosing := htold.outbox
  rw [houtbox] at hclosing
  refine ⟨?_, ?_, hclosing, ?_⟩
  · exact fun items hitems => (htold.waiting items hitems).mono hsub
  · intro batch hbatch
    have hold := htold.awaiting batch hbatch
    rw [houtbox, Desk.filterMap_reply_cons, List.map_cons] at hold
    rw [List.append_assoc]
    exact hold
  · exact fun batch hbatch => (htold.returned batch hbatch).imp_right fun h => h.mono hsub

theorem Desk.Told.giveBack {sent : List ℕ} {desk : Desk} (htold : desk.Told sent) {batch : Batch}
    {rest : List Out} (houtbox : desk.outbox = .recycle batch :: rest) (pool : List Batch) :
    { desk with outbox := rest, pool := pool, returned := desk.returned ++ [batch] }.Told sent := by
  have hclosing := htold.outbox
  rw [houtbox] at hclosing
  refine ⟨htold.waiting, ?_, hclosing.2, ?_⟩
  · intro other hother
    have hold := htold.awaiting other hother
    rw [houtbox, Desk.filterMap_recycle_cons] at hold
    exact hold
  · intro other hother
    rcases List.mem_append.mp hother with hold | hnew
    · exact htold.returned other hold
    · rw [List.mem_singleton.mp hnew]
      exact hclosing.1

end Stage3

namespace Pipeline

variable {pipe after : Pipeline}

/-- The tags of the responses sent so far. -/
def sentTags (pipe : Pipeline) : List ℕ := pipe.chan.map Reply.tag

/-- The batch has a PUT, or nothing in it waits for more than `Applied`: the mode
asks for no more, or all its requests are GETs. -/
def Answerable (ack : Acker) (items : List Request) : Prop :=
  ack.level = .applied ∨ (∃ req ∈ items, req.op = .put) ∨ ∀ req ∈ items, req.op = .get

/-- Guard of the runs in which every batch is answerable. -/
def CutsAnswerable (pipe : Pipeline) : Act → Prop
  | .take count => Answerable pipe.ack (pipe.items.take count)
  | _ => True

structure Telling (pipe : Pipeline) : Prop where
  hand : ∀ batch, pipe.hand = some batch →
    Told (pipe.sentTags ++ pipe.outbox.map Reply.tag) batch.items ∧
      (batch.hasWalWork = false → batch.owed = [])
  desk : pipe.wal.desk.Told pipe.sentTags
  returned : ∀ batch ∈ pipe.returned, batch.owed = [] ∧ Told pipe.sentTags batch.items

theorem owed_of_required {ack : Acker} {batch : Batch} (hexecuted : Executed ack batch)
    (hlevel : ∀ req ∈ batch.items, ack.required req ≤ .applied) : batch.owed = [] := by
  apply (Acker.isSettled_iff batch).mp
  apply List.all_eq_true.mpr
  intro req hreq
  have hsome := (hexecuted.owed req hreq).not.mpr (not_not.mpr (hlevel req hreq))
  simpa using hsome

/-- A batch stage 2 sends past the log owes nothing. -/
theorem owed_of_answerable {count : ℕ} {batch : Batch} {db : Db} {lsn : ℕ} {ack : Acker}
    (hcut : Cut pipe count batch db lsn) (hgood : Answerable ack (pipe.items.take count))
    (hwork : (ack.advance batch .applied).1.hasWalWork = false) :
    (ack.advance batch .applied).1.owed = [] := by
  refine owed_of_required (hcut.executed ack) ?_
  intro req hreq
  obtain ⟨executed, hmem, rfl⟩ := List.mem_map.mp hreq
  obtain ⟨received, hreceived, hpair⟩ := exists_received hcut.answered hmem
  rw [required_advanceReq]
  rcases hgood with hlevel | ⟨other, hother, hput⟩ | hget
  · rw [Acker.required, hlevel]
    split_ifs <;> exact AckPoint.applied_le _
  · -- a PUT in the batch means LSNs, and then the batch goes to the log
    have hpos : 0 < (puts (pipe.items.take count)).length :=
      List.length_pos_of_mem (List.mem_filter.mpr ⟨hother, by simpa using hput⟩)
    have hle : (ack.advance batch .applied).1.lsnHi ≤ (ack.advance batch .applied).1.lsnLow := by
      simpa [Batch.hasWalWork] using hwork
    rw [Acker.advance_lsnHi, Acker.advance_lsnLow, hcut.lsnHi, hcut.lsnLow, hcut.lsn] at hle
    omega
  · have hop : executed.op = .get := by rw [hpair.op, hget received hreceived]
    rw [Acker.required, Request.isReadOnly, hop]
    exact AckPoint.applied_le _

theorem told_answered {before after : List Request}
    (hanswered : List.Forall₂ Answered before after) (sent : List ℕ) : Told sent after := by
  intro req hreq hnone
  obtain ⟨received, -, hpair⟩ := exists_received hanswered hreq
  have hsome := hpair.2.2.2
  rw [hnone] at hsome
  cases hsome

theorem telling_change {act : Act} (hflow : pipe.Flow) (htelling : pipe.Telling)
    (hguard : CutsAnswerable pipe act) (hchange : Change pipe act after) : after.Telling := by
  cases hchange with
  | accept conn data => exact ⟨htelling.hand, htelling.desk, htelling.returned⟩
  | take hfree hsent hcount hbuffer hbatch =>
      have hcut := hflow.cut hbuffer hbatch
      refine ⟨?_, ?_, htelling.returned⟩
      · intro other hother
        simp only [Option.some.injEq] at hother
        rw [← hother]
        exact ⟨(told_answered hcut.answered pipe.sentTags).advance pipe.ack .applied,
          owed_of_answerable hcut hguard⟩
      · exact ⟨htelling.desk.waiting, htelling.desk.awaiting, htelling.desk.outbox,
          htelling.desk.returned⟩
  | @reply sent rest houtbox =>
      have hsent : { pipe with outbox := rest, chan := pipe.chan ++ [sent] }.sentTags =
          pipe.sentTags ++ [sent.tag] := by simp [sentTags]
      have hsub : pipe.sentTags ⊆ pipe.sentTags ++ [sent.tag] := List.subset_append_left _ _
      refine ⟨?_, ?_, ?_⟩
      · intro other hother
        have hold := htelling.hand other hother
        rw [hsent]
        rw [houtbox] at hold
        refine ⟨hold.1.mono ?_, hold.2⟩
        simp
      · rw [hsent]
        exact htelling.desk.mono hsub
      · rw [hsent]
        exact fun other hother => (htelling.returned other hother).imp_right fun h => h.mono hsub
  | @toLog batch hhand hsent hwork =>
      refine ⟨?_, ?_, htelling.returned⟩
      · intro other hother
        cases hother
      · have hbatch := (htelling.hand batch hhand).1
        rw [hsent, List.map_nil, List.append_nil] at hbatch
        change Desk.Told pipe.sentTags
          { pipe.wal with msgRx := pipe.wal.msgRx ++ [WalMsg.write batch] }.desk
        rw [WalEngine.desk_arrive]
        exact htelling.desk.arrive hbatch
  | @toSlot batch hhand hsent hwork =>
      have hbatch := htelling.hand batch hhand
      rw [hsent, List.map_nil, List.append_nil] at hbatch
      refine ⟨?_, htelling.desk, ?_⟩
      · intro other hother
        cases hother
      · intro other hother
        rcases List.mem_append.mp hother with hold | hnew
        · exact htelling.returned other hold
        · rw [List.mem_singleton.mp hnew]
          exact ⟨hbatch.2 hwork, hbatch.1⟩
  | rotate boundaryLsn =>
      refine ⟨htelling.hand, ?_, htelling.returned⟩
      rw [WalEngine.desk_control _ rfl]
      exact htelling.desk
  | retire boundaryLsn =>
      refine ⟨htelling.hand, ?_, htelling.returned⟩
      rw [WalEngine.desk_control _ rfl]
      exact htelling.desk
  | @walReply sent rest houtbox =>
      have hsent : { pipe with
          wal := { pipe.wal with outbox := rest }
          chan := pipe.chan ++ [sent] }.sentTags = pipe.sentTags ++ [sent.tag] := by
        simp [sentTags]
      have hsub : pipe.sentTags ⊆ pipe.sentTags ++ [sent.tag] := List.subset_append_left _ _
      refine ⟨?_, ?_, ?_⟩
      · intro other hother
        have hold := htelling.hand other hother
        rw [hsent]
        exact ⟨hold.1.mono (append_subset_left hsub _), hold.2⟩
      · rw [hsent]
        exact htelling.desk.send houtbox
      · rw [hsent]
        exact fun other hother => (htelling.returned other hother).imp_right fun h => h.mono hsub
  | walRecycle houtbox =>
      exact ⟨htelling.hand, htelling.desk.giveBack houtbox _, htelling.returned⟩
  | wal hinner hstep =>
      obtain ⟨-, -, hrun⟩ := WalEngine.step_desk hflow.keyed hinner hstep
      exact ⟨htelling.hand, htelling.desk.run hrun, htelling.returned⟩

theorem telling_start (mode : Mode) (files : Files) (db : Db) (startLsn : ℕ) :
    (start mode files db startLsn).Telling := by
  refine ⟨?_, ⟨?_, ?_, trivial, ?_⟩, ?_⟩
  · intro batch hbatch
    cases hbatch
  · intro items hitems
    exact absurd hitems (Multiset.notMem_zero items)
  · intro batch hbatch
    cases hbatch
  · intro batch hbatch
    cases hbatch
  · intro batch hbatch
    cases hbatch

instance (ack : Acker) (items : List Request) : Decidable (Answerable ack items) :=
  inferInstanceAs (Decidable (_ ∨ _ ∨ _))

instance (pipe : Pipeline) : (act : Act) → Decidable (CutsAnswerable pipe act)
  | .accept _ _ => isTrue trivial
  | .take count => inferInstanceAs (Decidable (Answerable pipe.ack (pipe.items.take count)))
  | .reply => isTrue trivial
  | .dispatch => isTrue trivial
  | .rotate _ => isTrue trivial
  | .retire _ => isTrue trivial
  | .wal _ => isTrue trivial

/-- The number of responses sent for a request. -/
def responses (pipe : Pipeline) (req : Request) : ℕ :=
  pipe.chan.countP fun reply => reply.tag = req.tag

theorem responses_eq_one (hnodup : pipe.sentTags.Nodup) {req : Request}
    (hsent : req.tag ∈ pipe.sentTags) : pipe.responses req = 1 := by
  have hcount : pipe.responses req = pipe.sentTags.count req.tag := by
    rw [responses, sentTags, List.count, List.countP_map]
    rfl
  rw [hcount]
  exact List.count_eq_one_of_mem hnodup hsent

theorem Flow.nodup_sent (hflow : pipe.Flow) : pipe.sentTags.Nodup := by
  have hle : (pipe.sentTags : Multiset ℕ) ≤ (pipe.computed.map Reply.tag : List ℕ) := by
    have hmap := Multiset.map_le_map (f := Reply.tag) hflow.chan_le
    simpa [sentTags] using hmap
  exact Multiset.coe_nodup.mp (Multiset.nodup_of_le hle (Multiset.coe_nodup.mpr hflow.nodup_tags))

/-- In every run that only cuts answerable batches, with any messages to stage 3
and any completions, no request is answered twice, and a recycled batch has had
each of its requests answered exactly once. -/
theorem recycled_answered_once {mode : Mode} {segs : SortedMap ℕ Bytes} {db : Db} {startLsn : ℕ}
    (hreach : Machine.Reach step CutsAnswerable (start mode (Files.ofSegs segs) db startLsn)
      pipe) :
    pipe.sentTags.Nodup ∧
      ∀ batch ∈ pipe.returned ++ pipe.wal.returned, ∀ req ∈ batch.items,
        pipe.responses req = 1 := by
  obtain ⟨hflow, htelling⟩ := reach_keeps (telling_start mode _ db startLsn)
    (fun _ _ _ => telling_change) hreach
  refine ⟨hflow.nodup_sent, ?_⟩
  intro batch hbatch req hreq
  have hsettled : batch.owed = [] ∧ Told pipe.sentTags batch.items := by
    rcases List.mem_append.mp hbatch with hslot | hpool
    · exact htelling.returned batch hslot
    · exact htelling.desk.returned batch hpool
  exact responses_eq_one hflow.nodup_sent (hsettled.2.all hsettled.1 hreq)

/-- A payload with an opcode nobody knows. -/
def unknownPayload : Payload := ⟨[9], by decide, by decide⟩

/-- A batch with a PUT, an unknown opcode and a GET, up to its recycling. -/
theorem recycled_answered_once_mixed :
    ∃ pipe, Machine.Reach step CutsAnswerable
        (start .sync (Files.ofSegs SortedMap.empty) Db.new 1) pipe ∧
      ∃ batch ∈ pipe.wal.returned, batch.items.length = 3 ∧
        ∀ req ∈ batch.items, pipe.responses req = 1 := by
  obtain ⟨pipe, hreach, hdone⟩ := @Machine.exists_reach _ _ step CutsAnswerable
    (start .sync (Files.ofSegs SortedMap.empty) Db.new 1) _
    [.accept 7 (.smallPut 65 66), .accept 7 unknownPayload, .accept 8 (.smallGet 65), .take 3,
      .reply, .dispatch, .wal .poll, .wal .plan, .wal .reap, .wal (.start 0),
      .wal (.complete 0 27), .wal (.start 0), .wal (.complete 0 0), .wal .poll, .wal .plan,
      .wal .reap, .wal .reap, .wal .send, .wal .send, .wal .send]
    (fun pipe => pipe.wal.returned.any fun batch => batch.items.length = 3) (by decide +kernel)
  obtain ⟨batch, hbatch, hlength⟩ := List.any_eq_true.mp hdone
  exact ⟨pipe, hreach, batch, hbatch, by simpa using hlength,
    (recycled_answered_once hreach).2 batch (List.mem_append_right _ hbatch)⟩

/-- A single request with an unknown opcode: its batch is recycled and nobody
has answered it. -/
theorem recycled_unanswered :
    ∃ pipe, Machine.Reach step (fun _ _ => True)
        (start .sync (Files.ofSegs SortedMap.empty) Db.new 1) pipe ∧
      ∃ batch ∈ pipe.returned, ∃ req ∈ batch.items, pipe.responses req = 0 := by
  obtain ⟨pipe, hreach, hdone⟩ := @Machine.exists_reach _ _ step (fun _ _ => True)
    (start .sync (Files.ofSegs SortedMap.empty) Db.new 1) _
    [.accept 7 unknownPayload, .take 1, .dispatch]
    (fun pipe => decide (∃ batch ∈ pipe.returned, ∃ req ∈ batch.items, pipe.responses req = 0))
    (by decide +kernel)
  exact ⟨pipe, hreach, of_decide_eq_true hdone⟩

end Pipeline

end InMemoryDb
