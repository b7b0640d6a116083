import InMemoryDb.Server.Flow

/-!
# What `NoFsync` acknowledges

The mode promises that an acknowledged write is in the page cache and survives
the death of the process.  Its level is `Applied`, which stage 2 reaches before
it hands the batch to stage 3: the response is sent when the record has not even
been encoded.
-/

namespace InMemoryDb

open SparseFile Wire Recover Stage2 Stage3 Relation

namespace Pipeline

variable {pipe after : Pipeline}

/-- A step sends the `Ok` of a PUT. -/
def AcknowledgesPut (pipe after : Pipeline) (reply : Reply) : Prop :=
  after.chan = pipe.chan ++ [reply] ∧ reply.resp = .ok

/-- The write that carries the record of the request has completed in full: all
its bytes are in the page cache of the segment. -/
def HandedOver (pipe : Pipeline) (reply : Reply) : Prop :=
  ∃ place ∈ pipe.wal.queued, (∃ req ∈ place.batch.items, req.tag = reply.tag) ∧
    Covers (cacheOf pipe.wal.files place.seg) place.offset place.batch.out.length

/-- What stage 3 has received is older than what stage 2 is answering. -/
structure Ahead (pipe : Pipeline) : Prop where
  level : pipe.ack.level = .applied
  held : pipe.wal.desk.held = 0
  older : ∀ items, items ∈ pipe.wal.desk.waiting ∨ items ∈ pipe.wal.desk.logged →
    ∀ req ∈ items, req.tag < pipe.computed.length ∧ ∀ reply ∈ pipe.outbox, req.tag < reply.tag
  hand : ∀ batch, pipe.hand = some batch → ∀ req ∈ batch.items, req.tag < pipe.computed.length

theorem received_inner {ack : Acker} {allow : Batch → Prop} {desk desk' : Desk}
    (hrun : ReflTransGen (Desk.Inner ack allow) desk desk') {items : List Request}
    (hitems : items ∈ desk'.waiting ∨ items ∈ desk'.logged) :
    items ∈ desk.waiting ∨ items ∈ desk.logged := by
  induction hrun with
  | refl => exact hitems
  | tail _ hlast ih =>
      apply ih
      cases hlast with
      | still => exact hitems
      | @log logged hlogged =>
          rcases hitems with hwaiting | hlog
          · exact Or.inl hwaiting
          · rcases List.mem_append.mp hlog with hold | hnew
            · exact Or.inr hold
            · rw [List.mem_singleton.mp hnew]
              exact Or.inl hlogged
      | written hallow hwaiting =>
          rcases hitems with hrest | hlog
          · rw [hwaiting]
            exact Or.inl (Multiset.mem_cons_of_mem hrest)
          · exact Or.inr hlog
      | release => exact hitems

theorem Ahead.take (hahead : pipe.Ahead) (hflow : pipe.Flow) {count : ℕ} {buffer batch : Batch}
    {pool : List Batch} {db : Db} {lsn : ℕ} (hfree : pipe.hand = none) (hsent : pipe.outbox = [])
    (hcount : count ≤ pipe.items.length)
    (hbuffer : (pipe.recycled = some buffer ∧ pool = pipe.wal.recycleTx) ∨
      (pipe.recycled = none ∧ pipe.wal.recycleTx = buffer :: pool))
    (hbatch : applyBatch pipe.db
      { buffer with items := buffer.items ++ pipe.items.take count } pipe.lsn =
        .ok (db, batch, lsn)) :
    (pipe.taken count db lsn batch pool).Ahead := by
  unfold taken
  have hcut := hflow.cut hbuffer hbatch
  obtain ⟨-, hlate⟩ := hflow.cut_tags hcut
  have hflow' := flow_take hflow hfree hsent hcount hbuffer hbatch
  have hgrows : pipe.computed.length ≤ (pipe.computed ++ batch.owed).length := by
    rw [List.length_append]
    omega
  refine ⟨hahead.level, hahead.held, ?_, ?_⟩
  · intro items hitems req hreq
    have hold := (hahead.older items hitems req hreq).1
    refine ⟨lt_of_lt_of_le hold hgrows, ?_⟩
    intro reply hreply
    have hmem : reply ∈ batch.owed := by
      rw [(pipe.ack.advance_owed batch .applied).mem_iff]
      exact List.mem_append_left _ hreply
    obtain ⟨answered, hanswered, htag⟩ := mem_owedOf hmem
    rw [htag]
    exact lt_of_lt_of_le hold (hlate answered hanswered)
  · intro other hother req hreq
    simp only [Option.some.injEq] at hother
    rw [← hother] at hreq
    obtain ⟨executed, hexecuted, rfl⟩ := List.mem_map.mp hreq
    rw [Acker.advanceReq_tag]
    have howed : ∃ reply ∈ batch.owed, reply.tag = executed.tag := by
      obtain ⟨received, -, hpair⟩ := exists_received hcut.answered hexecuted
      obtain ⟨resp, hresp⟩ := Option.isSome_iff_exists.mp hpair.2.2.2
      exact ⟨⟨executed.reply, executed.tag, resp⟩,
        List.mem_filterMap.mpr ⟨executed, hexecuted, by simp [Request.owed, hresp]⟩, rfl⟩
    obtain ⟨reply, hreply, htag⟩ := howed
    rw [← htag]
    exact hflow'.tag_lt (List.mem_append_right _ hreply)

theorem Ahead.toLog (hahead : pipe.Ahead) (hflow : pipe.Flow) {batch : Batch}
    (hhand : pipe.hand = some batch) (hsent : pipe.outbox = []) :
    { pipe with
      hand := none
      wal := { pipe.wal with msgRx := pipe.wal.msgRx ++ [WalMsg.write batch] } }.Ahead := by
  have hdesk := pipe.wal.desk_arrive batch
  have hnil : owedOf batch.items = [] :=
    owedOf_eq_nil hahead.level fun req hreq => ((hflow.hand batch hhand).owed req hreq).mp
  refine ⟨hahead.level, ?_, ?_, ?_⟩
  · rw [hdesk, Desk.held_arrive, hnil, hahead.held]
    rfl
  · rw [hdesk]
    intro items hitems req hreq
    have hbound : req.tag < pipe.computed.length := by
      rcases hitems with hwaiting | hlogged
      · change items ∈ batch.items ::ₘ pipe.wal.desk.waiting at hwaiting
        rcases Multiset.mem_cons.mp hwaiting with rfl | hrest
        · exact hahead.hand batch hhand req hreq
        · exact (hahead.older items (Or.inl hrest) req hreq).1
      · exact (hahead.older items (Or.inr hlogged) req hreq).1
    refine ⟨hbound, ?_⟩
    rw [hsent]
    intro reply hreply
    cases hreply
  · intro other hother
    cases hother

theorem Ahead.control (hahead : pipe.Ahead) {msg : WalMsg} (hmsg : msg.items? = none) :
    { pipe with wal := { pipe.wal with msgRx := pipe.wal.msgRx ++ [msg] } }.Ahead := by
  have hdesk := pipe.wal.desk_control hmsg
  refine ⟨hahead.level, ?_, ?_, hahead.hand⟩
  · rw [hdesk]
    exact hahead.held
  · rw [hdesk]
    exact hahead.older

theorem ahead_change {act : Act} (hflow : pipe.Flow) (hahead : pipe.Ahead)
    (hchange : Change pipe act after) : after.Ahead := by
  cases hchange with
  | accept conn data => exact ⟨hahead.level, hahead.held, hahead.older, hahead.hand⟩
  | take hfree hsent hcount hbuffer hbatch =>
      exact hahead.take hflow hfree hsent hcount.2.2 hbuffer hbatch
  | @reply sent rest houtbox =>
      refine ⟨hahead.level, hahead.held, ?_, hahead.hand⟩
      intro items hitems req hreq
      obtain ⟨hbound, hlater⟩ := hahead.older items hitems req hreq
      refine ⟨hbound, fun reply hreply => hlater reply ?_⟩
      rw [houtbox]
      exact List.mem_cons_of_mem _ hreply
  | toLog hhand hsent hwork => exact hahead.toLog hflow hhand hsent
  | toSlot hhand hsent hwork =>
      refine ⟨hahead.level, hahead.held, hahead.older, ?_⟩
      intro other hother
      cases hother
  | rotate boundaryLsn => exact hahead.control rfl
  | retire boundaryLsn => exact hahead.control rfl
  | walReply houtbox =>
      have hheld := Desk.held_send (show pipe.wal.desk.outbox = _ from houtbox)
      rw [hahead.held] at hheld
      exact absurd hheld.symm (by simp)
  | @walRecycle batch rest houtbox =>
      have hheld := @Desk.held_giveBack pipe.wal.desk batch rest houtbox
        (pipe.wal.recycleTx ++ [batch.recycle]) (pipe.wal.returned ++ [batch])
      exact ⟨hahead.level, hheld.trans hahead.held, hahead.older, hahead.hand⟩
  | wal hinner hstep =>
      obtain ⟨-, -, hrun⟩ := WalEngine.step_desk hflow.keyed hinner hstep
      refine ⟨hahead.level, (held_run hrun).1.trans hahead.held, ?_, hahead.hand⟩
      exact fun items hitems => hahead.older items (received_inner hrun hitems)

theorem ahead_start (files : Files) (db : Db) (startLsn : ℕ) :
    (start .noFsync files db startLsn).Ahead := by
  refine ⟨rfl, rfl, ?_, ?_⟩
  · rintro items (hwaiting | hlogged)
    · exact absurd hwaiting (Multiset.notMem_zero items)
    · cases hlogged
  · intro batch hbatch
    cases hbatch

/-- A response that leaves stage 2 has no record in the log yet. -/
theorem Ahead.not_handedOver (hahead : pipe.Ahead) {reply : Reply}
    (hreply : reply ∈ pipe.outbox) : ¬ HandedOver pipe reply := by
  rintro ⟨place, hplace, ⟨req, hreq, htag⟩, -⟩
  have hlogged : place.batch.items ∈ pipe.wal.desk.logged := List.mem_map_of_mem hplace
  have hlt := (hahead.older _ (Or.inr hlogged) req hreq).2 reply hreply
  omega

/-- In `NoFsync` mode, in every run and for every interleaving of the stages, no
PUT is acknowledged after its record has reached the page cache. -/
theorem noFsync_ack_unwritten {segs : SortedMap ℕ Bytes} {db : Db} {startLsn : ℕ} {act : Act}
    {reply : Reply}
    (hreach : Machine.Reach step (fun _ _ => True)
      (start .noFsync (Files.ofSegs segs) db startLsn) pipe)
    (hstep : pipe.step act = some after) (hack : AcknowledgesPut pipe after reply) :
    ¬ HandedOver pipe reply := by
  obtain ⟨hflow, hahead⟩ := reach_keeps (ahead_start _ db startLsn)
    (fun _ _ _ hflow hahead _ => ahead_change hflow hahead) hreach
  have hchan := hack.1
  have hsame : pipe.chan ≠ pipe.chan ++ [reply] := by simp
  cases step_change hstep with
  | @reply sent rest houtbox =>
      have hsent : sent = reply := by simpa using hchan
      refine hahead.not_handedOver ?_
      rw [houtbox, hsent]
      exact List.mem_cons_self
  | walReply houtbox =>
      have hheld := Desk.held_send (show pipe.wal.desk.outbox = _ from houtbox)
      rw [hahead.held] at hheld
      exact absurd hheld.symm (by simp)
  | _ => exact absurd hchan hsame

/-- One PUT. -/
theorem noFsync_ack_unwritten_one :
    ∃ pipe, Machine.Reach step (fun _ _ => True)
        (start .noFsync (Files.ofSegs SortedMap.empty) Db.new 1) pipe ∧
      ∃ after reply, pipe.step .reply = some after ∧ AcknowledgesPut pipe after reply ∧
        ¬ HandedOver pipe reply := by
  obtain ⟨pipe, hreach, hdone⟩ := @Machine.exists_reach _ _ step (fun _ _ => True)
    (start .noFsync (Files.ofSegs SortedMap.empty) Db.new 1) _
    [.accept 7 (.smallPut 65 66), .take 1]
    (fun pipe => (pipe.step .reply).any fun after => after.chan = pipe.chan ++ [⟨7, 0, .ok⟩])
    (by decide +kernel)
  obtain ⟨after, hstep, hchan⟩ := (Option.any_eq_true _ _).mp hdone
  have hack : AcknowledgesPut pipe after ⟨7, 0, .ok⟩ := ⟨by simpa using hchan, rfl⟩
  exact ⟨pipe, hreach, after, _, hstep, hack, noFsync_ack_unwritten hreach hstep hack⟩

/-- A PUT is acknowledged, and nothing at all has been queued for the log. -/
theorem noFsync_ack_before_log :
    ∃ pipe, Machine.Reach step (fun _ _ => True)
        (start .noFsync (Files.ofSegs SortedMap.empty) Db.new 1) pipe ∧
      ∃ after reply, pipe.step .reply = some after ∧ AcknowledgesPut pipe after reply ∧
        pipe.wal.queued = [] ∧ ¬ HandedOver pipe reply := by
  obtain ⟨pipe, hreach, hdone⟩ := @Machine.exists_reach _ _ step (fun _ _ => True)
    (start .noFsync (Files.ofSegs SortedMap.empty) Db.new 1) _
    [.accept 7 (.smallPut 65 66), .take 1]
    (fun pipe => decide (pipe.wal.queued = []) &&
      (pipe.step .reply).any fun after => after.chan = pipe.chan ++ [⟨7, 0, .ok⟩])
    (by decide +kernel)
  obtain ⟨hqueued, hsent⟩ := (Bool.and_eq_true _ _).mp hdone
  obtain ⟨after, hstep, hchan⟩ := (Option.any_eq_true _ _).mp hsent
  have hnone : pipe.wal.queued = [] := of_decide_eq_true hqueued
  refine ⟨pipe, hreach, after, ⟨7, 0, .ok⟩, hstep, ⟨by simpa using hchan, rfl⟩, hnone, ?_⟩
  rintro ⟨place, hplace, -⟩
  rw [hnone] at hplace
  cases hplace

end Pipeline

end InMemoryDb
