import InMemoryDb.Client.Board

/-!
# The blocking client

`driver` runs the writer loop and owns the life of the connection; `read_loop` is
a thread of its own for each connection.  The driver joins it before it goes on to
the next connection, so the `dead` flag they share never carries over.
-/

namespace InMemoryDb.Client

open Wire Frames Stage1

/-- Steps of `read_loop` on its way out. -/
inductive ExitAct where
  /-- `read` returns nothing or an error. -/
  | readEnd
  /-- The FIFO is empty and the writer has let go of it. -/
  | recvGone
  | storeDead
  | tryRecv
  /-- `read_loop` returns. -/
  | leave
  deriving DecidableEq

def Link.exitStep (link : Link) : ExitAct → Option Link
  | .readEnd => if link.reader = .reading then some { link with reader := .ended } else none
  | .recvGone =>
      match link.reader with
      | .matching _ =>
          if link.fifo = [] ∧ link.fifoTx = false then some { link with reader := .ended }
          else none
      | _ => none
  | .storeDead => if link.reader = .ended then some { link with reader := .draining } else none
  | .tryRecv =>
      if link.reader = .draining then
        match link.fifo with
        | [] => some { link with reader := .leaving }
        | _ :: _ => some (link.resolve .lost)
      else none
  | .leave => if link.reader = .leaving then some (link.finish .dropped) else none

/-- Control points of `driver`. -/
inductive DriverPc where
  /-- At `clone_pair`. -/
  | cloning
  /-- In `rx.recv()`. -/
  | waiting
  /-- At the load of `dead`, with the first call of a batch. -/
  | checking (first : Call)
  /-- In the `try_recv` loop. -/
  | batching (batch : List Call)
  /-- In the loop over the batch. -/
  | encoding (batch : List Call)
  /-- In `write_all`, with these bytes to go. -/
  | writing (rest : Bytes)
  /-- Before the drops of `sock` and `fifo_tx`. -/
  | hangingUp
  | reconnecting
  /-- In `rdr.join()`. -/
  | joining
  | returned
  deriving DecidableEq

/-- The calls in the driver's hands. -/
def DriverPc.hand : DriverPc → List Call
  | checking first => [first]
  | batching batch => batch
  | encoding batch => batch
  | _ => []

/-- What is encoded for the current connection and not written, while the driver
serves it. -/
def DriverPc.unsent (writeBuf : Bytes) : DriverPc → Option Bytes
  | waiting => some []
  | checking _ => some []
  | batching _ => some []
  | encoding _ => some writeBuf
  | writing rest => some rest
  | _ => none

structure Sync extends Board where
  dead : Bool
  writeBuf : Bytes
  pc : DriverPc
  deriving DecidableEq

inductive SyncAct where
  /-- Some caller makes a call. -/
  | call (request : Wire.Call)
  /-- The last handle is dropped. -/
  | close
  | link (act : LinkAct)
  | exit (act : ExitAct)
  | clone
  /-- `clone_pair` fails; the driver reconnects and tries again. -/
  | cloneFails
  | recv
  /-- The load of `dead`, which is relaxed and may miss a store. -/
  | load (seen : Bool)
  | tryRecv
  | encode
  /-- The socket takes some bytes. -/
  | write (count : ℕ)
  | flush
  | writeFails
  | hangUp
  | reconnect
  | join
  deriving DecidableEq

namespace Sync

def new : Sync := ⟨Board.new, false, [], .cloning⟩

def step (client : Sync) : SyncAct → Option Sync
  | .call request =>
      (client.toBoard.call request).map fun board => { client with toBoard := board }
  | .close => some { client with closed := true }
  | .link act =>
      (client.onLink fun link => link.step act).map fun board => { client with toBoard := board }
  | .exit act =>
      (client.onLink fun link => link.exitStep act).map fun board =>
        { client with toBoard := board, dead := client.dead || act = .storeDead }
  | .clone =>
      if client.pc = .cloning then
        some { client with links := Link.new :: client.links, dead := false, pc := .waiting }
      else none
  | .cloneFails => if client.pc = .cloning then some client else none
  | .recv =>
      match client.pc, client.rx with
      | .waiting, call :: rest => some { client with rx := rest, pc := .checking call }
      | .waiting, [] =>
          -- `Err` once all handles are gone; returning drops the writer's end of the FIFO
          if client.closed then
            (client.onLink fun link => some { link with fifoTx := false }).map fun board =>
              { client with toBoard := board, pc := .returned }
          else none
      | _, _ => none
  | .load seen =>
      match client.pc with
      | .checking first =>
          if seen then
            if client.dead then
              some { client with refused := client.refused ++ [first], pc := .hangingUp }
            else none
          else some { client with pc := .batching [first] }
      | _ => none
  | .tryRecv =>
      match client.pc, client.rx with
      | .batching batch, call :: rest =>
          some { client with rx := rest, pc := .batching (batch ++ [call]) }
      | .batching batch, [] => some { client with writeBuf := [], pc := .encoding batch }
      | _, _ => none
  | .encode =>
      match client.pc with
      | .encoding (call :: rest) =>
          (client.onLink fun link => some (link.push call)).map fun board =>
            { client with
              toBoard := board
              writeBuf := (encodeRaw client.writeBuf call.request.op call.request.key
                call.request.value).1
              pc := .encoding rest }
      | .encoding [] => some { client with pc := .writing client.writeBuf }
      | _ => none
  | .write count =>
      match client.pc with
      | .writing rest =>
          if 0 < count ∧ count ≤ rest.length then
            (client.onLink fun link => some (link.write (rest.take count))).map fun board =>
              { client with toBoard := board, pc := .writing (rest.drop count) }
          else none
      | _ => none
  | .flush => if client.pc = .writing [] then some { client with pc := .waiting } else none
  | .writeFails =>
      match client.pc with
      | .writing _ => some { client with dead := true, pc := .hangingUp }
      | _ => none
  | .hangUp =>
      if client.pc = .hangingUp then
        (client.onLink fun link => some { link with fifoTx := false }).map fun board =>
          { client with toBoard := board, pc := .reconnecting }
      else none
  | .reconnect => if client.pc = .reconnecting then some { client with pc := .joining } else none
  | .join =>
      if client.pc = .joining ∧ ∀ link ∈ client.links.head?, link.reader = .done then
        some { client with pc := .cloning }
      else none

/-- What `call` returns. -/
def result : Outcome → Except String Resp := Outcome.result "client driver is dead"

/-- The connections the driver is done with. -/
def tornDown (client : Sync) : List Link :=
  if client.pc = .cloning then client.links else client.links.tail

/-- Guard of runs: no body is too long. -/
def Calls (_ : Sync) : SyncAct → Prop
  | .call request => request.bodyLen ≤ maxPayload
  | _ => True

instance (client : Sync) : (act : SyncAct) → Decidable (Calls client act)
  | .call request => inferInstanceAs (Decidable (request.bodyLen ≤ maxPayload))
  | .close => isTrue trivial
  | .link _ => isTrue trivial
  | .exit _ => isTrue trivial
  | .clone => isTrue trivial
  | .cloneFails => isTrue trivial
  | .recv => isTrue trivial
  | .load _ => isTrue trivial
  | .tryRecv => isTrue trivial
  | .encode => isTrue trivial
  | .write _ => isTrue trivial
  | .flush => isTrue trivial
  | .writeFails => isTrue trivial
  | .hangUp => isTrue trivial
  | .reconnect => isTrue trivial
  | .join => isTrue trivial

variable {client after : Sync}

/-! ## What a run keeps -/

def Inv (client : Sync) : Prop :=
  client.toBoard.Inv client.pc.hand (client.pc.unsent client.writeBuf) (client.pc = .cloning)

theorem inv_new : new.Inv where
  numbered := rfl
  sized _ h := by cases h
  custody := List.Perm.nil
  links _ h := by cases h
  past _ h := by cases h
  pending _ h := by cases h
  ended _ _ h := by cases h

theorem Inv.held (hinv : client.Inv) {pc : DriverPc} (hpc : client.pc = pc) :
    client.toBoard.Inv pc.hand (pc.unsent client.writeBuf) (pc = .cloning) := by
  rw [← hpc]
  exact hinv

theorem exitStep_keeps {link next : Link} {act : ExitAct}
    (hstep : link.exitStep act = some next) : link.Keeps next := by
  cases act with
  | readEnd =>
      simp only [Link.exitStep] at hstep
      split_ifs at hstep with hreader
      cases hstep
      exact ⟨fun hinv => hinv.leave rfl (by simp), rfl, rfl, by simp [hreader]⟩
  | recvGone =>
      simp only [Link.exitStep] at hstep
      split at hstep
      next resp hreader =>
        split_ifs at hstep with hgone
        cases hstep
        exact ⟨fun hinv => hinv.leave rfl (by simp), rfl, rfl, by simp [hreader]⟩
      next => cases hstep
  | storeDead =>
      simp only [Link.exitStep] at hstep
      split_ifs at hstep with hreader
      cases hstep
      exact ⟨fun hinv => hinv.leave rfl (by simp), rfl, rfl, by simp [hreader]⟩
  | tryRecv =>
      simp only [Link.exitStep] at hstep
      split_ifs at hstep with hreader
      split at hstep
      next =>
        cases hstep
        exact ⟨fun hinv => hinv.leave rfl (by simp), rfl, rfl, by simp [hreader]⟩
      next tx rest hfifo =>
        cases hstep
        refine ⟨fun hinv => hinv.lose (by rw [hreader]; rfl), ?_, ?_, by simp [hreader]⟩
        · rw [Link.resolve, hfifo]
        · rw [Link.resolve, hfifo]
  | leave =>
      simp only [Link.exitStep] at hstep
      split_ifs at hstep with hreader
      cases hstep
      exact Link.keeps_finish fun _ => Outcome.noConfusion

theorem keeps_dropFifo (link next : Link)
    (hnext : some { link with fifoTx := false } = some next) : link.Keeps next := by
  cases hnext
  exact ⟨fun hinv => hinv.hangUp, rfl, rfl, id⟩

theorem inv_recv (hinv : client.Inv) (hstep : client.step .recv = some after) : after.Inv := by
  simp only [step] at hstep
  split at hstep
  next call rest hpc hrx =>
    cases hstep
    exact ((hinv.held hpc).take hrx).weaken (fun _ => id) (fun h => by cases h)
  next hpc hrx =>
    split_ifs at hstep with hclosed
    obtain ⟨board, hboard, rfl⟩ := Option.map_eq_some_iff.mp hstep
    exact ((hinv.held hpc).onLink keeps_dropFifo hboard).weaken (fun _ h => by cases h)
      (fun h => by cases h)
  next => cases hstep

theorem inv_load {seen : Bool} (hinv : client.Inv)
    (hstep : client.step (.load seen) = some after) : after.Inv := by
  simp only [step] at hstep
  split at hstep
  next first hpc =>
    split_ifs at hstep with hseen hdead
    · cases hstep
      exact (hinv.held hpc).refuse.weaken (fun _ h => by cases h) (fun h => by cases h)
    · cases hstep
      exact (hinv.held hpc).weaken (fun _ => id) (fun h => by cases h)
  next => cases hstep

theorem inv_tryRecv (hinv : client.Inv) (hstep : client.step .tryRecv = some after) :
    after.Inv := by
  simp only [step] at hstep
  split at hstep
  next batch call rest hpc hrx =>
    cases hstep
    exact ((hinv.held hpc).take hrx).weaken (fun _ => id) (fun h => by cases h)
  next batch hpc hrx =>
    cases hstep
    exact (hinv.held hpc).weaken (fun _ => id) (fun h => by cases h)
  next => cases hstep

theorem inv_encode (hinv : client.Inv) (hstep : client.step .encode = some after) :
    after.Inv := by
  simp only [step] at hstep
  split at hstep
  next call rest hpc =>
    obtain ⟨board, hboard, rfl⟩ := Option.map_eq_some_iff.mp hstep
    have hheld : client.toBoard.Inv ([call] ++ rest) (some client.writeBuf) False :=
      (hinv.held hpc).weaken (fun _ => id) (fun h => h.elim)
    have hbuf : (encodeRaw client.writeBuf call.request.op call.request.key
        call.request.value).1 = client.writeBuf ++ encodeCalls ([call].map Call.request) := by
      rw [Call.encodeRaw_eq, encodeCalls_eq]
      simp
    refine (hheld.push hboard).weaken ?_ (fun h => by cases h)
    intro bytes hbytes
    rw [← hbuf]
    exact hbytes
  next hpc =>
    cases hstep
    exact (hinv.held hpc).weaken (fun _ => id) (fun h => by cases h)
  next => cases hstep

theorem inv_join (hinv : client.Inv) (hstep : client.step .join = some after) : after.Inv := by
  simp only [step] at hstep
  split_ifs at hstep with hguard
  obtain ⟨hpc, hdone⟩ := hguard
  cases hstep
  have hheld := hinv.held hpc
  refine ⟨hheld.numbered, hheld.sized, hheld.custody, hheld.links, hheld.past,
    fun _ _ _ h => (by cases h), ?_⟩
  intro _ link hlink
  change link ∈ client.links at hlink
  have hpast := hheld.past
  cases hlinks : client.links with
  | nil =>
      rw [hlinks] at hlink
      cases hlink
  | cons current past =>
      rw [hlinks] at hlink hpast hdone
      rcases List.mem_cons.mp hlink with rfl | hold
      · exact hdone link rfl
      · exact hpast link hold

theorem inv_step {act : SyncAct} (hinv : client.Inv) (hguard : Calls client act)
    (hstep : client.step act = some after) : after.Inv := by
  cases act with
  | call request =>
      obtain ⟨board, hboard, rfl⟩ := Option.map_eq_some_iff.mp hstep
      exact Board.Inv.call hinv hguard hboard
  | close =>
      cases hstep
      exact Board.Inv.close hinv
  | link act =>
      obtain ⟨board, hboard, rfl⟩ := Option.map_eq_some_iff.mp hstep
      exact Board.Inv.onLink hinv (fun _ _ => Link.step_keeps) hboard
  | exit act =>
      obtain ⟨board, hboard, rfl⟩ := Option.map_eq_some_iff.mp hstep
      exact Board.Inv.onLink hinv (fun _ _ => exitStep_keeps) hboard
  | clone =>
      simp only [step] at hstep
      split_ifs at hstep with hpc
      cases hstep
      exact ((hinv.held hpc).connect rfl).weaken (fun _ => id) (fun h => by cases h)
  | cloneFails =>
      simp only [step] at hstep
      split_ifs at hstep with hpc
      cases hstep
      exact hinv
  | recv => exact inv_recv hinv hstep
  | load seen => exact inv_load hinv hstep
  | tryRecv => exact inv_tryRecv hinv hstep
  | encode => exact inv_encode hinv hstep
  | write count =>
      simp only [step] at hstep
      split at hstep
      next rest hpc =>
        split_ifs at hstep with hcount
        obtain ⟨board, hboard, rfl⟩ := Option.map_eq_some_iff.mp hstep
        exact (Board.Inv.write (hinv.held hpc) hboard).weaken (fun _ => id) (fun h => by cases h)
      next => cases hstep
  | flush =>
      simp only [step] at hstep
      split_ifs at hstep with hpc
      cases hstep
      exact (hinv.held hpc).weaken (fun _ => id) (fun h => by cases h)
  | writeFails =>
      simp only [step] at hstep
      split at hstep
      next rest hpc =>
        cases hstep
        exact (hinv.held hpc).weaken (fun _ h => by cases h) (fun h => by cases h)
      next => cases hstep
  | hangUp =>
      simp only [step] at hstep
      split_ifs at hstep with hpc
      obtain ⟨board, hboard, rfl⟩ := Option.map_eq_some_iff.mp hstep
      exact ((hinv.held hpc).onLink keeps_dropFifo hboard).weaken (fun _ => id)
        (fun h => by cases h)
  | reconnect =>
      simp only [step] at hstep
      split_ifs at hstep with hpc
      cases hstep
      exact (hinv.held hpc).weaken (fun _ => id) (fun h => by cases h)
  | join => exact inv_join hinv hstep

theorem inv_reach (hreach : Machine.Reach step Calls new client) : client.Inv :=
  hreach.invariant inv_new fun _ _ _ hinv hguard hstep => inv_step hinv hguard hstep

theorem Inv.matched (hinv : client.Inv) : client.toBoard.Matched result client.tornDown := by
  apply Board.Inv.matched hinv
  intro link hlink
  rw [tornDown] at hlink
  split_ifs at hlink with hpc
  · exact ⟨hlink, Board.Inv.ended hinv hpc link hlink⟩
  · exact ⟨List.mem_of_mem_tail hlink, Board.Inv.past hinv link hlink⟩

/-! ## The join

The driver waits for a reader that it has cut off from new senders.  Once the socket
reports the end of the stream, the reader returns by its own steps. -/

/-- How far `read_loop` is from returning. -/
def rank (link : Link) : ℕ :=
  match link.reader with
  | .matching _ => link.fifo.length + 2 * link.framer.length + 6
  | .extracting => link.fifo.length + 2 * link.framer.length + 5
  | .reading => link.fifo.length + 4
  | .ended => link.fifo.length + 3
  | .draining => link.fifo.length + 2
  | .leaving => 1
  | .done => 0

theorem length_tryExtract {buf rest : Bytes} {resp : Resp}
    (hextract : tryExtract buf = some (resp, rest)) : rest.length < buf.length := by
  unfold tryExtract at hextract
  simp only at hextract
  split_ifs at hextract with hheader hbody
  simp only [Option.some.injEq, Prod.mk.injEq] at hextract
  rw [← hextract.2, List.length_drop]
  rw [frameHdr] at hheader hbody ⊢
  omega

/-- Unless it has returned, `read_loop` can take a step towards it. -/
theorem exists_closer {link : Link} (hinv : link.Inv) (hreader : link.reader ≠ .done) :
    ∃ next, rank next < rank link ∧
      ((∃ act, link.step act = some next) ∨ ∃ act, link.exitStep act = some next) := by
  cases hpc : link.reader with
  | reading =>
      refine ⟨{ link with reader := .ended }, by simp [rank, hpc], Or.inr ⟨.readEnd, ?_⟩⟩
      simp [Link.exitStep, hpc]
  | extracting =>
      cases hextract : tryExtract link.framer with
      | none =>
          refine ⟨{ link with reader := .reading }, ?_, Or.inl ⟨.extract, ?_⟩⟩
          · simp only [rank, hpc]
            omega
          · simp [Link.step, hpc, hextract]
      | some found =>
          obtain ⟨resp, rest⟩ := found
          have hshorter := length_tryExtract hextract
          refine ⟨{ link with framer := rest, reader := .matching resp }, ?_,
            Or.inl ⟨.extract, ?_⟩⟩
          · simp only [rank, hpc]
            omega
          · simp [Link.step, hpc, hextract]
  | matching resp =>
      cases hfifo : link.fifo with
      | nil => exact absurd hfifo (hinv.ready hpc)
      | cons tx rest =>
          refine ⟨{ link.resolve (.ok resp) with reader := .extracting }, ?_,
            Or.inl ⟨.recv, by simp [Link.step, hpc, hfifo]⟩⟩
          simp only [rank, hpc, Link.resolve, hfifo, List.length_cons]
          omega
  | ended =>
      refine ⟨{ link with reader := .draining }, by simp [rank, hpc], Or.inr ⟨.storeDead, ?_⟩⟩
      simp [Link.exitStep, hpc]
  | draining =>
      cases hfifo : link.fifo with
      | nil =>
          refine ⟨{ link with reader := .leaving }, by simp [rank, hpc], Or.inr ⟨.tryRecv, ?_⟩⟩
          simp [Link.exitStep, hpc, hfifo]
      | cons tx rest =>
          refine ⟨link.resolve .lost, by simp [rank, hpc, Link.resolve, hfifo],
            Or.inr ⟨.tryRecv, ?_⟩⟩
          simp [Link.exitStep, hpc, hfifo]
  | leaving =>
      refine ⟨link.finish .dropped, by simp [rank, hpc, Link.finish], Or.inr ⟨.leave, ?_⟩⟩
      simp [Link.exitStep, hpc]
  | done => exact absurd hpc hreader

/-- The reader gets there, whatever the driver does meanwhile. -/
theorem exists_returned (hinv : client.Inv) {link : Link} {past : List Link}
    (hlinks : client.links = link :: past) :
    ∃ next, Machine.Reach step Calls client next ∧ next.pc = client.pc ∧
      ∀ link ∈ next.links.head?, link.reader = .done := by
  induction hrank : rank link using Nat.strong_induction_on generalizing client link with
  | _ bound ih =>
    by_cases hdone : link.reader = .done
    · refine ⟨client, Machine.Reach.start, rfl, ?_⟩
      intro other hother
      rw [hlinks] at hother
      cases hother
      exact hdone
    · obtain ⟨closer, hcloser, hact⟩ :=
        exists_closer (Board.Inv.links hinv link (by simp [hlinks])) hdone
      obtain ⟨act, dead, hstep⟩ : ∃ act dead, Calls client act ∧ client.step act =
          some { client with links := closer :: past, dead := dead } := by
        rcases hact with ⟨act, hact⟩ | ⟨act, hact⟩
        · exact ⟨.link act, client.dead, trivial, by simp [step, Board.onLink, hlinks, hact]⟩
        · exact ⟨.exit act, client.dead || act = .storeDead, trivial, by
            simp [step, Board.onLink, hlinks, hact]⟩
      obtain ⟨next, hreach, hpc, hlast⟩ := ih (rank closer) (hrank ▸ hcloser)
        (inv_step hinv hstep.1 hstep.2) rfl rfl
      exact ⟨next, (Machine.Reach.start.next hstep.1 hstep.2).trans hreach, hpc, hlast⟩

/-- The driver always comes back from its join. -/
theorem exists_joined (hinv : client.Inv) (hpc : client.pc = .joining) :
    ∃ next, Machine.Reach step Calls client next ∧ next.pc = .cloning := by
  cases hlinks : client.links with
  | nil =>
      refine ⟨{ client with pc := .cloning }, ?_, rfl⟩
      refine Machine.Reach.start.next (show Calls client .join from trivial) ?_
      simp [step, hpc, hlinks]
  | cons link past =>
      obtain ⟨next, hreach, hsame, hdone⟩ := exists_returned hinv hlinks
      refine ⟨{ next with pc := .cloning }, hreach.next (show Calls next .join from trivial) ?_,
        rfl⟩
      rw [step, if_pos ⟨hsame.trans hpc, hdone⟩]

end Sync

end InMemoryDb.Client
