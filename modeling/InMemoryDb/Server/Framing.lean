import InMemoryDb.Lib.Frames
import InMemoryDb.Server.Stage1
import InMemoryDb.Wire.Call

/-!
# The request path

Client calls become frames, the connection reader cuts the frames apart again.
The announced length decides where the next frame starts, so all rests on it
being the length of the body; it is not when the body is 4 GiB or longer.
-/

namespace InMemoryDb.Stage1

open LittleEndian Wire Frames

/-- The frame of a payload, with a length prefix that fits. -/
def frameOf (data : Payload) : Bytes := leBytes 4 data.bytes.length ++ data.bytes

theorem Payload.length_lt (data : Payload) : data.bytes.length < 256 ^ 4 := by
  have hbounded := data.bounded
  rw [maxPayload] at hbounded
  norm_num
  omega

@[simp]
theorem length_frameOf (data : Payload) : (frameOf data).length = 4 + data.bytes.length := by
  rw [frameOf, List.length_append, length_leBytes]

/-- What the reader does with a stream that announces an acceptable length and
holds that many bytes. -/
theorem readFrame_some {length : ℕ} {body rest : Bytes} (hlength : length % 2 ^ 32 = body.length)
    (hpos : 0 < body.length) (hmax : body.length ≤ maxPayload) :
    readFrame (leBytes 4 length ++ (body ++ rest)) = some (⟨body, hpos, hmax⟩, rest) := by
  have hfield : leNat ((leBytes 4 length ++ (body ++ rest)).take 4) = body.length := by
    rw [List.take_left' (length_leBytes _ _), leNat_leBytes]
    norm_num at hlength ⊢
    exact hlength
  have hrest : (leBytes 4 length ++ (body ++ rest)).drop 4 = body ++ rest :=
    List.drop_left' (length_leBytes _ _)
  rw [readFrame, if_neg (by simp)]
  simp only [hfield, hrest]
  rw [dif_neg (by omega), dif_neg (by simp)]
  simp only [List.take_left, List.drop_left]

/-- A length out of range closes the connection, whatever follows. -/
theorem readFrame_reject {length : ℕ} {rest : Bytes}
    (hlength : length % 2 ^ 32 = 0 ∨ maxPayload < length % 2 ^ 32) :
    readFrame (leBytes 4 length ++ rest) = none := by
  have hfield : leNat ((leBytes 4 length ++ rest).take 4) = length % 2 ^ 32 := by
    rw [List.take_left' (length_leBytes _ _), leNat_leBytes]
    norm_num
  rw [readFrame, if_neg (by simp)]
  simp only [hfield]
  exact dif_pos hlength

theorem readFrame_short {data : Payload} {cut : ℕ} (hcut : cut < (frameOf data).length) :
    readFrame ((frameOf data).take cut) = none := by
  rw [length_frameOf] at hcut
  by_cases hheader : cut < 4
  · rw [readFrame, if_pos (by simp [hheader])]
  · have hfield : leNat (((frameOf data).take cut).take 4) = data.bytes.length := by
      rw [List.take_take, Nat.min_eq_left (by omega), frameOf,
        List.take_left' (length_leBytes _ _), leNat_leBytes_of_lt (Payload.length_lt data)]
    have hlength : (((frameOf data).take cut).drop 4).length < data.bytes.length := by
      rw [List.length_drop, List.length_take, length_frameOf]
      omega
    have hnonempty := data.nonempty
    have hbounded := data.bounded
    rw [readFrame, if_neg (by simp; omega)]
    simp only [hfield]
    rw [dif_neg (by omega), dif_pos hlength]

theorem delimits_frameOf : Delimits frameOf readFrame fun _ => True where
  nonempty data _ := by simp
  whole data _ rest := by
    rw [frameOf, List.append_assoc]
    exact readFrame_some (Nat.mod_eq_of_lt (Payload.length_lt data)) data.nonempty data.bounded
  short data _ cut hcut := readFrame_short hcut

theorem readerLoop_eq (fuel : ℕ) (stream : Bytes) :
    readerLoop fuel stream = (drainLoop readFrame fuel stream).1 := by
  induction fuel generalizing stream with
  | zero => rfl
  | succ fuel ih =>
      rw [readerLoop, drainLoop]
      cases readFrame stream with
      | none => rfl
      | some found => simp only [ih]

theorem handleConn_take (items : List Payload) (cut : ℕ) :
    handleConn ((stream frameOf items).take cut) =
      items.take (wholeCount frameOf items cut) := by
  have hdrain := drain_take delimits_frameOf rfl (fun item (_ : item ∈ items) => trivial) cut
  rw [handleConn, readerLoop_eq]
  exact congrArg Prod.fst hdrain

/-! ## Calls that fit -/

/-- The accessors of the payload give the call back. -/
structure ReadsBack (call : Call) (data : Payload) : Prop where
  op : Wire.op data.bytes = .ok call.op.toCode
  key : Wire.key data.bytes = .ok call.key
  splitKv : Wire.splitKv data.bytes = .ok (call.key, call.value.getD [])

theorem body_pos (call : Call) : 0 < call.body.length := by
  rw [Call.length_body, Call.bodyLen]
  omega

theorem body_le {call : Call} (hsize : call.bodyLen ≤ maxPayload) :
    call.body.length ≤ maxPayload := by
  rw [Call.length_body]
  exact hsize

/-- The payload of a call that is not too long. -/
def payloadOf (call : Call) (hsize : call.bodyLen ≤ maxPayload) : Payload :=
  ⟨call.body, body_pos call, body_le hsize⟩

theorem frameOf_payloadOf (call : Call) (hsize : call.bodyLen ≤ maxPayload) :
    frameOf (payloadOf call hsize) = call.frame := by
  rw [frameOf, payloadOf, Call.length_body, Call.frame]

theorem readsBack_payloadOf (call : Call) (hsize : call.bodyLen ≤ maxPayload) :
    ReadsBack call (payloadOf call hsize) := by
  have hkey : call.key.length < 2 ^ 32 := by
    rw [Call.bodyLen, maxPayload] at hsize
    norm_num
    omega
  exact ⟨call.op_body, Call.key_body hkey, Call.splitKv_body hkey⟩

/-- The payloads of the calls, in order. -/
def payloads (calls : List Call) (hsize : ∀ call ∈ calls, call.bodyLen ≤ maxPayload) :
    List Payload :=
  calls.pmap payloadOf hsize

theorem stream_payloads (calls : List Call)
    (hsize : ∀ call ∈ calls, call.bodyLen ≤ maxPayload) :
    stream frameOf (payloads calls hsize) = encodeCalls calls := by
  rw [encodeCalls_eq]
  induction calls with
  | nil => rfl
  | cons call calls ih =>
      have hrest := ih fun other hother => hsize other (List.mem_cons_of_mem _ hother)
      rw [payloads, List.pmap_cons, stream_cons, frameOf_payloadOf, List.flatMap_cons, ← hrest]
      rfl

theorem readsBack_payloads (calls : List Call)
    (hsize : ∀ call ∈ calls, call.bodyLen ≤ maxPayload) :
    List.Forall₂ ReadsBack calls (payloads calls hsize) := by
  induction calls with
  | nil => exact List.Forall₂.nil
  | cons call calls ih =>
      exact List.Forall₂.cons (readsBack_payloadOf call _)
        (ih fun other hother => hsize other (List.mem_cons_of_mem _ hother))

theorem take_payloads (calls : List Call)
    (hsize : ∀ call ∈ calls, call.bodyLen ≤ maxPayload) (count : ℕ) :
    (payloads calls hsize).take count =
      payloads (calls.take count) fun call hcall => hsize call (List.mem_of_mem_take hcall) := by
  induction calls generalizing count with
  | nil => simp [payloads]
  | cons call calls ih =>
      cases count with
      | zero => rfl
      | succ count =>
          have hrest := ih (fun other hother => hsize other (List.mem_cons_of_mem _ hother)) count
          exact congrArg (payloadOf call _ :: ·) hrest

/-- The reader of a connection on which some bytes of the calls' frames have been
written. -/
theorem handleConn_within {calls : List Call}
    (hsize : ∀ call ∈ calls, call.bodyLen ≤ maxPayload) {sent : Bytes}
    (hsent : sent <+: encodeCalls calls) :
    handleConn sent =
      (payloads calls hsize).take (wholeCount frameOf (payloads calls hsize) sent.length) := by
  rw [← stream_payloads calls hsize] at hsent
  conv_lhs => rw [List.prefix_iff_eq_take.mp hsent]
  exact handleConn_take _ _

theorem handleConn_length_mono {calls : List Call}
    (hsize : ∀ call ∈ calls, call.bodyLen ≤ maxPayload) {sent more : Bytes}
    (hsent : sent ++ more <+: encodeCalls calls) :
    (handleConn sent).length ≤ (handleConn (sent ++ more)).length := by
  rw [handleConn_within hsize hsent,
    handleConn_within hsize ((List.prefix_append sent more).trans hsent), List.length_take,
    List.length_take]
  have hmono := wholeCount_mono frameOf (payloads calls hsize)
    (show sent.length ≤ (sent ++ more).length by simp)
  omega

/-- The request the reader admits at a position is the call whose frame is there. -/
theorem handleConn_getElem {calls : List Call}
    (hsize : ∀ call ∈ calls, call.bodyLen ≤ maxPayload) {sent : Bytes}
    (hsent : sent <+: encodeCalls calls) {index : ℕ} (hindex : index < (handleConn sent).length) :
    ∃ call data, calls[index]? = some call ∧ (handleConn sent)[index]? = some data ∧
      data.bytes = call.body := by
  have hadmits := handleConn_within hsize hsent
  rw [hadmits, List.length_take, payloads, List.length_pmap] at hindex
  have hcall : index < calls.length := by omega
  refine ⟨calls[index], payloadOf calls[index] (hsize _ (List.getElem_mem hcall)),
    List.getElem?_eq_getElem hcall, ?_, rfl⟩
  have hpayload : index < (payloads calls hsize).length := by
    rw [payloads, List.length_pmap]
    exact hcall
  rw [hadmits, List.getElem?_take_of_lt (by rw [payloads]; omega),
    List.getElem?_eq_getElem hpayload, Option.some.injEq]
  exact List.getElem_pmap payloadOf _ _

/-- Every cut of the frames of a list of calls: the reader admits exactly the
calls whose frames end before the cut, in order, and reads each one back. -/
theorem reader_reads_back {calls : List Call}
    (hsize : ∀ call ∈ calls, call.bodyLen ≤ maxPayload) :
    List.Forall₂ ReadsBack calls (handleConn (encodeCalls calls)) ∧
      ∀ cut, ∃ count ≤ calls.length,
        (∀ other ≤ calls.length,
          other ≤ count ↔ (encodeCalls (calls.take other)).length ≤ cut) ∧
        List.Forall₂ ReadsBack (calls.take count)
          (handleConn ((encodeCalls calls).take cut)) := by
  have hlength : (payloads calls hsize).length = calls.length := List.length_pmap
  have hreads := readsBack_payloads calls hsize
  constructor
  · have hadmits := handleConn_take (payloads calls hsize) (encodeCalls calls).length
    rw [← stream_payloads calls hsize, wholeCount_stream, List.take_length, List.take_length]
      at hadmits
    rw [← stream_payloads calls hsize, hadmits]
    exact hreads
  · intro cut
    refine ⟨wholeCount frameOf (payloads calls hsize) cut, ?_, ?_, ?_⟩
    · rw [← hlength]
      exact wholeCount_le _ _ _
    · intro other hother
      rw [le_wholeCount_iff frameOf (payloads calls hsize) cut other (by rwa [hlength]),
        take_payloads, stream_payloads]
    · rw [← stream_payloads calls hsize, handleConn_take]
      exact List.forall₂_take _ hreads

/-- Three calls, the stream cut inside the last frame: two are admitted. -/
theorem reader_reads_back_two :
    ∃ count, count = 2 ∧ List.Forall₂ ReadsBack
      ([.put [65] [66], .get [65], .put [] []].take count)
      (handleConn ((encodeCalls [.put [65] [66], .get [65], .put [] []]).take 28)) := by
  have hsize : ∀ call ∈ [Call.put [65] [66], .get [65], .put [] []],
      call.bodyLen ≤ maxPayload := by decide
  obtain ⟨count, hcount, hiff, hreads⟩ := (reader_reads_back hsize).2 28
  have htwo : 2 ≤ count := (hiff 2 (by decide)).mpr (by decide)
  have hthree : ¬ 3 ≤ count := fun h => absurd ((hiff 3 (by decide)).mp h) (by decide)
  exact ⟨count, by omega, hreads⟩

/-! ## Calls that do not fit -/

theorem handleConn_none {stream : Bytes} (hnone : readFrame stream = none) :
    handleConn stream = [] := by
  rw [handleConn]
  cases stream.length with
  | zero => rfl
  | succ fuel => rw [readerLoop, hnone]

theorem handleConn_some {stream rest : Bytes} {data : Payload}
    (hsome : readFrame stream = some (data, rest)) (hpos : 0 < stream.length) :
    ∃ later, handleConn stream = data :: later := by
  obtain ⟨fuel, hfuel⟩ := Nat.exists_eq_succ_of_ne_zero (Nat.pos_iff_ne_zero.mp hpos)
  refine ⟨readerLoop fuel rest, ?_⟩
  rw [handleConn, hfuel, readerLoop, hsome]

/-- A call, alone or with more behind it: nothing is admitted if and only if the
low 32 bits of its body length are zero or more than the reader accepts. -/
theorem call_rejected_iff (call : Call) (more : Bytes) :
    handleConn (call.frame ++ more) = [] ↔
      call.bodyLen % 2 ^ 32 = 0 ∨ maxPayload < call.bodyLen % 2 ^ 32 := by
  rw [Call.frame, List.append_assoc]
  by_cases hreject : call.bodyLen % 2 ^ 32 = 0 ∨ maxPayload < call.bodyLen % 2 ^ 32
  · exact ⟨fun _ => hreject, fun _ => handleConn_none (readFrame_reject hreject)⟩
  · -- the body is longer than its low 32 bits say, so the reader finds enough bytes
    have hwrap : call.bodyLen % 2 ^ 32 ≤ call.body.length := by
      rw [Call.length_body]
      exact Nat.mod_le _ _
    have hhead : (call.body.take (call.bodyLen % 2 ^ 32)).length = call.bodyLen % 2 ^ 32 :=
      List.length_take_of_le hwrap
    have hsplit : call.body ++ more = call.body.take (call.bodyLen % 2 ^ 32) ++
        (call.body.drop (call.bodyLen % 2 ^ 32) ++ more) := by
      rw [← List.append_assoc, List.take_append_drop]
    have hread := @readFrame_some call.bodyLen (call.body.take (call.bodyLen % 2 ^ 32))
      (call.body.drop (call.bodyLen % 2 ^ 32) ++ more) hhead.symm (by omega) (by omega)
    rw [hsplit]
    obtain ⟨later, hadmits⟩ := handleConn_some hread (by simp)
    rw [hadmits]
    exact ⟨fun h => (by cases h), fun h => absurd h hreject⟩

/-- Whatever call one likes can be executed as the content of a value: the value
is its frame, filled up to four gigabytes. -/
theorem smuggled_admitted {inner : Call} (hsize : inner.bodyLen ≤ maxPayload) {padding : Bytes}
    (hlength : inner.frame.length + padding.length = 2 ^ 32) :
    payloadOf inner hsize ∈ handleConn (Call.put [] (inner.frame ++ padding)).frame := by
  have hbodyLen : (Call.put [] (inner.frame ++ padding)).bodyLen = 5 + 2 ^ 32 := by
    rw [← hlength, ← List.length_append]
    rfl
  have hbody : (Call.put [] (inner.frame ++ padding)).body =
      [opPut, 0, 0, 0, 0] ++ (inner.frame ++ padding) := by
    have hzero : leBytes 4 0 = [0, 0, 0, 0] := by decide
    change [opPut] ++ leBytes 4 0 ++ [] ++ (inner.frame ++ padding) = _
    rw [hzero]
    rfl
  have hfirst := @readFrame_some (5 + 2 ^ 32) [opPut, 0, 0, 0, 0] (inner.frame ++ padding)
    (by norm_num) (by decide) (by decide)
  have hsecond := delimits_frameOf.whole (payloadOf inner hsize) trivial padding
  rw [frameOf_payloadOf] at hsecond
  rw [Call.frame, hbodyLen, hbody, handleConn, List.length_append, length_leBytes,
    show 4 + ([opPut, 0, 0, 0, 0] ++ (inner.frame ++ padding)).length =
      (([opPut, 0, 0, 0, 0] ++ (inner.frame ++ padding)).length + 2) + 1 + 1 by omega,
    readerLoop, hfirst]
  simp only [readerLoop, hsecond]
  exact List.mem_cons_of_mem _ List.mem_cons_self

/-- The value of a PUT of four gigabytes starts with the frame of another PUT, and
the server executes that one. -/
theorem oversized_executed :
    maxPayload < (Call.put [] ((Call.put [65] [66]).frame ++
        List.replicate (2 ^ 32 - 11) 0)).bodyLen ∧
      Payload.smallPut 65 66 ∈ handleConn (Call.put [] ((Call.put [65] [66]).frame ++
        List.replicate (2 ^ 32 - 11) 0)).frame := by
  have hlength : (Call.put [65] [66]).frame.length +
      (List.replicate (2 ^ 32 - 11) (0 : UInt8)).length = 2 ^ 32 := by
    rw [List.length_replicate]
    rfl
  constructor
  · rw [Call.bodyLen, Call.value, Option.getD_some, List.length_append, hlength, maxPayload]
    omega
  · exact smuggled_admitted (show (Call.put [65] [66]).bodyLen ≤ maxPayload by decide) hlength

end InMemoryDb.Stage1
