import InMemoryDb.Server.Writer

/-!
# The response path

`FrameReader` is the client's side of the response frames: a buffer that is fed
whatever the socket delivers, and drained of whole frames after each read.  What
it returns depends on the bytes alone, also when they are no responses at all.
-/

namespace InMemoryDb.Client

open LittleEndian Wire Frames Stage1

def frameHdr : ℕ := 4

/-- `try_extract` on the buffer of the reader: one response and the rest, or
nothing until more bytes are there. -/
def tryExtract (buf : Bytes) : Option (Resp × Bytes) :=
  if buf.length < frameHdr then none
  else
    let bodyLen := leNat (buf.take frameHdr)
    let total := frameHdr + bodyLen
    if buf.length < total then none
    else some (Resp.fromProtoCode ((buf.take total).drop frameHdr), buf.drop total)

theorem fromProtoCode_respBody {resp : Resp} (hsend : resp.Sendable) :
    Resp.fromProtoCode (respBody resp) = resp := by
  cases resp with
  | value bytes => rfl
  | unknown => exact hsend.elim
  | _ => rfl

theorem length_respBody_lt {resp : Resp} (hsend : resp.Sendable) :
    (respBody resp).length < 256 ^ 4 := by
  cases resp with
  | value bytes =>
      have hlength : bytes.length < 2 ^ 32 - 1 := hsend
      rw [respBody, List.length_cons]
      norm_num at hlength ⊢
      omega
  | unknown => exact hsend.elim
  | _ => decide

@[simp]
theorem length_respFrame (resp : Resp) :
    (respFrame resp).length = 4 + (respBody resp).length := by
  rw [respFrame, List.length_append, length_leBytes]

theorem tryExtract_whole {resp : Resp} (hsend : resp.Sendable) (rest : Bytes) :
    tryExtract (respFrame resp ++ rest) = some (resp, rest) := by
  have hfield : leNat ((respFrame resp ++ rest).take frameHdr) = (respBody resp).length := by
    rw [respFrame, List.append_assoc, frameHdr, List.take_left' (length_leBytes _ _),
      leNat_leBytes_of_lt (length_respBody_lt hsend)]
  have htotal : frameHdr + (respBody resp).length = (respFrame resp).length :=
    (length_respFrame resp).symm
  rw [tryExtract, if_neg (by rw [List.length_append, length_respFrame, frameHdr]; omega)]
  simp only [hfield, htotal]
  rw [if_neg (by simp), List.take_left, List.drop_left, respFrame, frameHdr,
    List.drop_left' (length_leBytes _ _), fromProtoCode_respBody hsend]

theorem tryExtract_short {resp : Resp} (hsend : resp.Sendable) {cut : ℕ}
    (hcut : cut < (respFrame resp).length) : tryExtract ((respFrame resp).take cut) = none := by
  rw [length_respFrame] at hcut
  by_cases hheader : cut < 4
  · rw [tryExtract, if_pos (by simp [frameHdr, hheader])]
  · have hfield : leNat (((respFrame resp).take cut).take frameHdr) = (respBody resp).length := by
      rw [frameHdr, List.take_take, Nat.min_eq_left (by omega), respFrame,
        List.take_left' (length_leBytes _ _), leNat_leBytes_of_lt (length_respBody_lt hsend)]
    have hlength : ((respFrame resp).take cut).length = cut :=
      List.length_take_of_le (by rw [length_respFrame]; omega)
    rw [tryExtract, if_neg (by rw [hlength, frameHdr]; omega)]
    simp only [hfield]
    rw [if_pos (by rw [hlength, frameHdr]; omega)]

theorem delimits_respFrame : Delimits respFrame tryExtract Resp.Sendable where
  nonempty resp _ := by simp
  whole _ hsend rest := tryExtract_whole hsend rest
  short _ hsend _ hcut := tryExtract_short hsend hcut

/-- Responses that reach a connection at any time, coalesced by the writer in any
way, and bytes that reach the client in any chunks: once the writer is idle, and
it gets there by itself, the reader has extracted exactly the responses, in
order, and its buffer is empty. -/
theorem responses_read_back {writer : Writer}
    (hreach : Machine.Reach Writer.step Writer.Serves Writer.new writer) :
    (∃ idle, Machine.Reach Writer.step Writer.Serves Writer.new idle ∧ idle.Idle ∧
      idle.arrived = writer.arrived) ∧
    (writer.Idle → ∀ chunks : List Bytes, chunks.flatten = writer.sent →
      feedAll tryExtract [] chunks = (writer.arrived, [])) := by
  refine ⟨Writer.exists_idle hreach, ?_⟩
  intro hidle chunks hchunks
  refine feedAll_stream delimits_respFrame rfl (Writer.flowing_reach hreach).sendable ?_
  rw [hchunks, Writer.sent_of_idle hreach hidle]

/-- Two responses in one write, read in chunks that cut the length and the
value. -/
theorem responses_read_back_two :
    ∃ writer, Machine.Reach Writer.step Writer.Serves Writer.new writer ∧ writer.Idle ∧
      writer.arrived = [.ok, .value [66, 67]] ∧
      feedAll tryExtract [] [[1, 0], [0, 0, 1, 3, 0, 0], [0, 0, 66], [67]] =
        ([.ok, .value [66, 67]], []) := by
  obtain ⟨writer, hreach, hdone⟩ := @Machine.exists_reach _ _ Writer.step Writer.Serves
    Writer.new _ [.arrive .ok, .recv, .arrive (.value [66, 67]), .tryRecv, .tryRecv, .writeAll]
    (fun writer => writer.Idle ∧ writer.arrived = [.ok, .value [66, 67]] ∧
      writer.sent = [1, 0, 0, 0, 1, 3, 0, 0, 0, 0, 66, 67]) (by decide +kernel)
  obtain ⟨hidle, harrived, hsent⟩ : writer.Idle ∧ writer.arrived = [.ok, .value [66, 67]] ∧
      writer.sent = [1, 0, 0, 0, 1, 3, 0, 0, 0, 0, 66, 67] := of_decide_eq_true hdone
  refine ⟨writer, hreach, hidle, harrived, ?_⟩
  have hread := (responses_read_back hreach).2 hidle
    [[1, 0], [0, 0, 1, 3, 0, 0], [0, 0, 66], [67]] (by rw [hsent]; rfl)
  rw [hread, harrived]

/-! ## Any stream -/

/-- `try_extract` takes the announced number of bytes behind the header, and is not
defined by anything behind these. -/
theorem tryExtract_eq_some_iff {buf rest : Bytes} {resp : Resp} :
    tryExtract buf = some (resp, rest) ↔
      ∃ frame, buf = frame ++ rest ∧ frameHdr ≤ frame.length ∧
        frame.length = frameHdr + leNat (frame.take frameHdr) ∧
        resp = Resp.fromProtoCode (frame.drop frameHdr) := by
  constructor
  · intro hextract
    rw [tryExtract] at hextract
    split_ifs at hextract with hheader
    simp only at hextract
    split_ifs at hextract with hshort
    simp only [Option.some.injEq, Prod.mk.injEq] at hextract
    obtain ⟨rfl, rfl⟩ := hextract
    have hlength : (buf.take (frameHdr + leNat (buf.take frameHdr))).length =
        frameHdr + leNat (buf.take frameHdr) := List.length_take_of_le (by omega)
    have hfield : (buf.take (frameHdr + leNat (buf.take frameHdr))).take frameHdr =
        buf.take frameHdr := by
      rw [List.take_take, Nat.min_eq_left (Nat.le_add_right _ _)]
    refine ⟨_, (List.take_append_drop _ buf).symm, ?_, ?_, rfl⟩
    · rw [hlength]
      exact Nat.le_add_right _ _
    · rw [hlength, hfield]
  · rintro ⟨frame, rfl, hheader, hlength, rfl⟩
    have hfield : (frame ++ rest).take frameHdr = frame.take frameHdr :=
      List.take_append_of_le_length hheader
    rw [tryExtract, if_neg (by rw [List.length_append]; omega)]
    simp only [hfield, ← hlength]
    rw [if_neg (by rw [List.length_append]; omega), List.take_left, List.drop_left]

/-- `try_extract` returns nothing only where the header or the announced bytes are not
there yet. -/
theorem tryExtract_eq_none_iff {buf : Bytes} :
    tryExtract buf = none ↔
      buf.length < frameHdr ∨ buf.length < frameHdr + leNat (buf.take frameHdr) := by
  constructor
  · intro hnone
    by_contra hwhole
    push Not at hwhole
    have hlength : (buf.take (frameHdr + leNat (buf.take frameHdr))).length =
        frameHdr + leNat (buf.take frameHdr) := List.length_take_of_le hwhole.2
    have hextract := (@tryExtract_eq_some_iff buf
      (buf.drop (frameHdr + leNat (buf.take frameHdr))) _).mpr
        ⟨buf.take (frameHdr + leNat (buf.take frameHdr)), (List.take_append_drop _ buf).symm,
          by omega, by rw [hlength, List.take_take, Nat.min_eq_left (Nat.le_add_right _ _)], rfl⟩
    rw [hnone] at hextract
    cases hextract
  · intro hshort
    cases hextract : tryExtract buf with
    | none => rfl
    | some taken =>
        obtain ⟨frame, rfl, hheader, hlength, -⟩ := tryExtract_eq_some_iff.mp hextract
        rw [List.take_append_of_le_length hheader, ← hlength, List.length_append] at hshort
        omega

theorem stable_tryExtract : Stable tryExtract where
  shrinks buffer resp rest hextract := by
    obtain ⟨frame, rfl, hheader, -, -⟩ := tryExtract_eq_some_iff.mp hextract
    rw [List.length_append]
    simp only [frameHdr] at hheader
    omega
  append buffer resp rest hextract more := by
    obtain ⟨frame, rfl, hframe⟩ := tryExtract_eq_some_iff.mp hextract
    exact tryExtract_eq_some_iff.mpr ⟨frame, List.append_assoc _ _ _, hframe⟩

/-- What a caller of the reader does. -/
inductive ReaderAct where
  | feed (data : Bytes)
  | tryExtract
  deriving DecidableEq

/-- The bytes the calls feed. -/
def fed (acts : List ReaderAct) : Bytes :=
  acts.flatMap fun act =>
    match act with
    | .feed data => data
    | .tryExtract => []

/-- Any sequence of calls on a reader with this buffer: the responses extracted, and
the buffer in the end. -/
def calls (buf : Bytes) : List ReaderAct → List Resp × Bytes
  | [] => ([], buf)
  | .feed data :: acts => calls (buf ++ data) acts
  | .tryExtract :: acts =>
      match tryExtract buf with
      | none => calls buf acts
      | some (resp, rest) => (resp :: (calls rest acts).1, (calls rest acts).2)

/-- The calls, and then `try_extract` until it returns `None`. -/
def readOut (acts : List ReaderAct) : List Resp × Bytes :=
  let called := calls [] acts
  let drained := drain tryExtract called.2
  (called.1 ++ drained.1, drained.2)

/-- Extracting early or late makes no difference in the end. -/
theorem drain_calls (buf : Bytes) (acts : List ReaderAct) :
    ((calls buf acts).1 ++ (drain tryExtract (calls buf acts).2).1,
        (drain tryExtract (calls buf acts).2).2) =
      drain tryExtract (buf ++ fed acts) := by
  induction acts generalizing buf with
  | nil =>
      rw [calls, fed, List.flatMap_nil, List.append_nil]
      rfl
  | cons act acts ih =>
      cases act with
      | feed data =>
          rw [calls, ih, List.append_assoc]
          rfl
      | tryExtract =>
          have hfed : fed (.tryExtract :: acts) = fed acts := rfl
          rw [hfed]
          cases hextract : tryExtract buf with
          | none =>
              simp only [calls, hextract]
              exact ih buf
          | some taken =>
              obtain ⟨resp, rest⟩ := taken
              have hmore := stable_tryExtract.append _ _ _ hextract (fed acts)
              simp only [calls, hextract]
              rw [stable_tryExtract.drain_some hmore, ← ih rest]
              rfl

/-- The bytes drained are those of the frames, and no others. -/
theorem exists_frames (buf : Bytes) :
    ∃ frames : List Bytes, buf = frames.flatten ++ (drain tryExtract buf).2 ∧
      (∀ frame ∈ frames, frame.length = frameHdr + leNat (frame.take frameHdr)) ∧
      (drain tryExtract buf).1 =
        frames.map fun frame => Resp.fromProtoCode (frame.drop frameHdr) := by
  induction buf using stable_tryExtract.drain_induction with
  | none buf hnone =>
      rw [drain_none hnone]
      exact ⟨[], rfl, by simp, rfl⟩
  | some buf resp rest hextract ih =>
      obtain ⟨frames, hrest, hlengths, hresps⟩ := ih
      obtain ⟨frame, hbuf, -, hlength, hresp⟩ := tryExtract_eq_some_iff.mp hextract
      rw [stable_tryExtract.drain_some hextract]
      refine ⟨frame :: frames, ?_, ?_, ?_⟩
      · rw [List.flatten_cons, List.append_assoc, ← hrest]
        exact hbuf
      · exact List.forall_mem_cons.mpr ⟨hlength, hlengths⟩
      · rw [List.map_cons, ← hresps, ← hresp]

/-- For any bytes, fed in any chunks with any `try_extract` calls in between, and
drained in the end: the responses and what is left in the buffer are those of the
whole stream parsed at once, so they are the same for any two ways of feeding it.
Draining ends where `try_extract` returns `None`, with less in the buffer than a header or
than the frame it announces; every response takes exactly its header and the announced
number of bytes off the buffer, and the frames taken and what is left are the stream. -/
theorem reading_chunk_independent (acts : List ReaderAct) :
    readOut acts = drain tryExtract (fed acts) ∧
      (∀ others, fed others = fed acts → readOut others = readOut acts) ∧
      tryExtract (readOut acts).2 = none ∧
      ((readOut acts).2.length < frameHdr ∨
        (readOut acts).2.length < frameHdr + leNat ((readOut acts).2.take frameHdr)) ∧
      (∀ buf resp rest, tryExtract buf = some (resp, rest) →
        rest = buf.drop (frameHdr + leNat (buf.take frameHdr)) ∧
          buf.length = frameHdr + leNat (buf.take frameHdr) + rest.length) ∧
      ∃ frames : List Bytes, fed acts = frames.flatten ++ (readOut acts).2 ∧
        (∀ frame ∈ frames, frame.length = frameHdr + leNat (frame.take frameHdr)) ∧
        (readOut acts).1 =
          frames.map fun frame => Resp.fromProtoCode (frame.drop frameHdr) := by
  have hread : ∀ others, readOut others = drain tryExtract (fed others) := by
    intro others
    exact drain_calls [] others
  have hended : tryExtract (readOut acts).2 = none := by
    rw [hread]
    exact stable_tryExtract.decode_drain _
  refine ⟨hread acts, ?_, hended, tryExtract_eq_none_iff.mp hended, ?_, ?_⟩
  · intro others hsame
    rw [hread, hread, hsame]
  · intro buf resp rest hextract
    obtain ⟨frame, rfl, hheader, hlength, -⟩ := tryExtract_eq_some_iff.mp hextract
    rw [List.take_append_of_le_length hheader, ← hlength]
    exact ⟨List.drop_left.symm, List.length_append⟩
  · rw [hread]
    exact exists_frames _

/-- A frame without a body, an unknown status byte, a whole value, and a frame that
never arrives in full. -/
example :
    readOut [.feed [0, 0, 0], .tryExtract, .feed [0, 1, 0, 0, 0], .tryExtract, .tryExtract,
        .feed [9, 2, 0, 0, 0, 0, 66, 255, 255, 255, 255, 1]] =
      ([.unknown, .unknown, .value [66]], [255, 255, 255, 255, 1]) := by
  decide +kernel

end InMemoryDb.Client
