import InMemoryDb.Wire.Body

/-!
# Calls and their frames

What the client API can ask for, and the frame `encode_raw` appends for it.  The
length prefix and the key length are narrowed to 32 bits without a check.
-/

namespace InMemoryDb.Wire

open LittleEndian

/-- A call of the client API: a GET has no value, a PUT always has one. -/
inductive Call where
  | get (key : Bytes)
  | put (key value : Bytes)
  deriving DecidableEq

namespace Call

def op : Call → Operation
  | get _ => .get
  | put _ _ => .put

def key : Call → Bytes
  | get key => key
  | put key _ => key

def value : Call → Option Bytes
  | get _ => none
  | put _ value => some value

/-- The wire body of the call. -/
def body (call : Call) : Bytes :=
  [call.op.toCode] ++ leBytes 4 call.key.length ++ call.key ++ call.value.getD []

def bodyLen (call : Call) : ℕ := 5 + call.key.length + (call.value.getD []).length

/-- The frame of the call. -/
def frame (call : Call) : Bytes := leBytes 4 call.bodyLen ++ call.body

@[simp]
theorem length_body (call : Call) : call.body.length = call.bodyLen := by
  simp only [body, bodyLen, List.length_append, List.length_singleton, length_leBytes]

theorem encodeRaw_eq (buf : Bytes) (call : Call) :
    encodeRaw buf call.op call.key call.value = (buf ++ call.frame, call.frame.length) := by
  have hvalue : ¬ (call.op = .put ∧ call.value = none) := by
    cases call <;> simp [op, value]
  have hout : buf ++ leBytes 4 (1 + 4 + call.key.length + (call.value.getD []).length) ++
      [call.op.toCode] ++ leBytes 4 call.key.length ++ call.key ++ call.value.getD [] =
      buf ++ call.frame := by
    simp only [frame, body, bodyLen, List.append_assoc]
  rw [encodeRaw, if_neg hvalue]
  simp only [hout, List.length_append, Nat.add_sub_cancel_left]

/-! ## Reading a body back -/

theorem keyLength_body {call : Call} (hkey : call.key.length < 2 ^ 32) :
    keyLength call.body = call.key.length := by
  have hfield : (call.body.drop 1).take 4 = leBytes 4 call.key.length := by
    rw [body, List.append_assoc, List.append_assoc, List.drop_left' (List.length_singleton),
      List.take_left' (length_leBytes _ _)]
  rw [keyLength, hfield, leNat_leBytes_of_lt (by norm_num at hkey ⊢; omega)]

theorem drop_body (call : Call) : call.body.drop bodyHdr = call.key ++ call.value.getD [] := by
  have hheader : ([call.op.toCode] ++ leBytes 4 call.key.length).length = bodyHdr := by
    simp [bodyHdr]
  rw [body, List.append_assoc ([call.op.toCode] ++ leBytes 4 call.key.length),
    List.drop_left' hheader]

theorem wellFormed_body {call : Call} (hkey : call.key.length < 2 ^ 32) :
    WellFormed call.body := by
  rw [WellFormed, keyLength_body hkey, length_body, bodyLen, bodyHdr]
  omega

theorem op_body (call : Call) : Wire.op call.body = .ok call.op.toCode := rfl

theorem key_body {call : Call} (hkey : call.key.length < 2 ^ 32) :
    Wire.key call.body = .ok call.key := by
  rw [key_ok (wellFormed_body hkey), keyOf, keyLength_body hkey, drop_body, List.take_left]

theorem splitKv_body {call : Call} (hkey : call.key.length < 2 ^ 32) :
    splitKv call.body = .ok (call.key, call.value.getD []) := by
  rw [splitKv_ok (wellFormed_body hkey), keyOf, valueOf, keyLength_body hkey, ← List.drop_drop,
    drop_body, List.take_left, List.drop_left]

end Call

/-- The writer loop of both clients: the frames of a batch, one after another. -/
def encodeCalls (calls : List Call) : Bytes :=
  calls.foldl (fun buf call => (encodeRaw buf call.op call.key call.value).1) []

theorem encodeCalls_eq (calls : List Call) : encodeCalls calls = calls.flatMap Call.frame := by
  have hfold : ∀ buf, calls.foldl
      (fun buf call => (encodeRaw buf call.op call.key call.value).1) buf =
        buf ++ calls.flatMap Call.frame := by
    induction calls with
    | nil => simp
    | cons call calls ih =>
        intro buf
        rw [List.foldl_cons, Call.encodeRaw_eq, ih, List.flatMap_cons, List.append_assoc]
  exact hfold []

end InMemoryDb.Wire
