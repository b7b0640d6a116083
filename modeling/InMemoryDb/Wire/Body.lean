import InMemoryDb.Lib.LittleEndian

/-!
# Wire bodies

A request body is `[op:1][klen:u32][key][val]`.  The accessors index and slice
the bytes they are given; a slice outside the body is a Rust panic, which the
model keeps as an explicit `Except` result.  The release profile aborts the
process on a panic, so nothing runs after one.
-/

namespace InMemoryDb

open LittleEndian

abbrev Bytes := List UInt8

/-- How a Rust thread dies. -/
inductive Panic where
  | outOfBounds
  | assertion
  | fatalIo
  deriving DecidableEq, Repr

namespace Wire

/-- `bytes[index]`. -/
def index (bytes : Bytes) (position : ℕ) : Except Panic UInt8 :=
  match bytes[position]? with
  | some byte => .ok byte
  | none => .error .outOfBounds

/-- `bytes[low..high]`. -/
def slice (bytes : Bytes) (low high : ℕ) : Except Panic Bytes :=
  if low ≤ high ∧ high ≤ bytes.length then .ok ((bytes.drop low).take (high - low))
  else .error .outOfBounds

/-- `bytes[low..]`. -/
def sliceFrom (bytes : Bytes) (low : ℕ) : Except Panic Bytes :=
  slice bytes low bytes.length

/-- `rd_u32`: reads the first four bytes of its argument. -/
def rdU32 (bytes : Bytes) : Except Panic ℕ :=
  return leNat (← slice bytes 0 4)

/-- `rd_u64`: reads the first eight bytes of its argument. -/
def rdU64 (bytes : Bytes) : Except Panic ℕ :=
  return leNat (← slice bytes 0 8)

def opGet : UInt8 := 0
def opPut : UInt8 := 1

/-- Wire body layout: `[op:1][klen:u32][key][val]`. -/
def bodyHdr : ℕ := 5

inductive Operation where
  | get
  | put
  | unknown (code : UInt8)
  deriving DecidableEq, Repr

def Operation.ofCode (code : UInt8) : Operation :=
  if code = opGet then .get else if code = opPut then .put else .unknown code

def Operation.toCode : Operation → UInt8
  | .get => opGet
  | .put => opPut
  | .unknown code => code

/-- Appends the request frame to `buf`; the second component is the number of
bytes appended, `0` for a PUT without a value. -/
def encodeRaw (buf : Bytes) (op : Operation) (key : Bytes) (value : Option Bytes) :
    Bytes × ℕ :=
  if op = .put ∧ value = none then (buf, 0)
  else
    let bodyLen := 1 + 4 + key.length + (value.getD []).length
    let out := buf ++ leBytes 4 bodyLen ++ [op.toCode] ++ leBytes 4 key.length ++ key ++
      value.getD []
    (out, out.length - buf.length)

def op (body : Bytes) : Except Panic UInt8 := index body 0

def klen (body : Bytes) : Except Panic ℕ := do
  rdU32 (← slice body 1 5)

def key (body : Bytes) : Except Panic Bytes := do
  let length ← klen body
  slice body bodyHdr (bodyHdr + length)

def splitKv (body : Bytes) : Except Panic (Bytes × Bytes) := do
  let length ← klen body
  return (← slice body bodyHdr (bodyHdr + length), ← sliceFrom body (bodyHdr + length))

inductive Resp where
  | value (bytes : Bytes)
  | ok
  | miss
  | unknownOp
  | unknown
  deriving DecidableEq, Repr

/-- The key length field as a number; total, so that it can appear in
conditions on a body. -/
def keyLength (body : Bytes) : ℕ := leNat ((body.drop 1).take 4)

/-- A body whose key lies inside it: the header is complete and the announced
key length does not reach past the end. -/
def WellFormed (body : Bytes) : Prop :=
  bodyHdr ≤ body.length ∧ bodyHdr + keyLength body ≤ body.length

instance (body : Bytes) : Decidable (WellFormed body) := by
  unfold WellFormed
  infer_instance

/-- The key bytes of a well-formed body. -/
def keyOf (body : Bytes) : Bytes := (body.drop bodyHdr).take (keyLength body)

/-- The value bytes of a well-formed body. -/
def valueOf (body : Bytes) : Bytes := body.drop (bodyHdr + keyLength body)

@[simp]
theorem ok_bind {ε α β : Type} (value : α) (next : α → Except ε β) :
    (Except.ok value >>= next) = next value := rfl

@[simp]
theorem error_bind {ε α β : Type} (failure : ε) (next : α → Except ε β) :
    (Except.error failure >>= next) = Except.error failure := rfl

@[simp]
theorem pure_eq_ok {ε α : Type} (value : α) :
    (pure value : Except ε α) = Except.ok value := rfl

theorem slice_ok {bytes : Bytes} {low high : ℕ} (horder : low ≤ high)
    (hbound : high ≤ bytes.length) :
    slice bytes low high = .ok ((bytes.drop low).take (high - low)) :=
  if_pos ⟨horder, hbound⟩

theorem slice_error {bytes : Bytes} {low high : ℕ} (hbound : bytes.length < high) :
    slice bytes low high = .error .outOfBounds :=
  if_neg fun h => by omega

theorem sliceFrom_ok {bytes : Bytes} {low : ℕ} (hbound : low ≤ bytes.length) :
    sliceFrom bytes low = .ok (bytes.drop low) := by
  rw [sliceFrom, slice_ok hbound le_rfl, List.take_of_length_le (by simp)]

theorem rdU32_ok {bytes : Bytes} (hlength : 4 ≤ bytes.length) :
    rdU32 bytes = .ok (leNat (bytes.take 4)) := by
  simp [rdU32, slice_ok (Nat.zero_le 4) hlength]

theorem rdU64_ok {bytes : Bytes} (hlength : 8 ≤ bytes.length) :
    rdU64 bytes = .ok (leNat (bytes.take 8)) := by
  simp [rdU64, slice_ok (Nat.zero_le 8) hlength]

theorem op_cons (byte : UInt8) (rest : Bytes) : op (byte :: rest) = .ok byte := rfl

theorem klen_ok {body : Bytes} (hheader : bodyHdr ≤ body.length) :
    klen body = .ok (keyLength body) := by
  have hheader' : 5 ≤ body.length := hheader
  rw [klen, slice_ok (by omega) hheader', ok_bind,
    rdU32_ok (by simp only [List.length_take, List.length_drop]; omega), List.take_take]
  rfl

theorem klen_error {body : Bytes} (hheader : body.length < bodyHdr) :
    klen body = .error .outOfBounds := by
  rw [klen, slice_error (show body.length < 5 from hheader)]
  rfl

theorem key_ok {body : Bytes} (hbody : WellFormed body) :
    key body = .ok (keyOf body) := by
  rw [key, klen_ok hbody.1, ok_bind, slice_ok (by omega) hbody.2, Nat.add_sub_cancel_left]
  rfl

theorem splitKv_ok {body : Bytes} (hbody : WellFormed body) :
    splitKv body = .ok (keyOf body, valueOf body) := by
  rw [splitKv, klen_ok hbody.1, ok_bind, slice_ok (by omega) hbody.2,
    sliceFrom_ok hbody.2, Nat.add_sub_cancel_left]
  rfl

/-- A body that is not well formed makes both key accessors slice out of
bounds. -/
theorem key_error {body : Bytes} (hbody : ¬ WellFormed body) :
    key body = .error .outOfBounds := by
  by_cases hheader : bodyHdr ≤ body.length
  · have hkey : body.length < bodyHdr + keyLength body := by
      by_contra h
      exact hbody ⟨hheader, by omega⟩
    rw [key, klen_ok hheader, ok_bind, slice_error hkey]
  · rw [key, klen_error (by omega), error_bind]

theorem splitKv_error {body : Bytes} (hbody : ¬ WellFormed body) :
    splitKv body = .error .outOfBounds := by
  by_cases hheader : bodyHdr ≤ body.length
  · have hkey : body.length < bodyHdr + keyLength body := by
      by_contra h
      exact hbody ⟨hheader, by omega⟩
    rw [splitKv, klen_ok hheader, ok_bind, slice_error hkey, error_bind]
  · rw [splitKv, klen_error (by omega), error_bind]

end Wire

end InMemoryDb
