import InMemoryDb.Server.Types

/-!
# Stage 1: the connection reader

The reader loop cuts the byte stream of one connection into length-prefixed
frames.  It checks the announced length and nothing else; the payload is handed
to stage 2 as it came.
-/

namespace InMemoryDb.Stage1

open LittleEndian Wire

/-- One round of the reader loop: `none` closes the connection. -/
def readFrame (stream : Bytes) : Option (Payload × Bytes) :=
  if stream.length < 4 then none
  else
    let length := leNat (stream.take 4)
    let rest := stream.drop 4
    if hbad : length = 0 ∨ length > maxPayload then none
    else if hshort : rest.length < length then none
    else
      some (⟨rest.take length,
        by simp only [List.length_take]; omega,
        by simp only [List.length_take]; omega⟩, rest.drop length)

def readerLoop : ℕ → Bytes → List Payload
  | 0, _ => []
  | fuel + 1, stream =>
      match readFrame stream with
      | none => []
      | some (payload, rest) => payload :: readerLoop fuel rest

/-- The payloads the reader admits from the whole byte stream of a connection;
a frame takes at least five bytes, so the length of the stream bounds the
rounds. -/
def handleConn (stream : Bytes) : List Payload := readerLoop stream.length stream

end InMemoryDb.Stage1
