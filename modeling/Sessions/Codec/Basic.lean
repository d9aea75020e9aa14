import Sessions.Codec.Frame
import Sessions.Session

/-!
# Codecs

A codec turns session records into payloads and back. It has a type tag, by which it recognises
its payloads, and the kinds of records that it writes. Writing is the commit point: a codec that
has written a record gives it back without changes to save. A codec may decline a record or a
payload that is not its own, which is not a fault.

Codecs are records of functions, so that users can bring their own.
-/

namespace Sessions

/-- What writing a record leaves behind: the record, the sink, and whether the record was written,
which is false when the codec declined it. -/
structure Writing where
  session : Session
  sink : Bytes
  outcome : Except Fault Bool

/-- The functions of a codec. -/
structure Codec where
  tag : Int32
  kinds : List Kind
  /-- Whether a payload with this header is the codec's own. -/
  accepts : Header → Bool
  /-- Appends the whole record to the sink. -/
  writeFull : Session → Bytes → Writing
  /-- Appends the record in the form that the codec prefers, whole or as a delta. -/
  write : Session → Bytes → Writing
  /-- The record of a full payload; none when another codec wrote it. -/
  read : Bytes → Except Fault (Option Session)
  /-- Applies a delta to a record; false when it is no delta that the codec understands. -/
  merge : Session → Bytes → Session × Except Fault Bool

namespace Codec

/-- Whether the codec writes records of a kind. -/
def writes (c : Codec) (kind : Kind) : Bool := c.kinds.contains kind

/-- The payload that a writing has produced in an empty sink. -/
def payloadOf (w : Writing) : Session × Except Fault Bytes :=
  (w.session, match w.outcome with
    | .ok true => .ok w.sink
    | .ok false => .error (.unwritableKind w.session.kind)
    | .error e => .error e)

/-- A payload of the record in the form that the codec prefers. -/
def encode (c : Codec) (s : Session) : Session × Except Fault Bytes := payloadOf (c.write s [])

/-- A full payload of the record. -/
def encodeFull (c : Codec) (s : Session) : Session × Except Fault Bytes :=
  payloadOf (c.writeFull s [])

/-- The record of a full payload, which the codec has to recognise. -/
def decode (c : Codec) (payload : Bytes) : Except Fault Session := do
  match ← c.read payload with
  | some s => .ok s
  | none =>
    let header ← Header.read payload
    .error (.unknownTag header.tag)

end Codec

end Sessions
