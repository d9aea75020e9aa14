import Sessions.Codec.Basic
import Sessions.Json.Reader

/-!
# The binary codec

A compact codec that writes deltas. The body of a full payload is: id, creation, last access, idle
interval in whole seconds, principal, and a blob with the number of attributes and then the name
and the JSON text of each. The body of a delta is: id, last access, idle interval, principal, the
number of changed attributes, and of each the name, a marker and, unless it was removed, its JSON
text. A principal of length zero means none.
-/

namespace Sessions.Binary

def tag : Int32 := 0x47534431

def kinds : List Kind := [.plain, .deltaCapable]

/-- The marker of a changed attribute that has a value. -/
def setMarker : UInt8 := 1

def removedMarker : UInt8 := 0

def accepts (h : Header) : Bool := h.tag = tag

/-! ## Writing -/

def putPrincipal (principal : Option String) : Except Fault Bytes :=
  Wire.putText "principal name length" (principal.getD "")

def putEntry (name : String) (value : Json) : Except Fault Bytes := do
  let name ← Wire.putText "attribute name" name
  let value ← Wire.putBytes "attribute value" value.bytes
  .ok (name ++ value)

def putEntries : List (String × Json) → Except Fault Bytes
  | [] => .ok []
  | (name, value) :: rest => do
    let first ← putEntry name value
    let others ← putEntries rest
    .ok (first ++ others)

def putChange (name : String) (value : Option Json) : Except Fault Bytes := do
  let name ← Wire.putText "attribute name" name
  match value with
  | some value =>
    let value ← Wire.putBytes "attribute value" value.bytes
    .ok (name ++ setMarker :: value)
  | none => .ok (name ++ [removedMarker])

def putChanges : List (String × Option Json) → Except Fault Bytes
  | [] => .ok []
  | (name, value) :: rest => do
    let first ← putChange name value
    let others ← putChanges rest
    .ok (first ++ others)

/-- The attributes of a full payload, without the length of the blob. -/
def blob (a : Attributes) : Except Fault Bytes := do
  let count ← Wire.putLength "attribute count" a.size
  let entries ← putEntries a.entries
  .ok (count ++ entries)

/-- A full payload of the record. -/
def full (s : Session) : Except Fault Bytes := do
  let id ← Wire.putText "session id" s.id.text
  let principal ← putPrincipal s.principal
  let blob ← blob s.attributes
  let attributes ← Wire.putBytes "attributes" blob
  .ok (Header.write ⟨tag, .full s.kind⟩ ++ id ++ Wire.putInt64 s.created.millis
    ++ Wire.putInt64 s.accessed.millis ++ Wire.putInt64 s.maxIdle.wholeSeconds ++ principal
    ++ attributes)

/-- The record's changes since its last commit. -/
def delta (s : Session) : Except Fault Bytes := do
  let id ← Wire.putText "session id" s.id.text
  let principal ← putPrincipal s.principal
  let changes := s.attributes.changes
  let count ← Wire.putLength "change count" changes.length
  let changes ← putChanges changes
  .ok (Header.write ⟨tag, .delta⟩ ++ id ++ Wire.putInt64 s.accessed.millis
    ++ Wire.putInt64 s.maxIdle.wholeSeconds ++ principal ++ count ++ changes)

/-- Appends a payload and commits the record. On a fault the sink is given back as it was, without
the fields that were written before the fault: a chain hands the fault on at once, and whoever made
the sink drops it (`Codec.payloadOf`). -/
def append (s : Session) (sink : Bytes) : Except Fault Bytes → Writing
  | .ok payload => ⟨s.commit, sink ++ payload, .ok true⟩
  | .error e => ⟨s, sink, .error e⟩

def writeFull (s : Session) (sink : Bytes) : Writing := append s sink (full s)

/-- Stored records of the delta-capable kind are written as deltas. -/
def write (s : Session) (sink : Bytes) : Writing :=
  if s.kind = .deltaCapable ∧ ¬s.needsFullWrite then append s sink (delta s)
  else append s sink (full s)

/-! ## Reading -/

def takeId (input : Bytes) : Except Fault (Ident × Bytes) := do
  let (text, rest) ← Wire.takeText "session id" input
  match Ident.parse text with
  | .ok id => .ok (id, rest)
  | .error _ => .error .blankStoredId

def takeTime (field : String) (input : Bytes) : Except Fault (Time × Bytes) := do
  let (millis, rest) ← Wire.takeInt64 field input
  match Time.ofMillis? millis with
  | some time => .ok (time, rest)
  | none => .error (.timeOutOfRange field millis)

def takeInterval (input : Bytes) : Except Fault (Duration × Bytes) := do
  let (seconds, rest) ← Wire.takeInt64 "max inactive interval" input
  .ok (.ofSeconds seconds, rest)

def takePrincipal (input : Bytes) : Except Fault (Option String × Bytes) := do
  let (count, rest) ← Wire.takeLength "principal name length" input
  if count = 0 then .ok (none, rest)
  else
    let (bytes, rest) ← Wire.takeCounted count "principal name" rest
    let name ← Wire.asText "principal name" bytes
    .ok (some name, rest)

def takeValue (input : Bytes) : Except Fault (Json × Bytes) := do
  let (bytes, rest) ← Wire.takeBytes "attribute value" input
  match Json.read bytes with
  | .ok value => .ok (value, rest)
  | .error flaw => .error (.json flaw)

/-- The given number of attributes; what follows them is ignored. -/
def takeEntries : (count : Nat) → Attributes → Bytes → Except Fault Attributes
  | 0, a, _ => .ok a
  | count + 1, a, input => do
    let (name, rest) ← Wire.takeText "attribute name" input
    let (value, rest) ← takeValue rest
    takeEntries count (a.load name value) rest

/-- The record in the body of a full payload. -/
def takeRecord (kind : Kind) (input : Bytes) : Except Fault Session := do
  let (id, input) ← takeId input
  let (created, input) ← takeTime "creation time" input
  let (accessed, input) ← takeTime "last accessed time" input
  let (maxIdle, input) ← takeInterval input
  let (principal, input) ← takePrincipal input
  let (blob, _) ← Wire.takeBytes "attributes" input
  let (count, entries) ← Wire.takeLength "attribute count" blob
  let attributes ← takeEntries count default entries
  Session.restore id created accessed maxIdle principal attributes kind

def read (payload : Bytes) : Except Fault (Option Session) := do
  let header ← Header.read payload
  if accepts header then
    match header.frame with
    | .full kind =>
      let s ← takeRecord kind (payload.drop Header.size)
      .ok (some s)
    | .delta => .error .baselessDelta
  else .ok none

/-! ## Merging -/

/-- The fields of a delta that stand before its changes. -/
structure Preamble where
  accessed : Time
  maxIdle : Duration
  principal : Option String

/-- The preamble of a delta for the session with the given id. -/
def takePreamble (base : Ident) (input : Bytes) : Except Fault (Preamble × Bytes) := do
  let (id, input) ← takeId input
  if id ≠ base then .error (.foreignDelta id.text base.text)
  else
    let (accessed, input) ← takeTime "last accessed time" input
    let (maxIdle, input) ← takeInterval input
    let (principal, input) ← takePrincipal input
    Session.checkInterval maxIdle
    .ok (⟨accessed, maxIdle, principal⟩, input)

/-- A record with the fields of a preamble. The last access does not go before the creation. -/
def Preamble.apply (p : Preamble) (s : Session) : Session :=
  { s with accessed := max p.accessed s.created, maxIdle := p.maxIdle, principal := p.principal }

/-- One change of a delta, applied to the attributes. -/
def takeChange (a : Attributes) (input : Bytes) : Except Fault (Attributes × Bytes) := do
  let (name, rest) ← Wire.takeText "attribute name" input
  let (marker, rest) ← Wire.takeByte "attribute marker" rest
  if marker = setMarker then
    let (value, rest) ← takeValue rest
    .ok (a.load name value, rest)
  else if marker = removedMarker then .ok (a.unload name, rest)
  else .error (.unknownMarker marker name)

/-- Applies the given number of changes, one by one. Those before a faulty one stay applied. -/
def takeChanges : (count : Nat) → Attributes → Bytes → Attributes × Except Fault Unit
  | 0, a, _ => (a, .ok ())
  | count + 1, a, input =>
    match takeChange a input with
    | .ok (a, rest) => takeChanges count a rest
    | .error e => (a, .error e)

/-- Applies a delta to a record. The preamble is applied before the changes are read. -/
def merge (s : Session) (payload : Bytes) : Session × Except Fault Bool :=
  match Header.read payload with
  | .error e => (s, .error e)
  | .ok header =>
    if accepts header ∧ header.isDelta then
      match takePreamble s.id (payload.drop Header.size) with
      | .error e => (s, .error e)
      | .ok (preamble, input) =>
        let s := preamble.apply s
        match Wire.takeLength "change count" input with
        | .error e => (s, .error e)
        | .ok (count, input) =>
          let (attributes, outcome) := takeChanges count s.attributes input
          ({ s with attributes := attributes }, outcome.map fun _ => true)
    else (s, .ok false)

end Sessions.Binary

namespace Sessions

/-- The compact binary codec. -/
def Codec.binary : Codec where
  tag := Binary.tag
  kinds := Binary.kinds
  accepts := Binary.accepts
  writeFull := Binary.writeFull
  write := Binary.write
  read := Binary.read
  merge := Binary.merge

end Sessions
