import Sessions.Codec.Basic
import Sessions.Json.Reader

/-!
# The portable codec

A session as a JSON document of named fields, readable by anyone. The codec puts the document
behind a header; it writes whole records of the plain kind only.
-/

namespace Sessions

/-- The named fields of a session, with times in milliseconds since the epoch. -/
structure Document where
  id : String
  created : Int64
  accessed : Int64
  maxIdleSeconds : Int64
  principal : Option String
  attributes : Table Json

namespace Document

/-- A document before any of its fields was read. -/
def blank : Document := ⟨"", 0, 0, 0, none, ∅⟩

instance : Inhabited Document := ⟨blank⟩

open Json (Reader)

/-- The fields in their order. The principal and the attributes may be missing. -/
def fields : List (Reader.Field Document) :=
  [.of "id" true Reader.text fun d x => { d with id := x },
    .of "creationTime" true Reader.integer fun d x => { d with created := x },
    .of "lastAccessedTime" true Reader.integer fun d x => { d with accessed := x },
    .of "maxInactiveIntervalSeconds" true Reader.integer fun d x => { d with maxIdleSeconds := x },
    .of "principalName" false (Reader.optional Reader.text) fun d x => { d with principal := x },
    .of "attributes" false Reader.table fun d x => { d with attributes := x }]

/-- The document of a whole JSON text. -/
def read (input : Bytes) : Except Json.Flaw Document :=
  Json.readWith (Reader.record fields blank) input

/-- The members of the written document; there is none for a missing principal. -/
def members (d : Document) : List (String × Json) :=
  [("id", .str d.id), ("creationTime", .int d.created.toInt),
    ("lastAccessedTime", .int d.accessed.toInt),
    ("maxInactiveIntervalSeconds", .int d.maxIdleSeconds.toInt)]
    ++ (match d.principal with
      | some name => [("principalName", .str name)]
      | none => [])
    ++ [("attributes", .obj d.attributes.entries)]

/-- The JSON text of a document, its fields in their order. -/
def render (d : Document) : String := (Json.obj d.members).render

/-- The document that describes a record. -/
def ofSession (s : Session) : Document where
  id := s.id.text
  created := s.created.millis
  accessed := s.accessed.millis
  maxIdleSeconds := s.maxIdle.wholeSeconds
  principal := s.principal
  attributes := ⟨s.attributes.entries, by
    simpa [Attributes.entries, Entries.Ascending, List.pairwise_map] using
      s.attributes.held.ascending⟩

/-- A time field of a document. -/
def time (field : String) (millis : Int64) : Except Fault Time :=
  match Time.ofMillis? millis with
  | some time => .ok time
  | none => .error (.timeOutOfRange field millis)

/-- The record that a document describes. -/
def toSession (d : Document) : Except Fault Session := do
  let id ← match Ident.parse d.id with
    | .ok id => .ok id
    | .error _ => .error .blankStoredId
  let created ← time "creation time" d.created
  let accessed ← time "last accessed time" d.accessed
  Session.restore id created accessed (.ofSeconds d.maxIdleSeconds) d.principal
    (.ofEntries d.attributes.entries) .plain

end Document

namespace Portable

def tag : Int32 := 0x47535031

def kinds : List Kind := [.plain]

def accepts (h : Header) : Bool := h.tag = tag

def payload (s : Session) : Bytes :=
  Header.write ⟨tag, .full .plain⟩ ++ Utf8.encode (Document.ofSession s).render

/-- Appends the document of a record of the plain kind; declines others. -/
def writeFull (s : Session) (sink : Bytes) : Writing :=
  if s.kind = .plain then ⟨s.commit, sink ++ payload s, .ok true⟩ else ⟨s, sink, .ok false⟩

/-- The document of a payload; none when another codec wrote it. -/
def readDocument (payload : Bytes) : Except Fault (Option Document) := do
  let header ← Header.read payload
  if accepts header then
    if header.isDelta then .error .portableDelta
    else match Document.read (payload.drop Header.size) with
      | .ok d => .ok (some d)
      | .error flaw => .error (.json flaw)
  else .ok none

def read (payload : Bytes) : Except Fault (Option Session) := do
  match ← readDocument payload with
  | some d =>
    let s ← d.toSession
    .ok (some s)
  | none => .ok none

end Portable

/-- The codec of named fields. -/
def Codec.portable : Codec where
  tag := Portable.tag
  kinds := Portable.kinds
  accepts := Portable.accepts
  writeFull := Portable.writeFull
  write := Portable.writeFull
  read := Portable.read
  merge := fun s _ => (s, .ok false)

end Sessions
