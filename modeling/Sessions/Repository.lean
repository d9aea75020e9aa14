import Sessions.Config
import Sessions.Store

/-!
# The repository

Saving, finding and ending sessions over a store. A save writes a delta where the codec offers
one and the store can merge it, and the whole record otherwise; it keeps the index keys of the
entry and moves it when the session's id has changed. A session that is found idle past its
interval is removed instead of being given out or saved.

Steps that may fail answer the repository and the session they leave behind as well: what was done
before the failure stays done.
-/

namespace Sessions

/-- A store, the codec of its payloads, and the settings of new sessions. -/
structure Repository where
  store : Store
  codec : Codec
  /-- The idle interval of new sessions. -/
  maxIdle : Duration
  /-- The attributes by whose values sessions can be found. -/
  indexable : List String
  rule : ChangeRule

namespace Repository

/-- A repository with the usual settings. -/
def create (store : Store) (codec : Codec) : Repository :=
  ⟨store, codec, Session.defaultMaxIdle, [], .identity⟩

/-- The repository that validated settings describe. -/
def ofConfig (store : Store) (c : Config) : Except Fault Repository := do
  c.validate
  let codec ← c.buildCodec
  .ok { create store codec with maxIdle := c.maxIdle, indexable := c.indexable }

/-- New sessions are delta-capable when the codec writes such records. -/
def kind (r : Repository) : Kind :=
  if r.codec.writes .deltaCapable then .deltaCapable else .plain

/-- A new session, not yet saved. -/
def newSession (r : Repository) (id : Ident) (now : Time) : Session :=
  ((Session.create id now r.kind).withMaxIdle r.maxIdle).withRule r.rule

/-- Removes an id from the store. -/
def delete (r : Repository) (id : Ident) : Repository := { r with store := (r.store.remove id).1 }

/-- Stores a full payload. -/
def putPayload (r : Repository) (id : Ident) (payload : Bytes) (keys : List IndexKey)
    (now : Time) : Repository × Except Fault Unit :=
  let (store, outcome) := r.store.put id payload keys now
  ({ r with store := store }, outcome)

/-- Stores the whole record, when there is nothing to merge its delta into. -/
def resend (r : Repository) (s : Session) (keys : List IndexKey) (now : Time) :
    Repository × Session × Except Fault Unit :=
  match r.codec.encodeFull s with
  | (s, .error e) => (r, s, .error e)
  | (s, .ok payload) =>
    let (r, outcome) := r.putPayload s.id payload keys now
    (r, s, outcome)

/-- Encodes a record and stores the payload under its id. -/
def write (r : Repository) (s : Session) (now : Time) :
    Repository × Session × Except Fault Unit :=
  let keys := IndexKey.ofSession s r.indexable
  match r.codec.encode s with
  | (s, .error e) => (r, s, .error e)
  | (s, .ok payload) =>
    match Header.read payload with
    | .error e => (r, s, .error e)
    | .ok header =>
      if header.isDelta then
        match r.store.putDelta s.id payload keys now with
        | (store, .error e) => ({ r with store := store }, s, .error e)
        | (store, .ok true) => ({ r with store := store }, s, .ok ())
        | (store, .ok false) => { r with store := store }.resend s keys now
      else
        let (r, outcome) := r.putPayload s.id payload keys now
        (r, s, outcome)

/-- Saves a session. Nothing is written for an unchanged one. -/
def save (r : Repository) (s : Session) (now : Time) :
    Repository × Session × Except Fault Unit :=
  if s.phase.isEnded then (r, s, .error (.ended s.id.text s.phase))
  else if s.phase ≠ .new ∧ s.isExpired now then
    (r.delete s.id, { s with phase := .expired }, .ok ())
  else if ¬s.hasDelta ∧ ¬s.needsFullWrite then (r, s, .ok ())
  else
    let r := match s.previous with
      | some previous => r.delete previous
      | none => r
    r.write s now

/-- The live session under an id. One that is idle past its interval is removed. -/
def load (r : Repository) (id : Ident) (now : Time) :
    Repository × Except Fault (Option Session) :=
  match r.store.get id now with
  | (store, none) => ({ r with store := store }, .ok none)
  | (store, some payload) =>
    let r := { r with store := store }
    match r.codec.decode payload with
    | .error e => (r, .error e)
    | .ok s =>
      let s := s.withRule r.rule
      if s.isExpired now then (r.delete id, .ok none) else (r, .ok (some s))

/-- Finds a live session and records the access in the record that is given out. -/
def find (r : Repository) (id : Ident) (now : Time) :
    Repository × Except Fault (Option Session) :=
  let (r, found) := r.load id now
  (r, found.map fun s => s.map (·.touch now))

/-- Ends a session: removes it from the store and marks the record. -/
def invalidate (r : Repository) (s : Session) : Repository × Session :=
  (r.delete s.id, { s with phase := .deleted })

/-- Loads the sessions with the given ids, up to the first failure. -/
def loadAll (r : Repository) (now : Time) : List Ident → Repository × Except Fault (List Session)
  | [] => (r, .ok [])
  | id :: rest =>
    match r.load id now with
    | (r, .error e) => (r, .error e)
    | (r, .ok found) =>
      let (r, others) := r.loadAll now rest
      (r, others.map fun ss => found.toList ++ ss)

/-- The live sessions under an index key, by increasing id. -/
def findByKey (r : Repository) (key : IndexKey) (now : Time) :
    Repository × Except Fault (List Session) :=
  let (store, ids) := r.store.findByKey key now
  { r with store := store }.loadAll now ids

/-- The live sessions of a principal. -/
def findByPrincipal (r : Repository) (name : String) (now : Time) :
    Repository × Except Fault (List Session) :=
  r.findByKey (.ofPrincipal name) now

/-- The live sessions whose attribute has a value. The attribute must be indexable. -/
def findByAttribute (r : Repository) (name : String) (value : Json) (now : Time) :
    Repository × Except Fault (List Session) :=
  if name ≠ principalAttribute ∧ name ∉ r.indexable then (r, .error (.notIndexable name))
  else r.findByKey (.ofAttribute name value) now

end Repository

end Sessions
