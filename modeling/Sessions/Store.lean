import Sessions.Expiry.Hook
import Sessions.IndexKey

/-!
# The store

A store in memory: payloads by session id, each with its index keys and, if it expires, its
deadline. An entry past its deadline is dealt with when it is next asked for, or by a sweep that
any operation but a removal runs when the last one was a minute ago. By its action it is then
removed, or turned into a tombstone, which a later sweep drops after the retention time.

Every operation is told the time. Operations that may fail answer the store they leave behind too,
because the sweep comes before the failure.
-/

namespace Sessions

/-- What a store holds under an id. -/
inductive Entry where
  | live (payload : Bytes) (keys : List IndexKey) (deadline : Option (Time × Action))
  /-- The key of an entry that expired at the given time. -/
  | tombstone (since : Time)
  deriving DecidableEq

namespace Entry

def isLive : Entry → Bool
  | live .. => true
  | tombstone _ => false

/-- Whether the deadline of a live entry has been reached. -/
def isExpired (now : Time) : Entry → Bool
  | live _ _ (some (deadline, _)) => deadline ≤ now
  | _ => false

/-- Whether the entry can be answered at the given time. -/
def isPresent (now : Time) (e : Entry) : Bool := e.isLive && !e.isExpired now

def payload? : Entry → Option Bytes
  | live payload _ _ => some payload
  | tombstone _ => none

def keys : Entry → List IndexKey
  | live _ keys _ => keys
  | tombstone _ => []

/-- What remains of an entry whose deadline has been reached. -/
def expire (now : Time) : Entry → Option Entry
  | live _ _ (some (_, .destroy)) => none
  | live .. => some (.tombstone now)
  | tombstone since => some (.tombstone since)

/-- Whether a tombstone has been kept for the retention time. -/
def isSpent (now : Time) (retention : Duration) : Entry → Bool
  | live .. => false
  | tombstone since => retention ≤ now.since since

/-- What a sweep leaves of an entry. -/
def sweep (now : Time) (retention : Duration) (e : Entry) : Option Entry :=
  (if e.isExpired now then e.expire now else some e).filter fun e => !e.isSpent now retention

end Entry

/-- Entries by session id, with the time of the last sweep. -/
structure Store where
  codec : Codec
  hook : Option Hook
  /-- For entries on which the hook has no opinion. -/
  defaultExpiry : Option Expiry
  retention : Duration
  entries : Table Entry
  sweptAt : Time

namespace Store

/-- The time between two sweeps. -/
def sweepInterval : Duration := .ofSeconds 60

/-- How long tombstones are kept when nothing else is asked for. -/
def defaultRetention : Duration := .ofSeconds 1800

/-- An empty store at the given time. A negative retention counts as zero. -/
def create (codec : Codec) (hook : Option Hook) (defaultExpiry : Option Expiry)
    (retention : Duration) (now : Time) : Store :=
  ⟨codec, hook, defaultExpiry, max retention .zero, ∅, now⟩

/-- The entry under an id, whether or not its deadline has been reached. -/
def find? (st : Store) (id : Ident) : Option Entry := st.entries.find? id.text

/-- How many entries can be answered. -/
def size (st : Store) (now : Time) : Nat :=
  (st.entries.entries.filter fun e => e.2.isPresent now).length

/-- How many tombstones are kept. -/
def tombstones (st : Store) : Nat :=
  (st.entries.entries.filter fun e => !e.2.isLive).length

/-- Whether the id has a tombstone. -/
def isInvalidated (st : Store) (id : Ident) : Bool :=
  match st.find? id with
  | some e => !e.isLive
  | none => false

/-- Deals with all entries past their deadline and drops the spent tombstones. -/
def sweep (st : Store) (now : Time) : Store :=
  { st with
    entries := st.entries.filterMap fun _ e => e.sweep now st.retention
    sweptAt := now }

/-- Sweeps if it is time to. -/
def tidy (st : Store) (now : Time) : Store :=
  if now.since st.sweptAt < sweepInterval then st else st.sweep now

/-- The payload under an id, after an entry past its deadline has been dealt with. -/
def livePayload (st : Store) (id : Ident) (now : Time) : Store × Option Bytes :=
  match st.find? id with
  | none => (st, none)
  | some e =>
    if e.isExpired now then
      let entries := match e.expire now with
        | some e => st.entries.insert id.text e
        | none => st.entries.erase id.text
      ({ st with entries := entries }, none)
    else (st, e.payload?)

/-- The payload stored under an id. -/
def get (st : Store) (id : Ident) (now : Time) : Store × Option Bytes :=
  (st.tidy now).livePayload id now

/-- The deadline of an entry, from the hook's opinion or else from the default. -/
def deadline (st : Store) (opinion : Option Expiry) (now : Time) :
    Except Fault (Option (Time × Action)) :=
  match opinion.or st.defaultExpiry with
  | some e => (e.deadline now).map some
  | none => .ok none

/-- Puts an entry in place of what the id held before. -/
def insert (st : Store) (id : Ident) (e : Entry) : Store :=
  { st with entries := st.entries.insert id.text e }

/-- The deadline of a full payload that is to be stored now. -/
def payloadDeadline (st : Store) (payload : Bytes) (now : Time) :
    Except Fault (Option (Time × Action)) := do
  let header ← Header.read payload
  if header.isDelta then .error .fullPayloadWanted
  else
    let opinion ← match st.hook with
      | some hook => hook.ofPayload payload now
      | none => .ok none
    st.deadline opinion now

/-- Stores a full payload in place of what the id held before. -/
def put (st : Store) (id : Ident) (payload : Bytes) (keys : List IndexKey) (now : Time) :
    Store × Except Fault Unit :=
  let st := st.tidy now
  match st.payloadDeadline payload now with
  | .ok deadline => (st.insert id (.live payload keys deadline), .ok ())
  | .error e => (st, .error e)

/-- The stored payload with a delta applied to it, and its deadline. -/
def mergeDelta (st : Store) (id : Ident) (stored delta : Bytes) (now : Time) :
    Except Fault (Bytes × Option (Time × Action)) := do
  let base ← st.codec.decode stored
  let (merged, understood) := st.codec.merge base delta
  if ← understood then
    let deadline ← st.deadline (st.hook.bind (·.ofSession merged now)) now
    let payload ← (st.codec.encodeFull merged).2
    .ok (payload, deadline)
  else .error (.deltaNotUnderstood id.text)

/-- Merges a delta into what the id holds; false when it holds nothing to merge it into. -/
def putDelta (st : Store) (id : Ident) (delta : Bytes) (keys : List IndexKey) (now : Time) :
    Store × Except Fault Bool :=
  match (st.tidy now).livePayload id now with
  | (st, none) => (st, .ok false)
  | (st, some stored) =>
    match st.mergeDelta id stored delta now with
    | .ok (payload, deadline) => (st.insert id (.live payload keys deadline), .ok true)
    | .error e => (st, .error e)

/-- Removes an id and answers whether it held a payload. -/
def remove (st : Store) (id : Ident) : Store × Bool :=
  ({ st with entries := st.entries.erase id.text },
    match st.find? id with
    | some e => e.isLive
    | none => false)

/-- The ids, in order, of the entries under an index key. -/
def findByKey (st : Store) (key : IndexKey) (now : Time) : Store × List Ident :=
  let st := st.tidy now
  (st, (st.entries.entries.filter fun e => e.2.isPresent now && e.2.keys.contains key).map
    fun e => ⟨e.1⟩)

end Store

end Sessions
