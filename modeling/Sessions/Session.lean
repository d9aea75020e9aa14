import Sessions.Attributes

/-!
# Sessions

A session record: identity, times, idle interval, principal and attributes, with what is needed to
tell whether and how it has to be written. Times are whole milliseconds and the last access never
precedes the creation. Operations that may fail change nothing when they do.
-/

namespace Sessions

/-- The id of a session. -/
structure Ident where
  text : String
  deriving DecidableEq

namespace Ident

instance : Inhabited Ident := ⟨⟨""⟩⟩

/-- Any text that is not blank. -/
def parse (text : String) : Except Fault Ident :=
  if isBlank text then .error .blankId else .ok ⟨text⟩

/-- `count` hexadecimal digits of a number, least significant last. -/
def hexDigits : (count n : Nat) → List Char
  | 0, _ => []
  | count + 1, n => hexDigits count (n / 16) ++ [Hex.digit (n % 16)]

/-- A version 4 UUID made of 122 random bits. -/
def ofBits (bits : Nat) : Ident :=
  let tail := hexDigits 12 bits
  let node := Hex.digit (8 + bits / 2 ^ 60 % 4) :: hexDigits 3 (bits / 2 ^ 48)
  let mid := '4' :: hexDigits 3 (bits / 2 ^ 62)
  let low := hexDigits 4 (bits / 2 ^ 74)
  let high := hexDigits 8 (bits / 2 ^ 90)
  ⟨String.ofList (high ++ '-' :: low ++ '-' :: mid ++ '-' :: node ++ '-' :: tail)⟩

end Ident

/-- The attribute whose text is the session's principal. -/
def principalAttribute : String := "PRINCIPAL_NAME_INDEX_NAME"

/-- A session record. -/
structure Session where
  id : Ident
  /-- The id under which the session is stored, after the id was changed. -/
  previous : Option Ident
  created : Time
  accessed : Time
  /-- How long the session may stay idle; a negative interval means for ever. -/
  maxIdle : Duration
  principal : Option String
  attributes : Attributes
  kind : Kind
  phase : Phase
  /-- Something other than an attribute changed since the last commit. -/
  dirty : Bool

namespace Session

/-- Half an hour. -/
def defaultMaxIdle : Duration := .ofSeconds 1800

/-- A session that was never written. -/
def create (id : Ident) (now : Time) (kind : Kind) : Session where
  id := id
  previous := none
  created := now.floorMillis
  accessed := now.floorMillis
  maxIdle := defaultMaxIdle
  principal := none
  attributes := .empty .identity
  kind := kind
  phase := .new
  dirty := true

instance : Inhabited Session := ⟨create default default .plain⟩

/-- Intervals read from a payload may not exceed the longest one. -/
def checkInterval (interval : Duration) : Except Fault Unit :=
  if interval ≤ .longest then .ok () else .error (.storedIntervalOutOfRange interval)

/-- A stored session, from the fields of a payload. -/
def restore (id : Ident) (created accessed : Time) (maxIdle : Duration)
    (principal : Option String) (attributes : Attributes) (kind : Kind) :
    Except Fault Session :=
  if accessed < created then .error (.accessedBeforeCreation id.text)
  else do
    checkInterval maxIdle
    .ok { id, previous := none, created, accessed, maxIdle, principal, attributes, kind
          phase := .persisted, dirty := false }

/-- Sets the interval of a session under construction; longer ones are cut to the longest. -/
def withMaxIdle (s : Session) (interval : Duration) : Session :=
  { s with maxIdle := min interval .longest }

/-- Sets the rule by which attribute changes are noticed. -/
def withRule (s : Session) (rule : ChangeRule) : Session :=
  { s with attributes := { s.attributes with rule := rule } }

/-- Gives the session a new id. A session that is stored remembers the id it is stored under. -/
def rotate (s : Session) (id : Ident) : Session :=
  { s with
    id := id
    previous := if s.previous.isNone ∧ s.phase ≠ .new then some s.id else s.previous
    dirty := true }

/-- A change only if the time differs from the last access so far. -/
def moveAccess (s : Session) (time : Time) : Session :=
  if time = s.accessed then s else { s with accessed := time, dirty := true }

/-- Sets the last access, which may not precede the creation. -/
def setAccessed (s : Session) (time : Time) : Except Fault Session :=
  if time.floorMillis < s.created then .error (.accessTooEarly time.floorMillis s.created)
  else .ok (s.moveAccess time.floorMillis)

/-- Records an access; one before the creation counts as one at the creation. -/
def touch (s : Session) (now : Time) : Session := s.moveAccess (max now.floorMillis s.created)

/-- Sets the idle interval; longer ones are cut to the longest. -/
def setMaxIdle (s : Session) (interval : Duration) : Session :=
  let interval := min interval .longest
  if interval = s.maxIdle then s else { s with maxIdle := interval, dirty := true }

/-- The principal that the attributes name: a text that is not empty. -/
def namedPrincipal (a : Attributes) : Option String :=
  ((a.value? principalAttribute).bind Json.text?).filter (· ≠ "")

/-- Brings the principal in step with its attribute. -/
def syncPrincipal (s : Session) : Session :=
  let principal := namedPrincipal s.attributes
  if principal = s.principal then s else { s with principal := principal, dirty := true }

/-- Takes over changed attributes; `name` is the name that was written. -/
def withAttributes (s : Session) (name : String) (a : Attributes) : Session :=
  let s := { s with attributes := a }
  if name = principalAttribute then s.syncPrincipal else s

/-- Puts a handle under a name and answers the one it replaces. -/
def storeAttribute (s : Session) (name : String) (h : Handle) :
    Except Fault (Session × Option Handle) := do
  let (a, old) ← s.attributes.store name h
  .ok (s.withAttributes name a, old)

/-- Puts a value under a name, as a handle of its own; answers the handle it replaces. -/
def setAttribute (s : Session) (name : String) (value : Json) :
    Except Fault (Session × Option Handle) := do
  let (a, old) ← s.attributes.set name value
  .ok (s.withAttributes name a, old)

/-- Drops a name and answers the handle it held. -/
def removeAttribute (s : Session) (name : String) : Except Fault (Session × Option Handle) := do
  let (a, old) ← s.attributes.remove name
  .ok (s.withAttributes name a, old)

/-- Names the session's principal, or removes it. -/
def setPrincipal (s : Session) (name : Option String) : Except Fault Session := do
  let (s, _) ← match name with
    | some name => s.setAttribute principalAttribute (.str name)
    | none => s.removeAttribute principalAttribute
  .ok s

/-- Whether anything changed since the last commit. -/
def hasDelta (s : Session) : Bool := s.dirty || s.attributes.isDirty

/-- Whether the next write must carry the whole record. -/
def needsFullWrite (s : Session) : Bool := s.phase = .new || s.previous.isSome

/-- Forgets the changes: a payload with all of them has been produced. -/
def commit (s : Session) : Session :=
  { s with
    attributes := s.attributes.commit
    dirty := false
    previous := none
    phase := if s.phase = .new then .persisted else s.phase }

/-- Whether the session has been idle for its whole interval, by the readings of clocks at the last
access and now. An interval that reaches back past the start of the calendar has not run out. -/
def idleTooLong (s : Session) (accessed now : Reading) : Bool :=
  !s.maxIdle.isNegative &&
    match now.sub? s.maxIdle with
    | some cutoff => accessed ≤ cutoff
    | none => false

/-- The same on a clock in UTC. -/
def isExpired (s : Session) (now : Time) : Bool := s.idleTooLong s.accessed.utc now.utc

/-- Whether two records describe the same session in the same state; change tracking, kind and
phase do not count. -/
def same (a b : Session) : Bool :=
  a.id = b.id && a.created = b.created && a.accessed = b.accessed && a.maxIdle = b.maxIdle
    && a.principal = b.principal && a.attributes.same b.attributes

end Session

end Sessions
