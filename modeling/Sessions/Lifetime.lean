import Sessions.Repository

/-!
# Fixed lifetimes

A repository that gives out no session beyond a fixed time after its creation, and deletes such a
session when it meets one. The check is made on reading, whatever the store does by itself.
-/

namespace Sessions

/-- A repository whose sessions end a fixed time after their creation. -/
structure LimitedRepository where
  inner : Repository
  lifetime : Duration

namespace LimitedRepository

/-- A lifetime must be positive and no longer than the longest one. -/
def create (inner : Repository) (lifetime : Duration) : Except Fault LimitedRepository :=
  if lifetime.nanos ≤ 0 ∨ .longest < lifetime then .error (.lifetimeOutOfRange lifetime)
  else .ok ⟨inner, lifetime⟩

/-- Whether a session has outlived its lifetime. An end outside the calendar is never reached. -/
def isOutlived (r : LimitedRepository) (s : Session) (now : Time) : Bool :=
  match s.created.add? r.lifetime with
  | some deadline => deadline < now
  | none => false

/-- A new session, not yet saved. -/
def newSession (r : LimitedRepository) (id : Ident) (now : Time) : Session :=
  r.inner.newSession id now

/-- Saves a session. -/
def save (r : LimitedRepository) (s : Session) (now : Time) :
    LimitedRepository × Session × Except Fault Unit :=
  let (inner, s, outcome) := r.inner.save s now
  ({ r with inner := inner }, s, outcome)

/-- Removes an id from the store. -/
def delete (r : LimitedRepository) (id : Ident) : LimitedRepository :=
  { r with inner := r.inner.delete id }

/-- Finds a live session within its lifetime. -/
def find (r : LimitedRepository) (id : Ident) (now : Time) :
    LimitedRepository × Except Fault (Option Session) :=
  match r.inner.find id now with
  | (inner, .ok (some s)) =>
    let r := { r with inner := inner }
    if r.isOutlived s now then (r.delete id, .ok none) else (r, .ok (some s))
  | (inner, other) => ({ r with inner := inner }, other)

end LimitedRepository

end Sessions
