/-!
# Kinds and phases of sessions
-/

namespace Sessions

/-- Whether a session that is already stored may be written as its changes only. -/
inductive Kind where
  /-- Always written whole. -/
  | plain
  /-- Written as a delta once it is stored. -/
  | deltaCapable
  deriving DecidableEq, Repr

/-- The name of a kind in messages. -/
def Kind.name : Kind → String
  | plain => "Session"
  | deltaCapable => "DeltaCapableSession"

/-- Where a session stands between creation and its end. -/
inductive Phase where
  /-- Never written. -/
  | new
  | persisted
  /-- Found idle past its interval when it was to be saved. -/
  | expired
  | deleted
  deriving DecidableEq, Repr

/-- The name of a phase in messages. -/
def Phase.name : Phase → String
  | new => "New"
  | persisted => "Persisted"
  | expired => "Expired"
  | deleted => "Deleted"

/-- An ended session cannot be saved any more. -/
def Phase.isEnded : Phase → Bool
  | expired | deleted => true
  | new | persisted => false

end Sessions
