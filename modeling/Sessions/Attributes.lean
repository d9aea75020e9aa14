import Sessions.Fault
import Sessions.Json.Printer
import Sessions.Table

/-!
# Attributes

A session's attributes are handles by name. A handle is a value together with a token that says
where it came from, so that storing the very same handle again can be told from storing an equal
value. A change log notes the names written or removed since the last commit; a change rule says
whether putting one handle in place of another counts as a change.
-/

namespace Sessions

/-- Where a handle came from. -/
inductive Token where
  /-- Made by the caller. -/
  | given (n : Nat)
  /-- Made by the map that holds it. -/
  | own (n : Nat)
  deriving DecidableEq, Repr

/-- A value that can be recognised when it is stored again. -/
structure Handle where
  token : Token
  value : Json
  deriving DecidableEq

/-- Whether a new handle under a name changes what the old one held. -/
structure ChangeRule where
  label : String
  differs : (old new : Handle) → Bool

namespace ChangeRule

/-- Everything but the very same handle is a change. -/
def identity : ChangeRule := ⟨"identity", fun old new => old ≠ new⟩

/-- A value that is not the same is a change. -/
def equality : ChangeRule := ⟨"equality", fun old new => !old.value.same new.value⟩

/-- Every write is a change. -/
def always : ChangeRule := ⟨"always", fun _ _ => true⟩

instance : Inhabited ChangeRule := ⟨identity⟩

end ChangeRule

/-- Names written or removed since the last commit. -/
structure ChangeLog where
  dirty : Bool
  names : Names

namespace ChangeLog

def clean : ChangeLog := ⟨false, ∅⟩

def mark (log : ChangeLog) (name : String) : ChangeLog := ⟨true, log.names.insert name ()⟩

/-- Whether two logs hold the same. -/
def same (a b : ChangeLog) : Bool := a.dirty = b.dirty && a.names.names = b.names.names

end ChangeLog

/-- Attributes by name, with their changes since the last commit. -/
structure Attributes where
  held : Table Handle
  log : ChangeLog
  rule : ChangeRule
  /-- How many handles the map has made itself. -/
  made : Nat

namespace Attributes

/-- No attributes and no changes. -/
def empty (rule : ChangeRule) : Attributes := ⟨∅, .clean, rule, 0⟩

instance : Inhabited Attributes := ⟨empty .identity⟩

def handle? (a : Attributes) (name : String) : Option Handle := a.held.find? name

def value? (a : Attributes) (name : String) : Option Json := (a.handle? name).map (·.value)

def contains (a : Attributes) (name : String) : Bool := a.held.contains name

def names (a : Attributes) : List String := a.held.names

def size (a : Attributes) : Nat := a.held.size

/-- Names and values, by increasing name. -/
def entries (a : Attributes) : List (String × Json) :=
  a.held.entries.map fun e => (e.1, e.2.value)

def isDirty (a : Attributes) : Bool := a.log.dirty

/-- The names written or removed since the last commit, in order. -/
def changedNames (a : Attributes) : List String := a.log.names.names

/-- The changed names with their present values, none for a removed one. -/
def changes (a : Attributes) : List (String × Option Json) :=
  a.changedNames.map fun name => (name, a.value? name)

/-- Drops an entry; a change if there was one. -/
def drop (a : Attributes) (name : String) : Attributes × Option Handle :=
  match a.handle? name with
  | some old => ({ a with held := a.held.erase name, log := a.log.mark name }, some old)
  | none => (a, none)

/-- Puts a handle under a name and answers the one it replaces. The value `null` removes the
name. Names may not be blank. -/
def store (a : Attributes) (name : String) (h : Handle) :
    Except Fault (Attributes × Option Handle) :=
  if isBlank name then .error .blankAttributeName
  else if h.value.isNull then .ok (a.drop name)
  else
    let old := a.handle? name
    let changed := match old with
      | some old => a.rule.differs old h
      | none => true
    .ok ({ a with held := a.held.insert name h, log := if changed then a.log.mark name else a.log },
      old)

/-- Puts a value under a name, as a handle of its own. -/
def set (a : Attributes) (name : String) (value : Json) :
    Except Fault (Attributes × Option Handle) :=
  { a with made := a.made + 1 }.store name ⟨.own a.made, value⟩

/-- Drops a name. Names may not be blank. -/
def remove (a : Attributes) (name : String) : Except Fault (Attributes × Option Handle) :=
  if isBlank name then .error .blankAttributeName else .ok (a.drop name)

/-- Forgets the changes. -/
def commit (a : Attributes) : Attributes := { a with log := .clean }

/-- Puts a value that was read from a payload; no change. -/
def load (a : Attributes) (name : String) (value : Json) : Attributes :=
  { a with held := a.held.insert name ⟨.own a.made, value⟩, made := a.made + 1 }

/-- Drops a name that a payload removes; no change. -/
def unload (a : Attributes) (name : String) : Attributes := { a with held := a.held.erase name }

/-- The attributes that a payload lists, in its order. -/
def ofEntries (entries : List (String × Json)) : Attributes :=
  entries.foldl (fun a e => a.load e.1 e.2) default

/-- Whether two maps hold the same values under the same names. -/
def same (a b : Attributes) : Bool := Json.sameMembersBy Binary64.same a.entries b.entries

end Attributes

end Sessions
