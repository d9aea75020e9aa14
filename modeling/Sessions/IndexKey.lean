import Sessions.Digest.Sha256
import Sessions.Session

/-!
# Index keys

Sessions are looked up by key: the digest of a text that names a principal or an attribute with
its value. The principal's attribute and the principal have the same key.
-/

namespace Sessions

/-- A key under which sessions are looked up. -/
structure IndexKey where
  digest : String
  deriving DecidableEq

namespace IndexKey

/-- The text whose digest is the key of a principal. -/
def principalText (name : String) : String := "pn:" ++ name

/-- The text whose digest is the key of an attribute with a value. -/
def attributeText (name : String) (value : Json) : String :=
  match value with
  | .str text =>
    if name = principalAttribute then principalText text else "attr:" ++ name ++ ":" ++ value.render
  | _ => "attr:" ++ name ++ ":" ++ value.render

def ofText (text : String) : IndexKey := ⟨Sha256.hexDigest (Utf8.encode text)⟩

/-- The key of the sessions of a principal. -/
def ofPrincipal (name : String) : IndexKey := ofText (principalText name)

/-- The key of the sessions that have an attribute with a value. -/
def ofAttribute (name : String) (value : Json) : IndexKey := ofText (attributeText name value)

/-- The keys under which a session can be found: its principal's, and one for each indexable
attribute that it has. -/
def ofSession (s : Session) (indexable : List String) : List IndexKey :=
  (s.principal.map ofPrincipal).toList
    ++ indexable.filterMap fun name =>
      if name = principalAttribute then none else (s.attributes.value? name).map (ofAttribute name)

end IndexKey

end Sessions
