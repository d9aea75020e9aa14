import Sessions.Json.Lexical
import Sessions.Kind
import Sessions.Text.Blank
import Sessions.Time

/-!
# Faults

Everything that can go wrong, one constructor for each cause, with the category that callers
branch on and the text that they show.
-/

namespace Sessions

/-- Why an operation failed. -/
inductive Fault where
  /-- The input ends inside a field of fixed width. -/
  | shortField (field : String)
  /-- The input ends inside a field that announces its own length. -/
  | shortBytes (field : String) (expected found : Nat)
  | negativeLength (length : Int32) (field : String)
  /-- A length does not fit 31 bits. -/
  | tooLarge (field : String)
  | notUtf8 (field : String)
  | json (flaw : Json.Flaw)
  | unknownFrame (marker : UInt8)
  /-- No codec claims a payload with this type tag. -/
  | unknownTag (tag : Int32)
  /-- No codec writes records of this kind. -/
  | unwritableKind (kind : Kind)
  /-- A delta was to be read without the record that it changes. -/
  | baselessDelta
  | portableDelta
  /-- A delta came where a full payload belongs. -/
  | fullPayloadWanted
  /-- The store's codec does not understand a delta. -/
  | deltaNotUnderstood (id : String)
  /-- A delta names another session than the record that it should change. -/
  | foreignDelta (id base : String)
  | unknownMarker (marker : UInt8) (name : String)
  /-- A stored time lies outside the calendar. -/
  | timeOutOfRange (field : String) (millis : Int64)
  | accessedBeforeCreation (id : String)
  | storedIntervalOutOfRange (interval : Duration)
  /-- A stored session has a blank id. -/
  | blankStoredId
  | blankId
  | blankAttributeName
  /-- An access time was given that precedes the session's creation. -/
  | accessTooEarly (access created : Time)
  | ended (id : String) (phase : Phase)
  | notIndexable (name : String)
  | idleTimeoutOutOfRange (timeout : Duration)
  | fixedTimeoutOutOfRange (timeout : Duration)
  | lifetimeOutOfRange (lifetime : Duration)
  | blankRegionName
  | blankPoolName
  | maxIdleOutOfRange (seconds : Int64)
  | blankIndexableName (name : String)
  | noCodec
  /-- The backing store cannot be reached. -/
  | unavailable (detail : String)
  /-- The time at which an entry would expire, or a moved clock, lies outside the calendar. -/
  | outsideCalendar
  deriving DecidableEq

namespace Fault

/-- What callers branch on. -/
inductive Category where
  /-- A payload could not be written or read back. -/
  | serialization
  | invalidInput
  | unavailable
  /-- Arithmetic left the calendar; the operation was abandoned. -/
  | calendar
  deriving DecidableEq, Repr

def category : Fault → Category
  | blankId | blankAttributeName | accessTooEarly .. | ended .. | notIndexable .. => .invalidInput
  | idleTimeoutOutOfRange .. | fixedTimeoutOutOfRange .. | lifetimeOutOfRange .. => .invalidInput
  | blankRegionName | blankPoolName | maxIdleOutOfRange .. => .invalidInput
  | blankIndexableName .. | noCodec => .invalidInput
  | unavailable .. => .unavailable
  | outsideCalendar => .calendar
  | _ => .serialization

def Category.lead : Category → String
  | serialization => "session serialization failed: "
  | invalidInput => "invalid argument: "
  | unavailable => "session store unavailable: "
  | calendar => ""

/-- Where a fault comes from, when it reports the failure of something below it. -/
inductive Cause where
  | input
  | utf8
  | json (flaw : Json.Flaw)
  deriving DecidableEq

def cause : Fault → Option Cause
  | shortField .. | shortBytes .. => some .input
  | notUtf8 .. => some .utf8
  | json flaw => some (.json flaw)
  | _ => none

def longestSeconds : String := toString Duration.longest.wholeSeconds.toInt

/-- The cause in words. -/
def reason : Fault → String
  | shortField field => "reading " ++ field ++ ": failed to fill whole buffer"
  | shortBytes field expected found =>
    "reading " ++ field ++ ": expected " ++ toString expected ++ " bytes, found " ++ toString found
  | negativeLength length field =>
    "negative length " ++ toString length.toInt ++ " for " ++ field
  | tooLarge field => field ++ " is too large to encode"
  | notUtf8 field => field ++ " is not valid UTF-8"
  | json .ended => "the text ends before the value does"
  | json .malformed => "the text is not JSON"
  | json .mismatch => "the value has another shape than wanted"
  | unknownFrame marker => "unknown session frame marker " ++ toString marker.toNat
  | unknownTag tag =>
    "no serializer registered for type tag 0x"
      ++ String.ofList (Nat.toDigits 16 tag.toUInt32.toNat)
  | unwritableKind kind => "no serializer accepts record kind " ++ kind.name
  | baselessDelta => "a delta payload cannot be read without the stored base record"
  | portableDelta => "portable session payloads are never deltas"
  | fullPayloadWanted => "put expects a full payload; use put_delta for deltas"
  | deltaNotUnderstood id =>
    "session " ++ id ++ ": delta payload not understood by the configured serializer"
  | foreignDelta id base => "delta for session " ++ id ++ " applied to session " ++ base
  | unknownMarker marker name =>
    "unknown attribute marker " ++ toString marker.toNat ++ " for " ++ name
  | timeOutOfRange field millis =>
    field ++ " " ++ toString millis.toInt ++ " is out of range"
  | accessedBeforeCreation id => "session " ++ id ++ " was last accessed before it was created"
  | storedIntervalOutOfRange interval =>
    "max inactive interval " ++ interval.render ++ " is out of range"
  | blankStoredId => Category.invalidInput.lead ++ "session id must not be empty"
  | blankId => "session id must not be empty"
  | blankAttributeName => "attribute name must not be empty"
  | accessTooEarly access created =>
    "last accessed time " ++ access.render ++ " precedes creation time " ++ created.render
  | ended id phase =>
    "session " ++ id ++ " can no longer be saved (" ++ phase.name ++ ")"
  | notIndexable name => "attribute " ++ name ++ " is not configured as indexable"
  | idleTimeoutOutOfRange timeout =>
    "idle timeout must be between 0 and " ++ Duration.longest.render ++ ", got " ++ timeout.render
  | fixedTimeoutOutOfRange timeout =>
    "fixed timeout must be positive and at most " ++ Duration.longest.render ++ ", got "
      ++ timeout.render
  | lifetimeOutOfRange lifetime =>
    "fixed session lifetime must be positive and at most " ++ Duration.longest.render ++ ", got "
      ++ lifetime.render
  | blankRegionName => "region_name must not be empty"
  | blankPoolName => "pool_name must not be empty"
  | maxIdleOutOfRange seconds =>
    "max_inactive_interval_seconds must be at most " ++ longestSeconds ++ ", got "
      ++ toString seconds.toInt
  | blankIndexableName name => "indexable attribute name " ++ showBlank name ++ " is blank"
  | noCodec => "no session serializer configured"
  | unavailable detail => detail
  | outsideCalendar => "the time lies outside the calendar"

/-- The whole text of a fault. -/
def message (f : Fault) : String := f.category.lead ++ f.reason

end Fault

end Sessions
