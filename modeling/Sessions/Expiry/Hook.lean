import Sessions.Codec.Basic
import Sessions.Expiry.Policy

/-!
# The expiry hook

A store asks its hook how long to keep what it is about to hold. The hook lets its policy look at
the session, which it may first have to decode, and turns the decision into whole seconds, one at
least and no more than fit 32 signed bits.
-/

namespace Sessions

/-- How long a store keeps an entry, and what it does then. -/
structure Expiry where
  seconds : Int32
  action : Action
  deriving DecidableEq

namespace Expiry

/-- The decision in whole seconds. -/
def ofDecision (d : Decision) : Expiry :=
  ⟨Int32.ofInt (max 1 (min d.timeout.wholeSeconds.toInt 2147483647)), d.action⟩

/-- The time that the entry is kept. -/
def ttl (e : Expiry) : Duration := .ofSeconds e.seconds.toInt64

/-- The instant at which an entry written now expires. -/
def deadline (e : Expiry) (now : Time) : Except Fault (Time × Action) :=
  match now.add? e.ttl with
  | some time => .ok (time, e.action)
  | none => .error .outsideCalendar

end Expiry

/-- A policy, and how to see the sessions that it decides on. -/
structure Hook where
  policy : Policy
  /-- What payloads are decoded with. -/
  codec : Option Codec

namespace Hook

/-- How long to keep a session. -/
def ofSession (h : Hook) (s : Session) (now : Time) : Option Expiry :=
  (h.policy.evaluate s now).map .ofDecision

/-- How long to keep a payload. A hook without a codec has no opinion. -/
def ofPayload (h : Hook) (payload : Bytes) (now : Time) : Except Fault (Option Expiry) :=
  match h.codec with
  | none => .ok none
  | some codec => do
    let s ← codec.decode payload
    .ok (h.ofSession s now)

end Hook

end Sessions
