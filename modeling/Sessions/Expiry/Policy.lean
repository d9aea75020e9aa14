import Sessions.Session

/-!
# Expiration policies

A policy says how long a session may live from now on, or has no opinion, which leaves the store
its default. A time that is zero or negative means that the session is already due. The decision
carries the action to take when the time has run out.
-/

namespace Sessions

/-- What happens to a stored session when it expires. -/
inductive Action where
  /-- The entry is removed. -/
  | destroy
  /-- The value is dropped and the key is kept. -/
  | invalidate
  deriving DecidableEq, Repr

namespace Action

instance : Inhabited Action := ⟨invalidate⟩

def name : Action → String
  | destroy => "destroy"
  | invalidate => "invalidate"

def options : List (String × Action) := [("destroy", destroy), ("invalidate", invalidate)]

end Action

/-- How long a session may live from now on, and what happens then. -/
structure Decision where
  timeout : Duration
  action : Action
  deriving DecidableEq

/-- Whether the time has run out already. -/
def Decision.isExpired (d : Decision) : Bool := d.timeout.nanos ≤ 0

/-- Expires sessions that have not been accessed for a time. -/
structure IdlePolicy where
  timeout : Option Duration
  action : Action
  deriving DecidableEq

namespace IdlePolicy

/-- A timeout may be neither negative nor longer than the longest one. -/
def create (timeout : Option Duration) (action : Action) : Except Fault IdlePolicy :=
  match timeout with
  | some t =>
    if t.isNegative ∨ .longest < t then .error (.idleTimeoutOutOfRange t) else .ok ⟨some t, action⟩
  | none => .ok ⟨none, action⟩

/-- What is left of the timeout, by the readings of clocks at the last access and now. -/
def remaining (p : IdlePolicy) (accessed now : Reading) : Option Duration :=
  p.timeout.bind fun t => t.sub? (now.since accessed)

def judge (p : IdlePolicy) (accessed now : Reading) : Option Decision :=
  (p.remaining accessed now).map fun t => ⟨t, p.action⟩

/-- The decision on a session on a clock in UTC. -/
def evaluate (p : IdlePolicy) (s : Session) (now : Time) : Option Decision :=
  p.judge s.accessed.utc now.utc

end IdlePolicy

/-- Expires sessions a time after their creation, however often they are accessed. An idle limit
that is reached no later decides instead: that of the delegate if it has an opinion, and otherwise
the session's own, which the policy leaves to the store by having no opinion. -/
structure FixedPolicy where
  timeout : Duration
  idle : Option IdlePolicy
  action : Action
  deriving DecidableEq

namespace FixedPolicy

/-- A timeout must be positive and no longer than the longest one. -/
def create (timeout : Duration) (action : Action) : Except Fault FixedPolicy :=
  if timeout.nanos ≤ 0 ∨ .longest < timeout then .error (.fixedTimeoutOutOfRange timeout)
  else .ok ⟨timeout, none, action⟩

def withIdle (p : FixedPolicy) (idle : IdlePolicy) : FixedPolicy := { p with idle := some idle }

/-- What is left of the session's own idle interval, unless that never runs out. -/
def ownRemaining (s : Session) (now : Time) : Option Duration :=
  if s.maxIdle.isNegative then none else s.maxIdle.sub? (now.since s.accessed)

def evaluate (p : FixedPolicy) (s : Session) (now : Time) : Option Decision :=
  match p.timeout.sub? (now.since s.created) with
  | none => none
  | some fixed =>
    let delegated := p.idle.bind (·.evaluate s now)
    match (delegated.map (·.timeout)).or (ownRemaining s now) with
    | some idle => if idle ≤ fixed then delegated else some ⟨fixed, p.action⟩
    | none => some ⟨fixed, p.action⟩

end FixedPolicy

/-- A policy that a user brings. -/
structure CustomPolicy where
  remaining : Session → Time → Option Duration
  action : Action

def CustomPolicy.evaluate (p : CustomPolicy) (s : Session) (now : Time) : Option Decision :=
  (p.remaining s now).map fun t => ⟨t, p.action⟩

/-- Every way to decide when a session expires. -/
inductive Policy where
  | idle (p : IdlePolicy)
  | fixed (p : FixedPolicy)
  | custom (p : CustomPolicy)
  /-- The first of the parts that has an opinion decides. -/
  | firstOf (parts : List Policy)

namespace Policy

mutual

/-- The decision on a session at a time, if the policy has an opinion. -/
def evaluate : Policy → Session → Time → Option Decision
  | idle p, s, now => p.evaluate s now
  | fixed p, s, now => p.evaluate s now
  | custom p, s, now => p.evaluate s now
  | firstOf parts, s, now => evaluateFirst parts s now

def evaluateFirst : List Policy → Session → Time → Option Decision
  | [], _, _ => none
  | p :: rest, s, now => (evaluate p s now).or (evaluateFirst rest s now)

end

/-- The time that a session may live from now on. -/
def remaining (p : Policy) (s : Session) (now : Time) : Option Duration :=
  (p.evaluate s now).map (·.timeout)

/-- The action that the policy itself is set to. Several policies together have none of their
own and answer with the usual one. -/
def action : Policy → Action
  | idle p => p.action
  | fixed p => p.action
  | custom p => p.action
  | firstOf _ => default

end Policy

end Sessions
