import Sessions.Codec.Chain
import Sessions.Expiry.Policy

/-!
# Configuration

Plain settings for a session repository, as a JSON document in which every field may be missing.
`Config.validate` accepts exactly the settings from which everything can be built.
-/

namespace Sessions

/-- How a client process holds the session region. -/
inductive ClientRegion where
  | localOnly
  | proxy
  | cachingProxy
  deriving DecidableEq, Repr

def ClientRegion.name : ClientRegion → String
  | localOnly => "local"
  | proxy => "proxy"
  | cachingProxy => "caching_proxy"

/-- How server members hold the session region. -/
inductive ServerRegion where
  | partition
  | partitionRedundant
  | replicate
  | localOnly
  deriving DecidableEq, Repr

def ServerRegion.name : ServerRegion → String
  | partition => "partition"
  | partitionRedundant => "partition_redundant"
  | replicate => "replicate"
  | localOnly => "local"

/-- The codec that writes the sessions. -/
inductive CodecChoice where
  /-- The binary codec, which writes deltas. -/
  | binary
  /-- The codec of named fields. -/
  | portable
  /-- The codec of named fields first, then the binary one. -/
  | both
  deriving DecidableEq, Repr

def CodecChoice.name : CodecChoice → String
  | binary => "data_serialization"
  | portable => "pdx"
  | both => "composite"

/-- The expiration policy, its times in seconds. -/
inductive PolicyChoice where
  | idle (timeoutSeconds : Option Int64)
  | fixed (timeoutSeconds : Int64) (idleSeconds : Option Int64)
  deriving DecidableEq

/-- The settings of a session repository. -/
structure Config where
  regionName : String
  poolName : String
  clientRegion : ClientRegion
  serverRegion : ServerRegion
  indexable : List String
  /-- A negative interval disables idle expiry. -/
  maxIdleSeconds : Int64
  codec : CodecChoice
  policy : PolicyChoice
  action : Action
  deriving DecidableEq

namespace Config

/-- The settings of an empty document. -/
def usual : Config where
  regionName := "ClusteredSpringSessions"
  poolName := "DEFAULT"
  clientRegion := .proxy
  serverRegion := .partition
  indexable := []
  maxIdleSeconds := 1800
  codec := .portable
  policy := .idle none
  action := .invalidate

instance : Inhabited Config := ⟨usual⟩

/-! ## Reading -/

open Json (Reader)

def clientRegions : List (String × ClientRegion) :=
  [.localOnly, .proxy, .cachingProxy].map fun r => (r.name, r)

def serverRegions : List (String × ServerRegion) :=
  [.partition, .partitionRedundant, .replicate, .localOnly].map fun r => (r.name, r)

def codecs : List (String × CodecChoice) :=
  [.binary, .portable, .both].map fun c => (c.name, c)

/-- The two shapes of an expiration policy, by the name of their kind; true for the fixed one. -/
def policyKinds : List (String × Bool) := [("idle", false), ("fixed_duration", true)]

/-- A number of seconds beside the tag of a policy. -/
def seconds : Json → Except Json.Flaw Int64
  | .int n => if -2 ^ 63 ≤ n ∧ n < 2 ^ 63 then .ok (Int64.ofInt n) else .error .mismatch
  | _ => .error .mismatch

/-- Seconds that may be missing or `null`. -/
def optionalSeconds : Option Json → Except Json.Flaw (Option Int64)
  | none | some .null => .ok none
  | some v => (seconds v).map some

/-- The only member with a name, if there is one; it may not be repeated. -/
def soleMember (name : String) (found : List (String × Json)) :
    Except Json.Flaw (Option Json) :=
  match found.filter (·.1 = name) with
  | [] => .ok none
  | [(_, v)] => .ok (some v)
  | _ => .error .mismatch

/-- The fields of a policy by name, or in order with the last one optional. -/
def policyOfContent : Bool → Reader.Content → Except Json.Flaw PolicyChoice
  | false, .members found => do
    let idle ← soleMember "idle_timeout_seconds" found
    .ok (.idle (← optionalSeconds idle))
  | true, .members found => do
    let idle ← soleMember "idle_timeout_seconds" found
    match ← soleMember "fixed_timeout_seconds" found with
    | some v => .ok (.fixed (← seconds v) (← optionalSeconds idle))
    | none => .error .mismatch
  | false, .items found =>
    match found with
    | [] => .ok (.idle none)
    | [idle] => do .ok (.idle (← optionalSeconds (some idle)))
    | _ => .error .mismatch
  | true, .items found =>
    match found with
    | [v] => do .ok (.fixed (← seconds v) none)
    | [v, idle] => do .ok (.fixed (← seconds v) (← optionalSeconds (some idle)))
    | _ => .error .mismatch

def readPolicy : Reader PolicyChoice := fun depth input => do
  let ((kind, content), rest) ← Reader.tagged "kind" policyKinds depth input
  let policy ← policyOfContent kind content
  .ok (policy, rest)

/-- The fields of the document in their order; each may be missing. -/
def fields : List (Reader.Field Config) :=
  [.of "region_name" false Reader.text fun c x => { c with regionName := x },
    .of "pool_name" false Reader.text fun c x => { c with poolName := x },
    .of "client_region_shortcut" false (Reader.choice clientRegions)
      fun c x => { c with clientRegion := x },
    .of "server_region_shortcut" false (Reader.choice serverRegions)
      fun c x => { c with serverRegion := x },
    .of "indexable_session_attributes" false (Reader.list Reader.text)
      fun c x => { c with indexable := x },
    .of "max_inactive_interval_seconds" false Reader.integer
      fun c x => { c with maxIdleSeconds := x },
    .of "serializer" false (Reader.choice codecs) fun c x => { c with codec := x },
    .of "expiration_policy" false readPolicy fun c x => { c with policy := x },
    .of "expiration_action" false (Reader.choice Action.options) fun c x => { c with action := x }]

/-- The settings of a whole JSON text; missing fields keep their usual values. -/
def read (input : Bytes) : Except Json.Flaw Config :=
  Json.readWith (Reader.record fields usual) input

/-- Changes one field to a value that is given as JSON. -/
def setField (c : Config) (name : String) (value : Json) : Except Json.Flaw Config :=
  match fields.find? (·.name = name) with
  | some f =>
    match Json.readWith f.read value.bytes with
    | .ok change => .ok (change c)
    | .error _ => .error .mismatch
  | none => .error .mismatch

/-! ## Writing -/

def secondsJson : Option Int64 → Json
  | some n => .int n.toInt
  | none => .null

def policyJson : PolicyChoice → Json
  | .idle timeout => .obj [("kind", .str "idle"), ("idle_timeout_seconds", secondsJson timeout)]
  | .fixed timeout idle =>
    .obj [("kind", .str "fixed_duration"), ("fixed_timeout_seconds", .int timeout.toInt),
      ("idle_timeout_seconds", secondsJson idle)]

/-- The JSON text of the settings, their fields in order. -/
def render (c : Config) : String :=
  (Json.obj
    [("region_name", .str c.regionName), ("pool_name", .str c.poolName),
      ("client_region_shortcut", .str c.clientRegion.name),
      ("server_region_shortcut", .str c.serverRegion.name),
      ("indexable_session_attributes", .arr (c.indexable.map .str)),
      ("max_inactive_interval_seconds", .int c.maxIdleSeconds.toInt),
      ("serializer", .str c.codec.name), ("expiration_policy", policyJson c.policy),
      ("expiration_action", .str c.action.name)]).render

/-! ## Building -/

/-- The idle interval of new sessions. -/
def maxIdle (c : Config) : Duration := .ofSeconds c.maxIdleSeconds

/-- The fixed lifetime of sessions, when the fixed policy is chosen. -/
def lifetime (c : Config) : Option Duration :=
  match c.policy with
  | .fixed timeout _ => some (.ofSeconds timeout)
  | .idle _ => none

/-- The codec that is chosen. -/
def buildCodec (c : Config) : Except Fault Codec :=
  let chosen := match c.codec with
    | .binary => some Codec.binary
    | .portable => some Codec.portable
    | .both => Codec.compose [Codec.portable, Codec.binary]
  match chosen with
  | some codec => .ok codec
  | none => .error .noCodec

/-- The policy that is chosen, with the one action for all its parts. -/
def buildPolicy (c : Config) : Except Fault Policy :=
  match c.policy with
  | .idle timeout => do
    let p ← IdlePolicy.create (timeout.map .ofSeconds) c.action
    .ok (.idle p)
  | .fixed timeout none => do
    let p ← FixedPolicy.create (.ofSeconds timeout) c.action
    .ok (.fixed p)
  | .fixed timeout (some idle) => do
    let p ← FixedPolicy.create (.ofSeconds timeout) c.action
    let idle ← IdlePolicy.create (some (.ofSeconds idle)) c.action
    .ok (.fixed (p.withIdle idle))

/-- The first setting that cannot be used, if there is one. -/
def validate (c : Config) : Except Fault Unit :=
  if isBlank c.regionName then .error .blankRegionName
  else if isBlank c.poolName then .error .blankPoolName
  else if .longest < c.maxIdle then .error (.maxIdleOutOfRange c.maxIdleSeconds)
  else match c.indexable.find? isBlank with
    | some name => .error (.blankIndexableName name)
    | none => c.buildPolicy.map fun _ => ()

end Config

end Sessions
