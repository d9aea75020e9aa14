import Sessions.Attributes
import Sessions.Codec.Basic
import Sessions.Codec.Binary
import Sessions.Codec.Chain
import Sessions.Codec.Frame
import Sessions.Codec.Portable
import Sessions.Config
import Sessions.Decimal.Binary64
import Sessions.Decimal.Shortest
import Sessions.Digest.Sha256
import Sessions.Duration
import Sessions.Expiry.Hook
import Sessions.Expiry.Policy
import Sessions.Fault
import Sessions.IndexKey
import Sessions.Json.Basic
import Sessions.Json.Lexical
import Sessions.Json.Parser
import Sessions.Json.Printer
import Sessions.Json.Reader
import Sessions.Kind
import Sessions.Lifetime
import Sessions.Power
import Sessions.Proofs.Basic
import Sessions.Proofs.Changes
import Sessions.Proofs.Codec.Binary
import Sessions.Proofs.Codec.BuiltIn
import Sessions.Proofs.Codec.Chain
import Sessions.Proofs.Codec.Document
import Sessions.Proofs.Codec.Faults
import Sessions.Proofs.Codec.FaultyDelta
import Sessions.Proofs.Codec.IdleInterval
import Sessions.Proofs.Codec.Lawful
import Sessions.Proofs.Codec.Legibility
import Sessions.Proofs.Codec.Portable
import Sessions.Proofs.Codec.Principal
import Sessions.Proofs.Codec.Reading
import Sessions.Proofs.Codec.Replay
import Sessions.Proofs.Codec.Restoring
import Sessions.Proofs.Codec.RoundTrip
import Sessions.Proofs.Codec.Truncation
import Sessions.Proofs.Config
import Sessions.Proofs.Decimal.Rounding
import Sessions.Proofs.Decimal.Scaling
import Sessions.Proofs.Decimal.Shortest
import Sessions.Proofs.Delta
import Sessions.Proofs.Expiry.Countdown
import Sessions.Proofs.Expiry.Deadline
import Sessions.Proofs.Expiry.Idle
import Sessions.Proofs.IndexKey
import Sessions.Proofs.Json.Colons
import Sessions.Proofs.Json.Depth
import Sessions.Proofs.Json.Doubles
import Sessions.Proofs.Json.Echo
import Sessions.Proofs.Json.Numbers
import Sessions.Proofs.Json.ReadBack
import Sessions.Proofs.Json.Records
import Sessions.Proofs.Json.Same
import Sessions.Proofs.Json.Strings
import Sessions.Proofs.Json.Validity
import Sessions.Proofs.Repository.Ending
import Sessions.Proofs.Repository.FailedSave
import Sessions.Proofs.Repository.Lifecycle
import Sessions.Proofs.Repository.Lookup
import Sessions.Proofs.Repository.Skipped
import Sessions.Proofs.Repository.Steps
import Sessions.Proofs.Repository.Stored
import Sessions.Proofs.Repository.Storing
import Sessions.Proofs.Repository.Written
import Sessions.Proofs.Run.Basic
import Sessions.Proofs.Run.Invariant
import Sessions.Proofs.Run.Retry
import Sessions.Proofs.Run.SaveFind
import Sessions.Proofs.Session
import Sessions.Proofs.Sharing.Access
import Sessions.Proofs.Sharing.Basic
import Sessions.Proofs.Sharing.Entries
import Sessions.Proofs.Sharing.Keys
import Sessions.Proofs.Sharing.Lapse
import Sessions.Proofs.Sharing.LastSaved
import Sessions.Proofs.Sharing.Lifetime
import Sessions.Proofs.Sharing.Lookup
import Sessions.Proofs.Sharing.Merging
import Sessions.Proofs.Sharing.Principal
import Sessions.Proofs.Sharing.Removal
import Sessions.Proofs.Sharing.Visits
import Sessions.Proofs.Store
import Sessions.Proofs.Store.Action
import Sessions.Proofs.Store.Atomicity
import Sessions.Proofs.Store.Calendar
import Sessions.Proofs.Store.Deadline
import Sessions.Proofs.Store.Fate
import Sessions.Proofs.Store.History
import Sessions.Proofs.Store.Ledger
import Sessions.Proofs.Store.Records
import Sessions.Proofs.Store.Removal
import Sessions.Proofs.Store.Tombstones
import Sessions.Proofs.Table
import Sessions.Proofs.Text
import Sessions.Proofs.Time
import Sessions.Proofs.Wire
import Sessions.Repository
import Sessions.Session
import Sessions.Store
import Sessions.Table
import Sessions.Text.Blank
import Sessions.Text.Hex
import Sessions.Text.Utf8
import Sessions.Time
import Sessions.Wire
