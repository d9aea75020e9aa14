import Sessions.Duration

/-!
# Instants

An instant is a number of nanoseconds since the start of 1970 in UTC, within the calendar: from
the first day of the year -9999 to the last nanosecond of the year 9999. Moving an instant by a
duration is checked; the difference of two instants is always a duration.

A clock need not show UTC. What it shows is a date and a time of day within the same calendar, and
its reading (`Reading`) is that with the clock's offset. A reading is moved by moving what is shown,
and readings are compared by their instants, which for dates near the ends of the calendar may lie
outside of it.
-/

namespace Sessions

/-- Nanoseconds since the start of 1970, within the calendar. -/
structure Time where
  nanos : Int
  inRange : -377705116800000000000 ≤ nanos ∧ nanos ≤ 253402300799999999999
  deriving DecidableEq

namespace Time

/-- The instant that many nanoseconds after the epoch, if it is within the calendar. -/
def ofNanos? (n : Int) : Option Time :=
  if h : -377705116800000000000 ≤ n ∧ n ≤ 253402300799999999999 then some ⟨n, h⟩ else none

/-- The instant that many milliseconds after the epoch, if it is within the calendar. -/
def ofMillis? (millis : Int64) : Option Time := ofNanos? (millis.toInt * 1000000)

def epoch : Time := ⟨0, by decide⟩

instance : Inhabited Time := ⟨epoch⟩

instance : LE Time := ⟨fun a b => a.nanos ≤ b.nanos⟩

instance : LT Time := ⟨fun a b => a.nanos < b.nanos⟩

instance (a b : Time) : Decidable (a ≤ b) := inferInstanceAs (Decidable (a.nanos ≤ b.nanos))

instance (a b : Time) : Decidable (a < b) := inferInstanceAs (Decidable (a.nanos < b.nanos))

instance : Max Time := ⟨fun a b => if a ≤ b then b else a⟩

/-- The instant a duration later, if it is within the calendar. -/
def add? (t : Time) (d : Duration) : Option Time := ofNanos? (t.nanos + d.nanos)

/-- The instant a duration earlier, if it is within the calendar. -/
def sub? (t : Time) (d : Duration) : Option Time := ofNanos? (t.nanos - d.nanos)

/-- How long after `earlier` the instant is. -/
def since (t earlier : Time) : Duration :=
  ⟨t.nanos - earlier.nanos, by
    have := t.inRange
    have := earlier.inRange
    omega⟩

/-- The last whole millisecond up to the instant. -/
def floorMillis (t : Time) : Time :=
  ⟨t.nanos / 1000000 * 1000000, by
    have := t.inRange
    omega⟩

/-- Milliseconds since the epoch, counted towards it. -/
def millis (t : Time) : Int64 := Int64.ofInt (t.nanos.tdiv 1000000)

end Time

/-! ## Readings of a clock -/

/-- How far a clock is ahead of UTC, in seconds: less than twenty-six hours either way. -/
structure Offset where
  seconds : Int
  inRange : -93599 ≤ seconds ∧ seconds ≤ 93599
  deriving DecidableEq

namespace Offset

def utc : Offset := ⟨0, by decide⟩

instance : LE Offset := ⟨fun a b => a.seconds ≤ b.seconds⟩

instance (a b : Offset) : Decidable (a ≤ b) :=
  inferInstanceAs (Decidable (a.seconds ≤ b.seconds))

end Offset

/-- What a clock shows, which it would show at the instant `shown` if it were in UTC. -/
structure Reading where
  shown : Time
  offset : Offset
  deriving DecidableEq

namespace Reading

/-- Nanoseconds since the start of 1970 in UTC. -/
def nanos (r : Reading) : Int := r.shown.nanos - r.offset.seconds * 1000000000

instance : LE Reading := ⟨fun a b => a.nanos ≤ b.nanos⟩

instance (a b : Reading) : Decidable (a ≤ b) := inferInstanceAs (Decidable (a.nanos ≤ b.nanos))

/-- What the clock showed a duration earlier, if that is within the calendar. -/
def sub? (r : Reading) (d : Duration) : Option Reading :=
  (r.shown.sub? d).map fun shown => { r with shown }

def since (r earlier : Reading) : Duration :=
  ⟨r.nanos - earlier.nanos, by
    have := r.shown.inRange
    have := r.offset.inRange
    have := earlier.shown.inRange
    have := earlier.offset.inRange
    unfold nanos
    omega⟩

end Reading

namespace Time

/-- The reading of a clock in UTC. -/
def utc (t : Time) : Reading := ⟨t, .utc⟩

/-! ## Written form -/

/-- Year, month and day of the day that many days after the start of 1970. The count runs over
periods of four hundred years that begin on the first of March. -/
def civil (days : Int) : Int × Nat × Nat :=
  let z := days + 719468
  let era := z / 146097
  let doe := (z % 146097).toNat
  let yoe := (doe - doe / 1460 + doe / 36524 - doe / 146096) / 365
  let doy := doe - (365 * yoe + yoe / 4 - yoe / 100)
  let m := (5 * doy + 2) / 153
  let day := doy - (153 * m + 2) / 5 + 1
  let month := if m < 10 then m + 3 else m - 9
  (yoe + era * 400 + (if month ≤ 2 then 1 else 0), month, day)

/-- A number with zeros in front up to the given width. -/
def padded (width n : Nat) : String :=
  let ds := Nat.toDigits 10 n
  String.ofList (List.replicate (width - ds.length) '0' ++ ds)

/-- The places after the point of a count of nanoseconds, without zeros at the end, but one at
least. -/
def places (n : Nat) : String :=
  let ds := (padded 9 n).toList.reverse.dropWhile (· = '0')
  if ds.isEmpty then "0" else String.ofList ds.reverse

/-- Date, time of day and offset. The hour has no leading zero and the year four digits at
least. -/
def render (t : Time) : String :=
  let seconds := t.nanos / 1000000000
  let (year, month, day) := civil (seconds / 86400)
  let s := (seconds % 86400).toNat
  (if year < 0 then "-" else "") ++ padded 4 year.natAbs ++ "-" ++ padded 2 month ++ "-"
    ++ padded 2 day ++ " " ++ toString (s / 3600) ++ ":" ++ padded 2 (s / 60 % 60) ++ ":"
    ++ padded 2 (s % 60) ++ "." ++ places (t.nanos % 1000000000).toNat ++ " +00:00:00"

end Time

end Sessions
