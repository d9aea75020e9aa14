import Sessions.Power

/-!
# Durations

A duration is a signed number of nanoseconds whose whole seconds, counted towards zero, fit 64
signed bits. Subtraction is checked: a difference outside that range is no duration.
-/

namespace Sessions

/-- A signed number of nanoseconds, its whole seconds within 64 signed bits. -/
structure Duration where
  nanos : Int
  inRange : -2 ^ 63 * 1000000000 - 999999999 ≤ nanos ∧ nanos ≤ (2 ^ 63 - 1) * 1000000000 + 999999999
  deriving DecidableEq

namespace Duration

/-- The duration of that many nanoseconds, if it is one. -/
def ofNanos? (n : Int) : Option Duration :=
  if h : -2 ^ 63 * 1000000000 - 999999999 ≤ n ∧ n ≤ (2 ^ 63 - 1) * 1000000000 + 999999999 then
    some ⟨n, h⟩
  else none

def ofSeconds (seconds : Int64) : Duration :=
  ⟨seconds.toInt * 1000000000, by
    have := seconds.le_toInt
    have := seconds.toInt_lt
    omega⟩

def zero : Duration := ⟨0, by decide⟩

instance : Inhabited Duration := ⟨zero⟩

instance : LE Duration := ⟨fun a b => a.nanos ≤ b.nanos⟩

instance : LT Duration := ⟨fun a b => a.nanos < b.nanos⟩

instance (a b : Duration) : Decidable (a ≤ b) := inferInstanceAs (Decidable (a.nanos ≤ b.nanos))

instance (a b : Duration) : Decidable (a < b) := inferInstanceAs (Decidable (a.nanos < b.nanos))

instance : Min Duration := ⟨fun a b => if a ≤ b then a else b⟩

instance : Max Duration := ⟨fun a b => if a ≤ b then b else a⟩

def isNegative (d : Duration) : Bool := d.nanos < 0

/-- The difference, if it is a duration. -/
def sub? (a b : Duration) : Option Duration := ofNanos? (a.nanos - b.nanos)

/-- Whole seconds, counted towards zero. -/
def wholeSeconds (d : Duration) : Int64 := Int64.ofInt (d.nanos.tdiv 1000000000)

/-- The nanoseconds beyond the whole seconds, of the sign of the duration. -/
def subsecond (d : Duration) : Int := d.nanos.tmod 1000000000

/-- The longest idle interval and the longest lifetime: as many seconds as fit 32 signed bits. -/
def longest : Duration := ⟨2147483647 * 1000000000, by decide⟩

/-- One item of a written duration; an item of zero is left out. -/
def item (n : Nat) (unit : String) : String := if n = 0 then "" else toString n ++ unit

/-- Days, hours, minutes, seconds, milliseconds, microseconds and nanoseconds, each only where it
is not zero. -/
def render (d : Duration) : String :=
  if d.nanos = 0 then "0s"
  else
    let n := d.nanos.natAbs
    let s := n / 1000000000
    (if d.isNegative then "-" else "")
      ++ item (s / 86400) "d" ++ item (s / 3600 % 24) "h" ++ item (s / 60 % 60) "m"
      ++ item (s % 60) "s" ++ item (n / 1000000 % 1000) "ms" ++ item (n / 1000 % 1000) "µs"
      ++ item (n % 1000) "ns"

end Duration

end Sessions
