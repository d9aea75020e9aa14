import Sessions.Power

/-!
# Finite binary64 numbers

A finite binary64 number is a sign and the rank of its magnitude among all finite magnitudes,
zero first. Ranks follow the size of the magnitudes, and the parity of a rank is that of the
significand, so that "round to nearest, ties to even" is a statement about ranks. Every magnitude
is a whole number of units of `2 ^ -1074` (`units`), which keeps all arithmetic exact.
-/

namespace Sessions

/-- A finite binary64 number, by sign and rank. -/
structure Binary64 where
  negative : Bool
  rank : Nat
  finite : rank < 2047 * 2 ^ 52
  deriving DecidableEq

namespace Binary64

/-- The magnitude of a rank in units of `2 ^ -1074`. The formula goes on past the greatest finite
rank, where it gives the magnitude that rounding takes for infinite. -/
def unitsOfRank (rank : Nat) : Nat :=
  if rank < 2 ^ 52 then rank else (2 ^ 52 + rank % 2 ^ 52) * 2 ^ (rank / 2 ^ 52 - 1)

def units (x : Binary64) : Nat := unitsOfRank x.rank

def zero (negative : Bool) : Binary64 := ⟨negative, 0, by decide⟩

instance : Inhabited Binary64 := ⟨zero false⟩

def isZero (x : Binary64) : Bool := x.rank = 0

def neg (x : Binary64) : Binary64 := { x with negative := !x.negative }

/-- The whole number nearest to `n / d`; a half goes to the even neighbour. -/
def roundHalfEven (n d : Nat) : Nat :=
  let q := n / d
  let r := n % d
  if 2 * r < d then q else if d < 2 * r then q + 1 else q + q % 2

/-- The rank nearest to the magnitude `n / d` units. A quotient of 53 bits or fewer is its own
rank; a longer one keeps its 53 leading bits. -/
def nearestRank (n d : Nat) : Nat :=
  let shift := (n / d).log2 - 52
  shift * 2 ^ 52 + roundHalfEven n (d * 2 ^ shift)

/-- The number nearest to `n / d` units with the given sign, or none where that is infinite. -/
def ofUnits (negative : Bool) (n d : Nat) : Option Binary64 :=
  let rank := nearestRank n d
  if h : rank < 2047 * 2 ^ 52 then some ⟨negative, rank, h⟩ else none

/-- The number nearest to a whole number. -/
def ofNat (negative : Bool) (n : Nat) : Option Binary64 := ofUnits negative (n * 2 ^ 1074) 1

/-- The rounded product, or none where it is infinite. -/
def mul (x y : Binary64) : Option Binary64 :=
  ofUnits (x.negative != y.negative) (x.units * y.units) (2 ^ 1074)

/-- The rounded quotient by a number other than zero, or none where it is infinite. -/
def div (x y : Binary64) : Option Binary64 :=
  ofUnits (x.negative != y.negative) (x.units * 2 ^ 1074) y.units

/-- Equality of numbers: the two zeros are equal. -/
def same (x y : Binary64) : Bool := x.rank = y.rank && (x.negative = y.negative || x.rank = 0)

end Binary64

end Sessions
