import Sessions.Decimal.Binary64

/-!
# Shortest decimals

The decimal text of a binary64 number has the fewest digits that read back as that number, and of
those the digits nearest to it. For one digit, two digits and so on, the value's two neighbours on
that decimal grid are compared with the interval of reals that round to the number; the ends of
the interval belong to it exactly when the rank is even. Seventeen digits always suffice.
-/

namespace Sessions

/-- `digits` read as a whole number times `10 ^ scale`. -/
structure Decimal where
  digits : Nat
  scale : Int
  deriving DecidableEq, Repr

namespace Decimal

def digitCount (n : Nat) : Nat := (Nat.toDigits 10 n).length

/-- The exponent `e` with `10 ^ e ≤ n / d < 10 ^ (e + 1)`, for positive `n` and `d`. -/
def leadingExponent (n d : Nat) : Int :=
  if d ≤ n then (digitCount (n / d) : Int) - 1 else -(digitCount ((d - 1) / n) : Int)

/-- `n / 2 ^ 1075` as a fraction in steps of `10 ^ scale`. -/
def inSteps (n : Nat) (scale : Int) : Nat × Nat :=
  (n * 10 ^ (-scale).toNat, 2 ^ 1075 * 10 ^ scale.toNat)

/-- Whether `digits` steps of `10 ^ scale` round to the number of that rank. -/
def roundsTo (rank digits : Nat) (scale : Int) : Bool :=
  let low := inSteps (Binary64.unitsOfRank (rank - 1) + Binary64.unitsOfRank rank) scale
  let high := inSteps (Binary64.unitsOfRank rank + Binary64.unitsOfRank (rank + 1)) scale
  if rank % 2 = 0 then low.1 ≤ digits * low.2 && digits * high.2 ≤ high.1
  else low.1 < digits * low.2 && digits * high.2 < high.1

/-- The neighbour of the value on the grid of `10 ^ scale` that rounds to it, if one does. Of two,
the nearer one, and of two at the same distance the even one. -/
def onGrid? (rank : Nat) (scale : Int) : Option Nat :=
  let value := inSteps (2 * Binary64.unitsOfRank rank) scale
  let below := value.1 / value.2
  let nearer := Binary64.roundHalfEven value.1 value.2
  let farther := if nearer = below then below + 1 else below
  if roundsTo rank nearer scale then some nearer
  else if roundsTo rank farther scale then some farther
  else none

/-- Moves trailing zeros from the digits to the scale. -/
def stripZeros : Nat → Decimal → Decimal
  | 0, x => x
  | fuel + 1, x =>
    if x.digits ≠ 0 ∧ x.digits % 10 = 0 then stripZeros fuel ⟨x.digits / 10, x.scale + 1⟩ else x

/-- The shortest decimal that reads back as the positive number of that rank. -/
def shortest (rank : Nat) : Decimal :=
  let leading := leadingExponent (Binary64.unitsOfRank rank) (2 ^ 1074)
  let found := (List.range 17).findSome? fun n : Nat =>
    (onGrid? rank (leading - n)).map fun digits => (⟨digits, leading - n⟩ : Decimal)
  stripZeros 17 (found.getD ⟨0, 0⟩)

/-- Where positional writing begins and ends, as exponents of the leading digit. -/
structure Layout where
  least : Int
  greatest : Int

/-- Positional with at least one place after the point for leading exponents within the layout's
bounds, otherwise one digit before the point and a signed exponent. -/
def render (layout : Layout) (x : Decimal) : List Char :=
  let digits := Nat.toDigits 10 x.digits
  let exponent : Int := digits.length - 1 + x.scale
  if layout.least ≤ exponent ∧ exponent ≤ layout.greatest then
    if exponent < 0 then
      '0' :: '.' :: List.replicate (-exponent - 1).toNat '0' ++ digits
    else
      let whole := (exponent + 1).toNat
      let fraction := digits.drop whole
      digits.take whole ++ List.replicate (whole - digits.length) '0'
        ++ '.' :: (if fraction.isEmpty then ['0'] else fraction)
  else
    let fraction := digits.drop 1
    digits.take 1 ++ (if fraction.isEmpty then [] else '.' :: fraction)
      ++ 'e' :: (if exponent < 0 then '-' else '+') :: Nat.toDigits 10 exponent.natAbs

end Decimal

/-- A number's sign and its shortest decimal; zero is written with one place. -/
def Binary64.render (layout : Decimal.Layout) (x : Binary64) : List Char :=
  (if x.negative then ['-'] else [])
    ++ if x.isZero then ['0', '.', '0'] else (Decimal.shortest x.rank).render layout

end Sessions
