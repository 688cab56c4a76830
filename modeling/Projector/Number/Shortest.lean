import Projector.Number.Double

/-!
# The shortest decimal of a double

A finite double is written with the fewest decimal digits that read back as the same double, and
of those with the digits nearest to its value. The doubles that round to a given one form an
interval, whose ends belong to it exactly when its significand is even. On the grid of decimals
with a given number of digits only the two neighbours of the value need to be tried.
-/

namespace Projector.Number

/-- The interval of the numbers that round to significand · 2^exponent, as numerators over a common
denominator. -/
structure RoundingInterval where
  /-- The numerator of the lower end. -/
  low : Nat
  /-- The numerator of the value. -/
  value : Nat
  /-- The numerator of the upper end. -/
  high : Nat
  /-- The common denominator. -/
  unit : Nat
  /-- Whether the ends belong to the interval. -/
  closed : Bool

namespace RoundingInterval

/-- The rounding interval of a positive double. The gap below a power of two is half as wide as
the gap above it. -/
def ofDouble (significand : Nat) (exponent : Int) : RoundingInterval :=
  let (scale, unit) := Double.binaryRatio 1 exponent
  let below :=
    if significand = Double.significandBound / 2 ∧ Double.minExponent < exponent then 1 else 2
  { low := (4 * significand - below) * scale
    value := 4 * significand * scale
    high := (4 * significand + 2) * scale
    unit := 4 * unit
    closed := significand % 2 = 0 }

/-- The same interval in units of 10^place. -/
def inUnitsOf (interval : RoundingInterval) (place : Int) : RoundingInterval :=
  if 0 ≤ place then { interval with unit := interval.unit * Nat.pow 10 place.toNat }
  else
    let scale := Nat.pow 10 (-place).toNat
    { interval with
      low := interval.low * scale
      value := interval.value * scale
      high := interval.high * scale }

/-- Whether a whole number of units lies in the interval. -/
def contains (interval : RoundingInterval) (count : Nat) : Bool :=
  let point := count * interval.unit
  if interval.closed then decide (interval.low ≤ point ∧ point ≤ interval.high)
  else decide (interval.low < point ∧ point < interval.high)

/-- The whole number of units in the interval that is nearest to the value, if there is one; of
two equally near ones the even one. -/
def nearest? (interval : RoundingInterval) : Option Nat :=
  let below := interval.value / interval.unit
  let above := below + 1
  match interval.contains below, interval.contains above with
  | true, true => some (roundHalfEven interval.value interval.unit)
  | true, false => some below
  | false, true => some above
  | false, false => none

/-- The place of the first decimal digit of the value: the value is at least 10^place and less
than 10^(place + 1). -/
def leadingPlace (interval : RoundingInterval) : Int :=
  if interval.unit ≤ interval.value then (digitCount (interval.value / interval.unit) : Int) - 1
  else -(digitCount (ceilDiv interval.unit interval.value - 1) : Int)

end RoundingInterval

/-- A positive decimal: digits · 10^place. -/
structure Decimal where
  digits : Nat
  place : Int

/-- Seventeen digits tell any two doubles apart. -/
def maxDigits : Nat := 17

/-- The decimal with the fewest digits that reads back as a positive double. -/
def shortestDecimal (significand : Nat) (exponent : Int) : Decimal :=
  let interval := RoundingInterval.ofDouble significand exponent
  let lead := interval.leadingPlace
  let onGrid (count : Nat) : Option Decimal :=
    let place := lead + 1 - count
    (interval.inUnitsOf place).nearest?.map fun digits => { digits, place }
  ((List.range maxDigits).findSome? fun i => onGrid (i + 1)).getD { digits := 0, place := 0 }

end Projector.Number
