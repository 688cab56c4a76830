/-!
# Rounding a quotient

The nearest natural number to a quotient of natural numbers, a half going to the even neighbour or
up, and the count of decimal digits. Both the reading of decimals as doubles and the choice of the
digits of a double rest on them.
-/

namespace Projector.Number

/-- The quotient rounded to the nearest natural number, a half to the even neighbour. -/
def roundHalfEven (numerator denominator : Nat) : Nat :=
  let quotient := numerator / denominator
  let remainder := numerator % denominator
  if 2 * remainder < denominator then quotient
  else if denominator < 2 * remainder then quotient + 1
  else if quotient % 2 = 0 then quotient else quotient + 1

/-- The quotient rounded to the nearest natural number, a half up. -/
def roundHalfUp (numerator denominator : Nat) : Nat :=
  (2 * numerator + denominator) / (2 * denominator)

/-- The quotient rounded up. -/
def ceilDiv (numerator denominator : Nat) : Nat := (numerator + (denominator - 1)) / denominator

/-- The decimal digits of a positive number, the most significant first; none for zero. -/
def decimalDigits (value : Nat) : List Char := if value = 0 then [] else Nat.toDigits 10 value

/-- How many decimal digits a number has; zero has none. -/
def digitCount (value : Nat) : Nat := (decimalDigits value).length

/-- A number with all but its first `count` digits rounded to zeros, a half up. -/
def roundToDigits (count value : Nat) : Nat :=
  let unit := Nat.pow 10 (digitCount value - count)
  roundHalfUp value unit * unit

/-- Twice the distance from the rounded quotient to the quotient is at most one. -/
theorem roundHalfEven_close {numerator denominator : Nat} (positive : 0 < denominator) :
    2 * numerator ≤ 2 * (roundHalfEven numerator denominator * denominator) + denominator ∧
      2 * (roundHalfEven numerator denominator * denominator) ≤ 2 * numerator + denominator := by
  have split := Nat.div_add_mod numerator denominator
  have small := Nat.mod_lt numerator positive
  rw [Nat.mul_comm] at split
  unfold roundHalfEven
  have next : (numerator / denominator + 1) * denominator =
      numerator / denominator * denominator + denominator := by
    rw [Nat.add_mul, Nat.one_mul]
  dsimp only
  split
  · omega
  · split
    · omega
    · split <;> omega

/-- Twice the distance from the quotient to what it is rounded to is at most one, and less than one
when it is rounded down. -/
theorem roundHalfUp_close {numerator denominator : Nat} (positive : 0 < denominator) :
    2 * numerator < 2 * (roundHalfUp numerator denominator * denominator) + denominator ∧
      2 * (roundHalfUp numerator denominator * denominator) ≤ 2 * numerator + denominator := by
  have split := Nat.div_add_mod (2 * numerator + denominator) (2 * denominator)
  have small := Nat.mod_lt (2 * numerator + denominator) (show 0 < 2 * denominator by omega)
  have shape : 2 * (roundHalfUp numerator denominator * denominator) =
      2 * denominator * ((2 * numerator + denominator) / (2 * denominator)) := by
    rw [roundHalfUp, Nat.mul_comm _ denominator, Nat.mul_assoc]
  omega

/-- A number with no more digits than asked for stays as it is. -/
theorem roundToDigits_of_digitCount_le {count value : Nat} (short : digitCount value ≤ count) :
    roundToDigits count value = value := by
  have none : digitCount value - count = 0 := by omega
  simp only [roundToDigits, none, Nat.pow, Nat.mul_one, roundHalfUp]
  omega

/-- A quotient that is a whole number is itself. -/
theorem roundHalfEven_mul {value denominator : Nat} (positive : 0 < denominator) :
    roundHalfEven (value * denominator) denominator = value := by
  simp [roundHalfEven, Nat.mul_div_cancel value positive, positive]

end Projector.Number
