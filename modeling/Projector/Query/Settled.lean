import Projector.Json.Basic
import Projector.Number.Shortest

/-!
# Settled numbers

The numbers of an output are doubles; of an integer only as many digits count as any double needs.
A double that is a whole number is given as an integer, exactly; one that is no number is given as
nothing, and one beyond all doubles as the largest of them.
-/

namespace Projector.Json

/-- A double as a value of an output. -/
def ofDouble (number : Number.Double) : Json :=
  match number with
  | .nan => .null
  | .infinite negative => .double (.largest negative)
  | .finite _ _ _ =>
    match number.toInt? with
    | some whole => .int whole
    | none => .double number

/-- The double that an integer counts as: the nearest one to its first digits, a half of the last
digit being rounded away from zero. -/
def doubleOfInt (value : Int) : Number.Double :=
  .ofRatio (decide (value < 0)) (Number.roundToDigits Number.maxDigits value.natAbs) 1

mutual

/-- A value with all its numbers settled. -/
def settled : Json → Json
  | .null => .null
  | .bool value => .bool value
  | .int value => ofDouble (doubleOfInt value)
  | .double value => ofDouble value
  | .str text => .str text
  | .torn text => .torn text
  | .arr items => .arr (settledItems items)
  | .obj fields => .obj (settledFields fields)

/-- Items with all their numbers settled. -/
def settledItems : List Json → List Json
  | [] => []
  | item :: rest => settled item :: settledItems rest

/-- Fields with all their numbers settled. -/
def settledFields : List (String × Json) → List (String × Json)
  | [] => []
  | (name, value) :: rest => (name, settled value) :: settledFields rest

end

end Projector.Json
