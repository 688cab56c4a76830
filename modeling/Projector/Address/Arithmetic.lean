import Projector.Address.Reader
import Projector.Following

/-!
# Address arithmetic

The address of a field below another address, whether one address lies at or below another, and
the address a part has after the part that holds it has moved. The last two work on the steps of
the addresses, so that the address of a field is never taken for one that merely starts with the
same characters.
-/

namespace Projector.Address

/-- The address of a whole document. -/
def root : String := Path.address []

/-- The address of a field below a parent. The fields that a list shows are those of its elements,
so they stand behind its brackets. The parent is not examined. -/
def child (parent : String) (key : String) (inArray : Bool) : String :=
  parent ++ (if inArray then Segment.each.render else "") ++ (Segment.field key).render

/-- Whether an address is that of an ancestor or of one of its parts. -/
def covers (ancestor address : String) : Except Fault Bool := do
  let front ← parse ancestor
  let whole ← parse address
  .ok (following? front whole).isSome

/-- The address of a part after its ancestor `old` has become `new`. -/
def rebase (address old new : String) : Except Fault String := do
  let front ← parse old
  let whole ← parse address
  match following? front whole with
  | none => .error (.notBelow old address)
  | some rest => do
    let target ← parse new
    .ok (Path.address (target ++ rest))

end Projector.Address
