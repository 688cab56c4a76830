import Projector.Json.Fault
import Projector.Text.Quoted

/-!
# Why an address is refused
-/

namespace Projector.Address

/-- Why an address, or an operation on addresses, is refused. -/
inductive Fault
  /-- The address does not start at the root. -/
  | noRoot (address : String)
  /-- No step of a path starts at an offset of the address. -/
  | malformed (address : String) (offset : Nat)
  /-- A quoted name is no string literal; places count from its opening quote. -/
  | badName (fault : Json.Fault)
  /-- An address does not lie below the one it should be moved away from. -/
  | notBelow (ancestor : String) (address : String)
  deriving DecidableEq

/-- The wording of a fault. -/
def Fault.message : Fault → String
  | .noRoot address => "address must start with '$', got " ++ Text.quoted address
  | .malformed address offset =>
    "malformed address " ++ Text.quoted address ++ " at offset " ++ toString offset
  | .badName fault => fault.message
  | .notBelow ancestor address =>
    Text.quoted ancestor ++ " is not a prefix of " ++ Text.quoted address

end Projector.Address
