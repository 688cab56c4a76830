import Projector.Json.Printer

/-!
# Why a query fails

A failure names the kind of the value that an operation was used on and shows the value itself,
shortened when it is long.
-/

namespace Projector

/-- The word for the kind of a value. -/
def Json.kindName : Json → String
  | .null => "null"
  | .bool _ => "boolean"
  | .int _ => "number"
  | .double _ => "number"
  | .str _ => "string"
  | .torn _ => "string"
  | .arr _ => "array"
  | .obj _ => "object"

namespace Query

/-- Why a query fails on a value. -/
inductive Failure
  /-- Only objects and nothing have fields. -/
  | cannotIndex (value : Json) (key : String)
  /-- Only lists and objects have elements. -/
  | cannotIterate (value : Json)
  /-- Only two objects have a product. -/
  | cannotMultiply (left right : Json)
  /-- A variable has no value. -/
  | unbound (name : String)

/-- The longest text of a value that a message shows in full, in bytes. -/
def shownBytes : Nat := 29

/-- The closing mark of a text that starts with an opening one. -/
def closingMark? (text : List Char) : Option Char :=
  match text.head? with
  | some '"' => some '"'
  | some '[' => some ']'
  | some '{' => some '}'
  | _ => none

/-- As many characters as fit into a number of bytes. -/
def fitting (room : Nat) : List Char → List Char
  | [] => []
  | c :: rest => if c.utf8Size ≤ room then c :: fitting (room - c.utf8Size) rest else []

/-- A text as messages show it: one that is too long is cut and closed again. -/
def shorten (text : String) : String :=
  if text.utf8ByteSize ≤ shownBytes then text
  else
    let closing := (closingMark? text.toList).toList
    String.ofList
      (fitting (shownBytes - 3 - closing.length) text.toList ++ ['.', '.', '.'] ++ closing)

/-- A value as messages show it. -/
def shown (value : Json) : String := shorten value.tightText

/-- A value with its kind as messages show it. -/
def described (value : Json) : String := value.kindName ++ " (" ++ shown value ++ ")"

/-- The wording of a failure. -/
def Failure.message : Failure → String
  | .cannotIndex value key =>
    "Cannot index " ++ value.kindName ++ " with " ++ described (.str key)
  | .cannotIterate value => "Cannot iterate over " ++ described value
  | .cannotMultiply left right =>
    described left ++ " and " ++ described right ++ " cannot be multiplied"
  | .unbound name => "$" ++ name ++ " is not defined"

end Query

end Projector
