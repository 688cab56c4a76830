import Projector.Address.Fault
import Projector.Address.Path

/-!
# Reading addresses

An address is a dollar sign followed by steps: a dot and an identifier, a dot and a string literal,
or a pair of brackets. The end of a quoted name is found first, as the first quote that no
backslash escapes, and the literal is read afterwards.
-/

namespace Projector

namespace Json.Literal

/-- Splits a text behind an opening quote after the closing one. A backslash takes the character
after it along, but never a line feed. -/
def splitClosing? : List Char → Option (List Char × List Char)
  | [] => none
  | '"' :: rest => some (['"'], rest)
  | ['\\'] => none
  | '\\' :: escaped :: rest =>
    if escaped = '\n' then none
    else (splitClosing? rest).map fun (body, after) => ('\\' :: escaped :: body, after)
  | c :: rest => (splitClosing? rest).map fun (body, after) => (c :: body, after)

/-- A split loses no character. -/
theorem append_of_splitClosing? {text body after : List Char}
    (h : splitClosing? text = some (body, after)) : text = body ++ after := by
  fun_induction splitClosing? text generalizing body after <;> simp_all <;> grind

/-- What follows the closing quote is shorter than the whole text. -/
theorem splitClosing?_shorter {text body after : List Char}
    (h : splitClosing? text = some (body, after)) : after.length < text.length := by
  fun_induction splitClosing? text generalizing body after <;> simp_all <;> grind

/-- The text that a whole literal stands for, its quotes included in what is read. -/
def readWhole (literal : List Char) : Except Fault String :=
  let result : Except Stop String :=
    match literal with
    | '"' :: rest => do
      let (text, after) ← readTail 0 1 rest
      if after.rest.isEmpty then .ok (String.ofList text)
      else .error (.at .extraData after.offset)
    | _ => .error (.at .valueExpected 0)
  result.mapError (Stop.fault literal)

end Json.Literal

namespace Address

/-- Reads the steps of an address from an offset on. -/
def readSteps (address : String) (offset : Nat) (rest : List Char) : Except Fault Path :=
  match rest with
  | [] => .ok []
  | '[' :: ']' :: rest => do
    let path ← readSteps address (offset + 2) rest
    .ok (.each :: path)
  | '.' :: '"' :: rest =>
    match h : Json.Literal.splitClosing? rest with
    | none => .error (.malformed address offset)
    | some (body, after) => do
      let name ← (Json.Literal.readWhole ('"' :: body)).mapError .badName
      let path ← readSteps address (offset + 2 + body.length) after
      .ok (.field name :: path)
  | '.' :: first :: rest =>
    if Text.isIdentifierStart first then do
      let name := first :: rest.takeWhile Text.isIdentifierPart
      let path ← readSteps address (offset + 1 + name.length) (rest.dropWhile Text.isIdentifierPart)
      .ok (.field (String.ofList name) :: path)
    else .error (.malformed address offset)
  | _ => .error (.malformed address offset)
termination_by rest.length
decreasing_by
  · grind
  · have := Json.Literal.splitClosing?_shorter h
    grind
  · have : (rest.dropWhile Text.isIdentifierPart).length ≤ rest.length :=
      (List.dropWhile_suffix Text.isIdentifierPart).sublist.length_le
    grind

/-- The path that an address writes. -/
def parse (address : String) : Except Fault Path :=
  match address.toList with
  | first :: rest =>
    if first = Path.rootMark then readSteps address 1 rest else .error (.noRoot address)
  | [] => .error (.noRoot address)

end Address

end Projector
