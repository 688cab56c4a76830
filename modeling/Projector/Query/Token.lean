import Projector.Json.Reader
import Projector.Text.Identifier

/-!
# Tokens of query texts

A query text is a sequence of tokens with blanks between them. A dot and the identifier right
behind it are one token, and so are a dollar sign and its identifier.
-/

namespace Projector.Query

/-- The smallest parts of a query text. -/
inductive Token
  | dot
  | field (name : String)
  | var (name : String)
  | name (name : String)
  | literal (text : String)
  | bar
  | star
  | colon
  | comma
  | openList
  | closeList
  | openObject
  | closeObject
  deriving DecidableEq

namespace Token

/-- The token of a punctuation mark. -/
def ofMark? (c : Char) : Option Token :=
  if c = '|' then some bar
  else if c = '*' then some star
  else if c = ':' then some colon
  else if c = ',' then some comma
  else if c = '[' then some openList
  else if c = ']' then some closeList
  else if c = '{' then some openObject
  else if c = '}' then some closeObject
  else none

end Token

/-- The identifier that starts here, and what follows it. -/
def takeIdentifier? (text : List Char) :
    Option (String × { rest : List Char // rest.length < text.length }) :=
  match text with
  | [] => none
  | first :: rest =>
    if Text.isIdentifierStart first then
      let name := first :: rest.takeWhile Text.isIdentifierPart
      let after := rest.dropWhile Text.isIdentifierPart
      some (String.ofList name,
        ⟨after, Nat.lt_succ_of_le (List.dropWhile_suffix Text.isIdentifierPart).sublist.length_le⟩)
    else none

/-- The tokens of a text, if it has no other parts. Two dots in a row are no tokens of this
language. -/
def scan (text : List Char) : Option (List Token) :=
  match text with
  | [] => some []
  | c :: rest =>
    if Json.isBlank c then scan rest
    else if c = '"' then
      match h : Json.Literal.readTail 0 1 rest with
      | .error _ => none
      | .ok (value, after) =>
        have := Json.Literal.readTail_shorter h
        (scan after.rest).map (Token.literal (String.ofList value) :: ·)
    else if c = '.' then
      match takeIdentifier? rest with
      | some (name, ⟨after, _⟩) => (scan after).map (Token.field name :: ·)
      | none => if rest.head? = some '.' then none else (scan rest).map (Token.dot :: ·)
    else if c = '$' then
      match takeIdentifier? rest with
      | some (name, ⟨after, _⟩) => (scan after).map (Token.var name :: ·)
      | none => none
    else
      match takeIdentifier? (c :: rest) with
      | some (name, ⟨after, _⟩) => (scan after).map (Token.name name :: ·)
      | none =>
        match Token.ofMark? c with
        | some mark => (scan rest).map (mark :: ·)
        | none => none
termination_by text.length
decreasing_by all_goals grind

end Projector.Query
