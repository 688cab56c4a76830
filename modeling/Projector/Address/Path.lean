import Projector.Json.Literal
import Projector.Text.Identifier

/-!
# Paths and their text

A path leads from a document to a part of it: by the name of a field, or to each element of a
list. An address writes a path behind a dollar sign, and an access writes it as the query that
reads it. Names are written bare when they can be and as string literals otherwise.
-/

namespace Projector

/-- One step of a path: into the field of a name, or to each element of a list. -/
inductive Segment
  | field (name : String)
  | each
  deriving DecidableEq

/-- The steps that lead from a document to a part of it. -/
abbrev Path := List Segment

/-- A name as the query language writes it: bare when it can be, quoted otherwise. -/
def renderKey (name : String) : String :=
  if Text.isBare name then name else Json.quote name

/-- The text of one step. -/
def Segment.render : Segment → String
  | .field name => "." ++ renderKey name
  | .each => "[]"

/-- Whether a step goes to each element of a list. -/
def Segment.isEach : Segment → Bool
  | .field _ => false
  | .each => true

/-- The name of a step into a field. -/
def Segment.name? : Segment → Option String
  | .field name => some name
  | .each => none

namespace Path

/-- The steps of a path, written one after the other. -/
def chain (path : Path) : String := String.join (path.map Segment.render)

/-- The mark that every address starts with. -/
def rootMark : Char := '$'

/-- The address of a path. -/
def address (path : Path) : String := String.singleton rootMark ++ chain path

/-- Whether a path goes to each element of some list. -/
def hasEach (path : Path) : Bool := path.any Segment.isEach

/-- The field names of a path, in order. -/
def names (path : Path) : List String := path.filterMap Segment.name?

/-- The query that reads a path from a base. Without a base it reads from the current value, for
which a dot stands when the path does not start with one. -/
def access (base : String) (path : Path) : String :=
  if base ≠ "" then base ++ chain path
  else
    match path with
    | [] => "."
    | .each :: _ => "." ++ chain path
    | .field _ :: _ => chain path

end Path

end Projector
