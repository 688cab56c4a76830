import Projector.Address.Path

/-!
# Queries

The queries of this library read parts of a document and build new values from them. A query is
evaluated on a current value and has any number of outputs. Its text reads back as the same query;
a product binds closer than a pipe, and both are written without brackets.
-/

namespace Projector

/-- A query. -/
inductive Query
  /-- The current value. -/
  | input
  /-- The value of a variable. -/
  | var (name : String)
  /-- One step from each output of a query. -/
  | step (base : Query) (segment : Segment)
  /-- The list of all outputs of a query. -/
  | collect (body : Query)
  /-- An object for every choice of one output for each entry. -/
  | object (entries : List (String × Query))
  /-- The merge of objects, the entries of the right one winning. -/
  | times (left right : Query)
  /-- The second query on each output of the first. -/
  | pipe (first next : Query)
  /-- A query in which a variable stands for the current value. -/
  | bind (name : String) (body : Query)

namespace Query

/-- The steps of a path from a query. -/
def read (base : Query) (path : Path) : Query := path.foldl step base

/-- The product of some queries from left to right; a single one is itself. -/
def product : List Query → Query
  | [] => .input
  | first :: rest => rest.foldl times first

/-- The text of a variable. -/
def renderVariable (name : String) : String := "$" ++ name

/-- The text of an object construction, given its keys and the texts of its values. -/
def renderObject (entries : List (String × String)) : String :=
  "\x7b" ++ ", ".intercalate (entries.map fun (key, value) => renderKey key ++ ": " ++ value) ++
    "\x7d"

/-- The text in front of the first step from the current value: a dot, unless the step itself
starts with one. -/
def stepStart : Segment → String
  | .field _ => ""
  | .each => "."

mutual

/-- The text of a query. -/
def render : Query → String
  | .input => "."
  | .var name => renderVariable name
  | .step .input segment => stepStart segment ++ segment.render
  | .step base segment => render base ++ segment.render
  | .collect body => "[" ++ render body ++ "]"
  | .object entries => renderObject (renderEntries entries)
  | .times left right => render left ++ " * " ++ render right
  | .pipe first next => render first ++ " | " ++ render next
  | .bind name body => ". as " ++ renderVariable name ++ " | " ++ render body

/-- The texts of the values of some entries. -/
def renderEntries : List (String × Query) → List (String × String)
  | [] => []
  | (key, value) :: rest => (key, render value) :: renderEntries rest

end

mutual

/-- Whether every variable of a query is bound, given the variables bound around it. -/
def isClosed (bound : List String) : Query → Bool
  | .input => true
  | .var name => bound.contains name
  | .step base _ => isClosed bound base
  | .collect body => isClosed bound body
  | .object entries => areClosed bound entries
  | .times left right => isClosed bound left && isClosed bound right
  | .pipe first next => isClosed bound first && isClosed bound next
  | .bind name body => isClosed (name :: bound) body

/-- Whether every variable of some entries is bound. -/
def areClosed (bound : List String) : List (String × Query) → Bool
  | [] => true
  | (_, value) :: rest => isClosed bound value && areClosed bound rest

end

end Query

end Projector
