import Projector.Query.Failure

/-!
# Outputs of a query

A query yields its outputs one after the other and may fail after some of them. The outputs before
a failure matter although they are discarded in the end: what is done with them can fail earlier.
-/

namespace Projector.Query

/-- What a query yields. -/
structure Outputs where
  /-- The outputs in the order in which they come. -/
  values : List Json
  /-- The failure that ended them, if one did. -/
  failure : Option Failure

namespace Outputs

/-- A single output. -/
def one (value : Json) : Outputs := { values := [value], failure := none }

/-- Some outputs and no failure. -/
def all (values : List Json) : Outputs := { values, failure := none }

/-- A failure before any output. -/
def fail (failure : Failure) : Outputs := { values := [], failure := some failure }

/-- Puts outputs in front of others, which are only reached when the first did not fail. -/
def append (first next : Outputs) : Outputs :=
  match first.failure with
  | some _ => first
  | none => { values := first.values ++ next.values, failure := next.failure }

/-- Goes on with each of some values in turn until one fails. -/
def ofEach (next : Json → Outputs) (last : Option Failure) : List Json → Outputs
  | [] => { values := [], failure := last }
  | value :: rest => append (next value) (ofEach next last rest)

/-- Goes on with each output in turn. -/
def bind (outputs : Outputs) (next : Json → Outputs) : Outputs :=
  ofEach next outputs.failure outputs.values

/-- All outputs as one list. -/
def collected (outputs : Outputs) : Outputs :=
  match outputs.failure with
  | some failure => fail failure
  | none => one (.arr outputs.values)

/-- All outputs, unless there was a failure. -/
def result (outputs : Outputs) : Except Failure (List Json) :=
  match outputs.failure with
  | some failure => .error failure
  | none => .ok outputs.values

end Outputs

end Projector.Query
