import Projector.Query.Basic
import Projector.Query.Outputs

/-!
# Evaluating queries

Reading a field of nothing gives nothing. A product evaluates its right factor first, and an object
construction runs through the outputs of its first entry slowest. The product of two objects merges
them: a key of the right one is new or wins, except that two objects under one key are merged again.
-/

namespace Projector

namespace Json

mutual

/-- A value written over an older one: two objects are merged, anything else is replaced. -/
def overlay (known : Option Json) : Json → Json
  | .obj fields =>
    match known with
    | some (.obj older) => .obj (mergeFields older fields)
    | _ => .obj fields
  | value => value

/-- Fields written over those of an object. -/
def mergeFields (known : Fields Json) : List (String × Json) → Fields Json
  | [] => known
  | (name, value) :: rest =>
    mergeFields (Fields.put known name (overlay (Fields.get? known name) value)) rest

end

end Json

namespace Query

/-- One step into a value. -/
def stepInto (segment : Segment) (value : Json) : Outputs :=
  match segment, value with
  | .field name, .obj fields => .one ((Fields.get? fields name).getD .null)
  | .field _, .null => .one .null
  | .field name, value => .fail (.cannotIndex value name)
  | .each, .arr items => .all items
  | .each, .obj fields => .all (fields.map Prod.snd)
  | .each, value => .fail (.cannotIterate value)

/-- The product of two values. -/
def multiply (left right : Json) : Outputs :=
  match left, right with
  | .obj older, .obj fields => .one (.obj (Json.mergeFields older fields))
  | left, right => .fail (.cannotMultiply left right)

mutual

/-- The outputs of a query on a value, given the values of the variables. -/
def eval (bound : Fields Json) : Query → Json → Outputs
  | .input, value => .one value
  | .var name, _ =>
    match Fields.get? bound name with
    | some value => .one value
    | none => .fail (.unbound name)
  | .step base segment, value => (eval bound base value).bind (stepInto segment)
  | .collect body, value => (eval bound body value).collected
  | .object entries, value => evalEntries bound entries [] value
  | .times left right, value =>
    (eval bound right value).bind fun b => (eval bound left value).bind fun a => multiply a b
  | .pipe first next, value => (eval bound first value).bind (eval bound next)
  | .bind name body, value => eval ((name, value) :: bound) body value

/-- The objects that some entries construct on top of fields constructed already. -/
def evalEntries (bound : Fields Json) :
    List (String × Query) → Fields Json → Json → Outputs
  | [], fields, _ => .one (.obj fields)
  | (key, entry) :: rest, fields, value =>
    (eval bound entry value).bind fun output =>
      evalEntries bound rest (Fields.put fields key output) value

end

/-- All outputs of a query without free variables on a value. -/
def run (query : Query) (value : Json) : Except Failure (List Json) := (eval [] query value).result

end Query

end Projector
