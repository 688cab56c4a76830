import Projector.Query.Basic
import Projector.Query.Token

/-!
# Parsing queries

The grammar, from the loosest to the closest binding: a pipe, in front of which a variable may be
bound to the current value; a product; a term followed by steps. Every rule takes at least one
token, which is why parsing ends.
-/

namespace Projector.Query

/-- What a rule takes from some tokens, and the tokens it leaves, fewer than there were. -/
abbrev Taken (α : Type) (tokens : List Token) : Type :=
  { part : α × List Token // part.2.length < tokens.length }

/-- What a rule makes of some tokens, and the tokens it leaves, which may be all of them. -/
abbrev Extended (α : Type) (tokens : List Token) : Type :=
  { part : α × List Token // part.2.length ≤ tokens.length }

/-- The word that binds a variable. -/
def bindingWord : String := "as"

/-- The name that cannot be bound. -/
def reservedVariable : String := "__loc__"

/-- Takes all steps that follow a query. -/
def takeSteps (base : Query) (tokens : List Token) : Extended Query tokens :=
  match tokens with
  | .field name :: rest =>
    let ⟨(query, after), hafter⟩ := takeSteps (.step base (.field name)) rest
    ⟨(query, after), Nat.le_succ_of_le hafter⟩
  | .dot :: .literal name :: rest =>
    let ⟨(query, after), hafter⟩ := takeSteps (.step base (.field name)) rest
    ⟨(query, after), Nat.le_succ_of_le (Nat.le_succ_of_le hafter)⟩
  | .openList :: .closeList :: rest =>
    let ⟨(query, after), hafter⟩ := takeSteps (.step base .each) rest
    ⟨(query, after), Nat.le_succ_of_le (Nat.le_succ_of_le hafter)⟩
  | tokens => ⟨(base, tokens), Nat.le_refl _⟩

/-- A term with all steps that follow it. -/
def withSteps {tokens : List Token} (term : Taken Query tokens) : Taken Query tokens :=
  let ⟨(query, after), _⟩ := takeSteps term.val.1 term.val.2
  ⟨(query, after), by grind⟩

/-- Takes a key and the colon behind it. -/
def takeKey (tokens : List Token) : Option (Taken String tokens) :=
  match tokens with
  | .name key :: .colon :: rest => some ⟨(key, rest), by grind⟩
  | .literal key :: .colon :: rest => some ⟨(key, rest), by grind⟩
  | _ => none

mutual

/-- Takes a pipe. -/
def takePipe (tokens : List Token) : Option (Taken Query tokens) :=
  match tokens with
  | .dot :: .name word :: .var name :: .bar :: rest =>
    if word = bindingWord ∧ name ≠ reservedVariable then do
      let ⟨(body, after), _⟩ ← takePipe rest
      some ⟨(.bind name body, after), by grind⟩
    else none
  | tokens => do
    let ⟨(first, after), _⟩ ← takeProduct tokens
    match h : after with
    | .bar :: rest => do
      let ⟨(next, last), _⟩ ← takePipe rest
      some ⟨(.pipe first next, last), by grind⟩
    | _ => some ⟨(first, after), by grind⟩
termination_by (tokens.length, 4)
decreasing_by all_goals grind

/-- Takes a product. -/
def takeProduct (tokens : List Token) : Option (Taken Query tokens) := do
  let ⟨(first, after), _⟩ ← takeTerm tokens
  let ⟨(query, last), _⟩ ← takeFactors first after
  some ⟨(query, last), by grind⟩
termination_by (tokens.length, 3)
decreasing_by all_goals grind

/-- Takes all factors that follow a product. -/
def takeFactors (left : Query) (tokens : List Token) : Option (Extended Query tokens) :=
  match tokens with
  | .star :: rest => do
    let ⟨(right, after), _⟩ ← takeTerm rest
    let ⟨(query, last), _⟩ ← takeFactors (.times left right) after
    some ⟨(query, last), by grind⟩
  | tokens => some ⟨(left, tokens), Nat.le_refl _⟩
termination_by (tokens.length, 2)
decreasing_by all_goals grind

/-- Takes a term with the steps that follow it. -/
def takeTerm (tokens : List Token) : Option (Taken Query tokens) :=
  match tokens with
  | .dot :: .literal name :: rest => some (withSteps ⟨(.step .input (.field name), rest), by grind⟩)
  | .dot :: rest => some (withSteps ⟨(.input, rest), by grind⟩)
  | .field name :: rest => some (withSteps ⟨(.step .input (.field name), rest), by grind⟩)
  | .var name :: rest => some (withSteps ⟨(.var name, rest), by grind⟩)
  | .openList :: rest => do
    let ⟨(body, after), _⟩ ← takePipe rest
    match h : after with
    | .closeList :: last => some (withSteps ⟨(.collect body, last), by grind⟩)
    | _ => none
  | .openObject :: .closeObject :: rest => some (withSteps ⟨(.object [], rest), by grind⟩)
  | .openObject :: rest => do
    let ⟨(entries, after), _⟩ ← takeEntries rest
    some (withSteps ⟨(.object entries, after), by grind⟩)
  | _ => none
termination_by (tokens.length, 1)
decreasing_by all_goals grind

/-- Takes the entries of an object construction up to and including its closing brace. -/
def takeEntries (tokens : List Token) : Option (Taken (List (String × Query)) tokens) := do
  let ⟨(key, rest), _⟩ ← takeKey tokens
  let ⟨(value, after), _⟩ ← takeTerm rest
  match h : after with
  | .closeObject :: last => some ⟨([(key, value)], last), by grind⟩
  | .comma :: more => do
    let ⟨(entries, last), _⟩ ← takeEntries more
    some ⟨((key, value) :: entries, last), by grind⟩
  | _ => none
termination_by (tokens.length, 1)
decreasing_by all_goals grind

end

/-- The query that a text writes, if it writes one. -/
def parse (text : String) : Option Query := do
  let tokens ← scan text.toList
  let ⟨(query, rest), _⟩ ← takePipe tokens
  if rest.isEmpty then some query else none

/-- The query that a text writes, if all its variables are bound. -/
def compile (text : String) : Option Query := do
  let query ← parse text
  if query.isClosed [] then some query else none

end Projector.Query
