import Projector.Json.Source
import Projector.Notice
import Projector.Query.Eval
import Projector.Query.Parser
import Projector.Query.Settled

/-!
# The query engine

The engine compiles query texts, keeps the programs used most recently, and runs them. A program
found among those kept becomes the most recent; a new one takes the place of the least recent one
when there is no room. Every program compiled has a number of its own, so it can be told whether
two compilations gave the same program.
-/

namespace Projector

/-- A language of queries: which texts write a query, and what a query gives for a value. What a
text gives depends on nothing but the text, and what a query gives on nothing but the value. -/
structure QueryLanguage where
  /-- The queries that texts are compiled to. -/
  Compiled : Type
  /-- The query that a text writes, or the complaint about the text. -/
  compile : String → Except String Compiled
  /-- All outputs of a query on a value, or the complaint that ended it. -/
  run : Compiled → Json → Except String (List Json)

/-- The language of the expressions that are synthesized, with the numbers of outputs settled. It
does not say what is wrong with a text. -/
def Query.language : QueryLanguage where
  Compiled := Query
  compile := fun text =>
    match Query.compile text with
    | some query => .ok query
    | none => .error ""
  run := fun query value =>
    match query.run value with
    | .ok outputs => .ok (outputs.map Json.settled)
    | .error failure => .error failure.message

/-- Why a query has no result. -/
inductive QueryFault
  /-- The document cannot be read. -/
  | badDocument (fault : Json.SourceFault)
  /-- The text is no query. -/
  | badExpression (complaint : String)
  /-- The query fails on the document. -/
  | failed (complaint : String)

/-- The wording of why a query has no result. -/
def QueryFault.message : QueryFault → String
  | .badDocument fault => "json error: " ++ fault.message
  | .badExpression complaint => "parse error: " ++ complaint
  | .failed complaint => complaint

/-- A compiled query. -/
structure Program (language : QueryLanguage := Query.language) where
  /-- How many programs the engine had compiled before. -/
  number : Nat
  /-- What the text of the program says. -/
  query : language.Compiled

/-- The outputs of a program on a value. -/
def Program.run {language : QueryLanguage} (program : Program language) (value : Json) :
    Except QueryFault (List Json) :=
  (language.run program.query value).mapError .failed

/-- A program that is kept, with the text it was compiled from. -/
structure Kept (language : QueryLanguage := Query.language) where
  /-- The text. -/
  expression : String
  /-- The program. -/
  program : Program language

/-- An engine with the programs it keeps, the least recently used first. -/
structure Engine (language : QueryLanguage := Query.language) where
  /-- How many programs there is room for. -/
  capacity : Nat
  /-- The programs kept. -/
  kept : List (Kept language)
  /-- How many programs have been compiled and kept so far. -/
  compiled : Nat

namespace Engine

variable {language : QueryLanguage}

/-- Why the engine gives no answer. -/
inductive Fault
  /-- The query has no result. -/
  | query (fault : QueryFault)
  /-- There is no room for even one program. -/
  | noRoom

/-- The wording of why the engine gives no answer. -/
def Fault.message : Fault → String
  | .query fault => fault.message
  | .noRoom => "value too large"

/-- A negative capacity. -/
structure BadCapacity where
  capacity : Int
  deriving DecidableEq

/-- The wording of the refusal of a negative capacity. -/
def BadCapacity.message (_ : BadCapacity) : String := "maxsize must be non-negative"

/-- How many programs an engine keeps when nothing is said. -/
def standardCapacity : Nat := 128

/-- An engine that keeps nothing yet. -/
def empty (capacity : Nat) : Engine language := { capacity, kept := [], compiled := 0 }

/-- An engine of a given capacity. -/
def make (capacity : Int) : Except BadCapacity (Engine language) :=
  if capacity < 0 then .error ⟨capacity⟩ else .ok (empty capacity.toNat)

/-- How many programs an engine keeps. -/
def size (engine : Engine language) : Nat := engine.kept.length

/-- What the engine answers, with the engine after it and what it reports. -/
structure Reply (α : Type) (language : QueryLanguage := Query.language) where
  outcome : Except Fault α
  engine : Engine language
  notices : List Notice

/-- The program kept for a text. -/
def find? (engine : Engine language) (expression : String) : Option (Kept language) :=
  engine.kept.find? fun kept => decide (kept.expression = expression)

/-- Makes a program that is kept the most recently used one. -/
def refresh (engine : Engine language) (kept : Kept language) : Engine language :=
  let others := engine.kept.eraseP fun other => decide (other.expression = kept.expression)
  { engine with kept := others ++ [kept] }

/-- Keeps a new program, giving up the least recently used ones that there is no room for. -/
def keep (engine : Engine language) (kept : Kept language) : Engine language :=
  let surplus := engine.kept.length + 1 - engine.capacity
  { engine with kept := engine.kept.drop surplus ++ [kept], compiled := engine.compiled + 1 }

/-- Compiles a text, unless its program is kept. -/
def compile (engine : Engine language) (expression : String) :
    Reply (Program language) language :=
  match engine.find? expression with
  | some kept => { outcome := .ok kept.program, engine := engine.refresh kept, notices := [] }
  | none =>
    let notices := [Notice.compiling expression]
    match language.compile expression with
    | .error complaint =>
      { outcome := .error (.query (.badExpression complaint)), engine, notices }
    | .ok query =>
      if engine.capacity = 0 then { outcome := .error .noRoom, engine, notices }
      else
        let program : Program language := { number := engine.compiled, query }
        { outcome := .ok program, engine := engine.keep { expression, program }, notices }

/-- All outputs of a query text on a value. -/
def run (engine : Engine language) (expression : String) (value : Json) :
    Reply (List Json) language :=
  let reply := engine.compile expression
  { reply with
    outcome := do
      let program ← reply.outcome
      (program.run value).mapError .query }

/-- The outputs of a query as one value: a single output is itself, any other number of outputs
makes a list. -/
def joined : List Json → Json
  | [output] => output
  | outputs => .arr outputs

/-- The outputs of a query text on a document, printed over several lines. The document is read
before the text is compiled. -/
def execute (engine : Engine language) (expression : String) (document : Json.Source) :
    Reply String language :=
  match document.read with
  | .error fault => { outcome := .error (.query (.badDocument fault)), engine, notices := [] }
  | .ok value =>
    let reply := engine.run expression value
    { reply with outcome := reply.outcome.map fun outputs => (joined outputs).indentedText }

end Engine

end Projector
