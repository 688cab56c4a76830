import Projector.Documents
import Projector.Engine
import Projector.Json.Writing
import Projector.Synthesis.Emit

/-!
# Editing sessions

A session edits one document at a time. Every edit that changes something is followed by the
selection and the expression it leads to. Running the expression is a request of its own: requests
have ascending numbers, and an answer is only taken while no later request was made and no other
document was switched to. So an answer that comes late never replaces a newer one.

Requests are about the text of the document, which is written when the document is switched to. A
document that cannot be written is noticed half-way: the session shows its outline by then, but the
text, the selection and the expression are still those of the document before, and so are the ledger
and the outline that moves are made in.
-/

namespace Projector

/-- A request to run an expression on a document. -/
structure Ticket where
  /-- The number of the request. -/
  token : Nat
  /-- The text of the query. -/
  expression : String
  /-- The text of the document. -/
  document : String

/-- What became of a request. -/
structure Answer where
  /-- The number of the request. -/
  token : Nat
  /-- The output, which is empty after an error. -/
  result : String
  /-- The error, which is empty when there was none. -/
  error : String
  /-- Whether the session took the answer. -/
  applied : Bool

/-- Whether an answer is no error. -/
def Answer.isOk (answer : Answer) : Bool := answer.error.isEmpty

/-- An editing session. -/
structure Session where
  /-- The document that is edited. -/
  document : Json
  /-- The text that requests are about. -/
  raw : String
  /-- The name of the document, if it has one. -/
  filename : Option String
  /-- The outline of the document with its moves. -/
  workspace : Workspace
  /-- The outline that moves are still made in when a switch of documents stopped half-way. -/
  former : Option Node
  /-- The options of synthesis. -/
  config : Config
  /-- The selection of the outline. -/
  selection : List Entry
  /-- The expression of the selection. -/
  expression : String
  /-- The engine that runs expressions. -/
  engine : Engine
  /-- The number of the latest request, or of the latest switch of documents. -/
  latest : Nat
  /-- The output of the latest answer that was taken. -/
  result : String
  /-- The error of the latest answer that was taken, or of a document that was not loaded. -/
  error : String

namespace Session

/-- Why a session cannot do what it is asked. -/
inductive Fault
  /-- An address cannot be read. -/
  | address (fault : Address.Fault)
  /-- A document cannot be asked for. -/
  | document (failure : Documents.Failure)
  /-- The engine gives no answer. -/
  | engine (fault : Engine.Fault)
  /-- A document cannot be written. -/
  | writing (fault : Json.WritingFault)

/-- The wording of why a session cannot do what it is asked. -/
def Fault.message : Fault → String
  | .address fault => fault.message
  | .document failure => failure.message
  | .engine fault => fault.message
  | .writing fault => fault.message

/-- What a session answers to an event, with the session after it and what it reports. -/
structure Reply (α : Type) where
  outcome : Except Fault α
  session : Session
  notices : List Notice

/-- The answer to an event after which the selection of the outline, and from it the expression, is
derived again. -/
def afterwards {α : Type} (session : Session) (value : α) (notices : List Notice) : Reply α :=
  match session.workspace.selection with
  | .error fault => { outcome := .error (.address fault), session, notices }
  | .ok selection =>
    let session := { session with selection }
    match Synthesis.expression session.config selection with
    | .error fault => { outcome := .error (.address fault), session, notices }
    | .ok expression => { outcome := .ok value, session := { session with expression }, notices }

/-- The answer to an event that changes nothing. -/
def unchanged {α : Type} (session : Session) (value : α) (notices : List Notice) : Reply α :=
  { outcome := .ok value, session, notices }

/-- Takes a document over, with a fresh outline of it and no moves. A document that cannot be
written is taken over half-way. -/
def load (session : Session) (document : Json) (filename : Option String)
    (notices : List Notice) : Reply Unit :=
  let outline := Node.ofDocument document
  match document.written with
  | .error fault =>
    { outcome := .error (.writing fault)
      session := { session with
        document
        workspace := { session.workspace with outline }
        former := some (session.former.getD session.workspace.outline) }
      notices }
  | .ok raw =>
    let workspace : Workspace := { outline, ledger := .empty }
    { session with document, raw, filename, workspace, former := none }.afterwards () notices

/-- A new session on a document. -/
def start (document : Json) (config : Config) (engine : Engine) (filename : Option String) :
    Except Fault Session :=
  let blank : Session :=
    { document, raw := "", filename, workspace := .ofDocument document, former := none, config
      selection := [], expression := "", engine, latest := 0, result := "", error := "" }
  let reply := blank.load document filename []
  reply.outcome.map fun _ => reply.session

/-! ## Edits -/

/-- Turns the selection mark of the node at an address over; says whether it can be selected. -/
def toggle (session : Session) (address : String) : Reply Bool :=
  match session.workspace.toggle? address with
  | none => session.unchanged false []
  | some workspace => { session with workspace }.afterwards true []

/-- What moves are made in, with their ledger. -/
def edited (session : Session) : Workspace :=
  { session.workspace with outline := session.former.getD session.workspace.outline }

/-- The session after a move. -/
def withEdited (session : Session) (edited : Workspace) : Session :=
  match session.former with
  | none => { session with workspace := edited }
  | some _ =>
    { session with
      workspace := { session.workspace with ledger := edited.ledger }
      former := some edited.outline }

/-- Moves a node right before or right after one of its siblings; says whether it did. -/
def reorder (session : Session) (source target : String) (after : Bool) : Reply Bool :=
  match session.edited.reorder source target after with
  | .error refusal => session.unchanged false [.refused refusal]
  | .ok edited => (session.withEdited edited).afterwards true []

/-- Moves a node into another container; says whether it did. -/
def moveInto (session : Session) (source target : String) : Reply Bool :=
  match session.edited.moveInto source target with
  | .error (.refused refusal) => session.unchanged false [.refused refusal]
  | .error (.badAddress fault) =>
    { outcome := .error (.address fault), session, notices := [] }
  | .ok (record, edited) =>
    (session.withEdited edited).afterwards true [.moved source record.address]

/-- Turns the compression of paths on or off. -/
def setCompression (session : Session) (enabled : Bool) : Reply Unit :=
  { session with config := session.config.withCompression enabled }.afterwards () []

/-- Changes what the outline shows as expanded. -/
def display (session : Session) (change : Node → Node) : Reply Unit :=
  { session with workspace := session.workspace.withOutline change }.unchanged () []

/-- Shows every node expanded. -/
def expandAll (session : Session) : Reply Unit := session.display Node.expandAll

/-- Shows every node but the root collapsed. -/
def collapseAll (session : Session) : Reply Unit := session.display Node.collapseAll

/-- Shows only the branches with selected nodes expanded. -/
def collapseUnselected (session : Session) : Reply Unit :=
  session.display Node.collapseUnselected

/-- The address in the document of what is shown at an address. -/
def resolve (session : Session) (address : String) : Except Address.Fault String :=
  session.workspace.ledger.resolve address

/-! ## Documents -/

/-- Replaces the document and everything derived from it. Requests made before count as outdated
from then on. -/
def switchDocument (session : Session) (document : Json) (filename : Option String) :
    Reply Unit :=
  { session with latest := session.latest + 1 }.load document filename [.switching filename]

/-- Switches to a document of a folder unless it is the current one; says whether it did. Why the
document cannot be loaded becomes the error of the session. -/
def loadFile (session : Session) (disk : Tree) (folder name : String) : Reply Bool :=
  if session.filename = some name then session.unchanged false []
  else
    match Documents.load disk folder name with
    | (.error (.document fault), notices) =>
      { session with error := fault.message }.unchanged false notices
    | (.error failure, notices) => { outcome := .error (.document failure), session, notices }
    | (.ok document, notices) =>
      let reply := session.switchDocument document (some name)
      { outcome := reply.outcome.map fun _ => true
        session := reply.session
        notices := notices ++ reply.notices }

/-! ## Requests -/

/-- Makes a request to run the current expression. -/
def submit (session : Session) : Ticket × Session :=
  let latest := session.latest + 1
  ({ token := latest, expression := session.expression, document := session.raw },
    { session with latest })

/-- Takes the answer to a request, an output or an error, unless it is outdated. -/
def complete (session : Session) (ticket : Ticket) (result error : Option String) :
    Reply Answer :=
  let answer : Answer :=
    { token := ticket.token, result := result.getD "", error := error.getD "", applied := false }
  if ticket.token = session.latest then
    { session with result := answer.result, error := answer.error }.unchanged
      { answer with applied := true } []
  else session.unchanged answer [.droppedStale ticket.token session.latest]

/-- Runs a request on the engine of the session and takes the answer. -/
def respond (session : Session) (ticket : Ticket) : Reply Answer :=
  let run := session.engine.execute ticket.expression (.text ticket.document)
  let session := { session with engine := run.engine }
  let reply : Reply Answer :=
    match run.outcome with
    | .ok output => session.complete ticket (some output) none
    | .error (.query fault) => session.complete ticket none (some fault.message)
    | .error fault => { outcome := .error (.engine fault), session, notices := [] }
  { reply with notices := run.notices ++ reply.notices }

/-- Runs the current expression and takes the answer. -/
def execute (session : Session) : Reply Answer :=
  let (ticket, session) := session.submit
  session.respond ticket

end Session

end Projector
