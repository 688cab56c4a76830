import Projector.Ledger
import Projector.Outline.Build
import Projector.Outline.Edit
import Projector.Outline.Display

/-!
# Editing an outline

A workspace is an outline with the ledger of its moves. A node can be moved before or after one of
its siblings, which changes no address, or into another container, which changes the addresses of
the node and of all below it and is entered in the ledger. An edit that is not possible is refused
with the reason and changes nothing.
-/

namespace Projector

/-- Why an edit is refused. -/
inductive Refusal
  /-- A node has no place before or after itself. -/
  | ontoItself (address : String)
  /-- Only children of one node have an order to change. -/
  | notSiblings (source target : String)
  /-- Nothing is shown at one of the addresses. -/
  | unknownAddress (source target : String)
  /-- The target is the node itself or below it. -/
  | intoItself (source target : String)
  /-- The root has no parent to be taken from. -/
  | rootMoved
  /-- The target is a scalar. -/
  | noContainer (target : String)
  /-- Another child of the target has the key of the node. -/
  | keyTaken (target key : String)
  deriving DecidableEq

/-- The wording of a refusal. -/
def Refusal.message : Refusal → String
  | .ontoItself address => "reorder rejected: " ++ address ++ " onto itself"
  | .notSiblings source target =>
    "reorder rejected: " ++ source ++ " and " ++ target ++ " are not siblings"
  | .unknownAddress source target =>
    "move rejected: unknown address " ++ source ++ " or " ++ target
  | .intoItself source target =>
    "move rejected: " ++ target ++ " is " ++ source ++ " or one of its descendants"
  | .rootMoved => "move rejected: the root cannot be moved"
  | .noContainer target => "move rejected: " ++ target ++ " is not a container"
  | .keyTaken target key =>
    "move rejected: " ++ target ++ " already has a field named " ++ Text.quoted key

/-- An outline with the ledger of its moves. -/
structure Workspace where
  /-- The outline as it is shown now. -/
  outline : Node
  /-- The moves that led to it. -/
  ledger : Ledger

namespace Workspace

/-- The workspace of a document in which nothing has been edited. -/
def ofDocument (document : Json) : Workspace :=
  { outline := Node.ofDocument document, ledger := .empty }

/-- The workspace with another outline. -/
def withOutline (workspace : Workspace) (change : Node → Node) : Workspace :=
  { workspace with outline := change workspace.outline }

/-- Turns the selection mark of the node at an address over, if it can be selected. -/
def toggle? (workspace : Workspace) (address : String) : Option Workspace :=
  (workspace.outline.toggle? address).map fun outline => { workspace with outline }

/-- Moves a node right before or right after one of its siblings. -/
def reorder (workspace : Workspace) (source target : String) (after : Bool) :
    Except Refusal Workspace :=
  if source = target then .error (.ontoItself source)
  else
    match workspace.outline.locateParent? source, workspace.outline.locateParent? target with
    | some (parent, sourceIndex), some (targetParent, targetIndex) =>
      if parent.path = targetParent.path then
        let gap := if sourceIndex < targetIndex then targetIndex - 1 else targetIndex
        let position := if after then gap + 1 else gap
        let change := Node.rearrange fun children => Node.shift children sourceIndex position
        .ok (workspace.withOutline (Node.updateAt change (Path.names parent.path)))
      else .error (.notSiblings source target)
    | _, _ => .error (.notSiblings source target)

/-- Why a node does not move: it is refused, or an address cannot be read. -/
inductive MoveFailure
  | refused (refusal : Refusal)
  | badAddress (fault : Address.Fault)
  deriving DecidableEq

/-- A move that nothing stands against. -/
structure Plan where
  /-- The node that is about to move. -/
  source : Located
  /-- The parent it is taken from. -/
  parent : Located
  /-- Its position among the children of that parent. -/
  index : Nat
  /-- The container it moves into. -/
  target : Located

/-- Examines a move of a node that is found at one address into one that is found at another. -/
def planBetween (workspace : Workspace) (source target : String) (node container : Located) :
    Except Refusal Plan :=
  match workspace.outline.locateParent? source with
  | none => .error .rootMoved
  | some (parent, index) =>
    if !container.node.label.kind.isContainer then .error (.noContainer target)
    else if container.node.children.any fun child =>
        child.key = node.node.key && container.childPath child.key ≠ node.path then
      .error (.keyTaken target node.node.key)
    else .ok { source := node, parent, index, target := container }

/-- Examines a move of the node at one address into the container at another. -/
def plan (workspace : Workspace) (source target : String) : Except MoveFailure Plan :=
  match workspace.outline.locate? source, workspace.outline.locate? target with
  | some node, some container => do
    if ← (Address.covers source target).mapError .badAddress then
      .error (.refused (.intoItself source target))
    else (workspace.planBetween source target node container).mapError .refused
  | _, _ => .error (.refused (.unknownAddress source target))

/-- How the ledger sees a planned move. -/
def Plan.move (plan : Plan) : Ledger.Move :=
  { source := plan.source.address
    parent := plan.target.address
    key := plan.source.node.key
    intoArray := plan.target.node.label.kind.isArray }

/-- Moves the node of a plan behind the children of its target, where it is shown at an address. -/
def Plan.apply (plan : Plan) (address : String) (outline : Node) : Node :=
  let detached := outline.updateAt (Node.detach plan.index) (Path.names plan.parent.path)
  let moved := Node.readdress address plan.source.node
  detached.updateAt (Node.attach moved) (Path.names plan.target.path)

/-- Moves the node at one address, with all below it, behind the children of the container at
another, and gives the record of the move. -/
def moveInto (workspace : Workspace) (source target : String) :
    Except MoveFailure (Record × Workspace) := do
  let plan ← workspace.plan source target
  let (record, ledger) ← (workspace.ledger.relocate plan.move).mapError .badAddress
  .ok (record, { outline := plan.apply record.address workspace.outline, ledger })

end Workspace

end Projector
