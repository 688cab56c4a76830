import Projector.Workspace

/-!
# The selection

The selection is never stored in an outline but derived from it: the chosen nodes in the order in
which the outline shows them, each with the address it is shown at, the address its value lives at
in the document, and where every list on the way to it lives.
-/

namespace Projector

/-- A selected field. -/
structure Entry where
  /-- The address the field is shown at, which says where it appears in the output. -/
  display : String
  /-- The address in the document that the value is read from. -/
  source : String
  /-- The key of the selected node. -/
  field : String
  /-- The place among all selected fields. -/
  order : Int
  /-- Where each list on the way lives in the document, from the outside in. When it is missing a
  list is read from where it is shown. -/
  arrays : List String

/-- Whether a field is read from elsewhere than where it is shown. -/
def Entry.isRelocated (entry : Entry) : Bool := decide (entry.source ≠ entry.display)

namespace Path

/-- The paths of the lists that a path goes into, from the outside in. -/
def lists : (base : Path) → Path → List Path
  | _, [] => []
  | base, .each :: rest => base :: lists (base ++ [.each]) rest
  | base, .field name :: rest => lists (base ++ [.field name]) rest

end Path

namespace Node

/-- The entry of a chosen node, given where shown addresses live in the document. -/
def entry (resolve : String → Except Address.Fault String) (found : Located) (order : Nat) :
    Except Address.Fault Entry := do
  let source ← resolve found.address
  let path ← Address.parse found.address
  let arrays ← (Path.lists [] path).mapM fun list => resolve (Path.address list)
  .ok { display := found.address, source, field := found.node.key, order, arrays }

/-- The entries of chosen nodes, numbered from a place on. -/
def entriesFrom (resolve : String → Except Address.Fault String) (order : Nat) :
    List Located → Except Address.Fault (List Entry)
  | [] => .ok []
  | found :: rest => do
    let first ← entry resolve found order
    let others ← entriesFrom resolve (order + 1) rest
    .ok (first :: others)

/-- The selection of an outline, given where shown addresses live in the document. -/
def selection (root : Node) (resolve : String → Except Address.Fault String) :
    Except Address.Fault (List Entry) :=
  entriesFrom resolve 0 (root.located.filter fun found => found.node.isChosen)

/-- The selection of an outline in which nothing was moved. -/
def plainSelection (root : Node) : Except Address.Fault (List Entry) := root.selection .ok

end Node

/-- The selection of a workspace. -/
def Workspace.selection (workspace : Workspace) : Except Address.Fault (List Entry) :=
  workspace.outline.selection workspace.ledger.resolve

end Projector
