import Projector.Address.Path
import Projector.Json.Basic

/-!
# Outlines

An outline shows the shape of a document as a tree: a node for every field of an object, and for a
list of objects the fields of its first element, which stand for those of every element. Every node
stores the address it is shown at, and an edit that moves a node writes new addresses into it and
into all below it. Each node also remembers the path it was built from, which no edit changes: it
tells the nodes of an outline apart whatever becomes of their addresses.
-/

namespace Projector

/-- What a node stands for: an object, a list of so many elements, or a scalar value. -/
inductive Kind
  | object
  | array (arity : Nat)
  | leaf (value : Json)

namespace Kind

/-- The word for a kind. -/
def name : Kind → String
  | .object => "object"
  | .array _ => "array"
  | .leaf _ => "leaf"

/-- How many elements a list has; nothing else has any. -/
def arity : Kind → Nat
  | .array arity => arity
  | _ => 0

/-- The value of a scalar; containers have none of their own. -/
def value : Kind → Json
  | .leaf value => value
  | _ => .null

/-- Lists show the fields of their elements. -/
def isArray : Kind → Bool
  | .array _ => true
  | _ => false

/-- Objects and lists hold fields. -/
def isContainer : Kind → Bool
  | .leaf _ => false
  | _ => true

end Kind

/-- All that an outline knows about a node besides its children. -/
structure Label where
  /-- The name the node is reached under. -/
  key : String
  /-- The address the node is shown at. -/
  address : String
  /-- What the node stands for. -/
  kind : Kind
  /-- Whether its children are shown. -/
  expanded : Bool
  /-- Whether it is marked as selected. -/
  selected : Bool
  /-- The path in the document that the node was built from. -/
  origin : Path

/-- A node of an outline with the nodes below it. -/
inductive Node
  | mk (label : Label) (children : List Node)

namespace Node

/-- What is known about a node itself. -/
def label : Node → Label
  | .mk label _ => label

/-- The nodes directly below, in the order shown. -/
def children : Node → List Node
  | .mk _ children => children

/-- The name a node is reached under. -/
def key (node : Node) : String := node.label.key

/-- Scalars and lists without fields of elements can be selected. -/
def isSelectable (node : Node) : Bool :=
  match node.label.kind with
  | .leaf _ => true
  | .array _ => node.children.isEmpty
  | .object => false

/-- Whether a node contributes to the selection. -/
def isChosen (node : Node) : Bool := node.label.selected && node.isSelectable

/-- The path that the children of a node start from: those of a list are the fields of each of
its elements. -/
def inner (label : Label) (path : Path) : Path :=
  if label.kind.isArray then path ++ [.each] else path

mutual

/-- A node at a path and all the nodes below it with their paths, each before its children. -/
def walk (path : Path) : Node → List (Path × Node)
  | .mk label children => (path, .mk label children) :: walkAll (inner label path) children

/-- The nodes of a list of children and all below them. -/
def walkAll (base : Path) : List Node → List (Path × Node)
  | [] => []
  | child :: rest => walk (base ++ [.field child.key]) child ++ walkAll base rest

end

mutual

/-- Whether a node or one below it contributes to the selection. -/
def hasSelection : Node → Bool
  | .mk label children => (Node.mk label children).isChosen || anySelection children

/-- Whether one of some nodes or one below them contributes to the selection. -/
def anySelection : List Node → Bool
  | [] => false
  | child :: rest => hasSelection child || anySelection rest

end

end Node

/-- A node together with its place. -/
structure Located where
  /-- The path that leads to the node from the root, which tells it from every other node. -/
  path : Path
  /-- The node with all below it. -/
  node : Node

namespace Located

/-- The address of a located node. -/
def address (located : Located) : String := located.node.label.address

/-- The path of the child under a key. -/
def childPath (located : Located) (key : String) : Path :=
  Node.inner located.node.label located.path ++ [.field key]

end Located

namespace Node

/-- All nodes of an outline with their paths, each before its children. -/
def located (root : Node) : List Located := (walk [] root).map fun (path, node) => ⟨path, node⟩

/-- The node at an address, if one is there. -/
def locate? (root : Node) (address : String) : Option Located :=
  root.located.find? fun located => decide (located.address = address)

/-- The node whose child is at an address, and the position of that child. -/
def locateParent? (root : Node) (address : String) : Option (Located × Nat) :=
  root.located.findSome? fun parent =>
    let found := parent.node.children.findIdx? fun child => decide (child.label.address = address)
    found.map fun index => (parent, index)

end Node

end Projector
