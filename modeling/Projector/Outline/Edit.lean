import Projector.Address.Arithmetic
import Projector.Outline.Node

/-!
# Changing an outline in one place

A place in an outline is the keys that lead to it from the root, because siblings have different
keys. Every operation here changes the node at such a place and leaves all others as they are.
-/

namespace Projector.Node

/-- Changes the node that some keys lead to. -/
def updateAt (change : Node → Node) : (keys : List String) → Node → Node
  | [], node => change node
  | key :: keys, .mk label children =>
    .mk label
      (children.map fun child => if child.key = key then updateAt change keys child else child)

/-- Changes what is known about a node itself. -/
def relabel (change : Label → Label) : Node → Node
  | .mk label children => .mk (change label) children

/-- Changes the list of children of a node. -/
def rearrange (change : List Node → List Node) : Node → Node
  | .mk label children => .mk label (change children)

/-- Moves the item at one position of a list to another position of what is left. -/
def shift {α : Type} (items : List α) (source target : Nat) : List α :=
  match items[source]? with
  | none => items
  | some item => (items.eraseIdx source).insertIdx target item

/-- Takes the child at a position off a node. -/
def detach (index : Nat) : Node → Node := rearrange fun children => children.eraseIdx index

mutual

/-- Writes the address that a node is shown at from now on into it, and into all below it theirs. -/
def readdress (address : String) : Node → Node
  | .mk label children =>
    .mk { label with address } (readdressAll address label.kind.isArray children)

/-- Writes their addresses into the children of a node at an address, and into all below them. -/
def readdressAll (parent : String) (inArray : Bool) : List Node → List Node
  | [] => []
  | child :: rest =>
    readdress (Address.child parent child.key inArray) child :: readdressAll parent inArray rest

end

/-- Puts a child behind the others of a container, which is shown expanded from then on and can no
longer be selected itself. -/
def attach (child : Node) : Node → Node
  | .mk label children =>
    .mk { label with expanded := true, selected := false } (children ++ [child])

/-- Sets the selection mark of a node. -/
def setSelected (selected : Bool) : Node → Node :=
  relabel fun label => { label with selected }

/-- Turns the selection mark of the node at an address over, if it can be selected. -/
def toggle? (root : Node) (address : String) : Option Node :=
  match root.locate? address with
  | none => none
  | some found =>
    if found.node.isSelectable then
      some (root.updateAt (setSelected (!found.node.label.selected)) (Path.names found.path))
    else none

end Projector.Node
