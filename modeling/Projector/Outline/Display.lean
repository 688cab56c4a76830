import Projector.Outline.Node

/-!
# What an outline shows

Nodes with children are shown expanded or collapsed. These operations change nothing else, and
they leave nodes without children as they are.
-/

namespace Projector.Node

mutual

/-- Expands or collapses a node and all below it. -/
def setExpanded (expanded : Bool) : Node → Node
  | .mk label [] => .mk label []
  | .mk label (child :: rest) =>
    .mk { label with expanded } (setExpandedAll expanded (child :: rest))

/-- Expands or collapses nodes and all below them. -/
def setExpandedAll (expanded : Bool) : List Node → List Node
  | [] => []
  | child :: rest => setExpanded expanded child :: setExpandedAll expanded rest

end

mutual

/-- Expands a node that leads to a selected one, and collapses it with all below it otherwise; the
same for the nodes below an expanded one. -/
def showSelection : Node → Node
  | .mk label [] => .mk label []
  | .mk label (child :: rest) =>
    if hasSelection (.mk label (child :: rest)) then
      .mk { label with expanded := true } (showSelectionAll (child :: rest))
    else setExpanded false (.mk label (child :: rest))

/-- Does so for each of some nodes. -/
def showSelectionAll : List Node → List Node
  | [] => []
  | child :: rest => showSelection child :: showSelectionAll rest

end

/-- Expands a root that has children and changes its children by an operation. -/
def openRoot (operation : List Node → List Node) : Node → Node
  | .mk label [] => .mk label []
  | .mk label (child :: rest) => .mk { label with expanded := true } (operation (child :: rest))

/-- Expands every node. -/
def expandAll (root : Node) : Node := setExpanded true root

/-- Collapses every node but the root. -/
def collapseAll (root : Node) : Node := openRoot (setExpandedAll false) root

/-- Keeps the branches that lead to a selected node open, and the root, and collapses the rest. -/
def collapseUnselected (root : Node) : Node := openRoot showSelectionAll root

end Projector.Node
