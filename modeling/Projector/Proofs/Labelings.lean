import Projector.Proofs.Outlines

/-!
# Outlines with other labels

Many operations give every node of an outline a new label and leave the outline as it is otherwise.
When the new labels have the keys and kinds of the old ones, the outline has the same places as
before, each with the node that stood there, relabelled like all below it.
-/

namespace Projector.Node

mutual

/-- A node with a new label for itself and for each node below it. -/
def labelEach (change : Node → Label) : Node → Node
  | .mk label children => .mk (change (.mk label children)) (labelAll change children)

/-- Some nodes with new labels for all of them and all below. -/
def labelAll (change : Node → Label) : List Node → List Node
  | [] => []
  | child :: rest => labelEach change child :: labelAll change rest

end

variable {change : Node → Label}

/-- Relabelling goes through the children one by one. -/
theorem labelEach_mk (change : Node → Label) (label : Label) (children : List Node) :
    labelEach change (.mk label children) =
      .mk (change (.mk label children)) (children.map (labelEach change)) := by
  have hall : ∀ nodes, labelAll change nodes = nodes.map (labelEach change) := by
    intro nodes
    induction nodes with
    | nil => rfl
    | cons node rest ih => rw [labelAll, ih, List.map_cons]
  rw [labelEach, hall]

@[simp] theorem label_labelEach (change : Node → Label) (node : Node) :
    (labelEach change node).label = change node := by
  cases node
  rw [labelEach_mk, label_mk]

@[simp] theorem children_labelEach (change : Node → Label) (node : Node) :
    (labelEach change node).children = node.children.map (labelEach change) := by
  cases node
  rw [labelEach_mk, children_mk, children_mk]

/-- Of labels given one after the other only the last ones are seen, when these are chosen without
looking at the others. -/
theorem labelEach_labelEach {other : Node → Label}
    (h : ∀ node, other (labelEach change node) = other node) (node : Node) :
    labelEach other (labelEach change node) = labelEach other node := by
  induction node with
  | mk label children ih =>
    have hself := h (.mk label children)
    rw [labelEach_mk] at hself
    rw [labelEach_mk, labelEach_mk, hself, labelEach_mk, List.map_map]
    exact congrArg _ (List.map_congr_left ih)

/-- New labels with the keys and the kinds of the old ones. -/
structure KeepsPlaces (change : Node → Label) : Prop where
  key : ∀ node, (change node).key = node.key
  kind : ∀ node, (change node).kind = node.label.kind

namespace KeepsPlaces

variable (h : KeepsPlaces change)

include h

/-- Every node keeps its key. -/
theorem key_labelEach (node : Node) : (labelEach change node).key = node.key := by
  rw [Node.key, label_labelEach, h.key]

/-- What can be selected stays so. -/
theorem isSelectable_labelEach (node : Node) :
    (labelEach change node).isSelectable = node.isSelectable := by
  rw [isSelectable, isSelectable, label_labelEach, children_labelEach, h.kind, List.isEmpty_map]

/-- A walk goes through the same places. -/
theorem walk_labelEach (path : Path) (node : Node) :
    walk path (labelEach change node) =
      (walk path node).map fun spot => (spot.1, labelEach change spot.2) := by
  induction node generalizing path with
  | mk label children ih =>
    rw [walk, walkAll_eq_flatMap, List.map_cons, List.map_flatMap, labelEach_mk, walk,
      walkAll_eq_flatMap, List.flatMap_map]
    congr 1
    refine List.flatMap_congr fun child hchild => ?_
    rw [h.key_labelEach, inner, h.kind, label_mk]
    exact ih child hchild _

/-- So does a walk through some nodes. -/
theorem walkAll_labelEach (base : Path) (nodes : List Node) :
    walkAll base (nodes.map (labelEach change)) =
      (walkAll base nodes).map fun spot => (spot.1, labelEach change spot.2) := by
  rw [walkAll_eq_flatMap, walkAll_eq_flatMap, List.flatMap_map, List.map_flatMap]
  refine List.flatMap_congr fun child _ => ?_
  rw [h.key_labelEach, h.walk_labelEach]

/-- The nodes of an outline stay where they are. -/
theorem located_labelEach (root : Node) : (labelEach change root).located =
    root.located.map fun found => ⟨found.path, labelEach change found.node⟩ := by
  rw [located, located, h.walk_labelEach, List.map_map, List.map_map]
  rfl

/-- Labels with the same keys and kinds do not matter for being well formed. -/
theorem wellFormed_labelEach {node : Node} :
    (labelEach change node).WellFormed ↔ node.WellFormed := by
  induction node with
  | mk label children ih =>
    have hkeys : (children.map (labelEach change)).map Node.key = children.map Node.key := by
      rw [List.map_map]
      exact List.map_congr_left fun child _ => h.key_labelEach child
    rw [labelEach_mk, wellFormed_mk, wellFormed_mk, hkeys, h.kind, List.map_eq_nil_iff,
      List.forall_mem_map]
    exact and_congr_right fun _ => and_congr_right fun _ => forall₂_congr ih

end KeepsPlaces

end Projector.Node
