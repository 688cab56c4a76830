import Mathlib.Data.List.Nodup
import Mathlib.Data.List.Infix
import Projector.Outline.Build
import Projector.Proofs.Addresses

/-!
# Places in an outline

Walking through an outline lists every node with the path that leads to it. When no two children of
a node have the same key, no path is listed twice, so a path tells a node from every other node.
-/

namespace Projector.Node

/-- What holds of a node whenever it holds of its children holds of every node. -/
@[elab_as_elim, induction_eliminator]
theorem inductChildren {motive : Node → Prop}
    (mk : ∀ label children, (∀ child ∈ children, motive child) → motive (.mk label children))
    (node : Node) : motive node :=
  @Node.rec motive (fun children => ∀ child ∈ children, motive child) mk (by simp)
    (fun _ _ hfirst hrest => by simpa using ⟨hfirst, hrest⟩) node

@[simp] theorem label_mk (label : Label) (children : List Node) :
    (Node.mk label children).label = label := rfl

@[simp] theorem children_mk (label : Label) (children : List Node) :
    (Node.mk label children).children = children := rfl

@[simp] theorem key_mk (label : Label) (children : List Node) :
    (Node.mk label children).key = label.key := rfl

mutual

/-- No two children of a node have the same key, and scalars have no children, here and below. -/
def WellFormed : Node → Prop
  | .mk label children =>
    (children.map key).Nodup ∧ (label.kind.isContainer = false → children = []) ∧
      AllWellFormed children

/-- Every node of a list is well formed. -/
def AllWellFormed : List Node → Prop
  | [] => True
  | child :: rest => child.WellFormed ∧ AllWellFormed rest

end

/-- A list of nodes is well formed node by node. -/
theorem allWellFormed_iff {nodes : List Node} :
    AllWellFormed nodes ↔ ∀ node ∈ nodes, node.WellFormed := by
  induction nodes with
  | nil => simp [AllWellFormed]
  | cons node rest ih => simp [AllWellFormed, ih]

/-- What makes a node well formed. -/
theorem wellFormed_mk {label : Label} {children : List Node} :
    (Node.mk label children).WellFormed ↔
      (children.map key).Nodup ∧ (label.kind.isContainer = false → children = []) ∧
        ∀ child ∈ children, child.WellFormed := by
  rw [WellFormed, allWellFormed_iff]

/-! ## Paths of nodes -/

/-- The path of a child continues that of its parent. -/
theorem inner_append (label : Label) (path : Path) (key : String) :
    inner label path ++ [.field key] = path ++ Address.below label.kind.isArray key := by
  unfold inner Address.below
  split <;> simp

/-- The nodes of a list and all below them, node by node. -/
theorem walkAll_eq_flatMap (base : Path) (nodes : List Node) :
    walkAll base nodes = nodes.flatMap fun child => walk (base ++ [.field child.key]) child := by
  induction nodes with
  | nil => rfl
  | cons child rest ih => simp [walkAll, ih]

/-- A node comes first in its own walk. -/
theorem walk_eq_cons (path : Path) (node : Node) :
    walk path node = (path, node) :: walkAll (inner node.label path) node.children := by
  cases node
  rw [walk]
  rfl

/-- A node is listed with its own path. -/
theorem mem_walk_self (path : Path) (node : Node) : (path, node) ∈ walk path node := by
  simp [walk_eq_cons]

/-- All that a walk lists besides the node itself is listed in the walk of a child. -/
theorem mem_walk_iff {path place : Path} {node found : Node} :
    (place, found) ∈ walk path node ↔
      (place = path ∧ found = node) ∨ ∃ child ∈ node.children,
        (place, found) ∈ walk (path ++ Address.below node.label.kind.isArray child.key) child := by
  cases node
  simp [walk, walkAll_eq_flatMap, inner_append]

/-- A listed node lies at or below the node that the walk starts from. -/
theorem prefix_of_mem_walk {path place : Path} {node found : Node}
    (h : (place, found) ∈ walk path node) : path <+: place := by
  induction node generalizing path with
  | mk label children ih =>
    rcases mem_walk_iff.mp h with ⟨rfl, -⟩ | ⟨child, hchild, hfound⟩
    · exact List.prefix_rfl
    · exact (List.prefix_append path _).trans (ih child hchild hfound)

/-- What a walk from a listed node lists is listed. -/
theorem mem_walk_trans {path place deeper : Path} {root node found : Node}
    (hnode : (place, node) ∈ walk path root) (hfound : (deeper, found) ∈ walk place node) :
    (deeper, found) ∈ walk path root := by
  induction root generalizing path with
  | mk label children ih =>
    rcases mem_walk_iff.mp hnode with ⟨rfl, rfl⟩ | ⟨child, hchild, hbelow⟩
    · exact hfound
    · exact mem_walk_iff.mpr (.inr ⟨child, hchild, ih child hchild hbelow⟩)

/-- The children of a listed node are listed. -/
theorem mem_walk_child {path place : Path} {root node child : Node}
    (hnode : (place, node) ∈ walk path root) (hchild : child ∈ node.children) :
    (place ++ Address.below node.label.kind.isArray child.key, child) ∈ walk path root :=
  mem_walk_trans hnode (mem_walk_iff.mpr (.inr ⟨child, hchild, mem_walk_self _ _⟩))

/-- A listed node is the one that the walk starts from or a child of a listed node. -/
theorem exists_parent {path place : Path} {root found : Node}
    (h : (place, found) ∈ walk path root) :
    (place = path ∧ found = root) ∨ ∃ parent node, (parent, node) ∈ walk path root ∧
      found ∈ node.children ∧
      place = parent ++ Address.below node.label.kind.isArray found.key := by
  induction root generalizing path with
  | mk label children ih =>
    rcases mem_walk_iff.mp h with hself | ⟨child, hchild, hbelow⟩
    · exact .inl hself
    · right
      rcases ih child hchild hbelow with ⟨rfl, rfl⟩ | ⟨parent, node, hnode, hfound, hplace⟩
      · exact ⟨path, .mk label children, mem_walk_self _ _, hchild, rfl⟩
      · exact ⟨parent, node, mem_walk_iff.mpr (.inr ⟨child, hchild, hnode⟩), hfound, hplace⟩

/-- Nodes of a well-formed outline are well formed. -/
theorem WellFormed.of_mem_walk {path place : Path} {root found : Node} (hroot : root.WellFormed)
    (h : (place, found) ∈ walk path root) : found.WellFormed := by
  induction root generalizing path with
  | mk label children ih =>
    rcases mem_walk_iff.mp h with ⟨-, rfl⟩ | ⟨child, hchild, hbelow⟩
    · exact hroot
    · exact ih child hchild ((wellFormed_mk.mp hroot).2.2 child hchild) hbelow

/-- The steps below two keys are different unless the keys are equal. -/
theorem below_prefix_below {path place : Path} {inArray : Bool} {key other : String}
    (h : path ++ Address.below inArray key <+: place)
    (h' : path ++ Address.below inArray other <+: place) : key = other := by
  have hlength : (path ++ Address.below inArray key).length =
      (path ++ Address.below inArray other).length := by
    cases inArray <;> simp [Address.below]
  have heq := (List.prefix_of_prefix_length_le h h' hlength.le).eq_of_length hlength
  cases inArray <;> simpa [Address.below] using heq

/-- The steps to a child do not lead back to the node. -/
theorem not_below_prefix_self (path : Path) (inArray : Bool) (key : String) :
    ¬path ++ Address.below inArray key <+: path := by
  intro h
  have hlength := h.length_le
  simp only [Address.below, List.length_append, List.length_singleton] at hlength
  omega

/-- No path of a well-formed outline is listed twice. -/
theorem WellFormed.nodup_paths {node : Node} (hnode : node.WellFormed) (path : Path) :
    ((walk path node).map Prod.fst).Nodup := by
  induction node generalizing path with
  | mk label children ih =>
    obtain ⟨hkeys, -, hchildren⟩ := wellFormed_mk.mp hnode
    rw [walk, List.map_cons, walkAll_eq_flatMap, List.map_flatMap]
    refine List.nodup_cons.mpr ⟨?_, List.nodup_flatMap.mpr ⟨?_, ?_⟩⟩
    · intro hpath
      obtain ⟨child, hchild, hplace⟩ := List.mem_flatMap.mp hpath
      obtain ⟨⟨place, found⟩, hfound, rfl⟩ := List.mem_map.mp hplace
      have hlength := (prefix_of_mem_walk hfound).length_le
      simp only [inner_append, Address.below, List.length_append, List.length_singleton] at hlength
      omega
    · exact fun child hchild => ih child hchild (hchildren child hchild) _
    · refine List.Pairwise.imp ?_ (List.pairwise_map.mp hkeys)
      intro child other hne place hplace hplace'
      obtain ⟨⟨_, found⟩, hfound, rfl⟩ := List.mem_map.mp hplace
      obtain ⟨⟨_, found'⟩, hfound', heq⟩ := List.mem_map.mp hplace'
      dsimp only at heq
      subst heq
      have hleads := prefix_of_mem_walk hfound
      have hleads' := prefix_of_mem_walk hfound'
      rw [inner_append] at hleads hleads'
      exact hne (below_prefix_below hleads hleads')

/-- A path of a well-formed outline leads to one node. -/
theorem WellFormed.eq_of_mem_walk {path place : Path} {root found other : Node}
    (hroot : root.WellFormed) (h : (place, found) ∈ walk path root)
    (h' : (place, other) ∈ walk path root) : found = other := by
  have heq := List.inj_on_of_nodup_map (hroot.nodup_paths path) h h' rfl
  exact (Prod.mk.inj heq).2

/-! ## Selections below a node -/

/-- A node leads to a chosen one when it is chosen or one of its children leads to a chosen one. -/
theorem hasSelection_mk (label : Label) (children : List Node) :
    hasSelection (.mk label children) =
      ((Node.mk label children).isChosen || children.any hasSelection) := by
  have hany : ∀ nodes : List Node, anySelection nodes = nodes.any hasSelection := by
    intro nodes
    induction nodes with
    | nil => rfl
    | cons node rest ih => rw [anySelection, ih, List.any_cons]
  rw [hasSelection, hany]

/-- A node leads to a chosen one exactly when its walk lists a chosen one. -/
theorem hasSelection_iff {node : Node} (path : Path) : node.hasSelection = true ↔
    ∃ place found, (place, found) ∈ walk path node ∧ found.isChosen = true := by
  induction node generalizing path with
  | mk label children ih =>
    rw [hasSelection_mk, Bool.or_eq_true, List.any_eq_true]
    constructor
    · rintro (hself | ⟨child, hchild, hbelow⟩)
      · exact ⟨path, _, mem_walk_self _ _, hself⟩
      · obtain ⟨place, found, hfound, hchosen⟩ := (ih child hchild _).mp hbelow
        exact ⟨place, found, mem_walk_iff.mpr (.inr ⟨child, hchild, hfound⟩), hchosen⟩
    · rintro ⟨place, found, hfound, hchosen⟩
      rcases mem_walk_iff.mp hfound with ⟨-, rfl⟩ | ⟨child, hchild, hbelow⟩
      · exact .inl hchosen
      · exact .inr ⟨child, hchild, (ih child hchild _).mpr ⟨place, found, hbelow, hchosen⟩⟩

end Projector.Node
