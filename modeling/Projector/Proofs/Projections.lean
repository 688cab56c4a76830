import Projector.Proofs.Lookups
import Projector.Proofs.SpannedValues

/-!
# The projection that an outline shows

An outline with chosen nodes shows a projection of the document, which is defined here without any
query: objects become objects of their fields that lead to a chosen node, a list becomes the list of
what its fields become in each of its elements, and a chosen node becomes what stands where it
lives. What lives outside every list is read from the document, everything else from the element at
hand. The object of a projection is built from its fronts: the chosen nodes and the outermost lists.
-/

namespace Projector

namespace Json

/-- The value of a field, which is nothing unless an object has it. -/
def field (value : Json) (name : String) : Json :=
  match value with
  | .obj fields => (Fields.get? fields name).getD .null
  | _ => .null

/-- The value that some fields lead to, one after the other. -/
def follow (value : Json) (names : List String) : Json := names.foldl field value

/-- The elements of a list; nothing else has any. -/
def items : Json → List Json
  | .arr items => items
  | _ => []

end Json

/-- What a part of a projection is read from besides the document: an element, with the path of the
elements of its list. The document itself is one with the empty path. -/
structure Frame where
  base : Path
  current : Json

/-- What lives at a path: outside every list it is in the document, and otherwise in the element at
hand. -/
def Frame.read (document : Json) (frame : Frame) (source : Path) : Json :=
  if Path.hasEach source then
    frame.current.follow (Path.names (source.drop frame.base.length))
  else document.follow (Path.names source)

namespace Node

mutual

/-- The projection that a node shows in a frame. -/
def project (document : Json) (frame : Frame) : Node → Json
  | .mk label children =>
    if (Node.mk label children).isChosen then frame.read document label.origin
    else if label.kind.isArray then
      .arr ((frame.read document label.origin).items.map fun element =>
        .obj (projectAll document { base := label.origin ++ [.each], current := element } children))
    else .obj (projectAll document frame children)

/-- The fields that some nodes show in a frame: those that lead to a chosen node. -/
def projectAll (document : Json) (frame : Frame) : List Node → Fields Json
  | [] => []
  | child :: rest =>
    if child.hasSelection then
      (child.key, project document frame child) :: projectAll document frame rest
    else projectAll document frame rest

end

/-- The projection of a document that an outline shows. -/
def projection (document : Json) (root : Node) : Json :=
  root.project document { base := [], current := document }

/-! ## Fronts -/

/-- A front of a projection: a chosen node, or a list that leads to one. -/
def isFront (node : Node) : Bool := node.isChosen || (node.label.kind.isArray && node.hasSelection)

/-- A front leads to a chosen node. -/
theorem hasSelection_of_isFront {node : Node} (h : node.isFront = true) :
    node.hasSelection = true := by
  cases node with
  | mk label children =>
    rw [isFront, Bool.or_eq_true, Bool.and_eq_true] at h
    rcases h with h | h
    · rw [hasSelection_mk, h, Bool.true_or]
    · exact h.2

/-- A node that leads to a chosen one and is no front is neither chosen nor a list. -/
theorem not_chosen_not_array {label : Label} {children : List Node}
    (hselection : (Node.mk label children).hasSelection = true)
    (hfront : ¬(Node.mk label children).isFront = true) :
    ¬(Node.mk label children).isChosen = true ∧ label.kind.isArray = false := by
  simpa [isFront, hselection] using hfront

/-- No path of keys goes on from a front. -/
theorem eq_of_mem_walk_front {node found : Node} {path : Path} {keys : List String}
    (hformed : node.WellFormed) (hfront : node.isFront = true)
    (hfound : (path ++ keys.map .field, found) ∈ walk path node) : keys = [] ∧ found = node := by
  rcases mem_walk_iff.mp hfound with ⟨hplace, rfl⟩ | ⟨child, hchild, hbelow⟩
  · exact ⟨by simpa using hplace, rfl⟩
  · -- Only a list has children here, and no path of keys goes into its elements.
    have harray : node.label.kind.isArray = true := by
      rw [isFront, Bool.or_eq_true, Bool.and_eq_true] at hfront
      refine (hfront.resolve_left fun hchosen => ?_).1
      rw [children_of_isChosen hformed hchosen] at hchild
      cases hchild
    have hleads := prefix_of_mem_walk hbelow
    rw [harray, List.prefix_append_right_inj] at hleads
    cases keys with
    | nil => simp [Address.below] at hleads
    | cons key keys => simp [Address.below, List.cons_prefix_cons] at hleads

/-- A chosen node is a front. -/
theorem isFront_of_isChosen {node : Node} (h : node.isChosen = true) : node.isFront = true := by
  rw [isFront, h, Bool.true_or]

/-- A list that leads to a chosen node is a front. -/
theorem isFront_of_isArray {node : Node} (harray : node.label.kind.isArray = true)
    (hselection : node.hasSelection = true) : node.isFront = true := by
  rw [isFront, harray, hselection, Bool.and_true, Bool.or_true]

/-- What the fronts at key paths from a place show, out of some nodes with their places. -/
def fronts (document : Json) (frame : Frame) (place : Path) (nodes : List (Path × Node)) :
    Leaves Json := fun keys value =>
  ∃ node, (place ++ keys.map .field, node) ∈ nodes ∧ node.isFront = true ∧
    value = project document frame node

/-- The fields that some nodes show, as those that lead to a chosen node. -/
theorem projectAll_eq (document : Json) (frame : Frame) (nodes : List Node) :
    projectAll document frame nodes =
      (nodes.filter hasSelection).map fun node => (node.key, project document frame node) := by
  induction nodes with
  | nil => rfl
  | cons node rest ih =>
    rw [projectAll, ih, List.filter_cons]
    split <;> rfl

/-- The names of the fields that some nodes with different keys show are different. -/
theorem distinct_projectAll (document : Json) (frame : Frame) {nodes : List Node}
    (hkeys : (nodes.map key).Nodup) : Fields.Distinct (projectAll document frame nodes) := by
  have hnames : Fields.names (projectAll document frame nodes) =
      (nodes.filter hasSelection).map key := by
    rw [projectAll_eq, Fields.names, List.map_map]
    rfl
  rw [Fields.Distinct, hnames]
  exact (List.filter_sublist.map key).nodup hkeys

/-- Below the place of a child only what the walk of the child lists is listed. -/
theorem mem_walkAll_iff {base steps : Path} {nodes : List Node} {child found : Node}
    (hkeys : (nodes.map key).Nodup) (hchild : child ∈ nodes) :
    (base ++ .field child.key :: steps, found) ∈ walkAll base nodes ↔
      (base ++ .field child.key :: steps, found) ∈ walk (base ++ [.field child.key]) child := by
  rw [walkAll_eq_flatMap, List.mem_flatMap]
  refine ⟨?_, fun h => ⟨child, hchild, h⟩⟩
  rintro ⟨other, hother, hfound⟩
  have hleads := prefix_of_mem_walk hfound
  rw [List.prefix_append_right_inj, List.cons_prefix_cons] at hleads
  have hkey : other.key = child.key := by simpa using hleads.1
  obtain rfl := List.inj_on_of_nodup_map hkeys hother hchild hkey
  exact hfound

/-- A node that leads to a chosen one has a front. -/
theorem exists_front {document : Json} {frame : Frame} {node : Node} (hformed : node.WellFormed)
    (hselection : node.hasSelection = true) (path : Path) :
    ∃ keys value, fronts document frame path (walk path node) keys value := by
  induction node generalizing path with
  | mk label children ih =>
    by_cases hfront : (Node.mk label children).isFront = true
    · exact ⟨[], _, _, by simpa using mem_walk_self path _, hfront, rfl⟩
    · obtain ⟨hchosen, harray⟩ := not_chosen_not_array hselection hfront
      rw [hasSelection_mk, Bool.or_eq_true, List.any_eq_true] at hselection
      obtain ⟨child, hchild, hbelow⟩ := hselection.resolve_left hchosen
      obtain ⟨-, -, hformed⟩ := wellFormed_mk.mp hformed
      obtain ⟨keys, value, found, hfound, hrest⟩ :=
        ih child hchild (hformed child hchild) hbelow (path ++ [.field child.key])
      refine ⟨child.key :: keys, value, found, mem_walk_iff.mpr (.inr ⟨child, hchild, ?_⟩), hrest⟩
      simpa [Address.below, harray] using hfound

/-- A field that some nodes show is shown by one of them. -/
theorem exists_of_get?_projectAll {document : Json} {frame : Frame} {nodes : List Node}
    {name : String} {value : Json}
    (h : Fields.get? (projectAll document frame nodes) name = some value) :
    ∃ node ∈ nodes, node.hasSelection = true ∧ node.key = name ∧
      project document frame node = value := by
  have hmem := Fields.mem_of_get? h
  rw [projectAll_eq, List.mem_map] at hmem
  obtain ⟨node, hnode, heq⟩ := hmem
  obtain ⟨hkey, hproject⟩ := Prod.mk.inj heq
  exact ⟨node, (List.mem_filter.mp hnode).1, (List.mem_filter.mp hnode).2, hkey, hproject⟩

/-- A front below a name is that of a node with this name, which leads to a chosen one. -/
theorem isSome_get?_projectAll {document : Json} {frame : Frame} {base : Path}
    {nodes : List Node} {name : String} {path : List String} {value : Json}
    (h : fronts document frame base (walkAll base nodes) (name :: path) value) :
    (Fields.get? (projectAll document frame nodes) name).isSome = true := by
  obtain ⟨found, hfound, hfront, -⟩ := h
  rw [walkAll_eq_flatMap, List.mem_flatMap] at hfound
  obtain ⟨node, hnode, hfound⟩ := hfound
  have hleads := prefix_of_mem_walk hfound
  rw [List.prefix_append_right_inj, List.map_cons, List.cons_prefix_cons] at hleads
  have hkey : node.key = name := by simpa using hleads.1
  have hselection : node.hasSelection = true := by
    obtain ⟨place, chosen, hchosen, h⟩ :=
      (hasSelection_iff (base ++ (name :: path).map .field)).mp (hasSelection_of_isFront hfront)
    exact (hasSelection_iff _).mpr ⟨place, chosen, mem_walk_trans hfound hchosen, h⟩
  rw [Fields.isSome_get?_iff, projectAll_eq, ← hkey]
  exact List.mem_map.mpr ⟨_, List.mem_map_of_mem (List.mem_filter.mpr ⟨hnode, hselection⟩), rfl⟩

/-- The fronts of some nodes below the name of one of them are those of this node. -/
theorem below_fronts (document : Json) (frame : Frame) (base : Path) {nodes : List Node}
    (hkeys : (nodes.map key).Nodup) {node : Node} (hnode : node ∈ nodes) :
    (fronts document frame base (walkAll base nodes)).below node.key =
      fronts document frame (base ++ [.field node.key])
        (walk (base ++ [.field node.key]) node) := by
  funext keys content
  simp only [Leaves.below, fronts, List.map_cons, mem_walkAll_iff hkeys hnode,
    List.append_assoc, List.singleton_append]

/-- The object of some fields is built from their fronts when what each of them shows is. -/
theorem spans_projectAll {document : Json} {frame : Frame} {base : Path} {nodes : List Node}
    (hkeys : (nodes.map key).Nodup) (hformed : ∀ node ∈ nodes, node.WellFormed)
    (hnodes : ∀ node ∈ nodes, node.hasSelection = true →
      Json.Spans (fronts document frame (base ++ [.field node.key])
        (walk (base ++ [.field node.key]) node)) (project document frame node)) :
    Json.Spans (fronts document frame base (walkAll base nodes))
      (.obj (projectAll document frame nodes)) := by
  refine .object ?_ (distinct_projectAll document frame hkeys)
    (fun name path value hleaf => isSome_get?_projectAll hleaf) ?_ ?_
  · rintro value ⟨found, hfound, -⟩
    rw [walkAll_eq_flatMap, List.mem_flatMap] at hfound
    obtain ⟨node, -, hfound⟩ := hfound
    have hlength := (prefix_of_mem_walk hfound).length_le
    simp only [List.map_nil, List.append_nil, List.length_append, List.length_singleton] at hlength
    omega
  · intro name value hvalue
    obtain ⟨node, hnode, hselection, rfl, -⟩ := exists_of_get?_projectAll hvalue
    obtain ⟨keys, content, hfront⟩ :=
      exists_front (hformed node hnode) hselection (base ++ [.field node.key])
    rw [← below_fronts document frame base hkeys hnode] at hfront
    exact ⟨keys, content, hfront⟩
  · intro name value hvalue
    obtain ⟨node, hnode, hselection, rfl, rfl⟩ := exists_of_get?_projectAll hvalue
    rw [below_fronts document frame base hkeys hnode]
    exact hnodes node hnode hselection

/-- What a node shows that leads to a chosen one is built from its fronts. -/
theorem spans_project (document : Json) (frame : Frame) {node : Node} (hformed : node.WellFormed)
    (hselection : node.hasSelection = true) (path : Path) :
    Json.Spans (fronts document frame path (walk path node)) (project document frame node) := by
  induction node generalizing path with
  | mk label children ih =>
    obtain ⟨hkeys, -, hchildren⟩ := wellFormed_mk.mp hformed
    by_cases hfront : (Node.mk label children).isFront = true
    · refine .leaf ⟨_, by simpa using mem_walk_self path _, hfront, rfl⟩ ?_ (.refl _)
      rintro keys value ⟨found, hfound, -, rfl⟩
      obtain ⟨rfl, rfl⟩ := eq_of_mem_walk_front hformed hfront hfound
      exact ⟨rfl, rfl⟩
    · obtain ⟨hchosen, harray⟩ := not_chosen_not_array hselection hfront
      rw [project, if_neg hchosen, if_neg (by simp [harray])]
      have hinner : inner label path = path := by simp [inner, harray]
      have hleaves : fronts document frame path (walk path (.mk label children)) =
          fronts document frame path (walkAll path children) := by
        funext keys value
        refine propext (exists_congr fun found => ?_)
        rw [walk, List.mem_cons, hinner]
        constructor
        · rintro ⟨heq | hfound, h, hvalue⟩
          · obtain rfl := (Prod.mk.inj heq).2
            exact absurd h hfront
          · exact ⟨hfound, h, hvalue⟩
        · rintro ⟨hfound, hrest⟩
          exact ⟨.inr hfound, hrest⟩
      rw [hleaves]
      exact spans_projectAll hkeys hchildren fun child hchild hbelow =>
        ih child hchild (hchildren child hchild) hbelow _

end Node

end Projector
