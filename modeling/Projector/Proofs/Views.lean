import Projector.Proofs.Lookups

/-!
# What an outline shows at each place

A node shows its label and, in order, the keys of its children. An outline is determined by what it
shows at every path. An edit is described here by what is shown afterwards at each place: changing
the node at one place changes nothing that is not at or below it, and each operation on a node says
what becomes of its own view, of those of its children and of all below.
-/

namespace Projector

/-- What a node shows of itself: its label, and the keys of its children in order. -/
structure View where
  label : Label
  keys : List String

namespace Node

/-- The view of a node. -/
def view (node : Node) : View := ⟨node.label, node.children.map key⟩

/-- What a node at a path shows at a place at or below it, if there is a node at that place. -/
def viewFrom? (path : Path) (node : Node) (place : Path) : Option View :=
  ((walk path node).find? fun spot => decide (spot.1 = place)).map fun spot => spot.2.view

/-- What an outline shows at a place, if there is a node. -/
def viewAt? (root : Node) (place : Path) : Option View := viewFrom? [] root place

/-! ## Finding the node at a place -/

variable {path place : Path} {node other : Node}

/-- A node shows its own view at its own place. -/
@[simp] theorem viewFrom?_self (path : Path) (node : Node) :
    viewFrom? path node path = some node.view := by
  simp [viewFrom?, walk_eq_cons]

/-- A node shows nothing where the walk from it lists nothing. -/
theorem viewFrom?_eq_none_iff :
    viewFrom? path node place = none ↔ ∀ found, (place, found) ∉ walk path node := by
  simp only [viewFrom?, Option.map_eq_none_iff, List.find?_eq_none, Prod.forall,
    decide_eq_true_eq]
  constructor
  · exact fun h found hfound => h place found hfound rfl
  · rintro h spot found hfound rfl
    exact h found hfound

/-- A node shows nothing outside the places at and below it. -/
theorem viewFrom?_of_not_leads (h : ¬path <+: place) : viewFrom? path node place = none :=
  viewFrom?_eq_none_iff.mpr fun _ hfound => h (prefix_of_mem_walk hfound)

/-- A well-formed node shows the views of the nodes that the walk from it lists. -/
theorem WellFormed.viewFrom?_eq_some_iff (hnode : node.WellFormed) {view : View} :
    viewFrom? path node place = some view ↔
      ∃ found, (place, found) ∈ walk path node ∧ found.view = view := by
  constructor
  · intro h
    obtain ⟨⟨spot, found⟩, hfind, hview⟩ := Option.map_eq_some_iff.mp h
    obtain rfl : spot = place := by simpa using List.find?_some hfind
    exact ⟨found, List.mem_of_find?_eq_some hfind, hview⟩
  · rintro ⟨found, hfound, rfl⟩
    cases hshown : viewFrom? path node place with
    | none => exact absurd hfound (viewFrom?_eq_none_iff.mp hshown found)
    | some view =>
      obtain ⟨⟨spot, twin⟩, hfind, rfl⟩ := Option.map_eq_some_iff.mp hshown
      obtain rfl : spot = place := by simpa using List.find?_some hfind
      rw [hnode.eq_of_mem_walk (List.mem_of_find?_eq_some hfind) hfound]

/-- Below a child a well-formed node shows what the child shows. -/
theorem WellFormed.viewFrom?_child (hnode : node.WellFormed) {child : Node}
    (hchild : child ∈ node.children)
    (hleads : path ++ Address.below node.label.kind.isArray child.key <+: place) :
    viewFrom? path node place =
      viewFrom? (path ++ Address.below node.label.kind.isArray child.key) child place := by
  cases node with
  | mk label children =>
    obtain ⟨hkeys, -, hformed⟩ := wellFormed_mk.mp hnode
    refine Option.ext fun view => ?_
    rw [hnode.viewFrom?_eq_some_iff, (hformed child hchild).viewFrom?_eq_some_iff]
    refine exists_congr fun found => and_congr_left fun _ => ?_
    rw [mem_walk_iff]
    constructor
    · rintro (⟨rfl, -⟩ | ⟨twin, htwin, hbelow⟩)
      · exact absurd hleads (not_below_prefix_self _ _ _)
      · have hkey := below_prefix_below hleads (prefix_of_mem_walk hbelow)
        rwa [List.inj_on_of_nodup_map hkeys hchild htwin hkey]
    · exact fun hbelow => .inr ⟨child, hchild, hbelow⟩

/-- Nothing is shown below a node at a place that none of its children leads to. -/
theorem viewFrom?_of_no_child (hne : place ≠ path)
    (h : ∀ child ∈ node.children,
      ¬path ++ Address.below node.label.kind.isArray child.key <+: place) :
    viewFrom? path node place = none := by
  refine viewFrom?_eq_none_iff.mpr fun found hfound => ?_
  rcases mem_walk_iff.mp hfound with ⟨hplace, -⟩ | ⟨child, hchild, hbelow⟩
  · exact hne hplace
  · exact h child hchild (prefix_of_mem_walk hbelow)

/-- Below them two nodes show the same at a place when the same children lead there. -/
theorem WellFormed.viewFrom?_congr (hnode : node.WellFormed) (hother : other.WellFormed)
    (hkind : other.label.kind = node.label.kind) (hne : place ≠ path)
    (hchildren : ∀ child : Node, path ++ Address.below node.label.kind.isArray child.key <+: place →
      (child ∈ other.children ↔ child ∈ node.children)) :
    viewFrom? path other place = viewFrom? path node place := by
  by_cases hleads : ∃ child ∈ node.children,
      path ++ Address.below node.label.kind.isArray child.key <+: place
  · obtain ⟨child, hchild, hleads⟩ := hleads
    have htwin := (hchildren child hleads).mpr hchild
    rw [hnode.viewFrom?_child hchild hleads,
      hother.viewFrom?_child htwin (by rwa [hkind]), hkind]
  · push Not at hleads
    rw [viewFrom?_of_no_child hne hleads]
    refine viewFrom?_of_no_child hne fun child hchild hlead => ?_
    rw [hkind] at hlead
    exact hleads child ((hchildren child hlead).mp hchild) hlead

/-- Well-formed nodes that show the same at every place are the same, so a statement about all views
of an outline is one about the outline. -/
theorem WellFormed.eq_of_views (hnode : node.WellFormed) (hother : other.WellFormed)
    (h : ∀ place, viewFrom? path node place = viewFrom? path other place) : node = other := by
  induction node generalizing path other with
  | mk label children ih =>
    obtain ⟨label', children'⟩ := other
    have hself := h path
    simp only [viewFrom?_self, view, label_mk, children_mk, Option.some.injEq,
      View.mk.injEq] at hself
    obtain ⟨rfl, hkeys⟩ := hself
    have hlength : children.length = children'.length := by
      simpa using congrArg List.length hkeys
    congr 1
    refine List.ext_getElem hlength fun index hindex hindex' => ?_
    have hkey : children[index].key = children'[index].key := by
      simpa [hindex, hindex'] using congrArg (·[index]?) hkeys
    have hchild := List.getElem_mem hindex
    have htwin := List.getElem_mem hindex'
    have hbelow : ∀ place,
        viewFrom? (path ++ Address.below label.kind.isArray children[index].key)
          children[index] place =
        viewFrom? (path ++ Address.below label.kind.isArray children[index].key)
          children'[index] place := by
      intro place
      by_cases hleads : path ++ Address.below label.kind.isArray children[index].key <+: place
      · have hplace := h place
        rw [hnode.viewFrom?_child hchild hleads, label_mk] at hplace
        rw [hplace, hkey]
        rw [hkey] at hleads
        exact hother.viewFrom?_child htwin hleads
      · rw [viewFrom?_of_not_leads hleads, viewFrom?_of_not_leads hleads]
    exact ih _ hchild ((wellFormed_mk.mp hnode).2.2 _ hchild)
      ((wellFormed_mk.mp hother).2.2 _ htwin) hbelow

/-! ## Changing the node at one place -/

/-- A change at one place changes nothing that is not at or below it. -/
theorem WellFormed.viewFrom?_updateAt {change : Node → Node} (hkeeps : Keeps change)
    {root : Node} {steps : Path} (hroot : root.WellFormed)
    (hnode : (path ++ steps, node) ∈ walk path root) (hchange : (change node).WellFormed)
    (place : Path) :
    viewFrom? path (Node.updateAt change (Path.names steps) root) place =
      if path ++ steps <+: place then viewFrom? (path ++ steps) (change node) place
      else viewFrom? path root place := by
  induction root generalizing path steps with
  | mk label children ih =>
    have hformed' := hroot.updateAt hkeeps hnode hchange
    rcases mem_walk_iff.mp hnode with ⟨hplace, rfl⟩ | ⟨child, hchild, hbelow⟩
    · obtain rfl : steps = [] := by simpa using hplace
      simp only [Path.names, List.filterMap_nil, Node.updateAt, List.append_nil]
      split
      · rfl
      · rename_i hleads
        rw [viewFrom?_of_not_leads hleads, viewFrom?_of_not_leads hleads]
    · obtain ⟨deeper, rfl⟩ := exists_steps hbelow
      obtain ⟨hkeys, -, hformed⟩ := wellFormed_mk.mp hroot
      rw [label_mk, ← List.append_assoc] at hbelow
      rw [label_mk] at hformed' ⊢
      have hstep := ih child hchild (hformed child hchild) hbelow
      have hkey := (hkeeps.updateAt (Path.names deeper)).key child
      obtain ⟨front, rest, rfl⟩ := List.append_of_mem hchild
      rw [names_below, Node.updateAt, map_update_eq _ hkeys] at hformed' ⊢
      rw [List.append_assoc] at hstep
      by_cases hself : place = path
      · subst hself
        have hnot : ¬place ++ (Address.below label.kind.isArray child.key ++ deeper) <+: place := by
          rw [← List.append_assoc]
          exact fun h => not_below_prefix_self _ _ _ ((List.prefix_append _ _).trans h)
        simp [hnot, view, hkey]
      by_cases hleads : path ++ Address.below label.kind.isArray child.key <+: place
      · have hupdated : Node.updateAt change (Path.names deeper) child ∈
            front ++ Node.updateAt change (Path.names deeper) child :: rest := by simp
        rw [hformed'.viewFrom?_child hupdated (by rwa [hkey]), label_mk, hkey, hstep,
          hroot.viewFrom?_child hchild hleads, label_mk]
      · -- The place is not below the changed child, so the other children decide.
        rw [if_neg fun h => hleads ((List.prefix_append_right_inj path).mpr
          (List.prefix_append _ deeper) |>.trans h)]
        refine hroot.viewFrom?_congr hformed' rfl hself fun twin htwin => ?_
        have hne : twin.key ≠ child.key := fun h => hleads (h ▸ htwin)
        have hne' : twin ≠ child := fun h => hne (congrArg key h)
        have hne'' : twin ≠ Node.updateAt change (Path.names deeper) child := fun h =>
          hne (by rw [h, hkey])
        simp [hne', hne'']

/-! ## Operations on a node -/

/-- Children in another order leave everything below the node as it is. -/
theorem WellFormed.viewFrom?_rearrange (hnode : node.WellFormed)
    {change : List Node → List Node} (h : (change node.children).Perm node.children) :
    viewFrom? path (Node.rearrange change node) place =
      if place = path then some ⟨node.label, (change node.children).map key⟩
      else viewFrom? path node place := by
  have hformed := hnode.rearrange h
  cases node with
  | mk label children =>
    split
    · subst place
      simp [view, Node.rearrange]
    · rename_i hne
      exact hnode.viewFrom?_congr hformed rfl hne fun child _ => h.mem_iff

/-- A node without one of its children shows nothing below that child. -/
theorem WellFormed.viewFrom?_detach (hnode : node.WellFormed) {index : Nat} {child : Node}
    (hchild : node.children[index]? = some child) :
    viewFrom? path (Node.detach index node) place =
      if path ++ Address.below node.label.kind.isArray child.key <+: place then none
      else if place = path then some ⟨node.label, (node.children.map key).erase child.key⟩
      else viewFrom? path node place := by
  have hformed := hnode.detach index
  cases node with
  | mk label children =>
    obtain ⟨hkeys, -, -⟩ := wellFormed_mk.mp hnode
    obtain ⟨hlt, rfl⟩ := List.getElem?_eq_some_iff.mp hchild
    simp only [children_mk, label_mk] at hlt ⊢
    have hperm : (children[index] :: children.eraseIdx index).Perm children :=
      List.getElem_cons_eraseIdx_perm hlt
    have hothers : ∀ other ∈ children.eraseIdx index, other.key ≠ children[index].key := by
      have hnodup := (hperm.map key).nodup_iff.mpr hkeys
      rw [List.map_cons, List.nodup_cons] at hnodup
      exact fun other hother heq => hnodup.1 (heq ▸ List.mem_map_of_mem hother)
    by_cases hself : place = path
    · subst hself
      have hnot := not_below_prefix_self place label.kind.isArray children[index].key
      have herase := hkeys.erase_getElem index (by simpa using hlt)
      rw [List.getElem_map, List.eraseIdx_map] at herase
      simp [hnot, view, Node.detach, Node.rearrange, herase]
    split
    · rename_i hleads
      refine viewFrom?_of_no_child hself fun other hother hlead => ?_
      exact hothers other hother (below_prefix_below hlead hleads)
    · rename_i hleads
      refine hnode.viewFrom?_congr hformed rfl hself fun other hother => ?_
      have hne : other ≠ children[index] := fun h => hleads (h ▸ hother)
      rw [children_mk, ← hperm.mem_iff]
      simp [Node.detach, Node.rearrange, hne]

/-- A container that a child was put into shows below it what the child shows. -/
theorem WellFormed.viewFrom?_attach (hnode : node.WellFormed) {child : Node}
    (hformed : (Node.attach child node).WellFormed) :
    viewFrom? path (Node.attach child node) place =
      if path ++ Address.below node.label.kind.isArray child.key <+: place then
        viewFrom? (path ++ Address.below node.label.kind.isArray child.key) child place
      else if place = path then some ⟨opened node.label, node.children.map key ++ [child.key]⟩
      else viewFrom? path node place := by
  cases node with
  | mk label children =>
    split
    · rename_i hleads
      have hchild : child ∈ (Node.attach child (.mk label children)).children := by
        simp [Node.attach]
      exact hformed.viewFrom?_child hchild hleads
    · rename_i hleads
      split
      · subst place
        simp [view, Node.attach, opened]
      · rename_i hself
        refine hnode.viewFrom?_congr hformed rfl hself fun other hother => ?_
        have hne : other ≠ child := fun h => hleads (h ▸ hother)
        simp [Node.attach, hne]

end Node

/-- A view as it is shown at another path: the label stores the address of that path. -/
def View.shownAt (view : View) (path : Path) : View :=
  { view with label := { view.label with address := path.address } }

namespace Node

/-- A node with new addresses shows at each place below its new path what it showed at the same
steps from its old path. -/
theorem WellFormed.viewFrom?_readdress {node : Node} (hnode : node.WellFormed)
    (path old rest : Path) :
    viewFrom? path (Node.readdress path.address node) (path ++ rest) =
      (viewFrom? old node (old ++ rest)).map fun view => view.shownAt (path ++ rest) := by
  induction node generalizing path old rest with
  | mk label children ih =>
    have hformed := hnode.readdress path.address
    rw [Node.readdress, readdressAll_eq_map] at hformed ⊢
    by_cases hself : rest = []
    · subst hself
      simp [view, View.shownAt, key_readdress, Function.comp_def]
    have hne : ∀ front : Path, front ++ rest ≠ front := by simpa using hself
    by_cases hleads : ∃ child ∈ children, Address.below label.kind.isArray child.key <+: rest
    · obtain ⟨child, hchild, deeper, rfl⟩ := hleads
      let moved := Node.readdress (Address.child path.address child.key label.kind.isArray) child
      have hmoved : moved ∈ children.map fun child =>
          Node.readdress (Address.child path.address child.key label.kind.isArray) child :=
        List.mem_map.mpr ⟨child, hchild, rfl⟩
      have hkey : moved.key = child.key := key_readdress _ _
      rw [hformed.viewFrom?_child hmoved (by simp [hkey]),
        hnode.viewFrom?_child hchild (by simp), hkey, label_mk, label_mk, ← List.append_assoc,
        ← List.append_assoc]
      have hstep := ih child hchild ((wellFormed_mk.mp hnode).2.2 child hchild)
        (path ++ Address.below label.kind.isArray child.key)
        (old ++ Address.below label.kind.isArray child.key) deeper
      rwa [← Address.child_address] at hstep
    · push Not at hleads
      rw [viewFrom?_of_no_child (hne path), viewFrom?_of_no_child (hne old), Option.map_none]
      · intro child hchild
        rw [List.prefix_append_right_inj]
        exact hleads child hchild
      · intro child hchild
        obtain ⟨other, hother, rfl⟩ := List.mem_map.mp hchild
        rw [List.prefix_append_right_inj, key_readdress]
        exact hleads other hother

/-! ## Changes of an outline -/

/-- At and below a located node an outline shows what the node shows. -/
theorem WellFormed.viewAt?_of_leads {root : Node} (hroot : root.WellFormed) {found : Located}
    (hfound : found ∈ root.located) {place : Path} (hleads : found.path <+: place) :
    root.viewAt? place = viewFrom? found.path found.node place := by
  rw [mem_located] at hfound
  refine Option.ext fun view => ?_
  rw [viewAt?, hroot.viewFrom?_eq_some_iff, (hroot.of_mem_walk hfound).viewFrom?_eq_some_iff]
  refine exists_congr fun node => and_congr_left fun _ => ?_
  exact ⟨fun h => hroot.mem_walk_of_leads hfound h hleads, mem_walk_trans hfound⟩

/-- An outline shows the view of a located node at its path. -/
theorem WellFormed.viewAt?_eq {root : Node} (hroot : root.WellFormed) {found : Located}
    (hfound : found ∈ root.located) : root.viewAt? found.path = some found.node.view := by
  rw [hroot.viewAt?_of_leads hfound List.prefix_rfl, viewFrom?_self]

/-- What is shown at a place is the view of a node located there. -/
theorem exists_of_viewAt?_eq_some {root : Node} {place : Path} {view : View}
    (h : root.viewAt? place = some view) :
    ∃ found ∈ root.located, found.path = place ∧ found.node.view = view := by
  obtain ⟨⟨spot, node⟩, hfind, hview⟩ := Option.map_eq_some_iff.mp h
  refine ⟨⟨spot, node⟩, mem_located.mpr (List.mem_of_find?_eq_some hfind), ?_, hview⟩
  simpa using List.find?_some hfind

/-- A place that a path does not lead to is another one. -/
theorem ne_of_not_leads {path place : Path} (h : ¬path <+: place) : place ≠ path := by
  rintro rfl
  exact h List.prefix_rfl

section Changes

variable {root : Node} (hroot : root.WellFormed) {found : Located} (hfound : found ∈ root.located)

include hroot hfound

/-- The node at the place of a change is the changed one. -/
theorem WellFormed.mem_located_updateAt {change : Node → Node} (hkeeps : Keeps change) :
    ⟨found.path, change found.node⟩ ∈
      (root.updateAt change (Path.names found.path)).located := by
  have hwalk : ∀ (start steps : Path) (root : Node), root.WellFormed →
      (start ++ steps, found.node) ∈ walk start root →
      (start ++ steps, change found.node) ∈
        walk start (root.updateAt change (Path.names steps)) := by
    intro start steps root
    induction root generalizing start steps with
    | mk label children ih =>
      intro hroot hnode
      rcases mem_walk_iff.mp hnode with ⟨hplace, hself⟩ | ⟨child, hchild, hbelow⟩
      · obtain rfl : steps = [] := by simpa using hplace
        rw [← hself, List.append_nil]
        simpa [Path.names, Node.updateAt] using mem_walk_self start (change found.node)
      · obtain ⟨deeper, rfl⟩ := exists_steps hbelow
        obtain ⟨hkeys, -, hformed⟩ := wellFormed_mk.mp hroot
        rw [label_mk, ← List.append_assoc] at hbelow
        have hstep := ih child hchild _ deeper (hformed child hchild) hbelow
        obtain ⟨front, rest, rfl⟩ := List.append_of_mem hchild
        rw [label_mk, names_below, Node.updateAt, map_update_eq _ hkeys]
        refine mem_walk_iff.mpr (.inr ⟨Node.updateAt change (Path.names deeper) child, by simp, ?_⟩)
        rwa [label_mk, (hkeeps.updateAt _).key, ← List.append_assoc]
  exact mem_located.mpr (hwalk [] found.path root hroot (mem_located.mp hfound))

/-- An outline after a change at one place. -/
theorem WellFormed.viewAt?_updateAt {change : Node → Node} (hkeeps : Keeps change)
    (hchange : (change found.node).WellFormed) (place : Path) :
    (root.updateAt change (Path.names found.path)).viewAt? place =
      if found.path <+: place then viewFrom? found.path (change found.node) place
      else root.viewAt? place := by
  have hnode : ([] ++ found.path, found.node) ∈ walk [] root := mem_located.mp hfound
  exact hroot.viewFrom?_updateAt hkeeps hnode hchange place

/-- An outline after the children of a node were put in another order. -/
theorem WellFormed.viewAt?_rearrange {change : List Node → List Node}
    (h : (change found.node.children).Perm found.node.children) (place : Path) :
    (root.updateAt (Node.rearrange change) (Path.names found.path)).viewAt? place =
      if place = found.path then
        some ⟨found.node.label, (change found.node.children).map key⟩
      else root.viewAt? place := by
  have hnode := hroot.of_mem_walk (mem_located.mp hfound)
  rw [hroot.viewAt?_updateAt hfound (keeps_rearrange _) (hnode.rearrange h),
    hnode.viewFrom?_rearrange h]
  by_cases hleads : found.path <+: place
  · rw [if_pos hleads, hroot.viewAt?_of_leads hfound hleads]
  · rw [if_neg hleads, if_neg (ne_of_not_leads hleads)]

/-- An outline after a child was taken off a node. -/
theorem WellFormed.viewAt?_detach {index : Nat} {child : Node}
    (hchild : found.node.children[index]? = some child) (place : Path) :
    (root.updateAt (Node.detach index) (Path.names found.path)).viewAt? place =
      if found.childPath child.key <+: place then none
      else if place = found.path then
        some ⟨found.node.label, (found.node.children.map key).erase child.key⟩
      else root.viewAt? place := by
  have hnode := hroot.of_mem_walk (mem_located.mp hfound)
  have hkeeps : Keeps (Node.detach index) := keeps_rearrange _
  rw [hroot.viewAt?_updateAt hfound hkeeps (hnode.detach index),
    hnode.viewFrom?_detach hchild, ← childPath_eq]
  by_cases hleads : found.path <+: place
  · rw [if_pos hleads, hroot.viewAt?_of_leads hfound hleads]
  · have hbelow : ¬found.childPath child.key <+: place := fun h =>
      hleads ((childPath_eq found _ ▸ List.prefix_append _ _).trans h)
    rw [if_neg hleads, if_neg hbelow, if_neg (ne_of_not_leads hleads)]

/-- An outline after a child was put into a node. -/
theorem WellFormed.viewAt?_attach {child : Node}
    (hformed : (Node.attach child found.node).WellFormed) (place : Path) :
    (root.updateAt (Node.attach child) (Path.names found.path)).viewAt? place =
      if found.childPath child.key <+: place then
        viewFrom? (found.childPath child.key) child place
      else if place = found.path then
        some ⟨opened found.node.label, found.node.children.map key ++ [child.key]⟩
      else root.viewAt? place := by
  have hnode := hroot.of_mem_walk (mem_located.mp hfound)
  rw [hroot.viewAt?_updateAt hfound (keeps_attach _) hformed,
    hnode.viewFrom?_attach hformed, ← childPath_eq]
  by_cases hleads : found.path <+: place
  · rw [if_pos hleads, hroot.viewAt?_of_leads hfound hleads]
  · have hbelow : ¬found.childPath child.key <+: place := fun h =>
      hleads ((childPath_eq found _ ▸ List.prefix_append _ _).trans h)
    rw [if_neg hleads, if_neg hbelow, if_neg (ne_of_not_leads hleads)]

end Changes

end Node

end Projector
