import Mathlib.Algebra.BigOperators.Group.List.Basic
import Mathlib.Algebra.Order.Group.Multiset
import Mathlib.Tactic.Abel
import Projector.Outline.Edit
import Projector.Proofs.FreshOutlines

/-!
# What an edit does to the places of an outline

An outline is seen here as the collection of its places, each with the label shown there. Changing
the node at one place exchanges the places at and below it and leaves all others as they are. From
this equation follows what taking a node out, putting it in, and rearranging children do.
-/

namespace Projector.Node

/-- The places at and below a node at a path, each with the label of its node. -/
def spots (path : Path) (node : Node) : Multiset (Path × Label) :=
  ↑((walk path node).map fun spot => (spot.1, spot.2.label))

/-- The places of a node are its own and those of its children. -/
theorem spots_mk (path : Path) (label : Label) (children : List Node) :
    spots path (.mk label children) = {(path, label)} + (children.map fun child =>
      spots (path ++ Address.below label.kind.isArray child.key) child).sum := by
  unfold spots
  rw [walk, List.map_cons, ← Multiset.cons_coe, ← Multiset.singleton_add, walkAll_eq_flatMap]
  simp only [inner_append]
  congr 1
  induction children with
  | nil => rfl
  | cons child rest ih => simp [← Multiset.coe_add, ih]

/-- A place with its label belongs to a node that the walk lists. -/
theorem mem_spots {path place : Path} {node : Node} {label : Label} :
    (place, label) ∈ spots path node ↔
      ∃ found, (place, found) ∈ walk path node ∧ found.label = label := by
  simp [spots]

/-! ## Changing one node -/

/-- A change that leaves the key and the kind of every node. -/
structure Keeps (change : Node → Node) : Prop where
  key : ∀ node, (change node).key = node.key
  kind : ∀ node, (change node).label.kind = node.label.kind

/-- A change at some place leaves the key and the kind of the root as well. -/
theorem Keeps.updateAt {change : Node → Node} (h : Keeps change) (keys : List String) :
    Keeps (updateAt change keys) := by
  cases keys with
  | nil => exact ⟨fun node => by rw [Node.updateAt]; exact h.key node,
      fun node => by rw [Node.updateAt]; exact h.kind node⟩
  | cons key keys => exact ⟨fun node => by cases node; rfl, fun node => by cases node; rfl⟩

/-- The keys on the steps to a child and on from there. -/
theorem names_below (inArray : Bool) (key : String) (steps : Path) :
    Path.names (Address.below inArray key ++ steps) = key :: Path.names steps := by
  cases inArray <;> rfl

/-- Of children with different keys no other one has the key of one of them. -/
theorem key_ne_of_nodup {front rest : List Node} {child : Node}
    (hkeys : ((front ++ child :: rest).map key).Nodup) :
    ∀ other ∈ front ++ rest, other.key ≠ child.key := by
  have hmiddle : (front ++ child :: rest).Perm (child :: (front ++ rest)) := List.perm_middle
  have hperm := hmiddle.map key
  have hnodup := hperm.nodup_iff.mp hkeys
  rw [List.map_cons, List.nodup_cons] at hnodup
  exact fun other hmem heq => hnodup.1 (heq ▸ List.mem_map_of_mem hmem)

/-- Among children with different keys only the one under a key is changed. -/
theorem map_update_eq {front rest : List Node} {child : Node} (change : Node → Node)
    (hkeys : ((front ++ child :: rest).map key).Nodup) :
    ((front ++ child :: rest).map fun other =>
      if other.key = child.key then change other else other) = front ++ change child :: rest := by
  have hother := key_ne_of_nodup hkeys
  have hsame : ∀ others : List Node, (∀ other ∈ others, other.key ≠ child.key) →
      (others.map fun other => if other.key = child.key then change other else other) = others := by
    intro others h
    conv_rhs => rw [← List.map_id others]
    exact List.map_congr_left fun other hmem => by simp [h other hmem]
  rw [List.map_append, List.map_cons, if_pos rfl,
    hsame front fun other hmem => hother other (List.mem_append_left _ hmem),
    hsame rest fun other hmem => hother other (List.mem_append_right _ hmem)]

/-- A node listed below a child is reached by the steps to the child and the steps on from there. -/
theorem exists_steps {path steps : Path} {inArray : Bool} {child found : Node}
    (h : (path ++ steps, found) ∈ walk (path ++ Address.below inArray child.key) child) :
    ∃ deeper, steps = Address.below inArray child.key ++ deeper := by
  obtain ⟨deeper, hdeeper⟩ := prefix_of_mem_walk h
  rw [List.append_assoc, List.append_cancel_left_eq] at hdeeper
  exact ⟨deeper, hdeeper.symm⟩

/-- A change at one place exchanges the places at and below it. -/
theorem spots_updateAt {change : Node → Node} (hkeeps : Keeps change) {path steps : Path}
    {root node : Node} (hroot : root.WellFormed) (hnode : (path ++ steps, node) ∈ walk path root) :
    spots path (updateAt change (Path.names steps) root) + spots (path ++ steps) node =
      spots path root + spots (path ++ steps) (change node) := by
  induction root generalizing path steps with
  | mk label children ih =>
    rcases mem_walk_iff.mp hnode with ⟨hplace, rfl⟩ | ⟨child, hchild, hbelow⟩
    · obtain rfl : steps = [] := by simpa using hplace
      simp only [List.append_nil, Path.names, List.filterMap_nil, updateAt]
      exact add_comm _ _
    · obtain ⟨deeper, rfl⟩ := exists_steps hbelow
      obtain ⟨hkeys, -, hformed⟩ := wellFormed_mk.mp hroot
      rw [label_mk, ← List.append_assoc] at hbelow
      have hstep := ih child hchild (hformed child hchild) hbelow
      obtain ⟨front, rest, rfl⟩ := List.append_of_mem hchild
      rw [label_mk, names_below, updateAt, map_update_eq _ hkeys, spots_mk, spots_mk]
      simp only [List.map_append, List.map_cons, List.sum_append, List.sum_cons,
        (hkeeps.updateAt _).key, ← List.append_assoc]
      rw [← add_assoc, ← add_assoc, add_right_comm, add_right_comm _ _ (spots _ (change node))]
      rw [add_assoc _ (spots _ (updateAt _ _ child)), hstep]
      abel

/-- A change at one place keeps an outline well formed when it keeps the node there so. -/
theorem WellFormed.updateAt {change : Node → Node} (hkeeps : Keeps change) {path steps : Path}
    {root node : Node} (hroot : root.WellFormed) (hnode : (path ++ steps, node) ∈ walk path root)
    (hchange : (change node).WellFormed) :
    (Node.updateAt change (Path.names steps) root).WellFormed := by
  induction root generalizing path steps with
  | mk label children ih =>
    rcases mem_walk_iff.mp hnode with ⟨hplace, rfl⟩ | ⟨child, hchild, hbelow⟩
    · obtain rfl : steps = [] := by simpa using hplace
      simpa [Path.names, Node.updateAt] using hchange
    · obtain ⟨deeper, rfl⟩ := exists_steps hbelow
      obtain ⟨hkeys, hkind, hformed⟩ := wellFormed_mk.mp hroot
      rw [label_mk, ← List.append_assoc] at hbelow
      have hstep := ih child hchild (hformed child hchild) hbelow
      obtain ⟨front, rest, rfl⟩ := List.append_of_mem hchild
      rw [label_mk, names_below, Node.updateAt, map_update_eq _ hkeys]
      refine wellFormed_mk.mpr ⟨?_, fun h => absurd (hkind h) (by simp), ?_⟩
      · simpa [(hkeeps.updateAt _).key] using hkeys
      · intro other hother
        rcases List.mem_append.mp hother with h | h
        · exact hformed other (List.mem_append_left _ h)
        · rcases List.mem_cons.mp h with rfl | h
          · exact hstep
          · exact hformed other (List.mem_append_right _ (List.mem_cons_of_mem _ h))

/-! ## The edits -/

/-- Setting the selection mark leaves keys and kinds. -/
theorem keeps_setSelected (selected : Bool) : Keeps (setSelected selected) :=
  ⟨fun node => by cases node; rfl, fun node => by cases node; rfl⟩

/-- Rearranging children leaves keys and kinds. -/
theorem keeps_rearrange (change : List Node → List Node) : Keeps (rearrange change) :=
  ⟨fun node => by cases node; rfl, fun node => by cases node; rfl⟩

/-- Taking a child in leaves keys and kinds. -/
theorem keeps_attach (child : Node) : Keeps (attach child) :=
  ⟨fun node => by cases node; rfl, fun node => by cases node; rfl⟩

/-- Children in another order have the same places. -/
theorem spots_rearrange {change : List Node → List Node} (path : Path) {node : Node}
    (h : (change node.children).Perm node.children) :
    spots path (rearrange change node) = spots path node := by
  cases node with
  | mk label children =>
    rw [children_mk] at h
    rw [rearrange, spots_mk, spots_mk, (h.map _).sum_eq]

/-- Children in another order keep a node well formed. -/
theorem WellFormed.rearrange {change : List Node → List Node} {node : Node}
    (hnode : node.WellFormed) (h : (change node.children).Perm node.children) :
    (Node.rearrange change node).WellFormed := by
  cases node with
  | mk label children =>
    obtain ⟨hkeys, hkind, hformed⟩ := wellFormed_mk.mp hnode
    refine wellFormed_mk.mpr ⟨(h.map key).nodup_iff.mpr hkeys, fun hleaf => ?_, ?_⟩
    · exact List.Perm.eq_nil (hkind hleaf ▸ h)
    · exact fun child hchild => hformed child (h.mem_iff.mp hchild)

/-- Moving an item to a position that is there loses no item. -/
theorem shift_perm {α : Type} (items : List α) (source : Nat) {target : Nat}
    (htarget : target < items.length) : (shift items source target).Perm items := by
  unfold shift
  cases hsource : items[source]? with
  | none => exact List.Perm.refl _
  | some item =>
    obtain ⟨hlt, rfl⟩ := List.getElem?_eq_some_iff.mp hsource
    have hlength : target ≤ (items.eraseIdx source).length := by
      rw [List.length_eraseIdx_of_lt hlt]; omega
    exact (List.perm_insertIdx _ _ hlength).trans (List.getElem_cons_eraseIdx_perm hlt)

/-- The places of a node are those it has without one of its children and those of the child. -/
theorem spots_detach (path : Path) {node child : Node} {index : Nat}
    (hchild : node.children[index]? = some child) :
    spots path (detach index node) +
        spots (path ++ Address.below node.label.kind.isArray child.key) child =
      spots path node := by
  cases node with
  | mk label children =>
    obtain ⟨hlt, rfl⟩ := List.getElem?_eq_some_iff.mp hchild
    have hperm := List.getElem_cons_eraseIdx_perm hlt
    simp only [children_mk, label_mk] at hperm ⊢
    rw [detach, rearrange, spots_mk, spots_mk, ← (hperm.map _).sum_eq, List.map_cons, List.sum_cons]
    abel

/-- Without one of its children a node stays well formed. -/
theorem WellFormed.detach {node : Node} (hnode : node.WellFormed) (index : Nat) :
    (Node.detach index node).WellFormed := by
  cases node with
  | mk label children =>
    obtain ⟨hkeys, hkind, hformed⟩ := wellFormed_mk.mp hnode
    have hsub := List.eraseIdx_sublist children index
    refine wellFormed_mk.mpr ⟨(hsub.map key).nodup hkeys, fun hleaf => ?_, ?_⟩
    · simp [hkind hleaf]
    · exact fun child hchild => hformed child (hsub.subset hchild)

/-- A container that a child was put into. -/
def opened (label : Label) : Label := { label with expanded := true, selected := false }

/-- The places of a container that a child was put into. -/
theorem spots_attach (path : Path) (child node : Node) :
    spots path (attach child node) + {(path, node.label)} =
      spots path node + {(path, opened node.label)} +
        spots (path ++ Address.below node.label.kind.isArray child.key) child := by
  cases node with
  | mk label children =>
    rw [attach, spots_mk, spots_mk, List.map_append, List.sum_append]
    simp only [List.map_cons, List.map_nil, List.sum_cons, List.sum_nil, label_mk, opened]
    abel

/-- A container takes in a child whose key none of its children has. -/
theorem WellFormed.attach {child node : Node} (hnode : node.WellFormed) (hchild : child.WellFormed)
    (hkind : node.label.kind.isContainer = true)
    (hkey : ∀ other ∈ node.children, other.key ≠ child.key) :
    (Node.attach child node).WellFormed := by
  cases node with
  | mk label children =>
    obtain ⟨hkeys, -, hformed⟩ := wellFormed_mk.mp hnode
    refine wellFormed_mk.mpr ⟨?_, fun hleaf => absurd hleaf (by simpa using hkind), ?_⟩
    · rw [List.map_append, List.nodup_append]
      refine ⟨hkeys, by simp, ?_⟩
      simpa using hkey
    · intro other hother
      rcases List.mem_append.mp hother with h | h
      · exact hformed other h
      · rwa [List.mem_singleton.mp h]

/-! ## New addresses -/

/-- The children of a node with new addresses. -/
theorem readdressAll_eq_map (parent : String) (inArray : Bool) (children : List Node) :
    readdressAll parent inArray children =
      children.map fun child => readdress (Address.child parent child.key inArray) child := by
  induction children with
  | nil => rfl
  | cons child rest ih => simp [readdressAll, ih]

/-- A node with new addresses has the key that it had. -/
theorem key_readdress (address : String) (node : Node) :
    (readdress address node).key = node.key := by
  cases node; rfl

/-- New addresses keep a node well formed. -/
theorem WellFormed.readdress {node : Node} (hnode : node.WellFormed) (address : String) :
    (Node.readdress address node).WellFormed := by
  induction node generalizing address with
  | mk label children ih =>
    obtain ⟨hkeys, hkind, hformed⟩ := wellFormed_mk.mp hnode
    rw [Node.readdress, readdressAll_eq_map]
    refine wellFormed_mk.mpr ⟨?_, fun hleaf => by simp [hkind hleaf], ?_⟩
    · simpa [key_readdress, Function.comp_def] using hkeys
    · intro child hchild
      obtain ⟨other, hother, rfl⟩ := List.mem_map.mp hchild
      exact ih other hother (hformed other hother) _

/-- What becomes of a place when the node that some steps lead to it from is shown elsewhere. -/
def movedTo (path : Path) (length : Nat) (spot : Path × Label) : Path × Label :=
  (path ++ spot.1.drop length,
    { spot.2 with address := Path.address (path ++ spot.1.drop length) })

/-- A node that is shown at another path takes all places below it along. -/
theorem spots_readdress (path old : Path) (node : Node) :
    spots path (readdress path.address node) = (spots old node).map (movedTo path old.length) := by
  induction node generalizing path old with
  | mk label children ih =>
    rw [readdress, readdressAll_eq_map, spots_mk, spots_mk]
    simp only [Multiset.map_add, Multiset.map_singleton, List.map_map, Function.comp_def,
      key_readdress, Address.child_address]
    congr 1
    · simp [movedTo]
    · rw [← Multiset.coe_mapAddMonoidHom, map_list_sum, List.map_map]
      refine congrArg List.sum (List.map_congr_left fun child hchild => ?_)
      rw [ih child hchild _ (old ++ Address.below label.kind.isArray child.key)]
      refine Multiset.map_congr rfl ?_
      rintro ⟨place, found⟩ hspot
      obtain ⟨_, hfound, -⟩ := mem_spots.mp hspot
      obtain ⟨steps, rfl⟩ := prefix_of_mem_walk hfound
      simp [movedTo]

end Projector.Node
