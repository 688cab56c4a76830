import Projector.Proofs.OutlineEdits

/-!
# Looking addresses up

In an outline whose nodes store the addresses of their paths and whose siblings have different keys,
an address belongs to at most one node. Looking it up finds that node, and looking for its parent
finds the one node that has it as a child, and its only position there.
-/

namespace Projector.Node

/-- What every outline keeps: different keys, and the addresses of paths. -/
structure Consistent (root : Node) : Prop where
  wellFormed : root.WellFormed
  addressed : Everywhere Addressed [] root

/-- A located node is one that the walk from the root lists with its path. -/
theorem mem_located {root : Node} {found : Located} :
    found ∈ root.located ↔ (found.path, found.node) ∈ walk [] root := by
  simp only [located, List.mem_map, Prod.exists]
  constructor
  · rintro ⟨path, node, hmem, rfl⟩
    exact hmem
  · exact fun h => ⟨found.path, found.node, h, rfl⟩

/-- The root is located at the empty path. -/
theorem root_mem_located (root : Node) : ⟨[], root⟩ ∈ root.located :=
  mem_located.mpr (mem_walk_self [] root)

/-- The path of a child, as the steps from its parent. -/
theorem childPath_eq (parent : Located) (key : String) :
    parent.childPath key =
      parent.path ++ Address.below parent.node.label.kind.isArray key := by
  rw [Located.childPath, inner_append]

/-- The children of a located node are located. -/
theorem child_mem_located {root : Node} {parent : Located} {child : Node}
    (hparent : parent ∈ root.located) (hchild : child ∈ parent.node.children) :
    ⟨parent.childPath child.key, child⟩ ∈ root.located := by
  rw [mem_located] at hparent ⊢
  rw [childPath_eq]
  exact mem_walk_child hparent hchild

/-- A located node is the root or the child of a located node. -/
theorem exists_parent_located {root : Node} {found : Located} (hfound : found ∈ root.located) :
    found = ⟨[], root⟩ ∨ ∃ parent ∈ root.located, found.node ∈ parent.node.children ∧
      found.path = parent.childPath found.node.key := by
  obtain ⟨path, node⟩ := found
  rcases exists_parent (mem_located.mp hfound) with ⟨hpath, hnode⟩ | ⟨place, parent, hparent, h⟩
  · left
    rw [show path = [] from hpath, show node = root from hnode]
  · exact .inr ⟨⟨place, parent⟩, mem_located.mpr hparent, h.1, by rw [childPath_eq]; exact h.2⟩

/-- The path of a located node is empty or ends with a key. -/
theorem path_eq_nil_or_field {root : Node} {found : Located} (hfound : found ∈ root.located) :
    found.path = [] ∨ ∃ front, found.path = front ++ [.field found.node.key] := by
  rcases exists_parent_located hfound with rfl | ⟨parent, -, -, hpath⟩
  · exact .inl rfl
  · exact .inr ⟨_, hpath⟩

/-- The path of a located node does not end at the elements of a list. -/
theorem path_ne_each {root : Node} {found : Located} (hfound : found ∈ root.located)
    (front : Path) : found.path ≠ front ++ [.each] := by
  intro heach
  rcases path_eq_nil_or_field hfound with hpath | ⟨other, hpath⟩
  · simp [hpath] at heach
  · rw [hpath] at heach
    simpa using (List.append_inj' heach rfl).2

/-- Two located parents have a child path in common only when they are at the same path. -/
theorem parent_path_eq {root : Node} {parent other : Located} (hparent : parent ∈ root.located)
    (hother : other ∈ root.located) {key otherKey : String}
    (h : parent.childPath key = other.childPath otherKey) :
    parent.path = other.path ∧ key = otherKey := by
  rw [childPath_eq, childPath_eq] at h
  obtain ⟨hpath, -, hkey⟩ := Address.below_inj (path_ne_each hparent) (path_ne_each hother) h
  exact ⟨hpath, hkey⟩

/-- A node at or below the place of another is listed by the walk from the other. -/
theorem WellFormed.mem_walk_of_leads {root node found : Node} {path place : Path}
    (hroot : root.WellFormed) (hnode : (path, node) ∈ walk [] root)
    (hfound : (place, found) ∈ walk [] root) (hleads : path <+: place) :
    (place, found) ∈ walk path node := by
  induction hlength : place.length using Nat.strong_induction_on generalizing place found with
  | _ length ih =>
    by_cases hsame : path = place
    · subst hsame
      rw [hroot.eq_of_mem_walk hfound hnode]
      exact mem_walk_self _ _
    · rcases exists_parent hfound with ⟨rfl, -⟩ | ⟨parent, around, hparent, hchild, rfl⟩
      · exact absurd (List.prefix_nil.mp hleads) hsame
      · have hup : path <+: parent := by
          rw [Address.below, ← List.append_assoc, List.prefix_concat_iff] at hleads
          rcases hleads with heq | hleads
          · exact absurd (by rw [heq, Address.below, List.append_assoc]) hsame
          · split at hleads
            · have hlocated : ⟨path, node⟩ ∈ root.located := mem_located.mpr hnode
              rw [List.prefix_concat_iff] at hleads
              exact hleads.resolve_left (path_ne_each hlocated _)
            · simpa using hleads
        refine mem_walk_child (ih parent.length ?_ hparent hup rfl) hchild
        rw [← hlength]
        simp [Address.below]

/-- A list on the way to a located node is located. -/
theorem exists_list {root found : Node} {place list : Path}
    (hfound : (place, found) ∈ walk [] root) (hleads : list ++ [.each] <+: place) :
    ∃ node, (list, node) ∈ walk [] root ∧ node.label.kind.isArray = true := by
  induction hlength : place.length using Nat.strong_induction_on generalizing place found with
  | _ length ih =>
    rcases exists_parent hfound with ⟨rfl, -⟩ | ⟨parent, around, hparent, hchild, rfl⟩
    · simp at hleads
    · have hdeeper : list ++ [.each] <+: parent → ∃ node, (list, node) ∈ walk [] root ∧
          node.label.kind.isArray = true := fun h =>
        ih parent.length (by rw [← hlength]; simp [Address.below]) hparent h rfl
      rw [Address.below, ← List.append_assoc, List.prefix_concat_iff] at hleads
      rcases hleads with heq | hleads
      · simpa using (List.append_inj' heq rfl).2
      · split at hleads
        · rename_i hkind
          rw [List.prefix_concat_iff] at hleads
          rcases hleads with heq | hleads
          · rw [(List.append_inj' heq rfl).1]
            exact ⟨around, hparent, hkind⟩
          · exact hdeeper hleads
        · exact hdeeper (by simpa using hleads)

/-- A chosen node has no children. -/
theorem children_of_isChosen {node : Node} (hformed : node.WellFormed)
    (hchosen : node.isChosen = true) : node.children = [] := by
  cases node with
  | mk label children =>
    have hselectable : (Node.mk label children).isSelectable = true := by
      simp only [isChosen, Bool.and_eq_true] at hchosen
      exact hchosen.2
    unfold isSelectable at hselectable
    cases hkind : label.kind with
    | leaf value => exact (wellFormed_mk.mp hformed).2.1 (by rw [hkind]; rfl)
    | array arity => simpa [hkind] using hselectable
    | object => simp [hkind] at hselectable

/-- Looking an address up finds nothing when no node stores it. -/
theorem locate?_eq_none_iff {root : Node} {address : String} :
    root.locate? address = none ↔ ∀ found ∈ root.located, found.address ≠ address := by
  simp [locate?]

namespace Consistent

variable {root : Node} (hroot : root.Consistent)

include hroot

/-- A located node stores the address of its path. -/
theorem address_eq {found : Located} (hfound : found ∈ root.located) :
    found.address = found.path.address :=
  hroot.addressed _ _ (mem_located.mp hfound)

/-- Located nodes at the same path are the same. -/
theorem eq_of_path {found other : Located} (hfound : found ∈ root.located)
    (hother : other ∈ root.located) (hpath : found.path = other.path) : found = other := by
  obtain ⟨path, node⟩ := found
  obtain ⟨path', node'⟩ := other
  obtain rfl : path = path' := hpath
  have hnode : node = node' :=
    hroot.wellFormed.eq_of_mem_walk (mem_located.mp hfound) (mem_located.mp hother)
  rw [hnode]

/-- Located nodes with the same address are the same. -/
theorem eq_of_address {found other : Located} (hfound : found ∈ root.located)
    (hother : other ∈ root.located) (haddress : found.address = other.address) : found = other := by
  rw [hroot.address_eq hfound, hroot.address_eq hother, Address.address_inj] at haddress
  exact hroot.eq_of_path hfound hother haddress

/-- No address is stored twice. -/
theorem nodup_addresses : (root.located.map Located.address).Nodup := by
  have hpaths : (root.located.map Located.path).Nodup := by
    simpa [located, Function.comp_def] using hroot.wellFormed.nodup_paths []
  refine List.Nodup.map_on (fun found hfound other hother => hroot.eq_of_address hfound hother) ?_
  exact List.Nodup.of_map _ hpaths

/-- Looking an address up finds the node that stores it. -/
theorem locate?_eq_some_iff {address : String} {found : Located} :
    root.locate? address = some found ↔ found ∈ root.located ∧ found.address = address := by
  constructor
  · intro h
    exact ⟨List.mem_of_find?_eq_some h, by simpa using List.find?_some h⟩
  · rintro ⟨hfound, rfl⟩
    cases hlocate : root.locate? found.address with
    | none => simpa using List.find?_eq_none.mp hlocate found hfound
    | some other =>
      have haddress : other.address = found.address := by simpa using List.find?_some hlocate
      rw [hroot.eq_of_address (List.mem_of_find?_eq_some hlocate) hfound haddress]

/-- A child is at one position of one parent. -/
theorem position_unique {parent other : Located} {index position : Nat} {child twin : Node}
    (hparent : parent ∈ root.located) (hother : other ∈ root.located)
    (hchild : parent.node.children[index]? = some child)
    (htwin : other.node.children[position]? = some twin)
    (haddress : child.label.address = twin.label.address) : parent = other ∧ index = position := by
  have hsame := hroot.eq_of_address
    (child_mem_located hparent (List.mem_of_getElem? hchild))
    (child_mem_located hother (List.mem_of_getElem? htwin)) haddress
  obtain ⟨hpath, rfl⟩ := Located.mk.inj hsame
  obtain rfl := hroot.eq_of_path hparent hother (parent_path_eq hparent hother hpath).1
  refine ⟨rfl, ?_⟩
  obtain ⟨hindex, hchild⟩ := List.getElem?_eq_some_iff.mp hchild
  obtain ⟨hposition, htwin⟩ := List.getElem?_eq_some_iff.mp htwin
  have hformed := hroot.wellFormed.of_mem_walk (mem_located.mp hparent)
  cases hnode : parent.node with
  | mk label children =>
    rw [hnode] at hformed
    have hkeys := List.Nodup.of_map _ (wellFormed_mk.mp hformed).1
    have hchildren : parent.node.children = children := by rw [hnode, children_mk]
    rw [← hchildren] at hkeys
    exact (hkeys.getElem_inj_iff).mp (hchild.trans htwin.symm)

/-- Looking for the parent of an address finds the node whose child stores it, and the position of
that child. -/
theorem locateParent?_eq_some_iff {address : String} {parent : Located} {index : Nat} :
    root.locateParent? address = some (parent, index) ↔ parent ∈ root.located ∧
      ∃ child, parent.node.children[index]? = some child ∧ child.label.address = address := by
  have hfind : ∀ (other : Located) (position : Nat),
      (other.node.children.findIdx? fun child => decide (child.label.address = address)) =
        some position → ∃ child, other.node.children[position]? = some child ∧
          child.label.address = address := by
    intro other position h
    obtain ⟨hlt, haddress, -⟩ := List.findIdx?_eq_some_iff_getElem.mp h
    exact ⟨_, List.getElem?_eq_getElem hlt, by simpa using haddress⟩
  constructor
  · intro h
    obtain ⟨other, hother, hfound⟩ := List.exists_of_findSome?_eq_some h
    obtain ⟨position, hposition, heq⟩ := Option.map_eq_some_iff.mp hfound
    obtain ⟨rfl, rfl⟩ := Prod.mk.inj heq
    exact ⟨hother, hfind _ _ hposition⟩
  · rintro ⟨hparent, child, hchild, rfl⟩
    cases hlocate : root.locateParent? child.label.address with
    | none =>
      have hnone := List.findSome?_eq_none_iff.mp hlocate parent hparent
      rw [Option.map_eq_none_iff, List.findIdx?_eq_none_iff] at hnone
      simpa using hnone child (List.mem_of_getElem? hchild)
    | some result =>
      obtain ⟨other, position⟩ := result
      obtain ⟨other', hother, hfound⟩ := List.exists_of_findSome?_eq_some hlocate
      obtain ⟨position', hposition, heq⟩ := Option.map_eq_some_iff.mp hfound
      obtain ⟨rfl, rfl⟩ := Prod.mk.inj heq
      obtain ⟨twin, htwin, haddress⟩ := hfind _ _ hposition
      obtain ⟨rfl, rfl⟩ := hroot.position_unique hparent hother hchild htwin haddress.symm
      rfl

/-- Every node but the root is found as a child. -/
theorem exists_locateParent? {found : Located} (hfound : found ∈ root.located)
    (hne : found.path ≠ []) : ∃ parent index,
      root.locateParent? found.address = some (parent, index) ∧
      parent ∈ root.located ∧ parent.node.children[index]? = some found.node ∧
      found.path = parent.childPath found.node.key := by
  rcases exists_parent_located hfound with rfl | ⟨parent, hparent, hchild, hpath⟩
  · exact absurd rfl hne
  · obtain ⟨index, hindex⟩ := List.getElem?_of_mem hchild
    exact ⟨parent, index, hroot.locateParent?_eq_some_iff.mpr ⟨hparent, _, hindex, rfl⟩, hparent,
      hindex, hpath⟩

end Consistent

end Projector.Node
