import Projector.Proofs.Runs

/-!
# Reachable outlines

Whatever edits a document's outline went through, every node stores the address that its parent,
its key and the kind of its parent make up, no address is stored twice, and every address is
written the way reading and writing it again would. The two ways to look an address up therefore
agree: the node found at an address is the child found at a position of its parent.
-/

namespace Projector

open Node

namespace Node.Consistent

variable {root : Node} (hroot : root.Consistent)

include hroot

/-- A child stores the address of a field below the address that its parent stores. -/
theorem address_child {parent : Located} (hparent : parent ∈ root.located) {child : Node}
    (hchild : child ∈ parent.node.children) : child.label.address =
      Address.child parent.address child.key parent.node.label.kind.isArray := by
  have haddress := hroot.address_eq (child_mem_located hparent hchild)
  rw [hroot.address_eq hparent, Address.child_address, ← childPath_eq]
  exact haddress

/-- No child of a located node has the key of another. -/
theorem nodup_keys {parent : Located} (hparent : parent ∈ root.located) :
    (parent.node.children.map key).Nodup := by
  have hformed := hroot.wellFormed.of_mem_walk (mem_located.mp hparent)
  cases hnode : parent.node with
  | mk label children =>
    rw [hnode] at hformed
    exact (wellFormed_mk.mp hformed).1

/-- The root is no child of a node. -/
theorem locateParent?_root : root.locateParent? root.label.address = none := by
  cases hlocate : root.locateParent? root.label.address with
  | none => rfl
  | some result =>
    obtain ⟨parent, index⟩ := result
    obtain ⟨hparent, child, hchild, haddress⟩ := hroot.locateParent?_eq_some_iff.mp hlocate
    have hsame := hroot.eq_of_address (child_mem_located hparent (List.mem_of_getElem? hchild))
      (root_mem_located root) haddress
    have hpath := (Located.mk.inj hsame).1
    simp [Located.childPath] at hpath

/-- Where no node is found no parent is found. -/
theorem locateParent?_eq_none {address : String} (hnone : root.locate? address = none) :
    root.locateParent? address = none := by
  cases hlocate : root.locateParent? address with
  | none => rfl
  | some result =>
    obtain ⟨parent, index⟩ := result
    obtain ⟨hparent, child, hchild, haddress⟩ := hroot.locateParent?_eq_some_iff.mp hlocate
    exact absurd haddress (locate?_eq_none_iff.mp hnone _
      (child_mem_located hparent (List.mem_of_getElem? hchild)))

/-- Looking an address up as that of a node and as that of a child gives the same node. -/
theorem locate_agree (address : String) :
    (root.locate? address = none ∧ root.locateParent? address = none) ∨
    (address = root.label.address ∧ root.locate? address = some ⟨[], root⟩ ∧
      root.locateParent? address = none) ∨
    ∃ found parent index, root.locate? address = some found ∧
      root.locateParent? address = some (parent, index) ∧
      parent.node.children[index]? = some found.node ∧
      found.path = parent.childPath found.node.key ∧
      ∀ other ∈ root.located, ∀ position child, other.node.children[position]? = some child →
        child.label.address = address → other = parent ∧ position = index := by
  cases hlocate : root.locate? address with
  | none => exact .inl ⟨rfl, hroot.locateParent?_eq_none hlocate⟩
  | some found =>
    right
    obtain ⟨hfound, rfl⟩ := hroot.locate?_eq_some_iff.mp hlocate
    by_cases hpath : found.path = []
    · obtain rfl := hroot.eq_of_path hfound (root_mem_located root) hpath
      exact .inl ⟨rfl, rfl, hroot.locateParent?_root⟩
    · obtain ⟨parent, index, hparent, hmem, hchild, hplace⟩ :=
        hroot.exists_locateParent? hfound hpath
      refine .inr ⟨found, parent, index, rfl, hparent, hchild, hplace, ?_⟩
      intro other hother position child hposition haddress
      exact hroot.position_unique hother hmem hposition hchild haddress

end Node.Consistent

/-- After every run of edits the root is at the address of the document, every child stores the
address of its key below its parent, siblings have different keys, and addresses are different and
canonical. So an address that is looked up is that of no node, that of the root, or that of exactly
one child, and both ways of looking it up find the same. -/
theorem addresses_run {document : Json} (hdocument : document.WellFormed) (steps : List Edit) :
    ∃ workspace root, (Workspace.ofDocument document).run steps = .ok workspace ∧
      workspace.outline = root ∧
      root.label.address = "$" ∧
      (∀ parent ∈ root.located, ∀ child ∈ parent.node.children, child.label.address =
        Address.child parent.address child.key parent.node.label.kind.isArray) ∧
      (∀ parent ∈ root.located, (parent.node.children.map key).Nodup) ∧
      (root.located.map Located.address).Nodup ∧
      (∀ found ∈ root.located, (Address.parse found.address).map Path.address = .ok found.address) ∧
      ∀ address,
        (root.locate? address = none ∧ root.locateParent? address = none) ∨
        (address = root.label.address ∧ root.locate? address = some ⟨[], root⟩ ∧
          root.locateParent? address = none) ∨
        ∃ found parent index, root.locate? address = some found ∧
          root.locateParent? address = some (parent, index) ∧
          parent.node.children[index]? = some found.node ∧
          found.path = parent.childPath found.node.key ∧
          ∀ other ∈ root.located, ∀ position child, other.node.children[position]? = some child →
            child.label.address = address → other = parent ∧ position = index := by
  obtain ⟨workspace, traces, hrun, hsound⟩ := sound_run hdocument steps
  have hroot := hsound.consistent
  refine ⟨workspace, workspace.outline, hrun, rfl, ?_, ?_, ?_, ?_, ?_, ?_⟩
  · exact hroot.address_eq (root_mem_located workspace.outline)
  · exact fun parent hparent child hchild => hroot.address_child hparent hchild
  · exact fun parent hparent => hroot.nodup_keys hparent
  · exact hroot.nodup_addresses
  · intro found hfound
    rw [hroot.address_eq hfound, Address.parse_address]
    rfl
  · exact hroot.locate_agree

/-- A document with keys that look like addresses. -/
def confusingKeys : Json :=
  .obj [("a.b", .arr [.obj [("x", .int 1)]]), ("a", .obj [("b[]", .obj [])])]

/-- No address is stored twice when a field moves between such keys. -/
theorem addresses_run_confusingKeys : confusingKeys.WellFormed ∧
    ∃ workspace, (Workspace.ofDocument confusingKeys).run [.moveInto "$.\"a.b\"[].x" "$.a"] =
        .ok workspace ∧
      (workspace.outline.located.map Located.address).Nodup := by
  have hformed : confusingKeys.WellFormed := by
    simp [confusingKeys, Json.WellFormed, Json.WellFormedFields, Json.WellFormedItems,
      Fields.Distinct, Fields.names]
  obtain ⟨workspace, root, hrun, rfl, -, -, -, hnodup, -⟩ :=
    addresses_run hformed [.moveInto "$.\"a.b\"[].x" "$.a"]
  exact ⟨hformed, workspace, hrun, hnodup⟩

end Projector
