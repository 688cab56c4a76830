import Projector.Proofs.Groups
import Projector.Proofs.ReachableLedgers
import Projector.Proofs.Tries
import Projector.Synthesis.Emit

/-!
# The selection of a reachable outline

The selection of a sound workspace always exists: every chosen node gives one entry, in the order
in which the outline shows them. An entry says of the node and of every list on its way where they
live. Synthesis reads the entries back without loss and finds them in order already.
-/

namespace Projector

open Node

/-- The entry of a located node, given where shown paths live. -/
def Located.entryAt (home : Path → Path) (found : Located) (order : Nat) : Entry :=
  { display := found.path.address
    source := (home found.path).address
    field := found.node.key
    order
    arrays := (Path.lists [] found.path).map fun list => (home list).address }

/-- The entry of a located node as synthesis reads it. -/
def Located.itemAt (home : Path → Path) (found : Located) (order : Nat) : Synthesis.Item :=
  { rest := found.path
    source := home found.path
    order
    arrays := (Path.lists [] found.path).map home }

namespace Workspace

/-- The chosen nodes, in the order in which the outline shows them. -/
def chosen (workspace : Workspace) : List Located :=
  workspace.outline.located.filter fun found => found.node.isChosen

/-- The entries of the chosen nodes, given where shown paths live. -/
def entries (workspace : Workspace) (home : Path → Path) : List Entry :=
  workspace.chosen.zipIdx.map fun (found, order) => found.entryAt home order

/-- The entries of the chosen nodes as synthesis reads them. -/
def items (workspace : Workspace) (home : Path → Path) : List Synthesis.Item :=
  workspace.chosen.zipIdx.map fun (found, order) => found.itemAt home order

end Workspace

/-- A node is chosen when it is located and contributes to the selection. -/
theorem mem_chosen {workspace : Workspace} {found : Located} :
    found ∈ workspace.chosen ↔
      found ∈ workspace.outline.located ∧ found.node.isChosen = true := by
  simp [Workspace.chosen, List.mem_filter]

/-! ## Entries -/

/-- The entry of a node that stores the address of its path. -/
theorem entry_eq {resolve : String → Except Address.Fault String} {home : Path → Path}
    (hresolve : ∀ path : Path, resolve path.address = .ok (home path).address) {found : Located}
    (haddress : found.address = found.path.address) (order : Nat) :
    entry resolve found order = .ok (found.entryAt home order) := by
  have harrays : (Path.lists [] found.path).mapM (fun list => resolve (Path.address list)) =
      .ok ((Path.lists [] found.path).map fun list => (home list).address) :=
    mapM_eq_ok fun list _ => hresolve list
  rw [entry, haddress, hresolve]
  simp only [Address.parse_address, bind, Except.bind, harrays]
  rfl

/-- The entries of nodes that store the addresses of their paths. -/
theorem entriesFrom_eq {resolve : String → Except Address.Fault String} {home : Path → Path}
    (hresolve : ∀ path : Path, resolve path.address = .ok (home path).address)
    {found : List Located} (haddress : ∀ one ∈ found, one.address = one.path.address)
    (order : Nat) : entriesFrom resolve order found =
      .ok ((found.zipIdx order).map fun (one, place) => one.entryAt home place) := by
  induction found generalizing order with
  | nil => rfl
  | cons first rest ih =>
    have hfirst := entry_eq hresolve (haddress first (by simp)) order
    have hrest := ih (fun one hone => haddress one (by simp [hone])) (order + 1)
    simp only [entriesFrom, hfirst, hrest, bind, Except.bind]
    rfl

/-- The selection of a sound workspace. -/
theorem Sound.selection_eq {document : Json} {traces : List Trace} {workspace : Workspace}
    (h : Sound document traces workspace) :
    workspace.selection = .ok (workspace.entries (Trace.homeOf traces)) := by
  refine entriesFrom_eq (fun path => ?_) (fun one hone => ?_) 0
  · rw [h.ledger, Trace.resolve_ledger]
  · exact h.consistent.address_eq (mem_chosen.mp hone).1

/-! ## Reading entries -/

/-- Entries numbered in order are in ascending order. -/
theorem pairwise_entries (workspace : Workspace) (home : Path → Path) :
    (workspace.entries home).Pairwise fun a b => a.order ≤ b.order := by
  unfold Workspace.entries
  rw [List.pairwise_map, List.pairwise_iff_getElem]
  intro i j hi hj hij
  simp only [List.getElem_zipIdx, Located.entryAt]
  omega

/-- The entry of a node is read as it was meant. -/
theorem ofEntry_entryAt (home : Path → Path) (found : Located) (order : Nat) :
    Synthesis.Item.ofEntry (found.entryAt home order) = .ok (found.itemAt home order) := by
  have harrays : (found.entryAt home order).arrays.mapM Address.parse =
      .ok ((Path.lists [] found.path).map home) := by
    rw [Located.entryAt, List.mapM_map]
    exact mapM_eq_ok fun list _ => Address.parse_address (home list)
  rw [Synthesis.Item.ofEntry, harrays]
  simp only [Located.entryAt, Address.parse_address, bind, Except.bind]
  rfl

/-- The entries of a workspace are read as its items. -/
theorem items_entries (workspace : Workspace) (home : Path → Path) :
    (workspace.entries home).mapM Synthesis.Item.ofEntry = .ok (workspace.items home) := by
  rw [Workspace.entries, List.mapM_map]
  exact mapM_eq_ok fun one _ => ofEntry_entryAt home one.1 one.2

/-- The query of the entries of a workspace is that of its items. -/
theorem query_entries (config : Config) (workspace : Workspace) (home : Path → Path) :
    Synthesis.query config (workspace.entries home) =
      .ok (Synthesis.ofItems config (workspace.items home)) := by
  simp only [Synthesis.query, Trie.sortByOrder_eq (pairwise_entries workspace home),
    items_entries workspace home, bind, Except.bind]

/-- The items of a workspace are those of its chosen nodes. -/
theorem mem_items {workspace : Workspace} {home : Path → Path} {item : Synthesis.Item} :
    item ∈ workspace.items home ↔ ∃ found order, (found, order) ∈ workspace.chosen.zipIdx ∧
      found.itemAt home order = item := by
  simp [Workspace.items]

/-- The items are shown where the chosen nodes are. -/
theorem Workspace.map_rest_items (workspace : Workspace) (home : Path → Path) :
    (workspace.items home).map Synthesis.Item.rest = workspace.chosen.map Located.path := by
  have hchosen : workspace.chosen = workspace.chosen.zipIdx.map Prod.fst :=
    (List.zipIdx_map_fst 0 workspace.chosen).symm
  conv => rhs; rw [hchosen]
  rw [items, List.map_map, List.map_map]
  rfl

/-- Every item is that of a chosen node, seen from the root. -/
theorem exists_chosen_of_mem_items {workspace : Workspace} {home : Path → Path}
    {item : Synthesis.Item} (hitem : item ∈ workspace.items home) :
    item.SeenFrom home [] ∧ ∃ found ∈ workspace.chosen, item.rest = found.path := by
  obtain ⟨found, order, hfound, rfl⟩ := mem_items.mp hitem
  exact ⟨⟨rfl, rfl⟩, found, List.fst_mem_of_mem_zipIdx hfound, rfl⟩

/-- Every chosen node has an item. -/
theorem exists_item_of_mem_chosen {workspace : Workspace} (home : Path → Path) {found : Located}
    (hfound : found ∈ workspace.chosen) :
    ∃ item ∈ workspace.items home, item.rest = found.path := by
  obtain ⟨index, hindex, rfl⟩ := List.getElem_of_mem hfound
  refine ⟨_, mem_items.mpr ⟨workspace.chosen[index], index, ?_, rfl⟩, rfl⟩
  exact List.mk_mem_zipIdx_iff_getElem?.mpr (List.getElem?_eq_getElem hindex)

/-! ## The selection of a fresh outline -/

/-- Nothing is selected in the outline that a document is given. -/
theorem Workspace.selection_ofDocument (document : Json) :
    (Workspace.ofDocument document).selection = .ok [] := by
  have hnone : (Node.ofDocument document).located.filter (fun found => found.node.isChosen) =
      [] := by
    refine List.filter_eq_nil_iff.mpr fun found hfound hchosen => ?_
    have hsome := (hasSelection_iff []).mpr ⟨_, _, mem_located.mp hfound, hchosen⟩
    rw [hasSelection_ofDocument] at hsome
    cases hsome
  rw [selection, Node.selection, ofDocument, hnone]
  rfl

/-- The expression of no selection is the identity. -/
theorem expression_nil (config : Config) : Synthesis.expression config [] = .ok "." := by
  have hquery : Synthesis.query config [] = .ok .input := by
    rw [Synthesis.query, Trie.sortByOrder, List.mergeSort_nil]
    rfl
  rw [Synthesis.expression, hquery]
  rfl

end Projector
