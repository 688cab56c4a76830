import Projector.Proofs.Closedness
import Projector.Proofs.Selections

/-!
# When the query of a reachable outline is closed

Whatever edits a document's outline went through, its selection has a query. The query binds the
root variable when some field is read from elsewhere than where it is shown. A list that is run
through elsewhere does not make it bind the variable, so the query is closed exactly when some field
is relocated or every list on the way to a field is shown where it lives.
-/

namespace Projector

open Node

namespace Sound

variable {document : Json} {traces : List Trace} {workspace : Workspace}
  (h : Sound document traces workspace)

include h

/-- The items of a sound workspace tell where they live, and none is shown inside another. -/
theorem shown_items : Synthesis.Shown (Trace.homeOf traces) []
    (workspace.items (Trace.homeOf traces)) where
  seen := fun item hitem => (exists_chosen_of_mem_items hitem).1
  apart := by
    intro item hitem other hother hleads
    obtain ⟨-, found, hfound, hrest⟩ := exists_chosen_of_mem_items hitem
    obtain ⟨-, twin, htwin, htwinRest⟩ := exists_chosen_of_mem_items hother
    rw [hrest, htwinRest] at hleads ⊢
    obtain ⟨hlocated, hchosen⟩ := mem_chosen.mp hfound
    have hnode := mem_located.mp hlocated
    have hempty := children_of_isChosen (h.wellFormed.of_mem_walk hnode) hchosen
    have hbelow := h.wellFormed.mem_walk_of_leads hnode
      (mem_located.mp (mem_chosen.mp htwin).1) hleads
    rcases mem_walk_iff.mp hbelow with ⟨hsame, -⟩ | ⟨child, hchild, -⟩
    · exact hsame.symm
    · rw [hempty] at hchild
      cases hchild

/-- The lists on the way to a chosen node live at different places. -/
theorem nodup_arrays (hdocument : document.WellFormed) {item : Synthesis.Item}
    (hitem : item ∈ workspace.items (Trace.homeOf traces)) : item.arrays.Nodup := by
  obtain ⟨hseen, found, hfound, hrest⟩ := exists_chosen_of_mem_items hitem
  have hlocated := mem_located.mp (mem_chosen.mp hfound).1
  rw [hseen.arrays, hrest]
  have hlist : ∀ list ∈ Path.lists [] found.path, ∃ node,
      (⟨list, node⟩ : Located) ∈ workspace.outline.located := by
    intro list hmem
    obtain ⟨front, rfl, hleads⟩ := Synthesis.mem_lists.mp hmem
    obtain ⟨node, hnode, -⟩ := exists_list hlocated hleads
    exact ⟨node, mem_located.mpr hnode⟩
  refine List.Nodup.map_on ?_ ((Synthesis.pairwise_lists [] found.path).imp ?_)
  · intro list hmem other hother hhome
    obtain ⟨node, hnode⟩ := hlist list hmem
    obtain ⟨twin, htwin⟩ := hlist other hother
    exact congrArg Located.path (h.eq_of_homeOf hdocument hnode htwin hhome)
  · rintro list other hlt rfl
    exact absurd hlt (lt_irrefl _)

end Sound

/-! ## The query of a selection -/

/-- Without relocated fields every field is shown where it lives. -/
theorem Synthesis.source_eq_rest {items : List Synthesis.Item}
    (h : ¬items.any Synthesis.Item.isRelocated = true) :
    ∀ item ∈ items, item.source = item.rest := by
  intro item hitem
  by_contra hne
  refine h (List.any_eq_true.mpr ⟨item, hitem, ?_⟩)
  exact decide_eq_true fun heq => hne heq.symm

/-- Every list on the way to a field is shown where it lives. -/
def Entry.InPlace (entry : Entry) : Prop :=
  ∃ path : Path, entry.display = path.address ∧
    entry.arrays = (Path.lists [] path).map Path.address

/-- The entry of a node is relocated when its item is. -/
theorem isRelocated_entryAt (home : Path → Path) (found : Located) (order : Nat) :
    (found.entryAt home order).isRelocated = (found.itemAt home order).isRelocated := by
  simp only [Entry.isRelocated, Synthesis.Item.isRelocated, Located.entryAt, Located.itemAt, ne_eq,
    Address.address_inj]
  exact decide_eq_decide.mpr (not_congr eq_comm)

/-- The lists on the way to a node are shown where they live when its item says so. -/
theorem inPlace_entryAt (home : Path → Path) (found : Located) (order : Nat) :
    (found.entryAt home order).InPlace ↔
      (found.itemAt home order).arrays = Path.lists [] (found.itemAt home order).rest := by
  simp only [Entry.InPlace, Located.entryAt, Located.itemAt, Address.address_inj, exists_eq_left']
  have hmap : (Path.lists [] found.path).map (fun list => (home list).address) =
      ((Path.lists [] found.path).map home).map Path.address := by
    rw [List.map_map]
    rfl
  rw [hmap]
  exact Address.address_injective.list_map.eq_iff

namespace Workspace

variable (workspace : Workspace) (home : Path → Path)

/-- Some entry is relocated exactly when some item is. -/
theorem exists_relocated_iff : (∃ entry ∈ workspace.entries home, entry.isRelocated = true) ↔
    (workspace.items home).any Synthesis.Item.isRelocated = true := by
  simp [entries, items, isRelocated_entryAt]

/-- All entries are in place exactly when all items are. -/
theorem forall_inPlace_iff : (∀ entry ∈ workspace.entries home, entry.InPlace) ↔
    ∀ item ∈ workspace.items home, item.arrays = Path.lists [] item.rest := by
  simp only [entries, items, List.forall_mem_map, inPlace_entryAt]

end Workspace

namespace Sound

variable {document : Json} {traces : List Trace} {workspace : Workspace}
  (h : Sound document traces workspace)

include h

/-- The query of a sound workspace is closed exactly when an item is relocated or all are in
place. -/
theorem isClosed_ofItems (hdocument : document.WellFormed) (config : Config) :
    (Synthesis.ofItems config (workspace.items (Trace.homeOf traces))).isClosed [] = true ↔
      (workspace.items (Trace.homeOf traces)).any Synthesis.Item.isRelocated = true ∨
        ∀ item ∈ workspace.items (Trace.homeOf traces), item.arrays = Path.lists [] item.rest := by
  generalize hitems : workspace.items (Trace.homeOf traces) = items
  have hshown := h.shown_items
  rw [hitems] at hshown
  unfold Synthesis.ofItems
  by_cases hnone : items.isEmpty = true
  · rw [if_pos hnone, List.isEmpty_iff.mp hnone]
    simp [Query.isClosed]
  · rw [if_neg hnone]
    dsimp only
    by_cases hrelocated : items.any Synthesis.Item.isRelocated = true
    · rw [if_pos hrelocated, Query.isClosed]
      simp [hrelocated, Synthesis.isClosed_emit_root config (List.mem_singleton_self _) _ hshown]
    · rw [if_neg hrelocated]
      have hplace := Synthesis.source_eq_rest hrelocated
      have hnodup : ∀ item ∈ items, item.arrays.Nodup := fun item hitem =>
        h.nodup_arrays hdocument (hitems ▸ hitem)
      rw [Synthesis.isClosed_emit_document config hshown hplace hnodup]
      simp only [hrelocated, false_or, Bool.false_eq_true]

end Sound

/-- After every run of edits, and for all options, the selection has a query. Its text starts with
the binding of the root variable when some field is relocated, and it refers to no other variable.
It is closed exactly when some field is relocated or every list is shown where it lives. -/
theorem closed_run_iff {document : Json} (hdocument : document.WellFormed) (steps : List Edit)
    (config : Config) :
    ∃ workspace entries query, (Workspace.ofDocument document).run steps = .ok workspace ∧
      workspace.selection = .ok entries ∧ Synthesis.query config entries = .ok query ∧
      Synthesis.expression config entries = .ok query.render ∧
      query.isClosed [config.rootVariable] = true ∧
      ((∃ entry ∈ entries, entry.isRelocated = true) →
        ∃ body, query.render = ". as " ++ config.rootReference ++ " | " ++ body) ∧
      (query.isClosed [] = true ↔
        (∃ entry ∈ entries, entry.isRelocated = true) ∨ ∀ entry ∈ entries, entry.InPlace) := by
  obtain ⟨workspace, traces, hrun, hsound⟩ := sound_run hdocument steps
  have hquery := query_entries config workspace (Trace.homeOf traces)
  refine ⟨workspace, _, _, hrun, hsound.selection_eq, hquery, ?_, ?_, ?_, ?_⟩
  · rw [Synthesis.expression, hquery]
    rfl
  · unfold Synthesis.ofItems
    split
    · rfl
    · dsimp only
      split
      · rw [Query.isClosed]
        exact Synthesis.isClosed_emit_root config (by simp) _ hsound.shown_items
      · exact Synthesis.isClosed_emit_root config (by simp) _ hsound.shown_items
  · intro hrelocated
    rw [Workspace.exists_relocated_iff] at hrelocated
    have hnone : ¬(workspace.items (Trace.homeOf traces)).isEmpty = true := by
      intro hnone
      rw [List.isEmpty_iff.mp hnone] at hrelocated
      cases hrelocated
    unfold Synthesis.ofItems
    rw [if_neg hnone, if_pos hrelocated, Query.render]
    exact ⟨_, rfl⟩
  · rw [Workspace.exists_relocated_iff, Workspace.forall_inPlace_iff]
    exact hsound.isClosed_ofItems hdocument config

/-- A document with two lists that can be shown under one key. -/
def twoLists : Json :=
  .obj [("a", .arr [.obj [("x", .int 1)]]), ("b", .obj [("a", .arr [.obj [("y", .int 2)]])]),
    ("c", .obj [])]

/-- Edits that show the second list of the document where the first one was, with the field of the
first one at the address where it lives. -/
def swapLists : List Edit :=
  [.moveInto "$.a[].x" "$.c", .moveInto "$.a" "$.c", .moveInto "$.b.a" "$", .moveInto "$.c.x" "$.a",
    .toggle "$.a[].x"]

/-- The condition for the two lists, which is not met. -/
theorem closed_run_iff_twoLists : twoLists.WellFormed ∧
    ∃ workspace entries query, (Workspace.ofDocument twoLists).run swapLists = .ok workspace ∧
      workspace.selection = .ok entries ∧ Synthesis.query .standard entries = .ok query ∧
      (query.isClosed [] = true ↔
        (∃ entry ∈ entries, entry.isRelocated = true) ∨ ∀ entry ∈ entries, entry.InPlace) := by
  have hformed : twoLists.WellFormed := by
    simp [twoLists, Json.WellFormed, Json.WellFormedFields, Json.WellFormedItems, Fields.Distinct,
      Fields.names]
  obtain ⟨workspace, entries, query, hrun, hselection, hquery, -, -, -, hclosed⟩ :=
    closed_run_iff hformed swapLists .standard
  exact ⟨hformed, workspace, entries, query, hrun, hselection, hquery, hclosed⟩

/-- A list that is read through the root variable while no field is: nothing binds the variable. -/
theorem not_closed_twoLists : (do
    let workspace ← (Workspace.ofDocument twoLists).run swapLists
    let entries ← workspace.selection
    let query ← Synthesis.query .standard entries
    .ok (query.render, query.isClosed [])) =
      Except.ok ("\x7ba: [$root.b.a[] | \x7bx: $root.a[].x\x7d]\x7d", false) := by
  decide +kernel

end Projector
