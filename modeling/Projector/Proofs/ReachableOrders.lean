import Projector.Proofs.ReachableSites

/-!
# The order of the keys in a reachable projection

The fields of the selection of every reachable outline are numbered in the order in which the
outline shows them. The query of the selection writes those outside lists before those inside lists,
at every level. So the keys that it writes at a level are in the order of the fields below them
exactly when lists with fields do not come in the outline before fields outside lists that are under
other keys of the level.
-/

namespace Projector

/-- After every run of edits the fields of the selection are numbered in the order in which the
outline shows them, and the query of the selection writes the keys of every object level in the
order of the first fields below them exactly when a key with the first field of a level also has the
first field outside further lists, if the other keys have such fields at all. -/
theorem ordered_run {document : Json} (hdocument : document.WellFormed) (steps : List Edit)
    (config : Config) :
    ∃ workspace entries items query, (Workspace.ofDocument document).run steps = .ok workspace ∧
      workspace.selection = .ok entries ∧ entries.mapM Synthesis.Item.ofEntry = .ok items ∧
      Synthesis.query config entries = .ok query ∧
      Synthesis.expression config entries = .ok query.render ∧
      items.Pairwise (fun item other => item.order < other.order) ∧
      (entries ≠ [] → ∃ body sites, body.sites? config.rootVariable [] = some sites ∧
        query = (if items.any Synthesis.Item.isRelocated then .bind config.rootVariable body
          else body) ∧
        sites.Perm (items.map
          (Synthesis.Item.site config.compressPaths (items.map Synthesis.Item.rest))) ∧
        (Numbered.Ascending (items.map
            (Synthesis.Item.numbered config.compressPaths (items.map Synthesis.Item.rest)))
              (sites.map Site.place) ↔
          Numbered.Forward (items.map
            (Synthesis.Item.numbered config.compressPaths (items.map Synthesis.Item.rest))))) := by
  obtain ⟨workspace, traces, hrun, hsound⟩ := sound_run hdocument steps
  have hquery := query_entries config workspace (Trace.homeOf traces)
  have hascending := hsound.laid_items.ascending
  refine ⟨workspace, _, _, _, hrun, hsound.selection_eq, items_entries workspace _, hquery, ?_,
    hascending, ?_⟩
  · rw [Synthesis.expression, hquery]
    rfl
  · intro hne
    obtain ⟨written, sites, horder, rfl, hsites, hbody⟩ :=
      hsound.writes_ofItems config ((workspace.entries_ne_nil_iff _).mp hne)
    refine ⟨_, _, hsites, hbody, horder.perm.map _, ?_⟩
    rw [← Numbered.ascending_iff (horder.perm.map _) (List.pairwise_map.mpr horder.before)
      (List.pairwise_map.mpr hascending), List.map_map, List.map_map]
    rfl

/-- A document with a field in front of a list. -/
def listLast : Json := .obj [("b", .int 2), ("a", .arr [.obj [("x", .int 1)]])]

/-- The keys of the document are written in its order. -/
theorem ordered_run_listLast : listLast.WellFormed ∧
    ∃ workspace entries items query sites,
      (Workspace.ofDocument listLast).run [.toggle "$.b", .toggle "$.a[].x"] = .ok workspace ∧
      workspace.selection = .ok entries ∧ entries.mapM Synthesis.Item.ofEntry = .ok items ∧
      Synthesis.query .standard entries = .ok query ∧ query.sites? "root" [] = some sites ∧
      Numbered.Ascending (items.map
        (Synthesis.Item.numbered true (items.map Synthesis.Item.rest))) (sites.map Site.place) := by
  have hformed : listLast.WellFormed := by
    simp [listLast, Json.WellFormed, Json.WellFormedFields, Json.WellFormedItems, Fields.Distinct,
      Fields.names]
  have hmet : (do
      let workspace ← (Workspace.ofDocument listLast).run [.toggle "$.b", .toggle "$.a[].x"]
      let entries ← workspace.selection
      let items ← entries.mapM Synthesis.Item.ofEntry
      .ok (entries.isEmpty, items.any Synthesis.Item.isRelocated,
        items.map (Synthesis.Item.numbered true (items.map Synthesis.Item.rest)))) =
      Except.ok (false, false, [⟨[.field "b"], 0⟩, ⟨[.field "a", .each, .field "x"], 1⟩]) := by
    cbv
  obtain ⟨workspace, entries, items, query, hrun, hselection, hitems, hquery, -, -, hwrites⟩ :=
    ordered_run hformed [.toggle "$.b", .toggle "$.a[].x"] .standard
  simp only [hrun, hselection, hitems, bind, Except.bind, Except.ok.injEq, Prod.mk.injEq,
    List.isEmpty_eq_false_iff] at hmet
  obtain ⟨hsome, hplain, hfields⟩ := hmet
  obtain ⟨body, sites, hsites, hbody, -, hiff⟩ := hwrites hsome
  rw [hplain, if_neg Bool.false_ne_true] at hbody
  rw [← hbody] at hsites
  refine ⟨hformed, workspace, entries, items, query, sites, hrun, hselection, hitems, hquery,
    hsites, hiff.mpr ?_⟩
  change Numbered.Forward
    (items.map (Synthesis.Item.numbered true (items.map Synthesis.Item.rest)))
  rw [hfields]
  refine Numbered.forward_of_before ?_ ?_
  · simpa using Synthesis.before_of_inside rfl rfl
  · simp

/-- A document with a list in front of a field. -/
def listFirst : Json := .obj [("a", .arr [.obj [("x", .int 1)]]), ("b", .int 2)]

/-- The field is written in front of the list. -/
theorem not_ordered_listFirst : ∃ workspace entries items query sites,
    (Workspace.ofDocument listFirst).run [.toggle "$.a[].x", .toggle "$.b"] = .ok workspace ∧
      workspace.selection = .ok entries ∧ entries.mapM Synthesis.Item.ofEntry = .ok items ∧
      Synthesis.query .standard entries = .ok query ∧
      query.render = "\x7bb: .b\x7d * \x7ba: [.a[] | \x7bx: .x\x7d]\x7d" ∧
      query.sites? "root" [] = some sites ∧ keysAt [] (sites.map Site.place) = ["b", "a"] ∧
      ¬Numbered.Ascending (items.map
        (Synthesis.Item.numbered true (items.map Synthesis.Item.rest))) (sites.map Site.place) := by
  have hformed : listFirst.WellFormed := by
    simp [listFirst, Json.WellFormed, Json.WellFormedFields, Json.WellFormedItems, Fields.Distinct,
      Fields.names]
  obtain ⟨workspace, traces, hrun, hsound⟩ :=
    sound_run hformed [.toggle "$.a[].x", .toggle "$.b"]
  have hitems := items_entries workspace (Trace.homeOf traces)
  have hquery := query_entries .standard workspace (Trace.homeOf traces)
  have hmet : (do
      let workspace ← (Workspace.ofDocument listFirst).run [.toggle "$.a[].x", .toggle "$.b"]
      let entries ← workspace.selection
      let items ← entries.mapM Synthesis.Item.ofEntry
      let query ← Synthesis.query .standard entries
      .ok (items.map (Synthesis.Item.numbered true (items.map Synthesis.Item.rest)), query.render,
        (query.sites? "root" []).map (List.map Site.place))) =
      Except.ok ([⟨[.field "a", .each, .field "x"], 0⟩, ⟨[.field "b"], 1⟩],
        "{b: .b} * {a: [.a[] | {x: .x}]}",
        some [[.field "b"], [.field "a", .each, .field "x"]]) := by
    cbv
  simp only [hrun, hsound.selection_eq, hitems, hquery, bind, Except.bind, Except.ok.injEq,
    Prod.mk.injEq, Option.map_eq_some_iff] at hmet
  obtain ⟨hfields, hrender, sites, hsites, hplaces⟩ := hmet
  refine ⟨workspace, _, _, _, sites, hrun, hsound.selection_eq, hitems, hquery, hrender, hsites,
    ?_, ?_⟩
  · rw [hplaces]
    decide
  · rw [hplaces, hfields]
    intro h
    have hlevel := h []
    revert hlevel
    decide

end Projector
