import Mathlib
import Projector.Proofs.EmittedTexts
import Projector.Proofs.EmittedValues
import Projector.Proofs.ReachableQueries

/-!
# What the query of a reachable outline gives

Whatever edits a document's outline went through, the query of its selection gives the projection
that the outline shows, when no key paths are compressed, the selection preserves scopes and the
evaluation on the document is tame. The fields of the selection cover the outline; a query that
binds the root variable has the document at hand everywhere, and one that does not reads nothing
through it.
-/

namespace Projector

open Node

/-- Every list on the way to a selected field lives outside every list or in the elements of the
list before, outside every further list, and so does in the end the field itself. -/
def Entry.preservesScope (entry : Entry) : Bool :=
  match Synthesis.Item.ofEntry entry with
  | .ok item => Synthesis.Scope.document.reachesAlong item.arrays item.source
  | .error _ => false

namespace Workspace

variable (workspace : Workspace) (home : Path → Path)

/-- All entries preserve scopes exactly when all items do. -/
theorem forall_preservesScope_iff :
    (∀ entry ∈ workspace.entries home, entry.preservesScope = true) ↔
      ∀ item ∈ workspace.items home,
        Synthesis.Scope.document.reachesAlong item.arrays item.source = true := by
  simp only [entries, items, List.forall_mem_map, Entry.preservesScope, ofEntry_entryAt]

/-- There are entries exactly when there are items. -/
theorem entries_ne_nil_iff : workspace.entries home ≠ [] ↔ workspace.items home ≠ [] := by
  simp [entries, items]

end Workspace

namespace Sound

variable {document : Json} {traces : List Trace} {workspace : Workspace}
  (h : Sound document traces workspace)

include h

/-- The items of a sound workspace have different paths. -/
theorem nodup_rests : ((workspace.items (Trace.homeOf traces)).map Synthesis.Item.rest).Nodup := by
  have hpaths : (workspace.outline.located.map Located.path).Nodup := by
    simpa [located, Function.comp_def] using h.wellFormed.nodup_paths []
  rw [workspace.map_rest_items]
  exact (List.filter_sublist.map Located.path).nodup hpaths

/-- The items of a sound workspace cover its outline when they preserve scopes. -/
theorem covers_items (hdocument : document.WellFormed)
    (hscopes : ∀ item ∈ workspace.items (Trace.homeOf traces),
      Synthesis.Scope.document.reachesAlong item.arrays item.source = true) :
    Synthesis.Covers workspace.outline (Trace.homeOf traces) .document []
      (workspace.items (Trace.homeOf traces)) where
  shown := h.shown_items
  nodup := h.nodup_rests
  chosen := by
    intro rest
    rw [List.nil_append]
    constructor
    · rintro ⟨item, hitem, rfl⟩
      obtain ⟨-, found, hfound, hrest⟩ := exists_chosen_of_mem_items hitem
      obtain ⟨hlocated, hchosen⟩ := mem_chosen.mp hfound
      rw [hrest]
      exact ⟨found.node, mem_located.mp hlocated, hchosen⟩
    · rintro ⟨node, hnode, hchosen⟩
      have hfound : (⟨rest, node⟩ : Located) ∈ workspace.chosen :=
        mem_chosen.mpr ⟨mem_located.mpr hnode, hchosen⟩
      obtain ⟨item, hitem, hrest⟩ := exists_item_of_mem_chosen (Trace.homeOf traces) hfound
      exact ⟨item, hitem, hrest⟩
  reached := hscopes
  fresh := fun item hitem => ⟨h.nodup_arrays hdocument hitem, fun _ _ => nofun⟩

/-- When nothing was moved every item preserves scopes. -/
theorem reachesAlong_of_ledger_empty (hempty : workspace.ledger = .empty) :
    ∀ item ∈ workspace.items (Trace.homeOf traces),
      Synthesis.Scope.document.reachesAlong item.arrays item.source = true := by
  have htraces : traces = [] := by
    have hrecords := congrArg Ledger.records (h.ledger.symm.trans hempty)
    simpa [Trace.ledger, Ledger.empty] using hrecords
  subst htraces
  have hhome : ∀ path : Path, Trace.homeOf [] path = path := fun _ => rfl
  intro item hitem
  obtain ⟨⟨hsource, harrays⟩, -⟩ := exists_chosen_of_mem_items hitem
  rw [hsource, harrays, hhome, List.map_congr_left fun list _ => hhome list, List.map_id']
  exact Synthesis.reachesAlong_lists [] item.rest

/-- An item that preserves scopes and is shown where it lives has its lists shown where they
live. -/
theorem arrays_eq_lists (hdocument : document.WellFormed) {item : Synthesis.Item}
    (hitem : item ∈ workspace.items (Trace.homeOf traces))
    (hscope : Synthesis.Scope.document.reachesAlong item.arrays item.source = true)
    (hplace : item.source = item.rest) : item.arrays = Path.lists [] item.rest := by
  have hlength : item.arrays.length = (Path.lists [] item.source).length := by
    rw [(h.shown_items.seen item hitem).arrays, List.length_map, hplace]
  have hcount : item.source.count .each =
      item.arrays.length + Synthesis.Scope.document.base.count .each := by
    rw [← Synthesis.length_lists [] item.source, hlength]
    rfl
  have hchained := Synthesis.chained_of_reachesAlong (.inl rfl) hscope hcount
  rw [hchained.eq_lists (h.nodup_arrays hdocument hitem) hlength, hplace]

/-- The query of a sound workspace is closed when its items preserve scopes. -/
theorem isClosed_of_reachesAlong (hdocument : document.WellFormed) (config : Config)
    (hscopes : ∀ item ∈ workspace.items (Trace.homeOf traces),
      Synthesis.Scope.document.reachesAlong item.arrays item.source = true) :
    (Synthesis.ofItems config (workspace.items (Trace.homeOf traces))).isClosed [] = true := by
  rw [h.isClosed_ofItems hdocument config]
  by_cases hrelocated :
      (workspace.items (Trace.homeOf traces)).any Synthesis.Item.isRelocated = true
  · exact .inl hrelocated
  · refine .inr fun item hitem => h.arrays_eq_lists hdocument hitem (hscopes item hitem) ?_
    exact Synthesis.source_eq_rest hrelocated item hitem

/-- What is emitted for the items of a sound workspace gives the projection that the outline shows,
whatever variables are bound, when it can be read. -/
theorem eval_emit (hdocument : document.WellFormed) {config : Config}
    (hcompress : config.compressPaths = false)
    (hne : workspace.items (Trace.homeOf traces) ≠ [])
    (hscopes : ∀ item ∈ workspace.items (Trace.homeOf traces),
      Synthesis.Scope.document.reachesAlong item.arrays item.source = true)
    {bound : Fields Json}
    (hreadable : Synthesis.Readable config bound document
      (Synthesis.emit config .document (workspace.items (Trace.homeOf traces))))
    (htame : (Synthesis.emit config .document
      (workspace.items (Trace.homeOf traces))).isTame bound document = true) :
    ∃ value, (Synthesis.emit config .document
        (workspace.items (Trace.homeOf traces))).eval bound document = .one value ∧
      (workspace.outline.projection document).Same value := by
  have hcovers := h.covers_items hdocument hscopes
  have hhome : ∀ place node, (place, node) ∈ walk [] workspace.outline →
      Trace.homeOf traces place = node.label.origin := fun place node hnode =>
    h.homeOf_eq (mem_located.mpr hnode : (⟨place, node⟩ : Located) ∈ _)
  have hselection : workspace.outline.hasSelection = true := by
    obtain ⟨item, hitem⟩ := List.exists_mem_of_ne_nil _ hne
    obtain ⟨node, hnode, hchosen⟩ := hcovers.exists_chosen hitem
    exact (hasSelection_iff []).mpr ⟨_, node, hnode, hchosen⟩
  have hprojection := spans_project document { base := [], current := document } h.wellFormed
    hselection []
  obtain ⟨value, heval, hspans⟩ := Synthesis.builds_emit h.wellFormed hhome hcompress hcovers hne
    .document hreadable htame
  exact ⟨value, heval, hprojection.same hspans⟩

/-- The query of a sound workspace gives the projection that the outline shows. -/
theorem run_ofItems (hdocument : document.WellFormed) {config : Config}
    (hcompress : config.compressPaths = false)
    (hne : workspace.items (Trace.homeOf traces) ≠ [])
    (hscopes : ∀ item ∈ workspace.items (Trace.homeOf traces),
      Synthesis.Scope.document.reachesAlong item.arrays item.source = true)
    (htame : (Synthesis.ofItems config
      (workspace.items (Trace.homeOf traces))).isTame [] document = true) :
    ∃ value, (Synthesis.ofItems config
        (workspace.items (Trace.homeOf traces))).run document = .ok [value] ∧
      (workspace.outline.projection document).Same value := by
  have hclosed := h.isClosed_of_reachesAlong hdocument config hscopes
  have hsome : ¬(workspace.items (Trace.homeOf traces)).isEmpty = true := by simpa using hne
  unfold Synthesis.ofItems at htame hclosed ⊢
  rw [if_neg hsome] at htame hclosed ⊢
  dsimp only at htame hclosed ⊢
  by_cases hrelocated :
      (workspace.items (Trace.homeOf traces)).any Synthesis.Item.isRelocated = true
  · -- The root variable stands for the document from the start.
    rw [if_pos hrelocated] at htame ⊢
    have hbound : Fields.get? [(config.rootVariable, document)] config.rootVariable =
        some document := by
      simp [Fields.get?]
    rw [Query.isTame] at htame
    obtain ⟨value, heval, hsame⟩ := h.eval_emit hdocument hcompress hne hscopes (.inl hbound) htame
    refine ⟨value, ?_, hsame⟩
    rw [Query.run, Query.eval, heval]
    rfl
  · rw [if_neg hrelocated] at htame hclosed ⊢
    obtain ⟨value, heval, hsame⟩ := h.eval_emit hdocument hcompress hne hscopes (.inr hclosed) htame
    refine ⟨value, ?_, hsame⟩
    rw [Query.run, heval]
    rfl

end Sound

/-- After every run of edits the selection has a query. When no key paths are compressed and the
selection is not empty and preserves scopes, the text of the query compiles to the query, unless its
variable cannot be bound, and when the evaluation on the document is tame, the query gives a single
value, which is the projection that the outline shows, the order of keys aside. The projection reads
every node where the ledger finds it. A selection preserves scopes when nothing was moved, as in a
run without moves. -/
theorem projection_run {document : Json} (hdocument : document.WellFormed) (steps : List Edit)
    (config : Config) (hcompress : config.compressPaths = false) :
    ∃ workspace entries query, (Workspace.ofDocument document).run steps = .ok workspace ∧
      workspace.selection = .ok entries ∧ Synthesis.query config entries = .ok query ∧
      Synthesis.expression config entries = .ok query.render ∧
      (∀ found ∈ workspace.outline.located,
        workspace.ledger.resolve found.address = .ok found.origin.address) ∧
      ((∀ step ∈ steps, step.isMove = false) → workspace.ledger = .empty) ∧
      (workspace.ledger = .empty → ∀ entry ∈ entries, entry.preservesScope = true) ∧
      (entries ≠ [] → (∀ entry ∈ entries, entry.preservesScope = true) →
        (config.rootVariable ≠ Query.reservedVariable →
          Query.compile query.render = some query) ∧
        (query.isTame [] document = true → ∃ value, query.run document = .ok [value] ∧
          (workspace.outline.projection document).Same value)) := by
  obtain ⟨workspace, traces, hrun, hsound⟩ := sound_run hdocument steps
  have hquery := query_entries config workspace (Trace.homeOf traces)
  refine ⟨workspace, _, _, hrun, hsound.selection_eq, hquery, ?_, ?_, ?_, ?_, ?_⟩
  · rw [Synthesis.expression, hquery]
    rfl
  · exact fun found hfound => hsound.resolve_eq hfound
  · exact fun hsteps => Workspace.ledger_run hsteps hrun
  · intro hempty
    exact (workspace.forall_preservesScope_iff _).mpr (hsound.reachesAlong_of_ledger_empty hempty)
  · intro hne hentries
    have hscopes := (workspace.forall_preservesScope_iff _).mp hentries
    refine ⟨fun hfree => ?_, fun htame => ?_⟩
    · exact Query.compile_render (Synthesis.fits_ofItems hfree hsound.shown_items)
        (hsound.isClosed_of_reachesAlong hdocument config hscopes)
    · exact hsound.run_ofItems hdocument hcompress ((workspace.entries_ne_nil_iff _).mp hne)
        hscopes htame

/-- A document with a list inside a list, and a field outside both. -/
def staffed : Json :=
  .obj [("site", .str "north"), ("box", .obj []),
    ("users", .arr [
      .obj [("name", .str "ann"),
        ("tags", .arr [.obj [("tag", .int 1)], .obj [("tag", .int 2)]])],
      .obj [("name", .str "ben"), ("tags", .arr [])]])]

/-- Edits that move the outer list into an object and the field into the inner list. -/
def gatherTags : List Edit :=
  [.moveInto "$.users" "$.box", .moveInto "$.site" "$.box.users[].tags",
    .toggle "$.box.users[].tags[].site", .toggle "$.box.users[].tags[].tag",
    .toggle "$.box.users[].name"]

/-- The moved field is in every element of the inner list, once for each of its elements. -/
theorem projection_run_staffed : staffed.WellFormed ∧
    ∃ workspace entries query value, (Workspace.ofDocument staffed).run gatherTags = .ok workspace ∧
      workspace.selection = .ok entries ∧
      Synthesis.query (Config.standard.withCompression false) entries = .ok query ∧
      Query.compile query.render = some query ∧ query.run staffed = .ok [value] ∧
      (workspace.outline.projection staffed).Same value := by
  have hformed : staffed.WellFormed := by
    simp [staffed, Json.WellFormed, Json.WellFormedFields, Json.WellFormedItems, Fields.Distinct,
      Fields.names]
  have hmet : (do
      let workspace ← (Workspace.ofDocument staffed).run gatherTags
      let entries ← workspace.selection
      let query ← Synthesis.query (Config.standard.withCompression false) entries
      .ok (!entries.isEmpty && entries.all Entry.preservesScope && query.isTame [] staffed)) =
        Except.ok true := by
    cbv
  obtain ⟨workspace, entries, query, hrun, hselection, hquery, -, -, -, -, hgives⟩ :=
    projection_run hformed gatherTags (Config.standard.withCompression false) rfl
  simp only [hrun, hselection, hquery, bind, Except.bind, Except.ok.injEq, Bool.and_eq_true,
    Bool.not_eq_true', List.isEmpty_eq_false_iff, List.all_eq_true] at hmet
  obtain ⟨⟨hne, hscopes⟩, htame⟩ := hmet
  obtain ⟨hcompile, hvalues⟩ := hgives hne hscopes
  obtain ⟨value, hvalue, hsame⟩ := hvalues htame
  exact ⟨hformed, workspace, entries, query, value, hrun, hselection, hquery,
    hcompile (by decide), hvalue, hsame⟩

end Projector
