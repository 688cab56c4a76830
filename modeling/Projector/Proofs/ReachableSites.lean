import Projector.Proofs.EmittedSites
import Projector.Proofs.EmittedTexts
import Projector.Proofs.ReachableProjections

/-!
# What the query of a reachable outline writes

The selection of every reachable outline is numbered as the outline shows it. So its query writes
every selected field once, at its place in the outline, and its text reads back as this query. The
keys of a field are the names of its path when paths are not compressed. When they are, names are
joined to keys, and fields can get lost when different names are joined to the same key.
-/

namespace Projector

open Node

namespace Node

/-- A path that leads to two different fields of a place leads to the place. -/
theorem prefix_of_fields {base front path other : Path} {key key' : String} (hne : key ≠ key')
    (hpath : base ++ [.field key] <+: path) (hother : base ++ [.field key'] <+: other)
    (hfront : front <+: path) (hfront' : front <+: other) : front <+: base := by
  have hdiffer : ¬base ++ Address.below false key <+: other := fun hsame =>
    hne (below_prefix_below hsame hother)
  rcases List.prefix_or_prefix_of_prefix hfront hpath with hleads | hleads
  · rcases List.prefix_concat_iff.mp hleads with rfl | hleads
    · exact absurd hfront' hdiffer
    · exact hleads
  · exact absurd (hleads.trans hfront') hdiffer

/-- The paths below some nodes go on with the keys of the nodes. -/
theorem exists_key_of_mem_walkAll {base path : Path} {nodes : List Node}
    (h : path ∈ (walkAll base nodes).map Prod.fst) :
    ∃ node ∈ nodes, base ++ [.field node.key] <+: path := by
  rw [walkAll_eq_flatMap] at h
  obtain ⟨⟨_, found⟩, hfound, rfl⟩ := List.mem_map.mp h
  obtain ⟨node, hnode, hbelow⟩ := List.mem_flatMap.mp hfound
  exact ⟨node, hnode, prefix_of_mem_walk hbelow⟩

/-- The paths below nodes with different keys come one after the other when they share a front, when
this holds of those below each node. -/
theorem gathered_walkAll {base : Path} {nodes : List Node} (hkeys : (nodes.map key).Nodup)
    (h : ∀ node ∈ nodes, ∀ path, Gathered ((walk path node).map Prod.fst)) :
    Gathered ((walkAll base nodes).map Prod.fst) := by
  induction nodes with
  | nil => exact List.Triplewise.nil
  | cons node nodes ih =>
    obtain ⟨hnew, hrest⟩ := List.nodup_cons.mp hkeys
    have hfirst : ∀ path ∈ (walk (base ++ [.field node.key]) node).map Prod.fst,
        base ++ [.field node.key] <+: path := by
      intro path hpath
      obtain ⟨⟨_, found⟩, hfound, rfl⟩ := List.mem_map.mp hpath
      exact prefix_of_mem_walk hfound
    -- Paths below different nodes share no more than the base.
    have hshared : ∀ path ∈ (walk (base ++ [.field node.key]) node).map Prod.fst,
        ∀ other ∈ (walkAll base nodes).map Prod.fst, ∀ front : Path, front <+: path →
          front <+: other → front <+: base := by
      intro path hpath other hother front hfront hfront'
      obtain ⟨twin, htwin, hleads⟩ := exists_key_of_mem_walkAll hother
      refine prefix_of_fields ?_ (hfirst path hpath) hleads hfront hfront'
      rintro heq
      exact hnew (heq ▸ List.mem_map_of_mem htwin)
    rw [walkAll, List.map_append]
    refine List.triplewise_append.mpr
      ⟨h node (by simp) _, ih hrest fun other hother => h other (by simp [hother]), ?_, ?_⟩
    · intro path hpath
      refine List.pairwise_of_forall_mem_list fun between hbetween other hother => ?_
      intro front hfront hfront'
      obtain ⟨twin, -, hleads⟩ := exists_key_of_mem_walkAll hbetween
      exact (hshared path hpath other hother front hfront hfront').trans
        ((List.prefix_append _ _).trans hleads)
    · intro other hother
      refine List.pairwise_of_forall_mem_list fun path hpath between hbetween => ?_
      intro front hfront hfront'
      exact (hshared path hpath other hother front hfront hfront').trans
        ((List.prefix_append _ _).trans (hfirst between hbetween))

/-- What two paths of a walk share at the front is shared by all paths between them. -/
theorem gathered_walk {node : Node} (h : node.WellFormed) (path : Path) :
    Gathered ((walk path node).map Prod.fst) := by
  induction node generalizing path with
  | mk label children ih =>
    obtain ⟨hkeys, -, hchildren⟩ := wellFormed_mk.mp h
    rw [walk, List.map_cons]
    refine List.triplewise_cons.mpr
      ⟨?_, gathered_walkAll hkeys fun child hchild => ih child hchild (hchildren child hchild)⟩
    refine List.pairwise_of_forall_mem_list fun between hbetween other _ => ?_
    intro front hfront _
    obtain ⟨child, -, hleads⟩ := exists_key_of_mem_walkAll hbetween
    have hinner : path <+: inner label path := by
      unfold inner
      split
      · exact List.prefix_append _ _
      · exact List.prefix_rfl
    exact hfront.trans (hinner.trans ((List.prefix_append _ _).trans hleads))

/-- A path that leads to the elements of a list leads to no field of the list itself. -/
theorem WellFormed.not_field_of_each {root found other : Node} {path place front : Path}
    {name : String} (hroot : root.WellFormed) (hfound : (path, found) ∈ walk [] root)
    (hother : (place, other) ∈ walk [] root) (heach : front ++ [.each] <+: path) :
    ¬front ++ [.field name] <+: place := by
  intro hfield
  obtain ⟨list, hlist, harray⟩ := exists_list hfound heach
  obtain ⟨child, hchild⟩ := Workspace.Plan.exists_mem_walk_of_leads hother hfield
  rcases exists_parent hchild with ⟨hnil, -⟩ | ⟨parent, node, hnode, -, hplace⟩
  · simp at hnil
  · rw [← inner_append] at hplace
    obtain ⟨hfront, -⟩ := List.append_inj' hplace rfl
    cases hkind : node.label.kind.isArray with
    | true =>
      rw [inner, if_pos hkind] at hfront
      have hlocated : (⟨front, list⟩ : Located) ∈ root.located := mem_located.mpr hlist
      exact path_ne_each hlocated parent hfront
    | false =>
      rw [inner, if_neg (by simp [hkind])] at hfront
      rw [hfront] at hlist
      rw [hroot.eq_of_mem_walk hlist hnode, hkind] at harray
      cases harray

end Node

namespace Sound

variable {document : Json} {traces : List Trace} {workspace : Workspace}
  (h : Sound document traces workspace)

include h

/-- The items of a sound workspace are numbered as the outline shows them. -/
theorem laid_items : Synthesis.Laid (Trace.homeOf traces) []
    (workspace.items (Trace.homeOf traces)) where
  toShown := h.shown_items
  nodup := h.nodup_rests
  ascending := by
    rw [Workspace.items, List.pairwise_map, List.pairwise_iff_getElem]
    intro i j hi hj hij
    simp only [List.getElem_zipIdx, Located.itemAt]
    omega
  gathered := by
    rw [workspace.map_rest_items]
    have hwalk := gathered_walk h.wellFormed []
    have hlocated : (walk [] workspace.outline).map Prod.fst =
        workspace.outline.located.map Located.path := by
      simp [located, Function.comp_def]
    rw [hlocated] at hwalk
    exact hwalk.sublist (List.filter_sublist.map Located.path)
  kinds := by
    intro item hitem other hother front name heach
    obtain ⟨-, found, hfound, hrest⟩ := exists_chosen_of_mem_items hitem
    obtain ⟨-, twin, htwin, htwinRest⟩ := exists_chosen_of_mem_items hother
    rw [hrest] at heach
    rw [htwinRest]
    exact h.wellFormed.not_field_of_each (mem_located.mp (mem_chosen.mp hfound).1)
      (mem_located.mp (mem_chosen.mp htwin).1) heach

/-- What the query of a sound workspace with a selection is: what is emitted for its items, with the
root variable bound when one of them is relocated, and each item is written once. -/
theorem writes_ofItems (config : Config) (hne : workspace.items (Trace.homeOf traces) ≠ []) :
    ∃ written sites, Synthesis.Order config.compressPaths
        (workspace.items (Trace.homeOf traces)) written ∧
      sites = written.map (Synthesis.Item.site config.compressPaths
        ((workspace.items (Trace.homeOf traces)).map Synthesis.Item.rest)) ∧
      (Synthesis.emit config .document (workspace.items (Trace.homeOf traces))).sites?
        config.rootVariable [] = some sites ∧
      Synthesis.ofItems config (workspace.items (Trace.homeOf traces)) =
        if (workspace.items (Trace.homeOf traces)).any Synthesis.Item.isRelocated then
          .bind config.rootVariable
            (Synthesis.emit config .document (workspace.items (Trace.homeOf traces)))
        else Synthesis.emit config .document (workspace.items (Trace.homeOf traces)) := by
  obtain ⟨written, horder, hsites⟩ := h.laid_items.sites_emit config .document hne
  refine ⟨written, _, horder, rfl, hsites, ?_⟩
  rw [Synthesis.ofItems, if_neg (by simpa using hne)]

end Sound

/-- After every run of edits, and for all options whose root variable can be bound, the text of the
query of the selection reads back as a query that writes every selected field once. The query of no
fields is the identity. Any other binds the root variable when a field is relocated and then writes
each field where it is shown, under the names of its path or the keys that they are joined to, in
the elements of where each list on its way lives, and reads it from where it lives. -/
theorem parse_run {document : Json} (hdocument : document.WellFormed) (steps : List Edit)
    (config : Config) (hfree : config.rootVariable ≠ Query.reservedVariable) :
    ∃ workspace entries items query, (Workspace.ofDocument document).run steps = .ok workspace ∧
      workspace.selection = .ok entries ∧ entries.mapM Synthesis.Item.ofEntry = .ok items ∧
      Synthesis.query config entries = .ok query ∧
      Synthesis.expression config entries = .ok query.render ∧
      Query.parse query.render = some query ∧ (entries = [] → query = .input) ∧
      (entries ≠ [] → ∃ body sites, body.sites? config.rootVariable [] = some sites ∧
        query = (if items.any Synthesis.Item.isRelocated then .bind config.rootVariable body
          else body) ∧
        sites.Perm (items.map
          (Synthesis.Item.site config.compressPaths (items.map Synthesis.Item.rest)))) := by
  obtain ⟨workspace, traces, hrun, hsound⟩ := sound_run hdocument steps
  have hquery := query_entries config workspace (Trace.homeOf traces)
  refine ⟨workspace, _, _, _, hrun, hsound.selection_eq, items_entries workspace _, hquery,
    ?_, Query.parse_render (Synthesis.fits_ofItems hfree hsound.shown_items), ?_, ?_⟩
  · rw [Synthesis.expression, hquery]
    rfl
  · intro hnone
    have hitems : workspace.items (Trace.homeOf traces) = [] := by
      by_contra hne
      exact (workspace.entries_ne_nil_iff _).mpr hne hnone
    rw [hitems]
    rfl
  · intro hne
    obtain ⟨written, sites, horder, rfl, hsites, hbody⟩ :=
      hsound.writes_ofItems config ((workspace.entries_ne_nil_iff _).mp hne)
    exact ⟨_, _, hsites, hbody, horder.perm.map _⟩

/-- A document whose keys look like parts of a query. -/
def hostileKeys : Json :=
  .obj [("\\(.x)\"", .obj [("and", .obj [("a\nb", .int 1)])]), ("", .arr [.obj [("$root", .null)]]),
    ("box", .obj [])]

/-- Edits that select all fields of the document and move the list into an object. -/
def selectHostile : List Edit :=
  [.toggle (Path.address [.field "\\(.x)\"", .field "and", .field "a\nb"]),
    .toggle (Path.address [.field "", .each, .field "$root"]),
    .moveInto (Path.address [.field ""]) (Path.address [.field "box"])]

/-- The text for these keys reads back as the query that was meant. -/
theorem parse_run_hostileKeys :
    hostileKeys.WellFormed ∧ Config.standard.rootVariable ≠ Query.reservedVariable ∧
      ∃ workspace entries items query body sites,
        (Workspace.ofDocument hostileKeys).run selectHostile = .ok workspace ∧
        workspace.selection = .ok entries ∧ entries.mapM Synthesis.Item.ofEntry = .ok items ∧
        Query.parse query.render = some query ∧ body.sites? "root" [] = some sites ∧
        query = (if items.any Synthesis.Item.isRelocated then .bind "root" body else body) ∧
        sites.Perm (items.map (Synthesis.Item.site true (items.map Synthesis.Item.rest))) := by
  have hformed : hostileKeys.WellFormed := by
    simp [hostileKeys, Json.WellFormed, Json.WellFormedFields, Json.WellFormedItems,
      Fields.Distinct, Fields.names]
  have hmet : (do
      let workspace ← (Workspace.ofDocument hostileKeys).run selectHostile
      let entries ← workspace.selection
      .ok entries.isEmpty) = Except.ok false := by
    decide +kernel
  obtain ⟨workspace, entries, items, query, hrun, hselection, hitems, -, -, hparse, -, hwrites⟩ :=
    parse_run hformed selectHostile .standard (by decide)
  simp only [hrun, hselection, bind, Except.bind, Except.ok.injEq, List.isEmpty_eq_false_iff]
    at hmet
  obtain ⟨body, sites, hsites, hbody, hperm⟩ := hwrites hmet
  exact ⟨hformed, by decide, workspace, entries, items, query, body, sites, hrun, hselection,
    hitems, hparse, hsites, hbody, hperm⟩

/-- After every run of edits the query of the selection loses nothing when paths are not compressed
or no names of the selected fields are joined to the same key: no object construction in it writes a
key twice, no product writes at, above or below what its left factor has written, and the fields are
written at places apart from each other. -/
theorem lossless_run {document : Json} (hdocument : document.WellFormed) (steps : List Edit)
    (config : Config) :
    ∃ workspace entries items query, (Workspace.ofDocument document).run steps = .ok workspace ∧
      workspace.selection = .ok entries ∧ entries.mapM Synthesis.Item.ofEntry = .ok items ∧
      Synthesis.query config entries = .ok query ∧
      Synthesis.expression config entries = .ok query.render ∧
      (Path.Clear config.compressPaths (items.map Synthesis.Item.rest) →
        query.isLossless = true ∧
        (entries ≠ [] → ∃ body sites, body.sites? config.rootVariable [] = some sites ∧
          query = (if items.any Synthesis.Item.isRelocated then .bind config.rootVariable body
            else body) ∧
          sites.Perm (items.map
            (Synthesis.Item.site config.compressPaths (items.map Synthesis.Item.rest))) ∧
          sites.Pairwise Site.Apart)) := by
  obtain ⟨workspace, traces, hrun, hsound⟩ := sound_run hdocument steps
  have hquery := query_entries config workspace (Trace.homeOf traces)
  refine ⟨workspace, _, _, _, hrun, hsound.selection_eq, items_entries workspace _, hquery, ?_, ?_⟩
  · rw [Synthesis.expression, hquery]
    rfl
  · intro hclear
    have hlossless := hsound.laid_items.isLossless_emit config .document hclear
    constructor
    · unfold Synthesis.ofItems
      split
      · rfl
      · dsimp only
        split
        · exact hlossless
        · exact hlossless
    · intro hne
      obtain ⟨written, sites, horder, rfl, hsites, hbody⟩ :=
        hsound.writes_ofItems config ((workspace.entries_ne_nil_iff _).mp hne)
      exact ⟨_, _, hsites, hbody, horder.perm.map _, Query.pairwise_apart hlossless hsites⟩

/-- A document with chains of keys, inside and outside a list. -/
def chains : Json :=
  .obj [("a", .obj [("b", .obj [("c", .int 1)])]),
    ("d", .arr [.obj [("e", .obj [("f", .int 2)]), ("g", .int 3)]])]

/-- Edits that select all fields of the document. -/
def selectChains : List Edit :=
  [.toggle "$.a.b.c", .toggle "$.d[].e.f", .toggle "$.d[].g"]

/-- Compressing the chains loses nothing, for no key has a dot. -/
theorem lossless_run_chains : chains.WellFormed ∧
    ∃ workspace entries items query, (Workspace.ofDocument chains).run selectChains =
        .ok workspace ∧
      workspace.selection = .ok entries ∧ entries.mapM Synthesis.Item.ofEntry = .ok items ∧
      Synthesis.query .standard entries = .ok query ∧
      Path.Clear true (items.map Synthesis.Item.rest) ∧ query.isLossless = true := by
  have hformed : chains.WellFormed := by
    simp [chains, Json.WellFormed, Json.WellFormedFields, Json.WellFormedItems, Fields.Distinct,
      Fields.names]
  have hmet : (do
      let workspace ← (Workspace.ofDocument chains).run selectChains
      let entries ← workspace.selection
      let items ← entries.mapM Synthesis.Item.ofEntry
      .ok (items.all fun item => item.rest.isDotFree)) = Except.ok true := by
    cbv
  obtain ⟨workspace, entries, items, query, hrun, hselection, hitems, hquery, -, hlossless⟩ :=
    lossless_run hformed selectChains .standard
  simp only [hrun, hselection, hitems, bind, Except.bind, Except.ok.injEq, List.all_eq_true] at hmet
  have hclear : Path.Clear true (items.map Synthesis.Item.rest) :=
    .inr (Path.unambiguous_of_isDotFree (List.forall_mem_map.mpr hmet))
  exact ⟨hformed, workspace, entries, items, query, hrun, hselection, hitems, hquery, hclear,
    (hlossless hclear).1⟩

/-- A document with a key that other keys are joined to. -/
def dottedKey : Json := .obj [("a.b", .int 1), ("a", .obj [("b", .int 2)])]

/-- The key is written twice, so the first field is lost. -/
theorem not_lossless_dottedKey : (do
    let workspace ← (Workspace.ofDocument dottedKey).run [.toggle "$.\"a.b\"", .toggle "$.a.b"]
    let entries ← workspace.selection
    let query ← Synthesis.query .standard entries
    .ok (query.render, query.isLossless)) =
      Except.ok ("\x7b\"a.b\": .\"a.b\", \"a.b\": .a.b\x7d", false) := by
  cbv

end Projector
