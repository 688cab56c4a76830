import Projector.Proofs.CrossedRows
import Projector.Proofs.Reachability
import Projector.Proofs.ReachableProjections
import Projector.Proofs.ReachableSites

/-!
# Fields of an outer list inside an inner one

A field that lives in the elements of a list can be moved into a list inside these elements. Its
value is then read from the whole document: every element of the inner list has a row for every
element of the outer list in the document, not only for the one that it is in.
-/

namespace Projector

open Synthesis

/-- The entry of a field that is shown in the elements of some lists inside each other, where it
lives in fields of the elements of the outer ones. -/
structure Entry.Crosses (entry : Entry) (outer inner : List Level) (fields names : List String) :
    Prop where
  display : entry.display = (Level.shown (outer ++ inner) names).address
  arrays : entry.arrays = (Level.lists [] (outer ++ inner)).map Path.address
  source : entry.source = (Level.inside outer ++ fields.map Segment.field).address

/-- How many values an entry has in each scope it is shown in is among some numbers. -/
def Entry.CountsIn (counts : Submonoid ℕ) (document : Json) (entry : Entry) : Prop :=
  match Item.ofEntry entry with
  | .ok item => Scope.document.CountsAlong counts document document item.arrays item.source
  | .error _ => False

/-- An entry that can be read in the scopes it is shown in has one value in each. -/
theorem Entry.countsIn_of_preservesScope {counts : Submonoid ℕ} {document : Json} {entry : Entry}
    (h : entry.preservesScope = true) : entry.CountsIn counts document := by
  unfold Entry.preservesScope at h
  unfold Entry.CountsIn
  cases hitem : Item.ofEntry entry with
  | ok item =>
    rw [hitem] at h
    exact Scope.countsAlong_of_reachesAlong h
  | error fault =>
    rw [hitem] at h
    cases h

/-- What lives in the elements of outer lists does not live in those of inner ones. -/
theorem Level.not_inside_leads (outer : List Level) {inner : List Level} (hinner : inner ≠ [])
    (fields : List String) :
    ¬Level.inside (outer ++ inner) <+: Level.inside outer ++ fields.map Segment.field := by
  rw [Level.inside, List.flatMap_append, Level.inside, List.prefix_append_right_inj]
  intro hleads
  obtain ⟨level, hlevel⟩ := List.exists_mem_of_ne_nil inner hinner
  have heach : Segment.each ∈ inner.flatMap Level.elements :=
    List.mem_flatMap.mpr ⟨level, hlevel, by simp [Level.elements]⟩
  simpa using hleads.subset heach

namespace Sound

variable {document : Json} {traces : List Trace} {workspace : Workspace}
  (h : Sound document traces workspace)

include h

/-- The query of a sound workspace with a relocated field makes rows, which hold the values of all
fields that live outside the innermost lists around them. -/
theorem rows_ofItems {config : Config} (hcompress : config.compressPaths = false)
    (hrelocated : (workspace.items (Trace.homeOf traces)).any Item.isRelocated = true)
    (htame : (ofItems config (workspace.items (Trace.homeOf traces))).isTame [] document = true) :
    ∃ rows, (ofItems config (workspace.items (Trace.homeOf traces))).run document = .ok rows ∧
      HoldsElsewhere document .document (workspace.items (Trace.homeOf traces)) document rows := by
  have hne : workspace.items (Trace.homeOf traces) ≠ [] := by
    intro hnil
    rw [hnil] at hrelocated
    cases hrelocated
  have hsome : ¬(workspace.items (Trace.homeOf traces)).isEmpty = true := by simpa using hne
  have hbound : Fields.get? [(config.rootVariable, document)] config.rootVariable =
      some document := by
    simp [Fields.get?]
  have hbind : ofItems config (workspace.items (Trace.homeOf traces)) =
      .bind config.rootVariable
        (emit config .document (workspace.items (Trace.homeOf traces))) := by
    rw [ofItems, if_neg hsome]
    exact if_pos hrelocated
  rw [hbind, Query.isTame] at htame
  obtain ⟨rows, heval, hrows⟩ := h.laid_items.rows_emit hcompress hbound (fun _ => rfl) hne htame
  refine ⟨rows, ?_, hrows⟩
  rw [hbind, Query.run, Query.eval, heval]
  rfl

end Sound

/-- The values of a field that is shown in lists inside those in whose elements it lives are held by
all rows that hold what lives elsewhere. -/
theorem Workspace.rows_of_crosses {document : Json} {workspace : Workspace} {home : Path → Path}
    {rows : List Json}
    (hrows : HoldsElsewhere document .document (workspace.items home) document rows)
    {entry : Entry} (hentry : entry ∈ workspace.entries home) {outer inner : List Level}
    {fields names : List String} (hcrosses : entry.Crosses outer inner fields names)
    (hinner : inner ≠ []) {counts : Submonoid ℕ}
    (hothers : ∀ other ∈ workspace.entries home, other ≠ entry → other.CountsIn counts document) :
    Level.Rows counts
      ((document.valuesAt (Level.inside outer)).map fun element => element.follow fields) names
      (outer ++ inner) document rows := by
  obtain ⟨⟨found, order⟩, hfound, rfl⟩ := List.mem_map.mp hentry
  obtain ⟨hdisplay, harrays, hsource⟩ := hcrosses
  have hplace : found.path = Level.shown (outer ++ inner) names := Address.address_inj.mp hdisplay
  have hlists : (found.itemAt home order).arrays = Level.lists [] (outer ++ inner) := by
    refine Address.address_injective.list_map (Eq.trans ?_ harrays)
    simp [Located.itemAt, Located.entryAt]
  have hlives : home found.path = Level.inside outer ++ fields.map .field :=
    Address.address_inj.mp hsource
  have hitem : found.itemAt home order ∈ workspace.items home := List.mem_map_of_mem hfound
  rw [← Json.valuesAt_append_map_field, ← hlives]
  refine hrows _ hitem _ names hplace hlists ?_ _ ?_
  · have hlivesItem : (found.itemAt home order).source = home found.path := rfl
    rw [Scope.base, List.nil_append, hlivesItem, hlives]
    exact Level.not_inside_leads outer hinner fields
  · intro other hother hdiffer
    obtain ⟨⟨twin, place⟩, htwin, rfl⟩ := List.mem_map.mp hother
    have hcounts := hothers (twin.entryAt home place) (List.mem_map_of_mem htwin) fun heq =>
      hdiffer (Address.address_inj.mp (congrArg Entry.display heq))
    rwa [Entry.CountsIn, ofEntry_entryAt] at hcounts

/-- In every reachable workspace with a relocated field among the selected ones, the text of the
query of the selection compiles to the query, unless its variable cannot be bound. When no key paths
are compressed and the evaluation on the document is tame, the query makes rows. Take a selected
field that is shown in the elements of some lists inside each other, and lives in fields of the
elements of the outer ones. In each element of the innermost list there is a row for each value of
the field in the whole document, in the order of the document, whichever outer elements the inner
one is in. These rows are repeated as the other fields have values: how often is among any numbers
that have one, products, and the numbers of values of the other fields among them. -/
theorem rows_reachable {document : Json} (hdocument : document.WellFormed)
    {workspace : Workspace} (h : Reachable document workspace) (config : Config)
    (hcompress : config.compressPaths = false) :
    ∃ entries query, workspace.selection = .ok entries ∧
      Synthesis.query config entries = .ok query ∧
      Synthesis.expression config entries = .ok query.render ∧
      ((∃ entry ∈ entries, entry.isRelocated = true) →
        (config.rootVariable ≠ Query.reservedVariable →
          Query.compile query.render = some query) ∧
        (query.isTame [] document = true → ∃ rows, query.run document = .ok rows ∧
          ∀ entry ∈ entries, ∀ outer inner fields names, inner ≠ [] →
            entry.Crosses outer inner fields names → ∀ counts : Submonoid ℕ,
            (∀ other ∈ entries, other ≠ entry → other.CountsIn counts document) →
            Level.Rows counts
              ((document.valuesAt (Level.inside outer)).map fun element => element.follow fields)
              names (outer ++ inner) document rows)) := by
  obtain ⟨traces, hsound⟩ := h.sound hdocument
  have hquery := query_entries config workspace (Trace.homeOf traces)
  refine ⟨_, _, hsound.selection_eq, hquery, ?_, fun hsome => ?_⟩
  · rw [Synthesis.expression, hquery]
    rfl
  · have hrelocated := (workspace.exists_relocated_iff _).mp hsome
    refine ⟨fun hfree => ?_, fun htame => ?_⟩
    · exact Query.compile_render (Synthesis.fits_ofItems hfree hsound.shown_items)
        ((hsound.isClosed_ofItems hdocument config).mpr (.inl hrelocated))
    · obtain ⟨rows, hrun, hrows⟩ := hsound.rows_ofItems hcompress hrelocated htame
      exact ⟨rows, hrun, fun entry hentry outer inner fields names hinner hcrosses counts hothers =>
        workspace.rows_of_crosses hrows hentry hcrosses hinner hothers⟩

/-- A document with a list of orders, each with a number and a list of lines. -/
def orders : Json :=
  .obj [("orders", .arr [
    .obj [("id", .int 1), ("lines", .arr [.obj [("q", .int 10)], .obj [("q", .int 11)]])],
    .obj [("id", .int 2), ("lines", .arr [.obj [("q", .int 20)]])]])]

/-- Edits that move the number of an order into its lines. -/
def gatherNumbers : List Edit :=
  [.moveInto "$.orders[].id" "$.orders[].lines", .toggle "$.orders[].lines[].q",
    .toggle "$.orders[].lines[].id"]

/-- The selection after these edits. -/
def gatheredNumbers : List Entry :=
  [{ display := "$.orders[].lines[].q", source := "$.orders[].lines[].q", field := "q", order := 0,
     arrays := ["$.orders", "$.orders[].lines"] },
   { display := "$.orders[].lines[].id", source := "$.orders[].id", field := "id", order := 1,
     arrays := ["$.orders", "$.orders[].lines"] }]

/-- A line with a number of an order. -/
def numbered (line number : Int) : Json := .obj [("q", .int line), ("id", .int number)]

/-- The orders with the numbers of all orders in the lines of each. -/
def crossedOrders : Json :=
  .obj [("orders", .arr [
    .obj [("lines", .arr [numbered 10 1, numbered 10 2, numbered 11 1, numbered 11 2])],
    .obj [("lines", .arr [numbered 20 1, numbered 20 2])]])]

/-- The orders with their own number in each of their lines. -/
def ownOrders : Json :=
  .obj [("orders", .arr [
    .obj [("lines", .arr [numbered 10 1, numbered 11 1])],
    .obj [("lines", .arr [numbered 20 2])]])]

/-- What the edits lead to. -/
theorem exists_gathered : orders.WellFormed ∧ ∃ workspace query,
    Reachable orders workspace ∧ workspace.selection = .ok gatheredNumbers ∧
      Synthesis.query (Config.standard.withCompression false) gatheredNumbers = .ok query ∧
      query.isTame [] orders = true ∧ query.run orders = .ok [crossedOrders] := by
  have hformed : orders.WellFormed := by
    simp [orders, Json.WellFormed, Json.WellFormedFields, Json.WellFormedItems, Fields.Distinct,
      Fields.names]
  have hgives : (do
      let workspace ← (Workspace.ofDocument orders).run gatherNumbers
      let entries ← workspace.selection
      let query ← Synthesis.query (Config.standard.withCompression false) entries
      .ok (entries, query.isTame [] orders, query.run orders)) =
        Except.ok (gatheredNumbers, true, .ok [crossedOrders]) := by
    cbv
  obtain ⟨workspace, traces, hrun, hsound⟩ := sound_run hformed gatherNumbers
  have hquery := query_entries (Config.standard.withCompression false) workspace
    (Trace.homeOf traces)
  simp only [hrun, hsound.selection_eq, hquery, bind, Except.bind, Except.ok.injEq,
    Prod.mk.injEq] at hgives
  obtain ⟨hentries, htame, hrows⟩ := hgives
  rw [hentries] at hquery
  exact ⟨hformed, workspace, _, Reachable.opened.run hrun, by rw [hsound.selection_eq, hentries],
    hquery, htame, hrows⟩

/-- The moved number crosses from the orders into their lines. -/
theorem crosses_number : (gatheredNumbers[1]).Crosses [⟨["orders"], [.field "orders"]⟩]
    [⟨["lines"], [.field "lines"]⟩] ["id"] ["id"] :=
  ⟨by cbv, by cbv, by cbv⟩

/-- Every line has one row for each order, as the other field has one value in it. -/
theorem rows_reachable_orders : orders.WellFormed ∧ ∃ workspace query rows,
    Reachable orders workspace ∧ workspace.selection = .ok gatheredNumbers ∧
      Synthesis.query (Config.standard.withCompression false) gatheredNumbers = .ok query ∧
      Query.compile query.render = some query ∧ query.run orders = .ok rows ∧
      Level.Rows ⊥ [.int 1, .int 2] ["id"]
        [⟨["orders"], [.field "orders"]⟩, ⟨["lines"], [.field "lines"]⟩] orders rows := by
  obtain ⟨hformed, workspace, query, hreachable, hselection, hquery, htame, -⟩ := exists_gathered
  obtain ⟨entries, other, hentries, hother, -, hgives⟩ :=
    rows_reachable hformed hreachable (Config.standard.withCompression false) rfl
  obtain rfl := Except.ok.inj (hselection.symm.trans hentries)
  obtain rfl := Except.ok.inj (hquery.symm.trans hother)
  have hmem : gatheredNumbers[1] ∈ gatheredNumbers := List.getElem_mem _
  obtain ⟨hcompile, hrun⟩ := hgives ⟨gatheredNumbers[1], hmem, by cbv⟩
  obtain ⟨rows, hrows, hhold⟩ := hrun htame
  have hothers : ∀ other ∈ gatheredNumbers, other ≠ gatheredNumbers[1] →
      other.CountsIn ⊥ orders := by
    intro other hother hne
    rcases List.mem_cons.mp hother with rfl | hother
    · refine Entry.countsIn_of_preservesScope ?_
      cbv
    · exact absurd (List.mem_singleton.mp hother) hne
  exact ⟨hformed, workspace, query, rows, hreachable, hselection, hquery, hcompile (by decide),
    hrows, hhold _ hmem _ _ _ _ (by simp) crosses_number ⊥ hothers⟩

/-- The lines of the orders do not only have the numbers of their own orders. -/
theorem ne_ownOrders : orders.WellFormed ∧ ∃ workspace query,
    Reachable orders workspace ∧ workspace.selection = .ok gatheredNumbers ∧
      (∃ entry ∈ gatheredNumbers, entry.Crosses [⟨["orders"], [.field "orders"]⟩]
        [⟨["lines"], [.field "lines"]⟩] ["id"] ["id"]) ∧
      Synthesis.query (Config.standard.withCompression false) gatheredNumbers = .ok query ∧
      query.isTame [] orders = true ∧ query.run orders = .ok [crossedOrders] ∧
      query.run orders ≠ .ok [ownOrders] := by
  obtain ⟨hformed, workspace, query, hreachable, hselection, hquery, htame, hrun⟩ := exists_gathered
  refine ⟨hformed, workspace, query, hreachable, hselection, ⟨_, List.getElem_mem _,
    crosses_number⟩, hquery, htame, hrun, ?_⟩
  rw [hrun]
  simp [crossedOrders, ownOrders, numbered]

end Projector
