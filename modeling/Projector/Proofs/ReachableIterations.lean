import Projector.Proofs.EmittedTexts
import Projector.Proofs.Iterations
import Projector.Proofs.ReachableMarks
import Projector.Proofs.ReachableSelections

/-!
# What the lists of a reachable outline run through

Whatever edits a document's outline went through, the list construction at the place of a list runs
through the elements of where this list was built. How they are read depends on where the list
around it was built, and for an outermost list on where it is shown. The fields that are selected
have no part in it, so two selections that both go into the list run through the same.
-/

namespace Projector

open Node

namespace Synthesis

/-- What a list construction runs through: the elements of the list where it was built. Inside
another list they are read from the element at hand when they are below it, and otherwise through
the root variable. An outermost list is read through the root variable when it is shown elsewhere
than where it was built. -/
def iteration (config : Config) (around : Option Path) (shown built : Path) : Query :=
  match around with
  | none =>
    if shown = built then .read .input (built ++ [.each]) else absolute config (built ++ [.each])
  | some outer =>
    if outer ++ [.each] <+: built ++ [.each] then
      .read .input ((built ++ [Segment.each]).drop (outer.length + 1))
    else absolute config (built ++ [.each])

/-- The text of what a list construction runs through. -/
theorem render_iteration (config : Config) (around : Option Path) (shown built : Path) :
    (iteration config around shown built).render =
      match around with
      | none => Path.access (if shown = built then "" else config.rootReference) (built ++ [.each])
      | some outer =>
        if outer ++ [.each] <+: built ++ [.each] then
          Path.access "" ((built ++ [Segment.each]).drop (outer.length + 1))
        else Path.access config.rootReference (built ++ [.each]) := by
  have hroot : (absolute config (built ++ [.each])).render =
      Path.access config.rootReference (built ++ [.each]) := Query.render_read_var _ _
  cases around with
  | none =>
    simp only [iteration]
    split
    · exact Query.render_read_input _
    · exact hroot
  | some outer =>
    simp only [iteration]
    split
    · exact Query.render_read_input _
    · exact hroot

/-- An outermost list is located by where it is shown and where it lives. -/
theorem locate_document_elements (config : Config) (shown list : Path) :
    locate config .document (shown ++ [.each]) (list ++ [.each]) =
      iteration config none shown list := by
  simp only [locate, iteration, List.append_cancel_right_eq, eq_comm]

/-- A list inside another one is located by where the two live. -/
theorem locate_element_elements (config : Config) (outer shown list place : Path) :
    locate config (.element (outer ++ [.each])) place (list ++ [.each]) =
      iteration config (some outer) shown list := by
  have hiteration : iteration config (some outer) shown list =
      if outer ++ [Segment.each] <+: list ++ [.each] then
        .read .input ((list ++ [Segment.each]).drop (outer.length + 1))
      else absolute config (list ++ [.each]) := rfl
  rw [hiteration, locate]
  cases hrest : following? (outer ++ [Segment.each]) (list ++ [.each]) with
  | none => rw [if_neg (following?_eq_none_iff.mp hrest)]
  | some rest =>
    have hlist := following?_eq_some_iff.mp hrest
    rw [if_pos ⟨rest, hlist.symm⟩, hlist, List.drop_left' (by simp)]

end Synthesis

/-! ## Where a list and the list around it were built -/

/-- Some selected node is shown inside the elements of a list at a path. -/
def Workspace.SelectsInside (workspace : Workspace) (place : Path) : Prop :=
  ∃ found ∈ workspace.outline.located,
    found.node.label.selected = true ∧ place ++ [.each] <+: found.path

instance (workspace : Workspace) (place : Path) : Decidable (workspace.SelectsInside place) :=
  inferInstanceAs (Decidable (∃ found ∈ workspace.outline.located,
    found.node.label.selected = true ∧ place ++ [.each] <+: found.path))

/-- The innermost list around a place. -/
structure Workspace.IsAround (workspace : Workspace) (outer : Located) (place : Path) : Prop where
  mem : outer ∈ workspace.outline.located
  kind : outer.node.label.kind.isArray = true
  leads : outer.path ++ [.each] <+: place
  innermost : ∀ front, front ++ [.each] <+: place → front <+: outer.path

/-- Where the innermost list around a place was built, if there is a list around it. -/
def Workspace.BuiltAround (document : Json) (workspace : Workspace) (place : Path) :
    Option Path → Prop
  | none => ∀ front, ¬front ++ [.each] <+: place
  | some path => ∃ outer, workspace.IsAround outer place ∧
      ∃ built ∈ (Node.ofDocument document).located,
        built.origin = outer.origin ∧ built.path = path

/-- Of the lists on a path the last one is innermost. -/
theorem Synthesis.innermost_of_getLast? {place outer : Path}
    (h : (Path.lists [] place).getLast? = some outer) :
    outer ++ [.each] <+: place ∧ ∀ front, front ++ [.each] <+: place → front <+: outer := by
  obtain ⟨others, hlists⟩ := List.getLast?_eq_some_iff.mp h
  have hmem : ∀ front : Path, front ∈ others ++ [outer] ↔ front ++ [.each] <+: place := by
    intro front
    rw [← hlists, mem_lists]
    simp
  have hpairs := pairwise_lists [] place
  rw [hlists, List.pairwise_append] at hpairs
  have houter := (hmem outer).mp (by simp)
  refine ⟨houter, fun front hfront => ?_⟩
  rcases List.mem_append.mp ((hmem front).mpr hfront) with hbefore | hlast
  · exact List.prefix_of_prefix_length_le ((List.prefix_append _ _).trans hfront)
      ((List.prefix_append _ _).trans houter) (hpairs.2.2 front hbefore outer (by simp)).le
  · rw [List.mem_singleton.mp hlast]

/-- A selected node inside a list is shown there as an item. -/
theorem Workspace.SelectsInside.exists_item {workspace : Workspace} {place : Path}
    (h : workspace.SelectsInside place) (hmarked : workspace.outline.WellMarked)
    (home : Path → Path) : ∃ item ∈ workspace.items home, place ++ [.each] <+: item.rest := by
  obtain ⟨found, hfound, hselected, hinside⟩ := h
  have hchosen : found ∈ workspace.chosen :=
    mem_chosen.mpr ⟨hfound, (hmarked found hfound).trans hselected⟩
  obtain ⟨item, hitem, hrest⟩ := exists_item_of_mem_chosen home hchosen
  exact ⟨item, hitem, hrest ▸ hinside⟩

namespace Sound

variable {document : Json} {traces : List Trace} {workspace : Workspace}
  (h : Sound document traces workspace)

include h

/-- The query of a sound workspace has one list construction at the place of a list that it selects
inside, which is located by where the list and the one around it live. -/
theorem iterationsAt_ofItems (config : Config) (hmarked : workspace.outline.WellMarked)
    {place : Path} (hplace : workspace.SelectsInside place) :
    (Synthesis.ofItems config (workspace.items (Trace.homeOf traces))).iterationsAt place =
      [Synthesis.iteration config ((Path.lists [] place).getLast?.map (Trace.homeOf traces)) place
        (Trace.homeOf traces place)] := by
  have hinside := hplace.exists_item hmarked (Trace.homeOf traces)
  have hseen := h.shown_items.seen
  have hemit : (Synthesis.ofItems config (workspace.items (Trace.homeOf traces))).iterationsAt
      place = (Synthesis.emit config .document (workspace.items (Trace.homeOf traces))).iterationsAt
        place := by
    obtain ⟨item, hitem, -⟩ := hinside
    have hsome : (workspace.items (Trace.homeOf traces)).isEmpty = false :=
      List.isEmpty_eq_false_iff.mpr (List.ne_nil_of_mem hitem)
    unfold Synthesis.ofItems
    simp only [hsome, Bool.false_eq_true, if_false]
    split
    · rfl
    · rfl
  rw [hemit, Synthesis.iterationsAt_emit config .document hinside,
    Synthesis.livesAt_eq_home hseen hinside]
  simp only [Synthesis.Scope.around]
  cases hlast : (Path.lists [] place).getLast? with
  | none => exact congrArg (fun run => [run]) (Synthesis.locate_document_elements config place _)
  | some outer =>
    have houter := (Synthesis.innermost_of_getLast? hlast).1
    obtain ⟨item, hitem, hitemInside⟩ := hinside
    have hlives := Synthesis.livesAt_eq_home hseen
      ⟨item, hitem, houter.trans ((List.prefix_append _ _).trans hitemInside)⟩
      (Synthesis.Scope.base .document)
    simp only [hlives]
    exact congrArg (fun run => [run]) (Synthesis.locate_element_elements config _ place _ _)

/-- The list around a place was built where the last list on the path of the place lives. -/
theorem builtAround (hdocument : document.WellFormed) {place : Path}
    (hplace : workspace.SelectsInside place) :
    workspace.BuiltAround document place
      ((Path.lists [] place).getLast?.map (Trace.homeOf traces)) := by
  obtain ⟨found, hfound, -, hinside⟩ := hplace
  cases hlast : (Path.lists [] place).getLast? with
  | none =>
    intro front hfront
    have hmem : front ∈ Path.lists [] place := Synthesis.mem_lists.mpr ⟨front, rfl, hfront⟩
    rw [List.getLast?_eq_none_iff.mp hlast] at hmem
    cases hmem
  | some outer =>
    obtain ⟨houter, hinnermost⟩ := Synthesis.innermost_of_getLast? hlast
    obtain ⟨node, hnode, hkind⟩ := exists_list (mem_located.mp hfound)
      (houter.trans ((List.prefix_append _ _).trans hinside))
    have hmem : (⟨outer, node⟩ : Located) ∈ workspace.outline.located := mem_located.mpr hnode
    exact ⟨_, ⟨hmem, hkind, houter, hinnermost⟩, h.exists_built_home hdocument hmem⟩

end Sound

/-- Two workspaces show the same lists at a place and around it. -/
def Workspace.ListsAlike (workspace other : Workspace) (place : Path) : Prop :=
  ∀ found ∈ workspace.outline.located, ∀ twin ∈ other.outline.located, found.path = twin.path →
    found.path ++ [.each] <+: place ++ [.each] → found.origin = twin.origin

/-- After the same moves the same lists are shown at all places. -/
theorem Sound.listsAlike {document : Json} {traces others : List Trace}
    {workspace other : Workspace} (h : Sound document traces workspace)
    (hother : Sound document others other) (hledger : other.ledger = workspace.ledger)
    (place : Path) : workspace.ListsAlike other place := by
  intro found hfound twin htwin hpath _
  have hresolve := h.resolve_eq hfound
  have hresolve' := hother.resolve_eq htwin
  rw [h.consistent.address_eq hfound] at hresolve
  rw [hother.consistent.address_eq htwin, hledger, ← hpath, hresolve] at hresolve'
  exact Address.address_inj.mp (Except.ok.inj hresolve')

/-- Where the same list is shown at a path, it lives at the same place. -/
theorem Sound.homeOf_eq_of_listsAlike {document : Json} {traces others : List Trace}
    {workspace other : Workspace} (h : Sound document traces workspace)
    (hother : Sound document others other) {place list : Path}
    (halike : workspace.ListsAlike other place) (hlist : list ++ [.each] <+: place ++ [.each])
    (hplace : workspace.SelectsInside place) (hplace' : other.SelectsInside place) :
    Trace.homeOf traces list = Trace.homeOf others list := by
  obtain ⟨found, hfound, -, hinside⟩ := hplace
  obtain ⟨twin, htwin, -, hinside'⟩ := hplace'
  obtain ⟨node, hnode, -⟩ := exists_list (mem_located.mp hfound) (hlist.trans hinside)
  obtain ⟨node', hnode', -⟩ := exists_list (mem_located.mp htwin) (hlist.trans hinside')
  have hmem : (⟨list, node⟩ : Located) ∈ workspace.outline.located := mem_located.mpr hnode
  have hmem' : (⟨list, node'⟩ : Located) ∈ other.outline.located := mem_located.mpr hnode'
  exact (h.homeOf_eq hmem).trans ((halike _ hmem _ hmem' rfl hlist).trans
    (hother.homeOf_eq hmem').symm)

/-- In every reachable workspace, and for all options, there is one list construction at the place
of every list that something is selected inside. It runs through the elements of where this list was
built, and how these are read depends only on where the list around it was built and, for an
outermost list, on where it is shown. So it is the same for any two reachable workspaces, whatever
they select inside the list, that show the same lists there, as they do after the same moves. -/
theorem iterations_reachable {document : Json} (hdocument : document.WellFormed) (config : Config)
    {workspace : Workspace} (h : Reachable document workspace) :
    ∃ entries query, workspace.selection = .ok entries ∧
      Synthesis.query config entries = .ok query ∧
      Synthesis.expression config entries = .ok query.render ∧
      (∀ list ∈ workspace.outline.located, workspace.SelectsInside list.path →
        ∃ built ∈ (ofDocument document).located, built.origin = list.origin ∧
        ∃ around, workspace.BuiltAround document list.path around ∧
          query.iterationsAt list.path =
            [Synthesis.iteration config around list.path built.path]) ∧
      ∀ other, Reachable document other →
        (other.ledger = workspace.ledger → ∀ place, workspace.ListsAlike other place) ∧
        ∀ otherEntries otherQuery, other.selection = .ok otherEntries →
          Synthesis.query config otherEntries = .ok otherQuery →
          ∀ place, workspace.ListsAlike other place → workspace.SelectsInside place →
            other.SelectsInside place →
            otherQuery.iterationsAt place = query.iterationsAt place := by
  obtain ⟨traces, hsound⟩ := h.sound hdocument
  have hmarked := h.wellMarked hdocument
  have hquery := query_entries config workspace (Trace.homeOf traces)
  refine ⟨_, _, hsound.selection_eq, hquery, ?_, ?_, ?_⟩
  · rw [Synthesis.expression, hquery]
    rfl
  · intro list hlist hinside
    obtain ⟨built, hbuilt, horigin, hpath⟩ := hsound.exists_built_home hdocument hlist
    refine ⟨built, hbuilt, horigin, _, hsound.builtAround hdocument hinside, ?_⟩
    rw [hpath]
    exact hsound.iterationsAt_ofItems config hmarked hinside
  · intro other hreachable
    obtain ⟨others, hother⟩ := hreachable.sound hdocument
    refine ⟨fun hledger place => hsound.listsAlike hother hledger place, ?_⟩
    intro otherEntries otherQuery hentries hotherQuery place halike hinside hinside'
    obtain rfl := Except.ok.inj (hother.selection_eq.symm.trans hentries)
    obtain rfl := Except.ok.inj ((query_entries config other _).symm.trans hotherQuery)
    rw [hsound.iterationsAt_ofItems config hmarked hinside,
      hother.iterationsAt_ofItems config (hreachable.wellMarked hdocument) hinside',
      ← hsound.homeOf_eq_of_listsAlike hother halike List.prefix_rfl hinside hinside']
    cases hlast : (Path.lists [] place).getLast? with
    | none => rfl
    | some outer =>
      have houter := (Synthesis.innermost_of_getLast? hlast).1.trans
        (List.prefix_append place [.each])
      rw [Option.map_some, Option.map_some,
        ← hsound.homeOf_eq_of_listsAlike hother halike houter hinside hinside']

/-- A document with a list of records that hold a list, and an object with a field. -/
def nestedRecords : Json :=
  .obj [("a", .arr [.obj [("x", .int 1), ("n", .arr [.obj [("y", .int 2)]])]]),
    ("b", .obj [("z", .int 3)])]

/-- Edits that move the field of the object into the list, and the list into the object. -/
def enclose : List Edit := [.moveInto "$.b.z" "$.a", .moveInto "$.a" "$.b"]

/-- What a run of edits on the nested records leads to: the ledger, whether something is selected
inside the list that was moved, and the text of the query. -/
def seenInside (steps : List Edit) : Option (Ledger × Bool × Except Address.Fault String) :=
  ((Workspace.ofDocument nestedRecords).run steps).toOption.map fun workspace =>
    (workspace.ledger, decide (workspace.SelectsInside [.field "b", .field "a"]), do
      let entries ← workspace.selection
      Synthesis.expression .standard entries)

/-- The moved list runs through where it was built, whether the field that was moved into it is
selected or a field of one of its own lists. -/
theorem iterations_reachable_nestedRecords : nestedRecords.WellFormed ∧
    ∃ workspace other, (Workspace.ofDocument nestedRecords).run
        (enclose ++ [.toggle "$.b.a[].z"]) = .ok workspace ∧
      (Workspace.ofDocument nestedRecords).run
        (enclose ++ [.toggle "$.b.a[].n[].y"]) = .ok other ∧
      workspace.SelectsInside [.field "b", .field "a"] ∧
      other.SelectsInside [.field "b", .field "a"] ∧ other.ledger = workspace.ledger ∧
      ∃ query otherQuery : Query,
        query.render = ". as $root | \x7bb: \x7ba: [$root.a[] | \x7bz: $root.b.z\x7d]\x7d\x7d" ∧
        otherQuery.render =
          ". as $root | \x7bb: \x7ba: [$root.a[] | \x7bn: [.n[] | \x7by: .y\x7d]\x7d]\x7d\x7d" ∧
        otherQuery.iterationsAt [.field "b", .field "a"] =
          query.iterationsAt [.field "b", .field "a"] := by
  have hformed : nestedRecords.WellFormed := by
    simp [nestedRecords, Json.WellFormed, Json.WellFormedFields, Json.WellFormedItems,
      Fields.Distinct, Fields.names]
  have hfirst : seenInside (enclose ++ [.toggle "$.b.a[].z"]) =
      some (⟨[⟨"$.b.z", "$.b.a", "z", true⟩, ⟨"$.a", "$.b", "a", false⟩]⟩, true,
        .ok ". as $root | \x7bb: \x7ba: [$root.a[] | \x7bz: $root.b.z\x7d]\x7d\x7d") := by
    decide +kernel
  have hsecond : seenInside (enclose ++ [.toggle "$.b.a[].n[].y"]) =
      some (⟨[⟨"$.b.z", "$.b.a", "z", true⟩, ⟨"$.a", "$.b", "a", false⟩]⟩, true,
        .ok (". as $root | \x7bb: \x7ba: [$root.a[] | " ++
          "\x7bn: [.n[] | \x7by: .y\x7d]\x7d]\x7d\x7d")) := by
    decide +kernel
  obtain ⟨workspace, hrun, hseen⟩ := exists_eq_ok hfirst
  obtain ⟨other, hother, hseen'⟩ := exists_eq_ok hsecond
  simp only [Prod.mk.injEq, decide_eq_true_eq] at hseen hseen'
  obtain ⟨hledger, hinside, htext⟩ := hseen
  obtain ⟨hledger', hinside', htext'⟩ := hseen'
  have hreachable := Reachable.opened.run hrun
  have hreachable' := Reachable.opened.run hother
  obtain ⟨entries, query, hentries, hquery, hexpression, -, hsame⟩ :=
    iterations_reachable hformed .standard hreachable
  obtain ⟨otherEntries, otherQuery, hotherEntries, hotherQuery, hotherExpression, -, -⟩ :=
    iterations_reachable hformed .standard hreachable'
  obtain ⟨halike, hiterations⟩ := hsame other hreachable'
  have hledgers : other.ledger = workspace.ledger := hledger'.trans hledger.symm
  rw [hentries] at htext
  rw [hotherEntries] at htext'
  refine ⟨hformed, workspace, other, hrun, hother, hinside, hinside', hledgers, query, otherQuery,
    Except.ok.inj (hexpression.symm.trans htext),
    Except.ok.inj (hotherExpression.symm.trans htext'), ?_⟩
  exact hiterations _ _ hotherEntries hotherQuery _ (halike hledgers _) hinside hinside'

end Projector
