import Projector.Proofs.ReachableMarks
import Projector.Proofs.ReachableSites

/-!
# The selection of a reachable workspace

What is selected is told by the marks alone: the entries are those of the marked nodes, each once,
in the order in which the outline shows them, and each entry says where its node and every list
around it were when the document was opened. No entry is shown inside another, so no field of a
scope takes the place of another when the object construction is laid out.
-/

namespace Projector

open Node

/-! ## What an entry says -/

/-- A node was built from the document at the node with an address of the fresh outline. -/
def Located.IsBuiltAt (document : Json) (found : Located) (address : String) : Prop :=
  ∃ built ∈ (ofDocument document).located, built.origin = found.origin ∧ built.address = address

/-- What an entry says of a node of an outline: where it is shown, where it was built, and where
each list that its path goes into was built, the outermost one first. -/
structure Entry.Describes (document : Json) (workspace : Workspace) (found : Located)
    (entry : Entry) : Prop where
  display : entry.display = found.address
  path : Address.parse entry.display = .ok found.path
  field : entry.field = found.node.key
  source : found.IsBuiltAt document entry.source
  count : entry.arrays.length = found.path.count .each
  lists : ∀ front rest, found.path = front ++ .each :: rest →
    ∃ list ∈ workspace.outline.located, list.path = front ∧
      list.node.label.kind.isArray = true ∧
      ∃ address, entry.arrays[front.count .each]? = some address ∧ list.IsBuiltAt document address

namespace Sound

variable {document : Json} {traces : List Trace} {workspace : Workspace}
  (h : Sound document traces workspace) (hdocument : document.WellFormed)

include h hdocument

/-- A node was built where it lives. -/
theorem exists_built_home {found : Located} (hfound : found ∈ workspace.outline.located) :
    ∃ built ∈ (Node.ofDocument document).located, built.origin = found.origin ∧
      built.path = Trace.homeOf traces found.path := by
  obtain ⟨built, hbuilt, horigin, -, -⟩ := h.exists_built hfound
  refine ⟨built, hbuilt, horigin, ?_⟩
  rw [← path_eq_origin hdocument hbuilt, horigin, h.homeOf_eq hfound]

/-- The address that a node lives at is the one it was built at. -/
theorem isBuiltAt_homeOf {found : Located} (hfound : found ∈ workspace.outline.located) :
    found.IsBuiltAt document (Trace.homeOf traces found.path).address := by
  obtain ⟨built, hbuilt, horigin, hpath⟩ := h.exists_built_home hdocument hfound
  refine ⟨built, hbuilt, horigin, ?_⟩
  rw [(Sound.ofDocument hdocument).consistent.address_eq hbuilt, hpath]

/-- The entry of a node describes it. -/
theorem describes_entryAt {found : Located} (hfound : found ∈ workspace.outline.located)
    (order : Nat) :
    Entry.Describes document workspace found (found.entryAt (Trace.homeOf traces) order) where
  display := (h.consistent.address_eq hfound).symm
  path := Address.parse_address found.path
  field := rfl
  source := h.isBuiltAt_homeOf hdocument hfound
  count := by rw [Located.entryAt, List.length_map, Synthesis.length_lists]
  lists := by
    intro front rest hpath
    have hleads : front ++ [.each] <+: found.path := ⟨rest, by simp [hpath]⟩
    obtain ⟨node, hnode, hkind⟩ := exists_list (mem_located.mp hfound) hleads
    have hlist : (⟨front, node⟩ : Located) ∈ workspace.outline.located := mem_located.mpr hnode
    refine ⟨_, hlist, rfl, hkind, _, ?_, h.isBuiltAt_homeOf hdocument hlist⟩
    rw [Located.entryAt, List.getElem?_map, Synthesis.getElem?_lists [] hleads]
    rfl

/-- The entries describe the chosen nodes, one by one. -/
theorem forall₂_describes : List.Forall₂ (Entry.Describes document workspace) workspace.chosen
    (workspace.entries (Trace.homeOf traces)) := by
  have hnumbered : List.Forall₂ (Entry.Describes document workspace)
      (workspace.chosen.zipIdx.map Prod.fst) (workspace.entries (Trace.homeOf traces)) := by
    rw [Workspace.entries, List.forall₂_map_left_iff, List.forall₂_map_right_iff, List.forall₂_same]
    rintro ⟨found, order⟩ hfound
    have hlocated := (mem_chosen.mp (List.fst_mem_of_mem_zipIdx hfound)).1
    exact h.describes_entryAt hdocument hlocated order
  rwa [List.zipIdx_map_fst] at hnumbered

end Sound

/-- Entries are numbered from zero. -/
theorem Workspace.map_order_entries (workspace : Workspace) (home : Path → Path) :
    (workspace.entries home).map Entry.order =
      (List.range (workspace.entries home).length).map Int.ofNat := by
  have hlength : (workspace.entries home).length = workspace.chosen.length := by
    rw [entries, List.length_map, List.length_zipIdx]
  rw [hlength, List.range_eq_range', ← List.zipIdx_map_snd 0 workspace.chosen, entries,
    List.map_map, List.map_map]
  rfl

/-! ## What synthesis makes of the entries -/

namespace Synthesis

/-- The fields of each scope that synthesis goes into: all fields, and again the fields inside each
list of these, as seen from an element. -/
inductive Within (items : List Item) : List Item → Prop
  | all : Within items items
  | inside {members : List Item} (h : Within items members) {group : Group}
      (hgroup : group ∈ Group.ofItems members) : Within items group.members

/-- In every scope the fields are numbered in the order in which the outline shows them. -/
theorem Laid.within {home : Path → Path} {base : Path} {items members : List Item}
    (h : Laid home base items) (hmembers : Within items members) :
    ∃ deeper, Laid home deeper members := by
  induction hmembers with
  | all => exact ⟨base, h⟩
  | inside _ hgroup ih =>
    obtain ⟨deeper, hlaid⟩ := ih
    rw [Group.ofItems_eq] at hgroup
    obtain ⟨keys, -, rfl⟩ := List.mem_map.mp hgroup
    exact ⟨_, hlaid.members keys⟩

/-- The object construction of a scope has a place for each of its fields. -/
theorem Laid.listing_plains {home : Path → Path} {base : Path} {items : List Item}
    (h : Laid home base items) (config : Config) (scope : Scope) :
    Trie.listingBelow (Trie.ofItems (items.filterMap (Item.plain? config scope))).children =
      (items.filterMap (Item.plain? config scope)).map Trie.Item.leaf := by
  rcases h.whole_or_below with ⟨item, rfl, hrest⟩ | hbelow
  · have hnone : [item].filterMap (Item.plain? config scope) = [] := by
      simp [Item.plain?, hrest, Path.names, Trie.Item.ofPath?]
    rw [hnone]
    simp [Trie.ofItems, Trie.sortByOrder, Trie.children, Trie.listingBelow]
  · rw [filterMap_plain? config scope hbelow]
    exact (h.tidy_outside config scope hbelow).2

end Synthesis

namespace Sound

variable {document : Json} {traces : List Trace} {workspace : Workspace}
  (h : Sound document traces workspace)

include h

/-- No two entries are shown at the same address. -/
theorem nodup_displays :
    ((workspace.entries (Trace.homeOf traces)).map Entry.display).Nodup := by
  have hdisplays : (workspace.entries (Trace.homeOf traces)).map Entry.display =
      ((workspace.items (Trace.homeOf traces)).map Synthesis.Item.rest).map Path.address := by
    simp only [Workspace.entries, Workspace.items, List.map_map]
    rfl
  rw [hdisplays]
  exact h.nodup_rests.map Address.address_injective

/-- An entry that is shown at or inside another one is the same. -/
theorem eq_of_covers {entry other : Entry}
    (hentry : entry ∈ workspace.entries (Trace.homeOf traces))
    (hother : other ∈ workspace.entries (Trace.homeOf traces))
    (hcovers : Address.covers entry.display other.display = .ok true) : entry = other := by
  refine List.inj_on_of_nodup_map h.nodup_displays hentry hother ?_
  obtain ⟨⟨found, order⟩, hfound, rfl⟩ := List.mem_map.mp hentry
  obtain ⟨⟨twin, place⟩, htwin, rfl⟩ := List.mem_map.mp hother
  simp only [Located.entryAt, Address.covers_address, Except.ok.injEq,
    Option.isSome_iff_exists, following?_eq_some_iff] at hcovers ⊢
  obtain ⟨rest, hrest⟩ := hcovers
  exact congrArg Path.address (h.shown_items.apart _ (mem_items.mpr ⟨found, order, hfound, rfl⟩)
    _ (mem_items.mpr ⟨twin, place, htwin, rfl⟩) ⟨rest, hrest.symm⟩)

end Sound

/-- Every mark of a reachable workspace is on a node that can be selected. The selection lists
exactly the marked nodes, in the order of the outline and numbered from zero, each with the address
at which it was built and with the addresses at which the lists around it were built. No entry is
shown at or inside another, so the root is only selected alone, and in no scope that synthesis goes
into does one field take the place of another. -/
theorem selection_reachable {document : Json} (hdocument : document.WellFormed)
    {workspace : Workspace} (h : Reachable document workspace) :
    (∀ found ∈ workspace.outline.located,
      found.node.label.selected = true → found.node.isSelectable = true) ∧
    ∃ entries, workspace.selection = .ok entries ∧
      List.Forall₂ (Entry.Describes document workspace)
        (workspace.outline.located.filter fun found => found.node.label.selected) entries ∧
      entries.map Entry.order = (List.range entries.length).map Int.ofNat ∧
      (entries.map Entry.display).Nodup ∧
      (∀ entry ∈ entries, ∀ other ∈ entries,
        Address.covers entry.display other.display = .ok true → entry = other) ∧
      (∀ entry ∈ entries, entry.display = Address.root → entries = [entry]) ∧
      ∃ items, (Trie.sortByOrder Entry.order entries).mapM Synthesis.Item.ofEntry = .ok items ∧
        ∀ members, Synthesis.Within items members → ∀ config scope,
          Trie.listingBelow
              (Trie.ofItems (members.filterMap (Synthesis.Item.plain? config scope))).children =
            (members.filterMap (Synthesis.Item.plain? config scope)).map Trie.Item.leaf := by
  obtain ⟨traces, hsound⟩ := h.sound hdocument
  have hmarked := h.wellMarked hdocument
  have hchosen : workspace.chosen =
      workspace.outline.located.filter fun found => found.node.label.selected :=
    List.filter_congr hmarked
  have hcovers : ∀ entry ∈ workspace.entries (Trace.homeOf traces),
      ∀ other ∈ workspace.entries (Trace.homeOf traces),
        Address.covers entry.display other.display = .ok true → entry = other :=
    fun _ hentry _ hother => hsound.eq_of_covers hentry hother
  refine ⟨?_, _, hsound.selection_eq, ?_, ?_, hsound.nodup_displays, hcovers, ?_,
    workspace.items (Trace.homeOf traces), ?_, ?_⟩
  · intro found hfound hselected
    have hnode := hmarked found hfound
    rw [hselected, isChosen, Bool.and_eq_true] at hnode
    exact hnode.2
  · rw [← hchosen]
    exact hsound.forall₂_describes hdocument
  · exact workspace.map_order_entries _
  · intro entry hentry hroot
    refine List.perm_singleton.mp ((List.perm_ext_iff_of_nodup hsound.nodup_displays.of_map
      (List.nodup_singleton entry)).mpr fun other => ?_)
    rw [List.mem_singleton]
    constructor
    · intro hother
      refine (hcovers entry hentry other hother ?_).symm
      obtain ⟨⟨found, order⟩, -, rfl⟩ := List.mem_map.mp hother
      rw [hroot]
      exact Address.covers_address [] found.path
    · rintro rfl
      exact hentry
  · rw [Trie.sortByOrder_eq (pairwise_entries workspace _), items_entries]
  · intro members hmembers config scope
    obtain ⟨deeper, hlaid⟩ := hsound.laid_items.within hmembers
    exact hlaid.listing_plains config scope

/-- A document with an empty list, two fields and a list. -/
def filledLists : Json :=
  .obj [("a", .arr []), ("b", .obj [("x", .int 1), ("y", .int 2)]),
    ("c", .arr [.obj [("z", .int 3)]])]

/-- Edits that mark the empty list and a field, move the field into the list and on into the other
list, and mark another field behind. -/
def fillAndEmpty : List Edit :=
  [.toggle "$.a", .toggle "$.b.x", .moveInto "$.b.x" "$.a", .toggle "$.a",
    .moveInto "$.a[].x" "$.c", .toggle "$.b.y"]

/-- The list that was filled and emptied is not marked again, and the entries of the two fields say
where they and their lists were. -/
theorem selection_reachable_filledLists : filledLists.WellFormed ∧
    ∃ workspace, (Workspace.ofDocument filledLists).run fillAndEmpty = .ok workspace ∧
      Reachable filledLists workspace ∧
      ∃ entries, workspace.selection = .ok entries ∧
        entries.map (fun entry => (entry.display, entry.source, entry.arrays)) =
          [("$.b.y", "$.b.y", []), ("$.c[].x", "$.b.x", ["$.c"])] ∧
        List.Forall₂ (Entry.Describes filledLists workspace)
          (workspace.outline.located.filter fun found => found.node.label.selected) entries := by
  have hformed : filledLists.WellFormed := by
    simp [filledLists, Json.WellFormed, Json.WellFormedFields, Json.WellFormedItems,
      Fields.Distinct, Fields.names]
  have hentries : ((Workspace.ofDocument filledLists).run fillAndEmpty).toOption.map
      (fun workspace => workspace.selection.map fun entries =>
        entries.map fun entry => (entry.display, entry.source, entry.arrays)) =
      some (.ok [("$.b.y", "$.b.y", []), ("$.c[].x", "$.b.x", ["$.c"])]) := by
    decide +kernel
  obtain ⟨workspace, hrun, hseen⟩ := exists_eq_ok hentries
  have hreachable := Reachable.opened.run hrun
  obtain ⟨-, entries, hselection, hdescribes, -⟩ := selection_reachable hformed hreachable
  rw [hselection] at hseen
  exact ⟨hformed, workspace, hrun, hreachable, entries, hselection, Except.ok.inj hseen,
    hdescribes⟩

end Projector
