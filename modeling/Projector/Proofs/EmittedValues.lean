import Projector.Proofs.Covers

/-!
# What emitted queries give

A query that is emitted for fields which cover a part of an outline gives what the part shows, when
its evaluation is tame. Every piece of the query builds some of the fronts: the object construction
builds the chosen nodes outside every list, and the query of a list builds the list. Inside a list
the same holds in each element, which carries the induction on the height of the fields.
-/

namespace Projector

namespace Node

/-- A chosen node shows what stands where it lives. -/
theorem project_of_isChosen {node : Node} (h : node.isChosen = true) (document : Json)
    (frame : Frame) :
    project document frame node = frame.read document node.label.origin := by
  cases node with
  | mk label children => rw [project, if_pos h, label_mk]

/-- A list shows what its fields show in each of its elements. -/
theorem project_of_isArray {node : Node} (hchosen : ¬node.isChosen = true)
    (harray : node.label.kind.isArray = true) (document : Json) (frame : Frame) :
    project document frame node =
      .arr ((frame.read document node.label.origin).items.map fun element =>
        .obj (projectAll document { base := node.label.origin ++ [.each], current := element }
          node.children)) := by
  cases node with
  | mk label children =>
    rw [label_mk] at harray
    rw [project, if_neg hchosen, if_pos harray, label_mk, children_mk]

/-- The fronts in the elements of a list are those of its fields. -/
theorem spans_elements {root node : Node} {place : Path} (hroot : root.WellFormed)
    (hnode : (place, node) ∈ walk [] root) (harray : node.label.kind.isArray = true)
    (document : Json) (frame : Frame) :
    Json.Spans (fronts document frame (place ++ [.each]) (walk [] root))
      (.obj (projectAll document frame node.children)) := by
  have hwalk : walk place node =
      (place, node) :: walkAll (place ++ [.each]) node.children := by
    rw [walk_eq_cons, inner, if_pos harray]
  have hleaves : fronts document frame (place ++ [.each]) (walk [] root) =
      fronts document frame (place ++ [.each]) (walkAll (place ++ [.each]) node.children) := by
    funext keys content
    refine propext (exists_congr fun found => and_congr_left fun _ => ?_)
    constructor
    · intro hfound
      have hbelow := hroot.mem_walk_of_leads hnode hfound
        ((List.prefix_append _ _).trans (List.prefix_append _ _))
      rw [hwalk, List.mem_cons] at hbelow
      refine hbelow.resolve_left fun heq => ?_
      have hlength := congrArg List.length (Prod.mk.inj heq).1
      simp only [List.length_append, List.length_singleton] at hlength
      omega
    · intro hfound
      exact mem_walk_trans hnode (by rw [hwalk]; exact List.mem_cons_of_mem _ hfound)
  have hformed := hroot.of_mem_walk hnode
  cases node with
  | mk label children =>
    obtain ⟨hkeys, -, hchildren⟩ := wellFormed_mk.mp hformed
    rw [hleaves]
    exact spans_projectAll hkeys hchildren fun child hchild hselection =>
      spans_project document frame (hchildren child hchild) hselection _

/-- Fronts at different key paths are apart. -/
theorem fronts_apart {root : Node} (hroot : root.WellFormed) {document : Json} {frame : Frame}
    {base : Path} {keys others : List String} {content other : Json}
    (h : fronts document frame base (walk [] root) keys content)
    (h' : fronts document frame base (walk [] root) others other) (hne : keys ≠ others) :
    Leaves.Apart keys others := by
  have hleads : ∀ {path further : List String} {content other : Json},
      fronts document frame base (walk [] root) path content →
      fronts document frame base (walk [] root) further other → path <+: further →
      path = further := by
    rintro path _ _ _ ⟨node, hnode, hfront, -⟩ ⟨found, hfound, -, -⟩ ⟨more, rfl⟩
    rw [List.map_append, ← List.append_assoc] at hfound
    have hbelow := hroot.mem_walk_of_leads hnode hfound (List.prefix_append _ _)
    have hnil := (eq_of_mem_walk_front (hroot.of_mem_walk hnode) hfront hbelow).1
    rw [hnil, List.append_nil]
  exact ⟨fun hway => hne (hleads h h' hway), fun hway => hne (hleads h' h hway).symm⟩

end Node

open Node

namespace Synthesis

/-- A wrapped query is evaluated only tamely when the query is. -/
theorem isTame_of_wrap {bound : Fields Json} {value : Json} {keys : List String} {query : Query}
    (h : (wrap keys query).isTame bound value = true) : query.isTame bound value = true := by
  induction keys with
  | nil => exact h
  | cons key keys ih =>
    rw [wrap, List.foldr_cons, ← wrap, Query.isTame, Query.areTame, Bool.and_eq_true] at h
    exact ih h.1

/-- The output of a wrapped query is that of the query below the keys. -/
theorem eval_wrap {bound : Fields Json} {value output : Json} {query : Query}
    (h : query.eval bound value = .one output) (keys : List String) :
    (wrap keys query).eval bound value = .one (Json.nested keys output) := by
  induction keys with
  | nil => exact h
  | cons key keys ih =>
    rw [wrap, List.foldr_cons, ← wrap, Query.eval, Query.evalEntries, ih, Query.Outputs.bind_one]
    rfl

section Emitting

variable {root : Node} {home : Path → Path} {scope : Scope} {base : Path} {items : List Item}
  {config : Config} {bound : Fields Json} {document value : Json} {frame : Frame}

/-- The query of a single field shown at the scope itself is its value. -/
theorem emit_whole (config : Config) (scope : Scope) {item : Item} (hrest : item.rest = []) :
    emit config scope [item] = item.value config scope := by
  have hgroups : Group.ofItems [item] = [] := by
    simp [Group.ofItems, Item.placed?, hrest, splitEach?]
  have hplains : plains config scope [item] = [] := by
    simp [plains, Item.plain?, Trie.Item.ofPath?, Path.names, hrest]
  have hwholes : wholes config scope [item] = [item.value config scope] := by
    simp [wholes, hrest]
  rw [emit, hplains, hwholes, List.attach_eq_nil_iff.mpr hgroups]
  rfl

/-! ## Pieces -/

/-- The key paths of some fields lead to what the fronts there show. -/
def frontsOf (items : List Item) (leaves : Leaves Json) : Leaves Json := fun keys content =>
  (∃ item ∈ items, item.rest = keys.map .field) ∧ leaves keys content

/-- A key path leads to what the front there shows. -/
def frontAt (keys : List String) (leaves : Leaves Json) : Leaves Json := fun path content =>
  path = keys ∧ leaves path content

/-- A key path leads to one front. -/
theorem frontAt_eq_single (hroot : root.WellFormed) {keys : List String} {content : Json}
    (h : fronts document frame base (walk [] root) keys content) :
    frontAt keys (fronts document frame base (walk [] root)) = Leaves.single keys content := by
  obtain ⟨node, hnode, hfront, rfl⟩ := h
  funext path other
  refine propext ⟨?_, ?_⟩
  · rintro ⟨rfl, found, hfound, -, rfl⟩
    rw [hroot.eq_of_mem_walk hfound hnode]
    exact ⟨rfl, rfl⟩
  · rintro ⟨rfl, rfl⟩
    exact ⟨rfl, node, hnode, hfront, rfl⟩

/-- The value of a field outside every list is what its node shows. -/
theorem Covers.eval_item (h : Covers root home scope base items)
    (hhome : ∀ place node, (place, node) ∈ walk [] root → home place = node.label.origin)
    (hsees : scope.Sees document value frame) {item : Item} (hitem : item ∈ items)
    (heach : Path.hasEach item.rest = false)
    (hreadable : Readable config bound document (item.value config scope)) {node : Node}
    (hnode : (base ++ item.rest, node) ∈ walk [] root) (hchosen : node.isChosen = true)
    (htame : (item.value config scope).isTame bound value = true) :
    (item.value config scope).eval bound value = .one (project document frame node) := by
  rw [project_of_isChosen hchosen, ← hhome _ _ hnode, ← (h.shown.seen item hitem).source]
  exact eval_locate hsees (h.reaches_source hitem heach) hreadable htame

/-- The object construction of the fields outside every list builds their fronts. -/
theorem Covers.builds_plains (h : Covers root home scope base items) (hroot : root.WellFormed)
    (hhome : ∀ place node, (place, node) ∈ walk [] root → home place = node.label.origin)
    (hsees : scope.Sees document value frame) (hbelow : ∀ item ∈ items, item.rest ≠ [])
    (hreadable : ∀ item ∈ items, Path.hasEach item.rest = false →
      Readable config bound document (item.value config scope)) {order : Int}
    {children : Fields (Trie Query)}
    (hspans : (Trie.branch order children).Spans (plainLeaves config scope items)) :
    Query.Builds bound value (Trie.fold .object id false children)
      (frontsOf items (fronts document frame base (walk [] root))) := by
  have hvalue : ∀ (item : Item) (keys : List String), item ∈ items → item.rest = keys.map .field →
      (item.value config scope).isTame bound value = true →
      ∃ node, (base ++ keys.map .field, node) ∈ walk [] root ∧ node.isFront = true ∧
        (item.value config scope).eval bound value = .one (project document frame node) := by
    intro item keys hitem hrest htame
    obtain ⟨node, hnode, hchosen⟩ := h.exists_chosen hitem
    have heach : Path.hasEach item.rest = false := by rw [hrest, hasEach_map_field]
    have heval := h.eval_item hhome hsees hitem heach (hreadable item hitem heach) hnode hchosen
      htame
    rw [hrest] at hnode
    exact ⟨node, hnode, isFront_of_isChosen hchosen, heval⟩
  intro htame
  obtain ⟨output, heval, houtput, htames⟩ := Query.eval_fold hspans (by
    rintro keys query ⟨item, hitem, hrest, -, rfl⟩ htame
    obtain ⟨node, -, -, heval⟩ := hvalue item keys hitem hrest htame
    exact ⟨_, heval⟩) htame
  have hleaves : Query.outputsAt bound value (plainLeaves config scope items) =
      frontsOf items (fronts document frame base (walk [] root)) := by
    funext keys content
    refine propext ⟨?_, ?_⟩
    · rintro ⟨query, ⟨item, hitem, hrest, hne, rfl⟩, heval⟩
      obtain ⟨node, hnode, hfront, heval'⟩ :=
        hvalue item keys hitem hrest (htames keys _ ⟨item, hitem, hrest, hne, rfl⟩)
      refine ⟨⟨item, hitem, hrest⟩, node, hnode, hfront, ?_⟩
      exact Query.Outputs.one_inj.mp (heval.symm.trans heval')
    · rintro ⟨⟨item, hitem, hrest⟩, node, hnode, -, rfl⟩
      have hne : keys ≠ [] := by
        rintro rfl
        exact hbelow item hitem hrest
      have hleaf : plainLeaves config scope items keys (item.value config scope) :=
        ⟨item, hitem, hrest, hne, rfl⟩
      obtain ⟨found, hfound, -, heval⟩ := hvalue item keys hitem hrest (htames keys _ hleaf)
      rw [hroot.eq_of_mem_walk hnode hfound]
      exact ⟨_, hleaf, heval⟩
  rw [← hleaves]
  exact ⟨output, heval, houtput⟩

/-- The query of a list builds what the list shows, when what is emitted for its elements builds
what they show. -/
theorem Covers.builds_list (h : Covers root home scope base items) (hroot : root.WellFormed)
    (hhome : ∀ place node, (place, node) ∈ walk [] root → home place = node.label.origin)
    (hsees : scope.Sees document value frame) {item : Item} (hitem : item ∈ items)
    {keys : List String} {inside : Path} (hrest : item.rest = elementsAt keys ++ inside)
    {list : Path} (hlist : home (base ++ keys.map .field) = list)
    (hreadable : Readable config bound document
      (locate config scope (elementsAt keys) (list ++ [.each])))
    {members : List Item}
    (hmembers : ∀ element, Query.Builds bound element
      (emit config (.element (list ++ [.each])) members)
      (fronts document { base := list ++ [.each], current := element } (base ++ elementsAt keys)
        (walk [] root))) :
    (∃ content, fronts document frame base (walk [] root) keys content) ∧
      Query.Builds bound value (listQuery config scope keys list members)
        (frontAt keys (fronts document frame base (walk [] root))) := by
  obtain ⟨node, hnode, harray, hselection, hchosen⟩ := h.exists_list hroot hitem hrest
  have horigin : node.label.origin = list := by rw [← hhome _ _ hnode, hlist]
  have hfront : fronts document frame base (walk [] root) keys (project document frame node) :=
    ⟨node, hnode, isFront_of_isArray harray hselection, rfl⟩
  rw [frontAt_eq_single hroot hfront]
  refine ⟨⟨_, hfront⟩, fun htame => ?_⟩
  have hinner := isTame_of_wrap htame
  rw [Query.isTame, Query.isTame, Bool.and_eq_true] at hinner
  have hreaches := h.reaches_list hitem hrest
  rw [hlist] at hreaches
  obtain ⟨elements, helements, heval⟩ :=
    eval_locate_elements hsees hreaches.1 hreaches.2 hreadable hinner.1
  let shows : Json → Json := fun element =>
    .obj (projectAll document { base := list ++ [.each], current := element } node.children)
  have hall : ∀ element ∈ elements, ∃ output,
      (emit config (.element (list ++ [.each])) members).eval bound element = .one output ∧
        (shows element).Same output := by
    intro element helement
    have htame :
        (emit config (.element (list ++ [.each])) members).isTame bound element = true := by
      rw [heval] at hinner
      exact List.all_eq_true.mp hinner.2 element helement
    obtain ⟨output, houtput, hspans⟩ := hmembers element htame
    have hfronts := spans_elements hroot hnode harray document
      { base := list ++ [.each], current := element }
    rw [List.append_assoc] at hfronts
    exact ⟨output, houtput, hfronts.same hspans⟩
  obtain ⟨outputs, hbind, hrelated⟩ := Query.Outputs.bind_all hall
  have hproject : project document frame node = .arr (elements.map shows) := by
    rw [project_of_isArray hchosen harray, horigin, helements]
    rfl
  refine ⟨.nested keys (.arr outputs), eval_wrap ?_ keys, Json.spans_nested keys ?_⟩
  · rw [Query.eval, Query.eval, heval, hbind, Query.Outputs.collected_all]
  · rw [hproject]
    exact .of_forall₂ (List.forall₂_map_left_iff.mpr hrelated)

/-- The object construction, if there is one, is a piece that builds the fronts of the fields
outside every list. -/
theorem Covers.exists_plain_pieces (h : Covers root home scope base items) (hroot : root.WellFormed)
    (hhome : ∀ place node, (place, node) ∈ walk [] root → home place = node.label.origin)
    (hcompress : config.compressPaths = false) (hsees : scope.Sees document value frame)
    (hbelow : ∀ item ∈ items, item.rest ≠ [])
    (hreadable : ∀ item ∈ items, Path.hasEach item.rest = false →
      Readable config bound document (item.value config scope)) :
    ∃ pieces : List Query.Piece, plains config scope items = pieces.map Prod.fst ∧
      pieces.Pairwise Query.Piece.Apart ∧
      (∀ piece ∈ pieces, Query.Builds bound value piece.1 piece.2 ∧
        ∃ keys content, piece.2 keys content) ∧
      Query.leavesOf pieces = frontsOf items (fronts document frame base (walk [] root)) := by
  have hplain : ∀ keys content,
      frontsOf items (fronts document frame base (walk [] root)) keys content →
      ∃ query, plainLeaves config scope items keys query := by
    rintro keys content ⟨⟨item, hitem, hrest⟩, -⟩
    refine ⟨_, item, hitem, hrest, ?_, rfl⟩
    rintro rfl
    exact hbelow item hitem hrest
  rcases plains_cases config scope h.shown with
    ⟨hnil, hnone⟩ | ⟨order, children, hsome, hspans, hinhabited⟩
  · refine ⟨[], hnil, .nil, by simp, ?_⟩
    funext keys content
    refine propext ⟨by simp [Query.leavesOf], fun hleaf => ?_⟩
    obtain ⟨query, hquery⟩ := hplain keys content hleaf
    exact absurd hquery (hnone keys query)
  · rw [hcompress] at hsome
    refine ⟨[(_, frontsOf items (fronts document frame base (walk [] root)))], hsome,
      List.pairwise_singleton _ _, ?_, ?_⟩
    · intro piece hpiece
      rw [List.mem_singleton.mp hpiece]
      refine ⟨h.builds_plains hroot hhome hsees hbelow hreadable hspans, ?_⟩
      obtain ⟨keys, -, item, hitem, hrest, -, -⟩ := hinhabited
      obtain ⟨node, hnode, hchosen⟩ := h.exists_chosen hitem
      rw [hrest] at hnode
      exact ⟨keys, _, ⟨item, hitem, hrest⟩, node, hnode, isFront_of_isChosen hchosen,
        rfl⟩
    · funext keys content
      simp [Query.leavesOf]

/-- The only field shown at the scope itself builds what its node shows. -/
theorem Covers.builds_whole (h : Covers root home scope base items) (hroot : root.WellFormed)
    (hhome : ∀ place node, (place, node) ∈ walk [] root → home place = node.label.origin)
    (hsees : scope.Sees document value frame) {item : Item} (hitem : item ∈ items)
    (hrest : item.rest = [])
    (hreadable : Readable config bound document (item.value config scope)) :
    Query.Builds bound value (item.value config scope)
      (fronts document frame base (walk [] root)) := by
  intro htame
  obtain ⟨node, hnode, hchosen⟩ := h.exists_chosen hitem
  have heval := h.eval_item hhome hsees hitem (by rw [hrest]; rfl) hreadable hnode hchosen htame
  have hfront : node.isFront = true := isFront_of_isChosen hchosen
  rw [hrest, List.append_nil] at hnode
  refine ⟨_, heval, .leaf ⟨node, by simpa using hnode, hfront, rfl⟩ ?_ (.refl _)⟩
  rintro keys content ⟨found, hfound, -, rfl⟩
  have hbelow := hroot.mem_walk_of_leads hnode hfound (List.prefix_append _ _)
  obtain ⟨rfl, rfl⟩ := eq_of_mem_walk_front (hroot.of_mem_walk hnode) hfront hbelow
  exact ⟨rfl, rfl⟩

/-- The keys to a field outside every list are not those in front of a list. -/
theorem Covers.ne_way (h : Covers root home scope base items) {item other : Item}
    (hitem : item ∈ items) (hother : other ∈ items) {keys ways : List String} {inside : Path}
    (hrest : item.rest = keys.map .field) (hway : other.rest = elementsAt ways ++ inside) :
    keys ≠ ways := by
  rintro rfl
  rw [elementsAt, List.append_assoc, ← hrest] at hway
  have hsame := h.shown.apart item hitem other hother (by rw [hway]; exact List.prefix_append _ _)
  have hlength := congrArg List.length (hsame.trans hway)
  simp only [List.length_append, List.length_singleton] at hlength
  omega

/-- Fields that cover a part of an outline have a front. -/
theorem Covers.exists_front (h : Covers root home scope base items) (hroot : root.WellFormed)
    (hne : items ≠ []) (document : Json) (frame : Frame) :
    ∃ keys content, fronts document frame base (walk [] root) keys content := by
  obtain ⟨item, hitem⟩ := List.exists_mem_of_ne_nil items hne
  cases hsplit : splitEach? item.rest with
  | none =>
    obtain ⟨node, hnode, hchosen⟩ := h.exists_chosen hitem
    rw [eq_map_field_of_not_hasEach (splitEach?_eq_none_iff.mp hsplit)] at hnode
    exact ⟨_, _, node, hnode, isFront_of_isChosen hchosen, rfl⟩
  | some split =>
    obtain ⟨keys, inside⟩ := split
    obtain ⟨node, hnode, harray, hselection, -⟩ :=
      h.exists_list hroot hitem (splitEach?_eq_some hsplit)
    exact ⟨keys, _, node, hnode, isFront_of_isArray harray hselection,
      rfl⟩

/-- The pieces for the ways to lists, each of which builds the front at its keys. -/
def ways (queryOf : List String → Query) (leaves : Leaves Json) (keyses : List (List String)) :
    List Query.Piece :=
  keyses.map fun keys => (queryOf keys, frontAt keys leaves)

/-- The pieces of a query that is emitted for fields which cover a part of an outline have all
fronts of the part as their leaves. -/
theorem Covers.leavesOf_pieces (h : Covers root home scope base items)
    {keyses : List (List String)}
    (hkeyses : ∀ keys, keys ∈ keyses ↔
      ∃ item ∈ items, ∃ inside, item.rest = elementsAt keys ++ inside)
    {pieces : List Query.Piece}
    (hleaves : Query.leavesOf pieces =
      frontsOf items (fronts document frame base (walk [] root)))
    (queryOf : List String → Query) :
    Query.leavesOf (pieces ++ ways queryOf (fronts document frame base (walk [] root)) keyses) =
      fronts document frame base (walk [] root) := by
  funext keys content
  refine propext ⟨?_, fun hleaf => ?_⟩
  · rintro ⟨piece, hpiece, hleaf⟩
    rcases List.mem_append.mp hpiece with hpiece | hpiece
    · have hfront : frontsOf items (fronts document frame base (walk [] root)) keys content := by
        rw [← hleaves]
        exact ⟨piece, hpiece, hleaf⟩
      exact hfront.2
    · obtain ⟨way, -, rfl⟩ := List.mem_map.mp hpiece
      exact hleaf.2
  · obtain ⟨node, hnode, hfront, -⟩ := id hleaf
    rcases h.front_cases hnode hfront with ⟨-, hplain⟩ | hlist
    · have hfront : Query.leavesOf pieces keys content := by
        rw [hleaves]
        exact ⟨hplain, hleaf⟩
      obtain ⟨piece, hpiece, hfront⟩ := hfront
      exact ⟨piece, List.mem_append_left _ hpiece, hfront⟩
    · exact ⟨_, List.mem_append_right _ (List.mem_map_of_mem ((hkeyses keys).mpr hlist)), rfl,
        hleaf⟩

/-- The pieces of a query that is emitted for fields which cover a part of an outline have leaves
apart from each other. -/
theorem Covers.pairwise_pieces (h : Covers root home scope base items) (hroot : root.WellFormed)
    {keyses : List (List String)} (hnodup : keyses.Nodup)
    (hkeyses : ∀ keys, keys ∈ keyses ↔
      ∃ item ∈ items, ∃ inside, item.rest = elementsAt keys ++ inside)
    {pieces : List Query.Piece} (hapart : pieces.Pairwise Query.Piece.Apart)
    (hleaves : Query.leavesOf pieces =
      frontsOf items (fronts document frame base (walk [] root)))
    (queryOf : List String → Query) :
    (pieces ++ ways queryOf (fronts document frame base (walk [] root)) keyses).Pairwise
      Query.Piece.Apart := by
  refine List.pairwise_append.mpr ⟨hapart, ?_, ?_⟩
  · refine List.pairwise_map.mpr (hnodup.imp ?_)
    rintro keys others hne path content other content' ⟨rfl, hleaf⟩ ⟨rfl, hother⟩
    exact fronts_apart hroot hleaf hother hne
  · intro piece hpiece way hmem path content other content' hleaf hother
    obtain ⟨keys, hkeys, rfl⟩ := List.mem_map.mp hmem
    obtain ⟨rfl, hother⟩ := hother
    have hfront : frontsOf items (fronts document frame base (walk [] root)) path content := by
      rw [← hleaves]
      exact ⟨piece, hpiece, hleaf⟩
    obtain ⟨⟨item, hitem, hrest⟩, hleaf⟩ := hfront
    obtain ⟨twin, htwin, inside, hway⟩ := (hkeyses other).mp hkeys
    exact fronts_apart hroot hleaf hother (h.ne_way hitem htwin hrest hway)

/-- The pieces of a query that is emitted for fields which cover a part of an outline: one for the
fields outside every list, if there are any, and one for every way to a list. Together they build
the fronts, each of them some of its own. -/
theorem Covers.builds_pieces (h : Covers root home scope base items) (hroot : root.WellFormed)
    (hne : items ≠ []) {keyses : List (List String)} (hnodup : keyses.Nodup)
    (hkeyses : ∀ keys, keys ∈ keyses ↔
      ∃ item ∈ items, ∃ inside, item.rest = elementsAt keys ++ inside)
    {pieces : List Query.Piece} (hapart : pieces.Pairwise Query.Piece.Apart)
    (hpieces : ∀ piece ∈ pieces, Query.Builds bound value piece.1 piece.2 ∧
      ∃ keys content, piece.2 keys content)
    (hleaves : Query.leavesOf pieces =
      frontsOf items (fronts document frame base (walk [] root)))
    {queryOf : List String → Query}
    (hways : ∀ keys ∈ keyses, (∃ content, fronts document frame base (walk [] root) keys content) ∧
      Query.Builds bound value (queryOf keys)
        (frontAt keys (fronts document frame base (walk [] root)))) :
    Query.Builds bound value (.product (pieces.map Prod.fst ++ keyses.map queryOf))
      (fronts document frame base (walk [] root)) := by
  have hall := h.leavesOf_pieces hkeyses hleaves queryOf
  have hpairwise := h.pairwise_pieces hroot hnodup hkeyses hapart hleaves queryOf
  have hproduct : pieces.map Prod.fst ++ keyses.map queryOf =
      (pieces ++ ways queryOf (fronts document frame base (walk [] root)) keyses).map
        Prod.fst := by
    rw [List.map_append, ways, List.map_map]
    rfl
  have hbuilds : ∀ piece ∈ pieces ++
      ways queryOf (fronts document frame base (walk [] root)) keyses,
      Query.Builds bound value piece.1 piece.2 ∧ ∃ keys content, piece.2 keys content := by
    intro piece hpiece
    rcases List.mem_append.mp hpiece with hpiece | hpiece
    · exact hpieces piece hpiece
    · obtain ⟨keys, hkeys, rfl⟩ := List.mem_map.mp hpiece
      obtain ⟨⟨content, hcontent⟩, hquery⟩ := hways keys hkeys
      exact ⟨hquery, keys, content, rfl, hcontent⟩
  have hsome : pieces ++ ways queryOf (fronts document frame base (walk [] root)) keyses ≠ [] := by
    obtain ⟨keys, content, hleaf⟩ := h.exists_front hroot hne document frame
    rw [← hall] at hleaf
    obtain ⟨piece, hpiece, -⟩ := hleaf
    exact List.ne_nil_of_mem hpiece
  rw [hproduct]
  have hproductBuilds := Query.builds_product hsome (fun piece hpiece => (hbuilds piece hpiece).1)
    (fun piece hpiece => (hbuilds piece hpiece).2) hpairwise
  rwa [hall] at hproductBuilds

/-- A query that is emitted for fields which cover a part of an outline builds what the fronts
there show. -/
theorem builds_emit (hroot : root.WellFormed)
    (hhome : ∀ place node, (place, node) ∈ walk [] root → home place = node.label.origin)
    (hcompress : config.compressPaths = false) (h : Covers root home scope base items)
    (hne : items ≠ []) (hsees : scope.Sees document value frame)
    (hreadable : Readable config bound document (emit config scope items)) :
    Query.Builds bound value (emit config scope items)
      (fronts document frame base (walk [] root)) := by
  induction items using induction_members generalizing scope base value frame with
  | step items ih =>
    have hclosed := isClosed_emit [] config scope h.shown
    have hvalues : ∀ item ∈ items, Path.hasEach item.rest = false →
        Readable config bound document (item.value config scope) := fun item hitem heach =>
      hreadable.of_imp fun hemit => (hclosed.mp hemit).1 item hitem heach
    by_cases hwhole : ∃ item ∈ items, item.rest = []
    · obtain ⟨item, hitem, hrest⟩ := hwhole
      have hemit : emit config scope items = item.value config scope := by
        rw [h.shown.eq_singleton h.nodup hitem hrest, emit_whole config scope hrest]
      rw [hemit]
      exact h.builds_whole hroot hhome hsees hitem hrest (hvalues item hitem (by rw [hrest]; rfl))
    · have hbelow : ∀ item ∈ items, item.rest ≠ [] := fun item hitem hrest =>
        hwhole ⟨item, hitem, hrest⟩
      obtain ⟨pieces, hplains, hapart, hpieces, hleaves⟩ :=
        h.exists_plain_pieces hroot hhome hcompress hsees hbelow hvalues
      rw [emit_of_below config scope h.shown hbelow, hplains]
      refine h.builds_pieces hroot hne (nodup_eraseDups _) (fun _ => Group.mem_keyses) hapart
        hpieces hleaves ?_
      intro keys hkeys
      have hway := Group.mem_keyses.mp hkeys
      obtain ⟨item, hitem, inside, hrest⟩ := id hway
      exact h.builds_list hroot hhome hsees hitem hrest rfl
        (hreadable.of_imp fun hemit => ((hclosed.mp hemit).2 keys hway).1) fun element =>
          ih keys hway (h.members keys) (List.ne_nil_of_mem (Group.member_mem hitem hrest))
            (.element _ element) (hreadable.of_imp fun hemit => ((hclosed.mp hemit).2 keys hway).2)

end Emitting

end Synthesis

end Projector
