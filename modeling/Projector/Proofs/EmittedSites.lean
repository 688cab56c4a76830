import Projector.Proofs.Arrangements
import Projector.Proofs.EmittedValues
import Projector.Proofs.WritingOrder

/-!
# The sites of emitted queries

A query that is emitted for the fields of a scope writes each of them once: under its names, or
under the keys that they are joined to, and inside the elements of the lists on its way. Outside
every list the fields are written in their order, in front of all lists, and the lists are written
in the order of their fields; inside the elements of a list it is the same again, which carries the
induction on the height of the fields. When keys can be told apart, nothing is lost.
-/

namespace Projector

namespace Synthesis

/-! ## Pieces -/

/-- What is read in a scope is read from where it lives. -/
theorem target?_locate (config : Config) (scope : Scope) (shown source : Path) :
    (locate config scope shown source).target? config.rootVariable scope.base = some source := by
  have habsolute : (absolute config source).target? config.rootVariable scope.base =
      some source := by
    rw [absolute, Query.target?_read, Query.target?, if_pos rfl]
    rfl
  cases scope with
  | document =>
    rw [locate]
    split
    · rw [Query.target?_read]
      rfl
    · exact habsolute
  | element base =>
    rw [locate]
    split
    · rename_i rest hrest
      rw [Query.target?_read, following?_eq_some_iff.mp hrest]
      rfl
    · exact habsolute

/-- The sites of a wrapped query are below the keys. -/
theorem sites?_wrap {root : String} {base : Path} {query : Query} {found : List Site}
    (h : query.sites? root base = some found) (keys : List String) :
    (wrap keys query).sites? root base =
      some (found.map fun site => { site with place := keys.map .field ++ site.place }) := by
  induction keys with
  | nil => simpa [wrap] using h
  | cons key keys ih =>
    rw [wrap, List.foldr_cons, ← wrap, Query.sites?, Query.entrySites?, ih]
    simp [Query.entrySites?, Site.below, Function.comp_def]

/-- The ends of a wrapped query are below the keys. -/
theorem ends_wrap (keys : List String) (query : Query) :
    (wrap keys query).ends = query.ends.map (keys ++ ·) := by
  induction keys with
  | nil => simp [wrap]
  | cons key keys ih =>
    rw [wrap, List.foldr_cons, ← wrap, Query.ends_object]
    simp [ih, Function.comp_def]

/-- Wrapping a query loses nothing. -/
theorem isLossless_wrap (keys : List String) (query : Query) :
    (wrap keys query).isLossless = query.isLossless := by
  induction keys with
  | nil => rfl
  | cons key keys ih =>
    rw [wrap, List.foldr_cons, ← wrap, Bool.eq_iff_iff, Query.isLossless_object, ← ih]
    simp [Fields.Distinct, Fields.names]

/-- A site inside the elements of a list that keys lead to. -/
def within (keys : List String) (list : Path) (site : Site) : Site :=
  { site with place := elementsAt keys ++ site.place, lists := (list ++ [.each]) :: site.lists }

/-- The sites of the query of a list are those inside its elements. -/
theorem sites?_listQuery {config : Config} (scope : Scope) (keys : List String) {list : Path}
    {members : List Item} {found : List Site}
    (h : (emit config (.element (list ++ [.each])) members).sites? config.rootVariable
      (list ++ [.each]) = some found) :
    (listQuery config scope keys list members).sites? config.rootVariable scope.base =
      some (found.map (within keys list)) := by
  have hlist := Query.sites?_collect_eq_some_iff.mpr
    ⟨_, _, target?_locate config scope (elementsAt keys) (list ++ [.each]), h, rfl⟩
  rw [listQuery, sites?_wrap hlist, List.map_map]
  simp [within, Site.inside, elementsAt, Function.comp_def]

/-- The query of a list ends at the keys to the list. -/
theorem ends_listQuery (config : Config) (scope : Scope) (keys : List String) (list : Path)
    (members : List Item) : (listQuery config scope keys list members).ends = [keys] := by
  rw [listQuery, ends_wrap]
  simp [Query.ends]

/-- The query of a list loses nothing when what is emitted for its elements loses nothing. -/
theorem isLossless_listQuery {config : Config} (scope : Scope) (keys : List String) {list : Path}
    {members : List Item}
    (h : (emit config (.element (list ++ [.each])) members).isLossless = true) :
    (listQuery config scope keys list members).isLossless = true := by
  have hrun := (Query.isLossless_of_target?
    (target?_locate config scope (elementsAt keys) (list ++ [.each]))).2
  rw [listQuery, isLossless_wrap]
  simp [Query.isLossless, hrun, h]

/-! ## Fields and their sites -/

/-- The site of a field among the paths of all fields of its scope. -/
def Item.site (compress : Bool) (rests : List Path) (item : Item) : Site :=
  { place := Path.written compress rests [] item.rest
    lists := item.arrays.map (· ++ [.each])
    source := item.source }

/-- The place of a field among the paths of all fields of its scope, with its number. -/
def Item.numbered (compress : Bool) (rests : List Path) (item : Item) : Numbered :=
  { place := Path.written compress rests [] item.rest, order := item.order }

/-- A field inside a list, as seen from where the keys to the list start. -/
def Item.lifted (keys : List String) (list : Path) (member : Item) : Item :=
  { member with rest := elementsAt keys ++ member.rest, arrays := list :: member.arrays }

/-- The object construction of a scope, if it has fields outside every list, writes each of them in
their order, and loses nothing when keys can be told apart. -/
theorem Laid.plains_spec {home : Path → Path} {base : Path} {items : List Item}
    (h : Laid home base items) (config : Config) (scope : Scope)
    (hbelow : ∀ item ∈ items, item.rest ≠ []) :
    let rests := items.map Item.rest
    (outside items = [] ∧ plains config scope items = []) ∨
      ∃ query, plains config scope items = [query] ∧
        query.sites? config.rootVariable scope.base =
          some ((outside items).map (Item.site config.compressPaths rests)) ∧
        query.ends = ((outside items).map fun item =>
          Path.names (Path.written config.compressPaths rests [] item.rest)) ∧
        (Path.Clear config.compressPaths rests → query.isLossless = true) := by
  intro rests
  have hpath : ∀ item ∈ outside items, (item.field config scope).path.map .field = item.rest :=
    fun _ => Item.path_of_mem_outside config scope hbelow
  have hsource : ∀ item ∈ outside items, (item.field config scope).value.target?
      config.rootVariable scope.base = some item.source := fun item _ =>
    target?_locate config scope item.rest item.source
  obtain ⟨htidy, hlisting⟩ := h.tidy_outside config scope hbelow
  have hfold := @Trie.fold_ofItems config.rootVariable scope.base
    (fun query => (query.target? config.rootVariable scope.base).getD []) config.compressPaths rests
    ((outside items).map (Item.field config scope)) htidy hlisting ?_ ?_
  · by_cases hnone : outside items = []
    · exact .inl ⟨hnone, plains_of_outside_eq_nil config scope hbelow hnone⟩
    · right
      refine ⟨_, plains_of_outside_ne_nil config scope hbelow hnone, ?_, ?_, hfold.2.2⟩
      · rw [hfold.1, List.map_map]
        refine congrArg some (List.map_congr_left fun item hitem => ?_)
        have harrays : item.arrays = [] := by
          rw [(h.seen item (mem_outside.mp hitem).1).arrays,
            lists_of_not_hasEach _ (mem_outside.mp hitem).2]
          rfl
        simp only [Function.comp_apply, hpath item hitem, Item.site, harrays, hsource item hitem]
        rfl
      · rw [hfold.2.1, List.map_map]
        refine List.map_congr_left fun item hitem => ?_
        simp only [Function.comp_apply, hpath item hitem]
  · rw [List.forall_mem_map]
    intro item hitem
    rw [hsource item hitem]
    rfl
  · intro names
    rw [List.mem_map, ← exists_path_field_iff config scope hbelow]
    simp only [List.mem_map, exists_exists_and_eq_and]

/-! ## Fields inside a list -/

section Lists

variable {home : Path → Path} {base : Path} {items : List Item} (h : Shown home base items)
  (compress : Bool) (keys : List String)

include h

/-- A field of a group is one of the fields, seen from where the keys to the list start. -/
theorem Shown.mem_of_lifted {member : Item} (hmember : member ∈ (Group.ofKeys items keys).members) :
    member.lifted keys (home (base ++ keys.map .field)) ∈ items := by
  obtain ⟨item, hitem, hrest, hmember⟩ := Group.mem_members_ofKeys.mp hmember
  have harrays := arrays_eq_cons (h.seen item hitem) hrest
  have hlifted : member.lifted keys (home (base ++ keys.map .field)) = item := by
    rw [hmember, Item.lifted, ← hrest, ← harrays]
  rw [hlifted]
  exact hitem

/-- A field that goes the way of a group is one of its fields, seen from where the keys start. -/
theorem Shown.exists_lifted {item : Item} (hitem : item ∈ items)
    (hlead : elementsAt keys <+: item.rest) : ∃ member ∈ (Group.ofKeys items keys).members,
      member.lifted keys (home (base ++ keys.map .field)) = item := by
  obtain ⟨inside, hrest⟩ := hlead
  refine ⟨_, Group.member_mem hitem hrest.symm, ?_⟩
  rw [Item.lifted, hrest, ← arrays_eq_cons (h.seen item hitem) hrest.symm]

omit h in
/-- Inside a list, fields are written as among the fields of the list. -/
theorem written_members (inside : Path) :
    Path.written compress (items.map Item.rest) [] (elementsAt keys ++ inside) =
      elementsAt keys ++
        Path.written compress ((Group.ofKeys items keys).members.map Item.rest) [] inside := by
  rw [Path.written_elementsAt, List.nil_append]
  refine congrArg _ (Path.written_congr compress (fun path => ?_) inside).symm
  rw [List.nil_append]
  constructor
  · intro hpath
    obtain ⟨member, hmember, rfl⟩ := List.mem_map.mp hpath
    obtain ⟨item, hitem, hrest, -⟩ := Group.mem_members_ofKeys.mp hmember
    rw [← hrest]
    exact List.mem_map_of_mem hitem
  · intro hpath
    obtain ⟨item, hitem, hrest⟩ := List.mem_map.mp hpath
    exact List.mem_map_of_mem (f := Item.rest) (Group.member_mem hitem hrest)

omit h in
/-- The place of a field inside a list is that of its member, inside the elements of the list. -/
theorem numbered_lifted (list : Path) (member : Item) :
    (member.lifted keys list).numbered compress (items.map Item.rest) =
      { member.numbered compress ((Group.ofKeys items keys).members.map Item.rest) with
        place := elementsAt keys ++
          (member.numbered compress ((Group.ofKeys items keys).members.map Item.rest)).place } := by
  rw [Item.numbered, Item.numbered, Item.lifted, written_members]

omit h in
/-- The site of a field inside a list is that of its member, inside the elements of the list. -/
theorem site_lifted (list : Path) (member : Item) :
    within keys list (member.site compress ((Group.ofKeys items keys).members.map Item.rest)) =
      (member.lifted keys list).site compress (items.map Item.rest) := by
  rw [Item.site, Item.site, Item.lifted, written_members]
  rfl

end Lists

/-! ## All fields of a scope -/

/-- The fields of a scope in the order in which a query writes them. -/
structure Order (compress : Bool) (items written : List Item) : Prop where
  perm : written.Perm items
  before : written.Pairwise fun item other =>
    (item.numbered compress (items.map Item.rest)).Before
      (other.numbered compress (items.map Item.rest))

/-- The fields of a scope, given those inside each list: first the ones outside every list, and then
the ones inside each list as seen from the scope. -/
def arranged (home : Path → Path) (base : Path) (items : List Item)
    (inside : List String → List Item) : List Item :=
  outside items ++ (Group.keyses items).flatMap fun keys =>
    (inside keys).map (Item.lifted keys (home (base ++ keys.map .field)))

/-- The fields of a scope are all there when those inside each list are. -/
theorem Shown.mem_arranged {home : Path → Path} {base : Path} {items : List Item}
    (h : Shown home base items) {inside : List String → List Item}
    (hinside : ∀ keys ∈ Group.keyses items, (inside keys).Perm (Group.ofKeys items keys).members)
    {item : Item} : item ∈ arranged home base items inside ↔ item ∈ items := by
  rw [arranged, List.mem_append, List.mem_flatMap]
  constructor
  · rintro (hitem | ⟨keys, hkeys, hitem⟩)
    · exact (mem_outside.mp hitem).1
    · obtain ⟨member, hmember, rfl⟩ := List.mem_map.mp hitem
      exact h.mem_of_lifted keys ((hinside keys hkeys).mem_iff.mp hmember)
  · intro hitem
    cases hsplit : splitEach? item.rest with
    | none => exact .inl (mem_outside.mpr ⟨hitem, splitEach?_eq_none_iff.mp hsplit⟩)
    | some split =>
      obtain ⟨keys, rest⟩ := split
      have hrest := splitEach?_eq_some hsplit
      have hkeys : keys ∈ Group.keyses items := Group.mem_keyses.mpr ⟨item, hitem, rest, hrest⟩
      obtain ⟨member, hmember, hitem⟩ := h.exists_lifted keys hitem ⟨rest, hrest.symm⟩
      exact .inr ⟨keys, hkeys, List.mem_map.mpr ⟨member,
        (hinside keys hkeys).mem_iff.mpr hmember, hitem⟩⟩

/-- Each field of a scope is written before the ones behind it when this is so inside each list. -/
theorem Laid.before_arranged {home : Path → Path} {base : Path} {items : List Item}
    (h : Laid home base items) {compress : Bool} {inside : List String → List Item}
    (hinside : ∀ keys ∈ Group.keyses items,
      Order compress (Group.ofKeys items keys).members (inside keys)) :
    (arranged home base items inside).Pairwise fun item other =>
      (item.numbered compress (items.map Item.rest)).Before
        (other.numbered compress (items.map Item.rest)) := by
  have hlifted : ∀ keys ∈ Group.keyses items, ∀ member ∈ inside keys,
      member.lifted keys (home (base ++ keys.map .field)) ∈ items := fun keys hkeys _ hmember =>
    h.toShown.mem_of_lifted keys ((hinside keys hkeys).perm.mem_iff.mp hmember)
  have hlead : ∀ (keys : List String) (list : Path) (member : Item), elementsAt keys <+:
      ((member.lifted keys list).numbered compress (items.map Item.rest)).place := by
    intro keys list member
    rw [numbered_lifted]
    exact List.prefix_append _ _
  have hplain : ∀ item ∈ outside items,
      Path.hasEach (item.numbered compress (items.map Item.rest)).place = false :=
    fun item hitem => (Path.hasEach_written _ _ _ _).trans (mem_outside.mp hitem).2
  refine List.pairwise_append.mpr ⟨?_, List.pairwise_flatMap.mpr ⟨?_, ?_⟩, ?_⟩
  · refine (h.ascending.sublist List.filter_sublist).imp_of_mem ?_
    intro item other hitem hother hlt
    exact before_of_outside (hplain item hitem) (hplain other hother) hlt
  · intro keys hkeys
    refine List.pairwise_map.mpr ((hinside keys hkeys).before.imp ?_)
    intro member other hlt
    rw [numbered_lifted, numbered_lifted]
    exact before_within hlt keys
  · refine (h.pairwise_keyses.and (nodup_eraseDups _)).imp_of_mem ?_
    intro keys others hkeys hothers ⟨hlt, hne⟩ item hitem other hother
    obtain ⟨member, hmember, rfl⟩ := List.mem_map.mp hitem
    obtain ⟨twin, htwin, rfl⟩ := List.mem_map.mp hother
    refine before_of_ne hne (hlead keys _ member) (hlead others _ twin) ?_
    exact hlt _ (hlifted keys hkeys member hmember) _ (hlifted others hothers twin htwin)
      (List.prefix_append _ _) (List.prefix_append _ _)
  · intro item hitem other hother
    obtain ⟨keys, -, hother⟩ := List.mem_flatMap.mp hother
    obtain ⟨member, -, rfl⟩ := List.mem_map.mp hother
    refine before_of_inside (hplain item hitem) ?_
    obtain ⟨rest, hrest⟩ := hlead keys (home (base ++ keys.map .field)) member
    rw [← hrest, hasEach_append]
    simp [elementsAt, Path.hasEach, Segment.isEach]

/-- The fields of a scope are written as arranged when those inside each list are written in their
order. -/
theorem Laid.order {home : Path → Path} {base : Path} {items : List Item} (h : Laid home base items)
    {compress : Bool} {inside : List String → List Item}
    (hinside : ∀ keys ∈ Group.keyses items,
      Order compress (Group.ofKeys items keys).members (inside keys)) :
    Order compress items (arranged home base items inside) := by
  have hbefore := h.before_arranged hinside
  have hdiffer : (arranged home base items inside).Nodup := by
    refine hbefore.imp ?_
    rintro item _ hlt rfl
    exact Numbered.not_before_self _ hlt
  refine ⟨(List.perm_ext_iff_of_nodup hdiffer h.nodup.of_map).mpr fun item => ?_, hbefore⟩
  exact h.toShown.mem_arranged fun keys hkeys => (hinside keys hkeys).perm

/-- The pieces of a query that is emitted for fields below the scope. -/
theorem Laid.pieces_ne_nil {home : Path → Path} {base : Path} {items : List Item}
    (h : Laid home base items) (config : Config) (scope : Scope) (hne : items ≠ [])
    (hbelow : ∀ item ∈ items, item.rest ≠ []) (queryOf : List String → Query) :
    plains config scope items ++ (Group.keyses items).map queryOf ≠ [] := by
  obtain ⟨item, hitem⟩ := List.exists_mem_of_ne_nil items hne
  intro hnil
  obtain ⟨hplains, hkeyses⟩ := List.append_eq_nil_iff.mp hnil
  cases hsplit : splitEach? item.rest with
  | none =>
    have houtside := mem_outside.mpr ⟨hitem, splitEach?_eq_none_iff.mp hsplit⟩
    rcases h.plains_spec config scope hbelow with ⟨hnone, -⟩ | ⟨query, hquery, -⟩
    · rw [hnone] at houtside
      cases houtside
    · rw [hquery] at hplains
      cases hplains
  | some split =>
    have hkeys := Group.mem_keyses.mpr ⟨item, hitem, split.2, splitEach?_eq_some hsplit⟩
    rw [List.map_eq_nil_iff.mp hkeyses] at hkeys
    cases hkeys

/-- A query that is emitted for fields writes each of them at its site, in the order of writing. -/
theorem Laid.sites_emit {home : Path → Path} {base : Path} {items : List Item}
    (h : Laid home base items) (config : Config) (scope : Scope) (hne : items ≠ []) :
    ∃ written, Order config.compressPaths items written ∧
      (emit config scope items).sites? config.rootVariable scope.base =
        some (written.map (Item.site config.compressPaths (items.map Item.rest))) := by
  induction items using induction_members generalizing scope base with
  | step items ih =>
    rcases h.whole_or_below with ⟨item, rfl, hrest⟩ | hbelow
    · have harrays : item.arrays = [] := by
        rw [(h.seen item (List.mem_singleton_self _)).arrays, hrest]
        rfl
      rw [emit_whole config scope hrest]
      refine ⟨[item], ⟨.refl _, List.pairwise_singleton _ _⟩, ?_⟩
      rw [Item.value, Query.sites?_of_target? (target?_locate config scope _ _), List.map_singleton,
        Item.site, hrest, harrays]
      rfl
    · let listOf : List String → Path := fun keys => home (base ++ keys.map .field)
      have hinside : ∀ keys ∈ Group.keyses items, ∃ inside,
          Order config.compressPaths (Group.ofKeys items keys).members inside ∧
            (emit config (.element (listOf keys ++ [.each]))
              (Group.ofKeys items keys).members).sites? config.rootVariable
                (listOf keys ++ [.each]) =
              some (inside.map (Item.site config.compressPaths
                ((Group.ofKeys items keys).members.map Item.rest))) := by
        intro keys hkeys
        have hway := Group.mem_keyses.mp hkeys
        obtain ⟨item, hitem, inside, hrest⟩ := id hway
        exact ih keys hway (h.members keys) (.element (listOf keys ++ [.each]))
          (List.ne_nil_of_mem (Group.member_mem hitem hrest))
      choose! inside horder hsites using hinside
      refine ⟨_, h.order horder, ?_⟩
      have hlists : List.Forall₂ (fun piece sites =>
          Query.sites? config.rootVariable scope.base piece = some sites)
          ((Group.keyses items).map fun keys => listQuery config scope keys (listOf keys)
            (Group.ofKeys items keys).members)
          ((Group.keyses items).map fun keys => ((inside keys).map
            (Item.lifted keys (listOf keys))).map
              (Item.site config.compressPaths (items.map Item.rest))) := by
        refine List.forall₂_map_left_iff.mpr (List.forall₂_map_right_iff.mpr
          (List.forall₂_same.mpr fun keys hkeys => ?_))
        rw [sites?_listQuery scope keys (hsites keys hkeys), List.map_map, List.map_map]
        exact congrArg some (List.map_congr_left fun member _ => site_lifted _ keys _ member)
      rw [emit_of_below config scope h.toShown hbelow]
      have hpieces := h.pieces_ne_nil config scope hne hbelow fun keys =>
        listQuery config scope keys (listOf keys) (Group.ofKeys items keys).members
      rcases h.plains_spec config scope hbelow with ⟨hnone, hplains⟩ | ⟨query, hplains, hquery, -⟩
      · rw [hplains] at hpieces ⊢
        rw [Query.sites?_product hpieces hlists, arranged, hnone, List.nil_append,
          List.map_flatMap, List.flatMap_def]
      · rw [hplains] at hpieces ⊢
        rw [Query.sites?_product hpieces (.cons hquery hlists), arranged, List.map_append,
          List.map_flatMap, List.flatMap_def, List.flatten_cons]

/-! ## Nothing is lost -/

/-- Keys can be told apart inside a list when they can be told apart around it. -/
theorem clear_members {compress : Bool} {items : List Item}
    (h : Path.Clear compress (items.map Item.rest)) (keys : List String) :
    Path.Clear compress ((Group.ofKeys items keys).members.map Item.rest) := by
  refine h.imp_right fun hclear => hclear.of_append (elementsAt keys) fun path hpath => ?_
  obtain ⟨member, hmember, rfl⟩ := List.mem_map.mp hpath
  obtain ⟨item, hitem, hrest, -⟩ := Group.mem_members_ofKeys.mp hmember
  rw [← hrest]
  exact List.mem_map_of_mem hitem

namespace Laid

variable {home : Path → Path} {base : Path} {items : List Item} (h : Laid home base items)

include h

/-- The keys of a field outside every list and the keys to a list are not in front of each other,
when keys can be told apart. -/
theorem apart_written {compress : Bool} (hclear : Path.Clear compress (items.map Item.rest))
    {item : Item} (hitem : item ∈ outside items) {keys : List String}
    (hkeys : keys ∈ Group.keyses items) :
    Leaves.Apart (Path.names (Path.written compress (items.map Item.rest) [] item.rest)) keys := by
  obtain ⟨hmem, heach⟩ := mem_outside.mp hitem
  have hrest := eq_map_field_of_not_hasEach heach
  have hwritten := eq_map_field_of_not_hasEach
    ((Path.hasEach_written compress (items.map Item.rest) [] item.rest).trans heach)
  have hlead : ∃ path ∈ items.map Item.rest, [] ++ (Path.names item.rest).map .field <+: path :=
    ⟨item.rest, List.mem_map_of_mem hmem, by rw [List.nil_append, ← hrest]⟩
  have hlead' : ∃ path ∈ items.map Item.rest, [] ++ keys.map .field <+: path := by
    obtain ⟨other, hother, inside, hotherRest⟩ := Group.mem_keyses.mp hkeys
    refine ⟨other.rest, List.mem_map_of_mem hother, ?_⟩
    rw [hotherRest, elementsAt, List.append_assoc, List.nil_append]
    exact List.prefix_append _ _
  have hapart := h.apart_outside hmem hrest hkeys
  constructor
  · intro hleads
    refine hapart.1 (Path.prefix_of_written (hclear.imp_left fun h => ⟨h, rfl⟩) hlead hlead'
      (?_ : _ <+: Path.written false _ _ _))
    rw [Path.written_false, ← hrest, hwritten]
    exact prefix_map_field.mpr hleads
  · intro hleads
    refine hapart.2 (Path.prefix_of_written (hclear.imp_left fun h => ⟨rfl, h⟩) hlead' hlead
      (?_ : Path.written false _ _ _ <+: _))
    rw [Path.written_false, ← hrest, hwritten]
    exact prefix_map_field.mpr hleads

/-- The queries of different lists end apart from each other. -/
theorem apart_listQueries (config : Config) (scope : Scope) (listOf : List String → Path)
    (membersOf : List String → List Item) :
    ((Group.keyses items).map fun keys =>
      listQuery config scope keys (listOf keys) (membersOf keys)).Pairwise fun piece other =>
        ∀ path ∈ piece.ends, ∀ stop ∈ other.ends, Leaves.Apart path stop := by
  refine List.pairwise_map.mpr (h.pairwise_apart_keyses.imp fun hapart => ?_)
  simpa only [ends_listQuery, List.mem_singleton, forall_eq] using hapart

/-- A query that is emitted for fields loses nothing when keys can be told apart. -/
theorem isLossless_emit (config : Config) (scope : Scope)
    (hclear : Path.Clear config.compressPaths (items.map Item.rest)) :
    (emit config scope items).isLossless = true := by
  induction items using induction_members generalizing scope base with
  | step items ih =>
    rcases h.whole_or_below with ⟨item, rfl, hrest⟩ | hbelow
    · rw [emit_whole config scope hrest]
      exact (Query.isLossless_of_target? (target?_locate config scope _ _)).2
    · have hlists : ∀ keys ∈ Group.keyses items, ∀ list : Path,
          (listQuery config scope keys list (Group.ofKeys items keys).members).isLossless = true :=
        fun keys hkeys list => isLossless_listQuery scope keys
          (ih keys (Group.mem_keyses.mp hkeys) (h.members keys) (.element (list ++ [.each]))
            (clear_members hclear keys))
      rw [emit_of_below config scope h.toShown hbelow]
      rcases h.plains_spec config scope hbelow with
        ⟨-, hplains⟩ | ⟨query, hplains, -, hends, hlossless⟩
      · rw [hplains]
        exact Query.isLossless_product (List.forall_mem_map.mpr fun keys hkeys =>
          hlists keys hkeys _) (h.apart_listQueries config scope _ _)
      · rw [hplains]
        refine Query.isLossless_product ?_
          (List.pairwise_cons.mpr ⟨?_, h.apart_listQueries config scope _ _⟩)
        · intro piece hpiece
          rcases List.mem_cons.mp hpiece with rfl | hpiece
          · exact hlossless hclear
          · obtain ⟨keys, hkeys, rfl⟩ := List.mem_map.mp hpiece
            exact hlists keys hkeys _
        · intro piece hpiece path hpath stop hstop
          obtain ⟨keys, hkeys, rfl⟩ := List.mem_map.mp hpiece
          rw [hends] at hpath
          obtain ⟨item, hitem, rfl⟩ := List.mem_map.mp hpath
          rw [ends_listQuery, List.mem_singleton] at hstop
          rw [hstop]
          exact h.apart_written hclear hitem hkeys

end Laid

end Synthesis

end Projector
