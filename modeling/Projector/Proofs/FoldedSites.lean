import Projector.Proofs.WrittenPaths

/-!
# What a folded trie writes

A tidy trie of queries that only follow steps is folded into an object construction with one site
for each leaf, in the order of the leaves. The site of a leaf is at the keys under which its path is
written beside the other paths, and the construction loses nothing when the names of different paths
are not joined to the same key.
-/

namespace Projector

namespace Query

/-- What only follows steps ends where it stands and loses nothing. -/
theorem isLossless_of_target? {root : String} {base source : Path} {query : Query}
    (h : query.target? root base = some source) :
    query.ends = [[]] ∧ query.isLossless = true := by
  fun_induction target? root base query generalizing source with
  | case1 => exact ⟨rfl, rfl⟩
  | case2 => exact ⟨rfl, rfl⟩
  | case3 => exact ⟨rfl, rfl⟩
  | case4 query segment ih =>
    obtain ⟨path, hpath, -⟩ := Option.map_eq_some_iff.mp h
    exact ⟨rfl, (ih hpath).2⟩
  | case5 => cases h

end Query

namespace Trie

variable {α β : Type}

/-- The entry of a trie has its order. -/
theorem order_foldEntry (object : Fields β → β) (value : α → β) (compress : Bool) (key : String)
    (trie : Trie α) : (foldEntry object value compress key trie).order = trie.order := by
  cases trie with
  | leaf value order => rfl
  | branch order children =>
    unfold foldEntry
    split <;> rfl

/-- A branch with a single child is joined with it under compression. -/
theorem foldEntry_only (object : Fields β → β) (value : α → β) (key : String) (order : Int)
    (only : String × Trie α) : foldEntry object value true key (.branch order [only]) =
      { key := dotted key (foldEntry object value true only.1 only.2).key
        value := (foldEntry object value true only.1 only.2).value, order } := by
  rfl

/-- Any other branch becomes an object construction. -/
theorem foldEntry_branch (object : Fields β → β) (value : α → β) {compress : Bool} (key : String)
    (order : Int) {children : List (String × Trie α)}
    (h : ¬(compress = true ∧ ∃ only, children = [only])) :
    foldEntry object value compress key (.branch order children) =
      { key
        value := object (Folded.fields (foldEntries object value compress children))
        order } := by
  unfold foldEntry
  split
  · rename_i only heq
    rw [foldEntries_eq_map, List.map_eq_singleton_iff] at heq
    obtain ⟨child, hchild, -⟩ := heq
    exact absurd ⟨rfl, child, hchild⟩ h
  · rfl

/-- The key of an entry that nothing is joined to. -/
theorem key_foldEntry_false (object : Fields β → β) (value : α → β) (key : String)
    (trie : Trie α) : (foldEntry object value false key trie).key = key := by
  cases trie <;> rfl

/-- The fields of an object construction are the entries of the children, sorted as these are. -/
theorem fields_foldEntries_sorted (object : Fields β → β) (value : α → β) (compress : Bool)
    (children : Fields (Trie α)) : Folded.fields (foldEntries object value compress children) =
      (sortByOrder (fun child => child.2.order) children).map fun child =>
        ((foldEntry object value compress child.1 child.2).key,
          (foldEntry object value compress child.1 child.2).value) := by
  let entry (child : String × Trie α) := foldEntry object value compress child.1 child.2
  have horder : ∀ child, (entry child).order = child.2.order :=
    fun child => order_foldEntry object value compress child.1 child.2
  rw [Folded.fields, foldEntries_eq_map, sortByOrder_map entry horder, List.map_map]
  rfl

/-- The fields of the object construction of children in ascending order are the entries of the
children, in their order. -/
theorem fields_foldEntries {children : Fields (Trie α)}
    (h : children.Pairwise fun child other => child.2.order ≤ other.2.order)
    (object : Fields β → β) (value : α → β) (compress : Bool) :
    Folded.fields (foldEntries object value compress children) = children.map fun child =>
      ((foldEntry object value compress child.1 child.2).key,
        (foldEntry object value compress child.1 child.2).value) := by
  rw [fields_foldEntries_sorted, sortByOrder_eq h]

/-- So are those of the object construction of tidy children. -/
theorem TidyBelow.fields_eq {children : Fields (Trie α)} (h : TidyBelow children)
    (object : Fields β → β) (value : α → β) (compress : Bool) :
    Folded.fields (foldEntries object value compress children) = children.map fun child =>
      ((foldEntry object value compress child.1 child.2).key,
        (foldEntry object value compress child.1 child.2).value) :=
  fields_foldEntries (h.ascending.imp Int.le_of_lt) object value compress

/-! ## The sites of a folded trie -/

section Sites

variable {root : String} {base : Path} {source : Query → Path} {compress : Bool}
  {paths : List Path}

/-- What the entry of a trie under a key writes, given the keys in front of it: each leaf is written
at the keys of its path, of which the first is the key of the entry. -/
structure Writes (root : String) (base : Path) (source : Query → Path) (compress : Bool)
    (paths : List Path) (front : List String) (key : String) (trie : Trie Query) : Prop where
  head : ∀ leaf ∈ listing trie, (Path.written compress paths (front.map .field)
    ((key :: leaf.path).map .field)).head? =
      some (.field (foldEntry .object id compress key trie).key)
  sites : (foldEntry .object id compress key trie).value.sites? root base =
    some ((listing trie).map fun leaf =>
      { place := (Path.written compress paths (front.map .field)
          ((key :: leaf.path).map .field)).tail
        lists := [], source := source leaf.value })
  ends : (foldEntry .object id compress key trie).value.ends = (listing trie).map fun leaf =>
    Path.names (Path.written compress paths (front.map .field)
      ((key :: leaf.path).map .field)).tail

/-- The sites of an object construction of tidy children, given what the entries of these write. -/
theorem TidyBelow.sites_fields {children : Fields (Trie Query)} (h : TidyBelow children)
    {front : List String}
    (hchild : ∀ child ∈ children, Writes root base source compress paths front child.1 child.2) :
    (Query.object (Folded.fields (foldEntries .object id compress children))).sites? root base =
      some ((listingBelow children).map fun leaf =>
        { place := Path.written compress paths (front.map .field) (leaf.path.map .field)
          lists := [], source := source leaf.value }) ∧
    (Query.object (Folded.fields (foldEntries .object id compress children))).ends =
      (listingBelow children).map fun leaf =>
        Path.names (Path.written compress paths (front.map .field) (leaf.path.map .field)) := by
  have hplace : ∀ child ∈ children, ∀ leaf ∈ listing child.2,
      .field (foldEntry Query.object id compress child.1 child.2).key ::
        (Path.written compress paths (front.map .field)
          ((child.1 :: leaf.path).map .field)).tail =
        Path.written compress paths (front.map .field) ((child.1 :: leaf.path).map .field) :=
    fun child hmem leaf hleaf => List.cons_head?_tail ((hchild child hmem).head leaf hleaf)
  rw [h.fields_eq, listingBelow_eq_flatMap]
  constructor
  · rw [Query.sites?_object fun child hmem => (hchild child hmem).sites, List.map_flatMap]
    refine congrArg some (List.flatMap_congr fun child hmem => ?_)
    rw [List.map_map, List.map_map]
    refine List.map_congr_left fun leaf hleaf => ?_
    simp only [Function.comp_apply, Leaf.below, Site.below]
    rw [hplace child hmem leaf hleaf]
  · rw [Query.ends_object, List.flatMap_map, List.map_flatMap]
    refine List.flatMap_congr fun child hmem => ?_
    rw [(hchild child hmem).ends, List.map_map, List.map_map]
    refine List.map_congr_left fun leaf hleaf => ?_
    simp only [Function.comp_apply, Leaf.below]
    rw [← hplace child hmem leaf hleaf]
    rfl

/-- The leaves of children with a front in common are those of the child with the first key. -/
theorem exists_listingBelow_iff {children : Fields (Trie Query)}
    (hdistinct : Fields.Distinct children) {child : String × Trie Query} (hchild : child ∈ children)
    (names : List String) : (∃ leaf ∈ listingBelow children, leaf.path = child.1 :: names) ↔
      ∃ leaf ∈ listing child.2, leaf.path = names := by
  constructor
  · rintro ⟨leaf, hleaf, hpath⟩
    rw [listingBelow_eq_flatMap] at hleaf
    obtain ⟨other, hother, hleaf⟩ := List.mem_flatMap.mp hleaf
    obtain ⟨inner, hinner, rfl⟩ := List.mem_map.mp hleaf
    obtain ⟨hkey, hpath⟩ := List.cons.inj hpath
    rw [List.inj_on_of_nodup_map hdistinct hother hchild hkey] at hinner
    exact ⟨inner, hinner, hpath⟩
  · rintro ⟨leaf, hleaf, rfl⟩
    exact ⟨leaf.below child.1, mem_listingBelow hchild hleaf, rfl⟩

/-- All fields behind a front go on with the key of a child when it is the only one. -/
theorem goOn_iff_only {children : Fields (Trie Query)} (h : TidyBelow children)
    {front : List String}
    (hpaths : ∀ names, (front ++ names).map Segment.field ∈ paths ↔
      ∃ leaf ∈ listingBelow children, leaf.path = names)
    {child : String × Trie Query} (hchild : child ∈ children) :
    Path.goOn paths (front.map .field) child.1 = true ↔ children = [child] := by
  rw [Path.goOn_iff]
  constructor
  · intro hnext
    have hall : ∀ other ∈ children, other = child := by
      intro other hother
      obtain ⟨leaf, hleaf, -⟩ := (h.child other hother).exists_leaf
      have hmem := (hpaths (other.1 :: leaf.path)).mpr ⟨_, mem_listingBelow hother hleaf, rfl⟩
      rw [List.map_append] at hmem
      have hkey := hnext _ hmem (Synthesis.hasEach_map_field _)
      simp only [List.map_cons, List.cons_prefix_cons, Segment.field.injEq, List.nil_prefix,
        and_true] at hkey
      exact List.inj_on_of_nodup_map h.distinct hother hchild hkey.symm
    refine List.perm_singleton.mp ((List.perm_ext_iff_of_nodup h.distinct.of_map
      (List.nodup_singleton child)).mpr fun other => ?_)
    rw [List.mem_singleton]
    exact ⟨hall other, fun heq => heq ▸ hchild⟩
  · rintro rfl rest hmem heach
    rw [Synthesis.eq_map_field_of_not_hasEach heach, ← List.map_append, hpaths] at hmem
    obtain ⟨leaf, hleaf, hpath⟩ := hmem
    rw [listingBelow_eq_flatMap, List.flatMap_singleton] at hleaf
    obtain ⟨leaf, -, rfl⟩ := List.mem_map.mp hleaf
    rw [Synthesis.eq_map_field_of_not_hasEach heach, ← hpath]
    simp [Leaf.below]

/-- Behind a key every leaf is written as behind the keys of the children, of which the first is
joined with the key under compression when there is only one child. -/
theorem written_behind (compress : Bool) {children : Fields (Trie Query)}
    (h : TidyBelow children) {front : List String} {key : String}
    (hpaths : ∀ names, ((front ++ [key]) ++ names).map Segment.field ∈ paths ↔
      ∃ leaf ∈ listingBelow children, leaf.path = names)
    {leaf : Leaf Query} (hleaf : leaf ∈ listingBelow children) :
    let inner := Path.written compress paths ((front ++ [key]).map .field) (leaf.path.map .field)
    let joins := compress = true ∧ ∃ only, children = [only]
    (joins → Path.written compress paths (front.map .field) ((key :: leaf.path).map .field) =
      Path.join key inner) ∧
    (¬joins → Path.written compress paths (front.map .field) ((key :: leaf.path).map .field) =
      .field key :: inner) := by
  rw [listingBelow_eq_flatMap] at hleaf
  obtain ⟨child, hchild, hleaf⟩ := List.mem_flatMap.mp hleaf
  obtain ⟨inner, -, rfl⟩ := List.mem_map.mp hleaf
  have hgoOn := goOn_iff_only h hpaths hchild
  simp only [Leaf.below, List.map_append, List.map_cons, List.map_nil, Path.written,
    Synthesis.hasEach_map_field, Bool.not_false, Bool.and_true, Bool.and_eq_true] at hgoOn ⊢
  constructor
  · rintro ⟨htrue, only, honly⟩
    rw [honly, List.mem_singleton] at hchild
    exact if_pos ⟨htrue, hgoOn.mpr (by rw [honly, hchild])⟩
  · intro hjoin
    exact if_neg fun hgoes => hjoin ⟨hgoes.1, child, hgoOn.mp hgoes.2⟩

/-- The entry of the only child of a branch writes the leaves of the branch, with its key joined to
that of the branch. -/
theorem Writes.only {only : String × Trie Query} {front : List String} {key : String}
    (h : Writes root base source true paths (front ++ [key]) only.1 only.2)
    (htidy : TidyBelow [only])
    (hpaths : ∀ names, ((front ++ [key]) ++ names).map Segment.field ∈ paths ↔
      ∃ leaf ∈ listingBelow [only], leaf.path = names) (order : Int) :
    Writes root base source true paths front key (.branch order [only]) := by
  obtain ⟨hhead, hsites, hends⟩ := h
  have hlisting :
      listing (.branch order [only]) = (listing only.2).map (Leaf.below only.1) := by
    simp [listing, listingBelow]
  have hjoined : ∀ leaf ∈ listing only.2,
      Path.written true paths (front.map .field) ((key :: only.1 :: leaf.path).map .field) =
        .field (dotted key (foldEntry .object id true only.1 only.2).key) ::
          (Path.written true paths ((front ++ [key]).map .field)
            ((only.1 :: leaf.path).map .field)).tail := by
    intro leaf hleaf
    have hwritten := (written_behind true htidy hpaths
      (mem_listingBelow (List.mem_singleton_self _) hleaf)).1 ⟨rfl, only, rfl⟩
    rw [Leaf.below] at hwritten
    rw [hwritten, ← List.cons_head?_tail (hhead leaf hleaf)]
    rfl
  refine ⟨?_, ?_, ?_⟩
  · rw [hlisting, foldEntry_only, List.forall_mem_map]
    intro leaf hleaf
    rw [Leaf.below, hjoined leaf hleaf]
    rfl
  · rw [hlisting, foldEntry_only, hsites, List.map_map]
    refine congrArg some (List.map_congr_left fun leaf hleaf => ?_)
    simp only [Function.comp_apply, Leaf.below, hjoined leaf hleaf, List.tail_cons]
  · rw [hlisting, foldEntry_only, hends, List.map_map]
    refine List.map_congr_left fun leaf hleaf => ?_
    simp only [Function.comp_apply, Leaf.below, hjoined leaf hleaf, List.tail_cons]

/-- The entry of a branch that is joined with no child writes what the entries of its children
write. -/
theorem TidyBelow.writes {children : Fields (Trie Query)} (h : TidyBelow children)
    {front : List String} {key : String}
    (hchild : ∀ child ∈ children,
      Writes root base source compress paths (front ++ [key]) child.1 child.2)
    (hpaths : ∀ names, ((front ++ [key]) ++ names).map Segment.field ∈ paths ↔
      ∃ leaf ∈ listingBelow children, leaf.path = names)
    (hjoin : ¬(compress = true ∧ ∃ only, children = [only])) (order : Int) :
    Writes root base source compress paths front key (.branch order children) := by
  obtain ⟨hsites, hends⟩ := h.sites_fields hchild
  have hvalue := foldEntry_branch .object id key order hjoin
  have hbehind := fun leaf (hleaf : leaf ∈ listingBelow children) =>
    (written_behind compress h hpaths hleaf).2 hjoin
  refine ⟨fun leaf hleaf => ?_, ?_, ?_⟩
  · rw [hbehind leaf hleaf, hvalue]
    rfl
  · rw [hvalue, hsites]
    refine congrArg some (List.map_congr_left fun leaf hleaf => ?_)
    rw [hbehind leaf hleaf, List.tail_cons]
  · rw [hvalue, hends]
    refine List.map_congr_left fun leaf hleaf => ?_
    rw [hbehind leaf hleaf, List.tail_cons]

/-- A tidy trie of queries that only follow steps writes its leaves. -/
theorem Tidy.writes {trie : Trie Query} (h : Tidy trie) {front : List String} {key : String}
    (hsource : ∀ leaf ∈ listing trie, leaf.value.target? root base = some (source leaf.value))
    (hpaths : ∀ names, (front ++ key :: names).map Segment.field ∈ paths ↔
      ∃ leaf ∈ listing trie, leaf.path = names) :
    Writes root base source compress paths front key trie := by
  induction h generalizing front key with
  | leaf value order =>
    have hvalue : value.target? root base = some (source value) :=
      hsource _ (List.mem_singleton_self _)
    refine ⟨?_, Query.sites?_of_target? hvalue, (Query.isLossless_of_target? hvalue).1⟩
    simp [listing, Path.written, foldEntry]
  | @branch order children horder hdistinct hascending hchild ih =>
    have htidy : TidyBelow children := ⟨hdistinct, hascending, hchild⟩
    have hfront : ∀ names, ((front ++ [key]) ++ names).map Segment.field ∈ paths ↔
        ∃ leaf ∈ listingBelow children, leaf.path = names := fun names => by
      rw [List.append_assoc]
      exact hpaths names
    have hwrites : ∀ child ∈ children,
        Writes root base source compress paths (front ++ [key]) child.1 child.2 := by
      intro child hmem
      refine ih child hmem (fun leaf hleaf => hsource (leaf.below child.1)
        (mem_listingBelow hmem hleaf)) fun names => ?_
      rw [← exists_listingBelow_iff hdistinct hmem, ← hfront]
    by_cases hjoin : compress = true ∧ ∃ only, children = [only]
    · obtain ⟨rfl, only, rfl⟩ := hjoin
      exact (hwrites only (List.mem_singleton_self _)).only htidy hfront order
    · exact htidy.writes hwrites hfront hjoin order

/-- The object construction of tidy children loses nothing when their values lose nothing and keys
can be told apart. -/
theorem TidyBelow.isLossless_fields {children : Fields (Trie Query)} (h : TidyBelow children)
    (hclear : Path.Clear compress paths) {front : List String}
    (hpaths : ∀ names, (front ++ names).map Segment.field ∈ paths ↔
      ∃ leaf ∈ listingBelow children, leaf.path = names)
    (hchild : ∀ child ∈ children, Writes root base source compress paths front child.1 child.2)
    (hlossless : ∀ child ∈ children,
      (foldEntry .object id compress child.1 child.2).value.isLossless = true) :
    (Query.object (Folded.fields (foldEntries .object id compress children))).isLossless =
      true := by
  rw [Query.isLossless_object, h.fields_eq]
  refine ⟨?_, List.forall_mem_map.mpr hlossless⟩
  rw [Fields.Distinct, Fields.names, List.map_map]
  refine List.Nodup.map_on ?_ h.distinct.of_map
  intro child hmem other hother hkey
  obtain ⟨leaf, hleaf, -⟩ := (h.child child hmem).exists_leaf
  obtain ⟨twin, htwin, -⟩ := (h.child other hother).exists_leaf
  have hlead : ∀ child ∈ children, ∀ leaf ∈ listing child.2, ∃ path ∈ paths,
      front.map .field ++ (child.1 :: leaf.path).map .field <+: path := by
    intro child hmem leaf hleaf
    refine ⟨_, (hpaths (child.1 :: leaf.path)).mpr ⟨_, mem_listingBelow hmem hleaf, rfl⟩, ?_⟩
    rw [List.map_append]
  refine List.inj_on_of_nodup_map h.distinct hmem hother (Path.eq_of_head_written hclear
    (hlead child hmem leaf hleaf) (hlead other hother twin htwin) ?_)
  rw [(hchild child hmem).head leaf hleaf, (hchild other hother).head twin htwin]
  exact congrArg (fun key => some (Segment.field key)) hkey

/-- The entry of a tidy trie loses nothing when keys can be told apart. -/
theorem Tidy.isLossless {trie : Trie Query} (h : Tidy trie) (hclear : Path.Clear compress paths)
    {front : List String} {key : String}
    (hsource : ∀ leaf ∈ listing trie, leaf.value.target? root base = some (source leaf.value))
    (hpaths : ∀ names, (front ++ key :: names).map Segment.field ∈ paths ↔
      ∃ leaf ∈ listing trie, leaf.path = names) :
    (foldEntry .object id compress key trie).value.isLossless = true := by
  induction h generalizing front key with
  | leaf value order =>
    exact (Query.isLossless_of_target? (hsource _ (List.mem_singleton_self _))).2
  | @branch order children horder hdistinct hascending hchild ih =>
    have htidy : TidyBelow children := ⟨hdistinct, hascending, hchild⟩
    have hfront : ∀ names, ((front ++ [key]) ++ names).map Segment.field ∈ paths ↔
        ∃ leaf ∈ listingBelow children, leaf.path = names := fun names => by
      rw [List.append_assoc]
      exact hpaths names
    have hbelow : ∀ child ∈ children, ∀ names,
        ((front ++ [key]) ++ child.1 :: names).map Segment.field ∈ paths ↔
          ∃ leaf ∈ listing child.2, leaf.path = names := fun child hmem names => by
      rw [← exists_listingBelow_iff hdistinct hmem, ← hfront]
    have hvalues : ∀ child ∈ children, ∀ leaf ∈ listing child.2,
        leaf.value.target? root base = some (source leaf.value) := fun child hmem leaf hleaf =>
      hsource (leaf.below child.1) (mem_listingBelow hmem hleaf)
    have hlossless : ∀ child ∈ children,
        (foldEntry .object id compress child.1 child.2).value.isLossless = true :=
      fun child hmem => ih child hmem (hvalues child hmem) (hbelow child hmem)
    by_cases hjoin : compress = true ∧ ∃ only, children = [only]
    · obtain ⟨rfl, only, rfl⟩ := hjoin
      exact hlossless only (List.mem_singleton_self _)
    · rw [foldEntry_branch .object id key order hjoin]
      exact htidy.isLossless_fields hclear hfront (fun child hmem =>
        (hchild child hmem).writes (hvalues child hmem) (hbelow child hmem)) hlossless

/-- What a tidy trie that lists some fields is folded into: an object construction that writes each
field at the keys of its path, in their order, and loses nothing when keys can be told apart. -/
theorem fold_ofItems {items : List (Item Query)}
    (htidy : TidyBelow (ofItems items).children)
    (hlisting : listingBelow (ofItems items).children = items.map Item.leaf)
    (hsource : ∀ item ∈ items, item.value.target? root base = some (source item.value))
    (hpaths : ∀ names, names.map Segment.field ∈ paths ↔ ∃ item ∈ items, item.path = names) :
    let query := fold .object id compress (ofItems items).children
    query.sites? root base = some (items.map fun item =>
      { place := Path.written compress paths [] (item.path.map .field), lists := []
        source := source item.value }) ∧
    query.ends = (items.map fun item =>
      Path.names (Path.written compress paths [] (item.path.map .field))) ∧
    (Path.Clear compress paths → query.isLossless = true) := by
  generalize (ofItems items).children = children at htidy hlisting ⊢
  have hfront : ∀ names, (([] : List String) ++ names).map Segment.field ∈ paths ↔
      ∃ leaf ∈ listingBelow children, leaf.path = names := fun names => by
    rw [hlisting, List.nil_append, hpaths]
    simp [Item.leaf]
  have hvalues : ∀ child ∈ children, ∀ leaf ∈ listing child.2,
      leaf.value.target? root base = some (source leaf.value) := by
    intro child hmem leaf hleaf
    have hmem := mem_listingBelow hmem hleaf
    rw [hlisting] at hmem
    obtain ⟨item, hitem, hleaf⟩ := List.mem_map.mp hmem
    have hvalue : item.value = leaf.value := congrArg Leaf.value hleaf
    rw [← hvalue]
    exact hsource item hitem
  have hbelow : ∀ child ∈ children, ∀ names,
      ([] ++ child.1 :: names).map Segment.field ∈ paths ↔
        ∃ leaf ∈ listing child.2, leaf.path = names := fun child hmem names => by
    rw [← exists_listingBelow_iff htidy.distinct hmem, ← hfront]
  have hwrites : ∀ child ∈ children,
      Writes root base source compress paths [] child.1 child.2 := fun child hmem =>
    (htidy.child child hmem).writes (hvalues child hmem) (hbelow child hmem)
  obtain ⟨hsites, hends⟩ := htidy.sites_fields hwrites
  rw [hlisting, List.map_map] at hsites hends
  exact ⟨hsites, hends, fun hclear => htidy.isLossless_fields hclear hfront hwrites
    fun child hmem =>
      (htidy.child child hmem).isLossless hclear (hvalues child hmem) (hbelow child hmem)⟩

end Sites

end Trie

end Projector
