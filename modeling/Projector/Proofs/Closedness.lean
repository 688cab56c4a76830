import Mathlib.Data.List.Perm.Subperm
import Projector.Proofs.Emissions

/-!
# When a query is closed

A query that is made of some fields refers to no variable but the root variable. Without a binding
for this variable it is closed exactly when nothing in it is read from elsewhere: when every field
is read from the value at hand, and every list is run through in the value at hand.
-/

namespace Projector

namespace Query

/-- Steps from a query are closed when the query is. -/
theorem isClosed_read (bound : List String) (base : Query) (path : Path) :
    (read base path).isClosed bound = base.isClosed bound := by
  induction path generalizing base with
  | nil => rfl
  | cons segment path ih => exact ih (.step base segment)

/-- A product of pieces is closed when all pieces are. -/
theorem isClosed_product (bound : List String) (pieces : List Query) :
    (product pieces).isClosed bound = true ↔ ∀ piece ∈ pieces, piece.isClosed bound = true := by
  cases pieces with
  | nil => simp [product, isClosed]
  | cons first rest =>
    have hfold : ∀ left : Query, (rest.foldl times left).isClosed bound = true ↔
        left.isClosed bound = true ∧ ∀ piece ∈ rest, piece.isClosed bound = true := by
      induction rest with
      | nil => simp
      | cons piece rest ih =>
        intro left
        rw [List.foldl_cons, ih]
        simp [isClosed, and_assoc]
    rw [product, hfold]
    simp

/-- An object construction is closed when all its values are. -/
theorem isClosed_object (bound : List String) (entries : List (String × Query)) :
    (object entries).isClosed bound = true ↔
      ∀ entry ∈ entries, entry.2.isClosed bound = true := by
  rw [isClosed]
  induction entries with
  | nil => simp [areClosed]
  | cons entry rest ih =>
    obtain ⟨key, value⟩ := entry
    simp [areClosed, ih]

end Query

namespace Synthesis

/-- Wrapping a query keeps it closed or not. -/
theorem isClosed_wrap (bound : List String) (keys : List String) (query : Query) :
    (wrap keys query).isClosed bound = true ↔ query.isClosed bound = true := by
  induction keys with
  | nil => rfl
  | cons key keys ih =>
    rw [wrap, List.foldr_cons, Query.isClosed_object]
    simpa [wrap] using ih

/-- What lives at a path is read from the value at hand. -/
def Scope.Holds (scope : Scope) (shown source : Path) : Prop :=
  match scope with
  | .document => source = shown
  | .element base => base <+: source

/-- Without the root variable only the value at hand can be read. -/
theorem isClosed_locate (config : Config) (scope : Scope) (shown source : Path) :
    (locate config scope shown source).isClosed [] = true ↔ scope.Holds shown source := by
  cases scope with
  | document =>
    simp only [locate, Scope.Holds]
    split
    · simpa [Query.isClosed_read, Query.isClosed]
    · simpa [absolute, Query.isClosed_read, Query.isClosed]
  | element base =>
    simp only [locate, Scope.Holds]
    cases hrest : following? base source with
    | none =>
      simpa [absolute, Query.isClosed_read, Query.isClosed] using following?_eq_none_iff.mp hrest
    | some rest =>
      have hpath := (following?_eq_some_iff.mp hrest).symm
      simpa [Query.isClosed_read, Query.isClosed] using ⟨rest, hpath⟩

/-- With the root variable everything can be read. -/
theorem isClosed_locate_root {bound : List String} (config : Config)
    (hbound : config.rootVariable ∈ bound) (scope : Scope) (shown source : Path) :
    (locate config scope shown source).isClosed bound = true := by
  unfold locate
  split
  · split <;> simp [absolute, Query.isClosed_read, Query.isClosed, hbound]
  · split <;> simp [absolute, Query.isClosed_read, Query.isClosed, hbound]

/-- A query made of fields is closed when the values of the fields outside every list are, and the
queries of all lists are. -/
theorem isClosed_emit (bound : List String) (config : Config) (scope : Scope) {home : Path → Path}
    {base : Path} {items : List Item} (h : Shown home base items) :
    (emit config scope items).isClosed bound = true ↔
      (∀ item ∈ items, Path.hasEach item.rest = false →
        (item.value config scope).isClosed bound = true) ∧
      ∀ keys, (∃ item ∈ items, ∃ inside, item.rest = elementsAt keys ++ inside) →
        (locate config scope (elementsAt keys) (home (base ++ keys.map .field) ++ [.each])).isClosed
          bound = true ∧
        (emit config (.element (home (base ++ keys.map .field) ++ [.each]))
          (Group.ofKeys items keys).members).isClosed bound = true := by
  rw [emit_eq config scope h, Query.isClosed_product]
  simp only [List.forall_mem_append, and_assoc]
  have hplains : ((∀ query ∈ wholes config scope items, query.isClosed bound = true) ∧
      ∀ query ∈ plains config scope items, query.isClosed bound = true) ↔
        ∀ item ∈ items, Path.hasEach item.rest = false →
          (item.value config scope).isClosed bound = true := by
    have hwholes : (∀ query ∈ wholes config scope items, query.isClosed bound = true) ↔
        ∀ item ∈ items, item.rest = [] → (item.value config scope).isClosed bound = true := by
      simp only [wholes, List.forall_mem_map, List.mem_filter, List.isEmpty_iff, and_imp]
    have hleaves : (∀ query ∈ plains config scope items, query.isClosed bound = true) ↔
        ∀ path value, plainLeaves config scope items path value → value.isClosed bound = true := by
      rcases plains_cases config scope h with ⟨hnil, hnone⟩ | ⟨order, children, hsome, hspans, -⟩
      · simp [hnil, hnone]
      · rw [hsome, List.forall_mem_singleton]
        exact @Trie.Spans.fold_iff _ _ _ _ (fun query : Query => query.isClosed bound = true)
          (Query.isClosed_object bound) _ _ _ hspans config.compressPaths
    rw [hwholes, hleaves]
    constructor
    · rintro ⟨hwhole, hplain⟩ item hitem heach
      by_cases hrest : item.rest = []
      · exact hwhole item hitem hrest
      · have hfields := eq_map_field_of_not_hasEach heach
        refine hplain (Path.names item.rest) _ ⟨item, hitem, hfields, ?_, rfl⟩
        intro hnames
        rw [hnames] at hfields
        exact hrest hfields
    · intro hall
      refine ⟨fun item hitem hrest => hall item hitem (by rw [hrest]; rfl), ?_⟩
      rintro path value ⟨item, hitem, hrest, -, rfl⟩
      exact hall item hitem (by rw [hrest, hasEach_map_field])
  rw [← and_assoc, hplains]
  refine and_congr_right fun _ => ?_
  simp only [List.forall_mem_map, Group.mem_keyses, listQuery, isClosed_wrap, Query.isClosed,
    Bool.and_eq_true]

/-- With the root variable every query made of fields is closed. -/
theorem isClosed_emit_root {bound : List String} (config : Config)
    (hbound : config.rootVariable ∈ bound) (scope : Scope) {home : Path → Path} {base : Path}
    {items : List Item} (h : Shown home base items) :
    (emit config scope items).isClosed bound = true := by
  induction items using induction_members generalizing scope base with
  | step items ih =>
    exact (isClosed_emit _ config scope h).mpr
      ⟨fun item _ _ => isClosed_locate_root config hbound _ _ _, fun keys hkeys =>
        ⟨isClosed_locate_root config hbound _ _ _, ih keys hkeys _ (h.members keys)⟩⟩

/-! ## Without the root variable -/

/-- Each list on a way, and in the end a value, lives in the elements of the list before. -/
def Chained : (base : Path) → (arrays : List Path) → (source : Path) → Prop
  | base, [], source => base <+: source
  | base, list :: rest, source => base <+: list ++ [.each] ∧ Chained (list ++ [.each]) rest source

/-- The first list on the way of a field inside a list. -/
theorem arrays_eq_cons {home : Path → Path} {base : Path} {item : Item}
    (hseen : item.SeenFrom home base) {keys : List String} {inside : Path}
    (hrest : item.rest = elementsAt keys ++ inside) :
    item.arrays = home (base ++ keys.map .field) :: item.arrays.drop 1 := by
  rw [hseen.arrays, hrest, lists_elementsAt]
  rfl

/-- In an element a query is closed when every list and every value lives in the elements of the
list before. -/
theorem isClosed_emit_element (config : Config) (around : Path) {home : Path → Path} {base : Path}
    {items : List Item} (h : Shown home base items) :
    (emit config (.element around) items).isClosed [] = true ↔
      ∀ item ∈ items, Chained around item.arrays item.source := by
  induction items using induction_members generalizing around base with
  | step items ih =>
    have hmembers : ∀ keys, (∃ item ∈ items, ∃ inside, item.rest = elementsAt keys ++ inside) →
        ((emit config (.element (home (base ++ keys.map .field) ++ [.each]))
          (Group.ofKeys items keys).members).isClosed [] = true ↔
        ∀ member ∈ (Group.ofKeys items keys).members,
          Chained (home (base ++ keys.map .field) ++ [.each]) member.arrays member.source) :=
      fun keys hkeys => ih keys hkeys _ (h.members keys)
    rw [isClosed_emit _ config _ h]
    constructor
    · rintro ⟨hplain, hlists⟩ item hitem
      cases hsplit : splitEach? item.rest with
      | none =>
        have heach := splitEach?_eq_none_iff.mp hsplit
        rw [(h.seen item hitem).arrays, lists_of_not_hasEach _ heach]
        exact (isClosed_locate _ _ _ _).mp (hplain item hitem heach)
      | some split =>
        obtain ⟨keys, inside⟩ := split
        have hrest := splitEach?_eq_some hsplit
        obtain ⟨hrun, hinside⟩ := hlists keys ⟨item, hitem, inside, hrest⟩
        have hchained := (hmembers keys ⟨item, hitem, inside, hrest⟩).mp hinside _
          (Group.member_mem hitem hrest)
        rw [arrays_eq_cons (h.seen item hitem) hrest]
        exact ⟨(isClosed_locate _ _ _ _).mp hrun, hchained⟩
    · intro hall
      refine ⟨fun item hitem heach => (isClosed_locate _ _ _ _).mpr ?_, fun keys hkeys => ?_⟩
      · have hchained := hall item hitem
        rwa [(h.seen item hitem).arrays, lists_of_not_hasEach _ heach] at hchained
      · refine ⟨?_, (hmembers keys hkeys).mpr fun member hmember => ?_⟩
        · obtain ⟨item, hitem, inside, hrest⟩ := hkeys
          have hchained := hall item hitem
          rw [arrays_eq_cons (h.seen item hitem) hrest] at hchained
          exact (isClosed_locate _ _ _ _).mpr hchained.1
        · obtain ⟨item, hitem, hrest, hmember⟩ := Group.mem_members_ofKeys.mp hmember
          have hchained := hall item hitem
          rw [arrays_eq_cons (h.seen item hitem) hrest] at hchained
          rw [hmember]
          exact hchained.2

/-! ## Lists in place -/

/-- The lists on a path are its parts in front of a step to elements. -/
theorem mem_lists {base path list : Path} :
    list ∈ Path.lists base path ↔ ∃ front, list = base ++ front ∧ front ++ [.each] <+: path := by
  induction path generalizing base with
  | nil => simp [Path.lists]
  | cons segment path ih =>
    have hrest : ∀ front : Path, (∃ rest, list = (base ++ [segment]) ++ rest ∧
        rest ++ [.each] <+: path ∧ front = segment :: rest) ↔
          list = base ++ front ∧ front ≠ [] ∧ front ++ [.each] <+: segment :: path := by
      intro front
      cases front with
      | nil => simp
      | cons first rest =>
        simp only [List.cons.injEq, List.append_assoc, List.cons_append, List.cons_prefix_cons,
          ne_eq, reduceCtorEq, not_false_eq_true, true_and]
        constructor
        · rintro ⟨rest', hlist, hleads, rfl, rfl⟩
          exact ⟨hlist, rfl, hleads⟩
        · rintro ⟨hlist, rfl, hleads⟩
          exact ⟨rest, hlist, hleads, rfl, rfl⟩
    have hdeeper : list ∈ Path.lists (base ++ [segment]) path ↔ ∃ front, list = base ++ front ∧
        front ≠ [] ∧ front ++ [.each] <+: segment :: path := by
      rw [ih]
      constructor
      · rintro ⟨rest, hlist, hleads⟩
        exact ⟨_, (hrest _).mp ⟨rest, hlist, hleads, rfl⟩⟩
      · rintro ⟨front, hfront⟩
        obtain ⟨rest, hlist, hleads, -⟩ := (hrest front).mpr hfront
        exact ⟨rest, hlist, hleads⟩
    cases segment with
    | field name =>
      rw [Path.lists, hdeeper]
      refine exists_congr fun front => and_congr_right fun _ => and_iff_right_of_imp ?_
      rintro hleads rfl
      simp [List.cons_prefix_cons] at hleads
    | each =>
      rw [Path.lists, List.mem_cons, hdeeper]
      constructor
      · rintro (rfl | ⟨front, hlist, -, hleads⟩)
        · exact ⟨[], by simp, by simp⟩
        · exact ⟨front, hlist, hleads⟩
      · rintro ⟨front, hlist, hleads⟩
        by_cases hfront : front = []
        · exact .inl (by simpa [hfront] using hlist)
        · exact .inr ⟨front, hlist, hfront, hleads⟩

/-- The lists on a path go deeper and deeper. -/
theorem pairwise_lists (base path : Path) :
    (Path.lists base path).Pairwise fun a b => a.length < b.length := by
  induction path generalizing base with
  | nil => exact List.Pairwise.nil
  | cons segment path ih =>
    cases segment with
    | field name => exact ih _
    | each =>
      refine List.pairwise_cons.mpr ⟨fun list hlist => ?_, ih _⟩
      obtain ⟨front, rfl, -⟩ := mem_lists.mp hlist
      simp only [List.length_append, List.length_singleton]
      omega

/-- The lists on a path are chained to the path. -/
theorem chained_lists {around base : Path} (haround : around <+: base) (path : Path) :
    Chained around (Path.lists base path) (base ++ path) := by
  induction path generalizing around base with
  | nil => simpa [Path.lists, Chained] using haround
  | cons segment path ih =>
    have hstep : ∀ around : Path, around <+: base ++ [segment] →
        Chained around (Path.lists (base ++ [segment]) path) (base ++ segment :: path) := by
      intro around haround
      have h := ih haround
      rwa [List.append_assoc, List.singleton_append] at h
    cases segment with
    | field name => exact hstep _ (haround.trans (List.prefix_append _ _))
    | each => exact ⟨haround.trans (List.prefix_append _ _), hstep _ List.prefix_rfl⟩

/-- Chained lists lie on the way to the value, each inside the elements of those before. -/
theorem Chained.on_way {around source : Path} {arrays : List Path}
    (h : Chained around arrays source) : around <+: source ∧
      (∀ list ∈ arrays, around <+: list ++ [.each] ∧ list ++ [.each] <+: source) ∧
      arrays.Pairwise fun a b => a ++ [Segment.each] <+: b ++ [Segment.each] := by
  induction arrays generalizing around with
  | nil => exact ⟨h, by simp, List.Pairwise.nil⟩
  | cons list rest ih =>
    obtain ⟨hlist, hrest⟩ := h
    obtain ⟨hsource, hinside, hpairwise⟩ := ih hrest
    refine ⟨hlist.trans hsource, ?_, List.pairwise_cons.mpr ⟨fun other hother =>
      (hinside other hother).1, hpairwise⟩⟩
    intro other hother
    rcases List.mem_cons.mp hother with rfl | hother
    · exact ⟨hlist, hsource⟩
    · exact ⟨hlist.trans (hinside other hother).1, (hinside other hother).2⟩

/-- Different chained lists on the way to a path are all lists on the path, when they are as
many. -/
theorem Chained.eq_lists {around source : Path} {arrays : List Path}
    (h : Chained around arrays source) (hnodup : arrays.Nodup)
    (hlength : arrays.length = (Path.lists [] source).length) :
    arrays = Path.lists [] source := by
  obtain ⟨-, hinside, hpairwise⟩ := h.on_way
  have hsubset : arrays ⊆ Path.lists [] source := fun list hlist =>
    mem_lists.mpr ⟨list, by simp, (hinside list hlist).2⟩
  have hperm : arrays.Perm (Path.lists [] source) :=
    (hnodup.subperm hsubset).perm_of_length_le hlength.ge
  have hdeeper : arrays.Pairwise fun a b => a.length < b.length := by
    refine (hpairwise.and hnodup).imp ?_
    rintro a b ⟨hleads, hne⟩
    have hle := hleads.length_le
    have hlt : a.length ≠ b.length := fun heq => hne (by
      have heach := hleads.eq_of_length (by simp [heq])
      exact (List.append_inj' heach rfl).1)
    simp only [List.length_append, List.length_singleton] at hle
    omega
  refine List.Perm.eq_of_pairwise ?_ hdeeper (pairwise_lists [] source) hperm
  intro a b _ _ hab hba
  omega

/-- On a document a query of fields that are shown where they live is closed exactly when every
list on their ways is shown where it lives. -/
theorem isClosed_emit_document (config : Config) {home : Path → Path} {items : List Item}
    (h : Shown home [] items) (hplace : ∀ item ∈ items, item.source = item.rest)
    (hnodup : ∀ item ∈ items, item.arrays.Nodup) :
    (emit config .document items).isClosed [] = true ↔
      ∀ item ∈ items, item.arrays = Path.lists [] item.rest := by
  rw [isClosed_emit _ config _ h]
  constructor
  · rintro ⟨-, hlists⟩ item hitem
    cases hsplit : splitEach? item.rest with
    | none =>
      rw [(h.seen item hitem).arrays, lists_of_not_hasEach _ (splitEach?_eq_none_iff.mp hsplit)]
      rfl
    | some split =>
      obtain ⟨keys, inside⟩ := split
      have hrest := splitEach?_eq_some hsplit
      obtain ⟨hrun, hinside⟩ := hlists keys ⟨item, hitem, inside, hrest⟩
      have hchained := (isClosed_emit_element config _ (h.members keys)).mp hinside _
        (Group.member_mem hitem hrest)
      have harrays := arrays_eq_cons (h.seen item hitem) hrest
      have hwhole : Chained [] item.arrays item.rest := by
        rw [harrays, ← hplace item hitem]
        exact And.intro List.nil_prefix hchained
      refine hwhole.eq_lists (hnodup item hitem) ?_
      rw [(h.seen item hitem).arrays, List.length_map]
  · intro hall
    refine ⟨fun item hitem _ => (isClosed_locate _ _ _ _).mpr (hplace item hitem), ?_⟩
    intro keys hkeys
    have hfirst : home ([] ++ keys.map .field) = keys.map .field := by
      obtain ⟨item, hitem, inside, hrest⟩ := hkeys
      have harrays := arrays_eq_cons (h.seen item hitem) hrest
      rw [hall item hitem, hrest, lists_elementsAt] at harrays
      exact (List.cons.inj harrays).1.symm
    refine ⟨(isClosed_locate _ _ _ _).mpr (by rw [hfirst]; rfl), ?_⟩
    refine (isClosed_emit_element config _ (h.members keys)).mpr fun member hmember => ?_
    obtain ⟨item, hitem, hrest, hmember⟩ := Group.mem_members_ofKeys.mp hmember
    rw [hmember, hfirst]
    dsimp only
    rw [hall item hitem, hplace item hitem, hrest, lists_elementsAt]
    exact chained_lists List.prefix_rfl member.rest

end Synthesis

end Projector
