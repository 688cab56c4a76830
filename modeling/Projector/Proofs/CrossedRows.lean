import Projector.Proofs.Arrangements
import Projector.Proofs.Columns
import Projector.Proofs.EmittedValues

/-!
# Rows of lists inside lists

A query runs through the elements of a list, inside each of them through those of a list in it, and
so on, and makes rows in the elements of the innermost list. A field that lives in none of these
elements is read from the whole document, so the rows of every innermost element hold all values of
the field: they are the same in all elements, whichever elements of the lists around these are in.
-/

namespace Projector.Synthesis

open Query

/-- A list on a way: the keys that lead to it, where it is shown, and the path that leads to it,
where it lives, both from the elements of the list around it. -/
structure Level where
  /-- The keys to the list. -/
  keys : List String
  /-- The path to the list. -/
  list : Path

namespace Level

/-- The path to the elements of a list. -/
def elements (level : Level) : Path := level.list ++ [.each]

/-- The path of the elements of the innermost of some lists. -/
def inside (levels : List Level) : Path := levels.flatMap elements

/-- The path at which a field is shown below the elements of some lists. -/
def shown (levels : List Level) (names : List String) : Path :=
  levels.flatMap (fun level => elementsAt level.keys) ++ names.map .field

/-- Where some lists live, from the outside in. -/
def lists : Path → List Level → List Path
  | _, [] => []
  | base, level :: levels => (base ++ level.list) :: lists (base ++ level.elements) levels

/-- A field is shown below the elements of a list in the same way as from these elements. -/
theorem shown_cons (level : Level) (levels : List Level) (names : List String) :
    shown (level :: levels) names = elementsAt level.keys ++ shown levels names := by
  simp [shown]

/-- A field that is shown at the scope itself is below no list. -/
theorem eq_nil_of_shown {levels : List Level} {names : List String} (h : shown levels names = []) :
    levels = [] ∧ names = [] := by
  cases levels with
  | nil => exact ⟨rfl, by simpa [shown] using h⟩
  | cons level levels => simp [shown_cons, elementsAt] at h

/-- The rows that a query makes of a value which has some lists inside each other. Every row has the
list of the rows of its elements, and the rows of the elements of the innermost list hold some given
values under some names, each several times in place and all several times in turn. How often, and
how many rows the elements of the outer lists have, is among some numbers. -/
def Rows (counts : Submonoid ℕ) (values : List Json) (names : List String) :
    List Level → Json → List Json → Prop
  | [], _, rows => ∃ times ∈ counts, ∃ each ∈ counts,
      rows.map (·.lookup? names) = (spread times each values).map some
  | level :: levels, value, rows => rows.length ∈ counts ∧
      ∀ row ∈ rows, ∃ rowsOf : Json → List Json,
        row.lookup? level.keys = some (.arr ((value.valuesAt level.elements).flatMap rowsOf)) ∧
        ∀ element ∈ value.valuesAt level.elements,
          Rows counts values names levels element (rowsOf element)

end Level

variable {config : Config} {bound : Fields Json} {document value : Json} {scope : Scope}
  {home : Path → Path} {base : Path} {items : List Item} {counts : Submonoid ℕ}

/-! ## Numbers of values -/

/-- In every element of the innermost of some lists, how many values are read from a source is among
some numbers. -/
def Scope.CountsAlong (counts : Submonoid ℕ) (document : Json) :
    Scope → (value : Json) → (arrays : List Path) → (source : Path) → Prop
  | scope, value, [], source => (scope.valuesAt document value source).length ∈ counts
  | scope, value, list :: rest, source =>
    ∀ element ∈ scope.valuesAt document value (list ++ [.each]),
      CountsAlong counts document (.element (list ++ [.each])) element rest source

/-- What is reached in every element has one value there. -/
theorem Scope.countsAlong_of_reachesAlong {arrays : List Path} {source : Path}
    (h : scope.reachesAlong arrays source = true) :
    scope.CountsAlong counts document value arrays source := by
  induction arrays generalizing scope value with
  | nil =>
    obtain ⟨output, houtput⟩ := Scope.exists_value_of_reaches h document value
    rw [Scope.CountsAlong, houtput]
    exact one_mem counts
  | cons list rest ih =>
    rw [Scope.reachesAlong, Bool.and_eq_true] at h
    exact fun element _ => ih h.2

/-! ## One scope -/

/-- What lives in fields and elements behind the base of a scope is read from the value at hand. -/
theorem Scope.valuesAt_base_append (hfits : scope.Fits document value) (path : Path) :
    scope.valuesAt document value (scope.base ++ path) = value.valuesAt path := by
  cases scope with
  | document =>
    rw [hfits rfl]
    rfl
  | element base => rw [Scope.valuesAt, Scope.base, following?_eq_some_iff.mpr rfl]

/-- What lives elsewhere than behind the base of a scope is read from the whole document. -/
theorem Scope.valuesAt_of_not_leads {source : Path} (h : ¬scope.base <+: source) :
    scope.valuesAt document value source = document.valuesAt source := by
  cases scope with
  | document => rfl
  | element base =>
    have hnone : following? base source = none := following?_eq_none_iff.mpr h
    rw [Scope.valuesAt, hnone]

/-- Where the root variable stands for the document a tame reading gives all that lives at its
path. -/
theorem eval_value_all (hbound : Fields.get? bound config.rootVariable = some document)
    (hfits : scope.Fits document value) (item : Item)
    (htame : (item.value config scope).isTame bound value = true) :
    (item.value config scope).eval bound value =
      .all (scope.valuesAt document value item.source) :=
  eval_locate_all hfits (.inl hbound) htame

/-- The query of a field outside every list has as many outputs as the field has values. -/
theorem counts_value (hbound : Fields.get? bound config.rootVariable = some document)
    (hfits : scope.Fits document value) {item : Item} (hseen : item.SeenFrom home base)
    (heach : Path.hasEach item.rest = false)
    (hcounts : scope.CountsAlong counts document value item.arrays item.source) :
    Counts bound value counts (item.value config scope) := by
  rw [hseen.arrays, lists_of_not_hasEach _ heach] at hcounts
  exact fun htame => ⟨_, eval_value_all hbound hfits item htame, hcounts⟩

/-- The query of the fields inside a list gives the list of what they become in each element. -/
theorem eval_listQuery_all (hbound : Fields.get? bound config.rootVariable = some document)
    (hfits : scope.Fits document value) {keys : List String} {list : Path} {members : List Item}
    (hmembers : ∀ element,
      (emit config (.element (list ++ [.each])) members).isTame bound element = true →
        ∃ rows, (emit config (.element (list ++ [.each])) members).eval bound element = .all rows)
    (htame : (listQuery config scope keys list members).isTame bound value = true) :
    ∃ rowsOf : Json → List Json,
      (listQuery config scope keys list members).eval bound value = .one (.nested keys
        (.arr ((scope.valuesAt document value (list ++ [.each])).flatMap rowsOf))) ∧
      ∀ element ∈ scope.valuesAt document value (list ++ [.each]),
        (emit config (.element (list ++ [.each])) members).isTame bound element = true ∧
        (emit config (.element (list ++ [.each])) members).eval bound element =
          .all (rowsOf element) := by
  have hinner := isTame_of_wrap htame
  rw [isTame, isTame, Bool.and_eq_true] at hinner
  have hrun := eval_locate_all hfits (.inl hbound) hinner.1
  rw [hrun] at hinner
  let body := emit config (.element (list ++ [.each])) members
  have heach : ∀ element ∈ scope.valuesAt document value (list ++ [.each]),
      body.isTame bound element = true ∧
        body.eval bound element = .all (body.eval bound element).values := by
    intro element helement
    have htame : body.isTame bound element = true := List.all_eq_true.mp hinner.2 element helement
    obtain ⟨rows, hrows⟩ := hmembers element htame
    exact ⟨htame, by rw [hrows]; rfl⟩
  refine ⟨fun element => (body.eval bound element).values, eval_wrap ?_ keys, heach⟩
  rw [eval, eval, hrun, Outputs.bind_all_eq fun element helement => (heach element helement).2,
    Outputs.collected_all]

/-- Rows of the fields of a scope, given a query for each way to a list: the column of a field
outside every list holds the outputs of its value, repeated as the other fields outside every list
count, every row has the list of each way, and there are as many rows as all fields outside every
list count. -/
structure Shows (config : Config) (bound : Fields Json) (scope : Scope) (value : Json)
    (items : List Item) (listOf : List String → Query) (rows : List Json) : Prop where
  column : ∀ {counts : Submonoid ℕ}, ∀ item ∈ items, ∀ names : List String,
    item.rest = names.map .field →
    (∀ other ∈ items, Path.hasEach other.rest = false → other.rest ≠ item.rest →
      Counts bound value counts (other.value config scope)) →
    Holds bound value counts (item.value config scope) (rows.map (·.lookup? names))
  list : ∀ keys ∈ Group.keyses items, ∃ inside, (listOf keys).isTame bound value = true ∧
    (listOf keys).eval bound value = .one (.nested keys (.arr inside)) ∧
    ∀ row ∈ rows, row.lookup? keys = some (.arr inside)
  count : ∀ {counts : Submonoid ℕ}, (∀ item ∈ items, Path.hasEach item.rest = false →
    Counts bound value counts (item.value config scope)) → rows.length ∈ counts

/-- Rows of the fields of a scope hold the values of every field that does not live in the elements
of the innermost list around it: all that stand where it lives in the document. -/
def HoldsElsewhere (document : Json) (scope : Scope) (items : List Item) (value : Json)
    (rows : List Json) : Prop :=
  ∀ item ∈ items, ∀ levels names, item.rest = Level.shown levels names →
    item.arrays = Level.lists scope.base levels →
    ¬scope.base ++ Level.inside levels <+: item.source →
    ∀ counts : Submonoid ℕ, (∀ other ∈ items, other.rest ≠ item.rest →
      scope.CountsAlong counts document value other.arrays other.source) →
    Level.Rows counts (document.valuesAt item.source) names levels value rows

namespace Laid

variable (h : Laid home base items)

include h

/-- The product of an object construction of the fields outside every list with lists. -/
theorem shows_fold (hbound : Fields.get? bound config.rootVariable = some document)
    (hfits : scope.Fits document value) (hbelow : ∀ item ∈ items, item.rest ≠ []) {order : Int}
    {children : Fields (Trie Query)}
    (hspans : (Trie.branch order children).Spans (plainLeaves config scope items))
    (hsome : ∃ path query, plainLeaves config scope items path query)
    {listOf : List String → Query}
    (hlists : ∀ keys ∈ Group.keyses items, (listOf keys).isTame bound value = true →
      ∃ inside, (listOf keys).eval bound value = .one (.nested keys (.arr inside)))
    (htame : (Query.product (Trie.fold .object id false children ::
      (Group.keyses items).map listOf)).isTame bound value = true) :
    ∃ rows, (Query.product (Trie.fold .object id false children ::
        (Group.keyses items).map listOf)).eval bound value = .all rows ∧
      Shows config bound scope value items listOf rows := by
  have hnil : [] ∉ Group.keyses items := by
    obtain ⟨path, query, item, hitem, hrest, -, -⟩ := hsome
    exact fun hmem => Leaves.not_apart_nil path (h.apart_outside hitem hrest hmem).symm
  obtain ⟨hfold, change, hadds, hgives⟩ :=
    eval_foldl_times_all hlists hnil h.pairwise_apart_keyses htame
  obtain ⟨rows, heval, hspreads⟩ := eval_fold_all hspans (by
    rintro path query ⟨item, -, -, -, rfl⟩ htame
    exact ⟨_, eval_value_all hbound hfits item htame⟩) hfold
  refine ⟨_, hgives rows heval, ?_, ?_, ?_⟩
  · intro counts item hitem names hrest hothers
    have hkept : ((rows.map change).map Json.obj).map (·.lookup? names) =
        (rows.map Json.obj).map (·.lookup? names) := by
      simp only [List.map_map]
      exact List.map_congr_left fun row _ =>
        hadds.kept row names fun keys hkeys => h.apart_outside hitem hrest hkeys
    have hnames : names ≠ [] := by
      rintro rfl
      exact hbelow item hitem hrest
    rw [hkept]
    refine hspreads.column names _ ⟨item, hitem, hrest, hnames, rfl⟩ ?_
    rintro path query ⟨other, hother, hotherRest, -, rfl⟩ hne
    refine hothers other hother (by rw [hotherRest, hasEach_map_field]) fun heq => hne ?_
    rw [← names_map_field path, ← hotherRest, heq, hrest, names_map_field]
  · intro keys hkeys
    obtain ⟨inside, htame, heval, hadded⟩ := hadds.added keys hkeys
    refine ⟨inside, htame, heval, fun row hrow => ?_⟩
    rw [List.map_map] at hrow
    obtain ⟨fields, -, rfl⟩ := List.mem_map.mp hrow
    exact hadded fields
  · intro counts hall
    have hcount := hspreads.count (by
      rintro path query ⟨item, hitem, hrest, -, rfl⟩
      exact hall item hitem (by rw [hrest, hasEach_map_field]))
    simpa using hcount

/-- The product of lists, when there are no fields outside every list. -/
theorem shows_lists (hnone : ∀ path query, ¬plainLeaves config scope items path query)
    (hbelow : ∀ item ∈ items, item.rest ≠ []) (hne : Group.keyses items ≠ [])
    {listOf : List String → Query}
    (hlists : ∀ keys ∈ Group.keyses items, (listOf keys).isTame bound value = true →
      ∃ inside, (listOf keys).eval bound value = .one (.nested keys (.arr inside)))
    (htame : (Query.product ((Group.keyses items).map listOf)).isTame bound value = true) :
    ∃ rows, (Query.product ((Group.keyses items).map listOf)).eval bound value = .all rows ∧
      Shows config bound scope value items listOf rows := by
  suffices hlist : ∃ row, (Query.product ((Group.keyses items).map listOf)).eval bound value =
      .one row ∧ ∀ keys ∈ Group.keyses items, ∃ inside, (listOf keys).isTame bound value = true ∧
        (listOf keys).eval bound value = .one (.nested keys (.arr inside)) ∧
        row.lookup? keys = some (.arr inside) by
    obtain ⟨row, heval, hlist⟩ := hlist
    refine ⟨[row], heval, ?_, ?_, fun {counts} _ => one_mem counts⟩
    · intro counts item hitem names hrest
      refine absurd ⟨item, hitem, hrest, ?_, rfl⟩ (hnone names (item.value config scope))
      rintro rfl
      exact hbelow item hitem hrest
    · simpa using hlist
  have hapart := h.pairwise_apart_keyses
  generalize Group.keyses items = keyses at hne hlists htame hapart
  cases keyses with
  | nil => exact absurd rfl hne
  | cons first rest =>
    obtain ⟨hfirst, hrest⟩ := List.pairwise_cons.mp hapart
    cases first with
    | nil =>
      -- The elements of a list that is the value itself are apart from no other list.
      obtain rfl : rest = [] := List.eq_nil_iff_forall_not_mem.mpr fun keys hkeys =>
        Leaves.not_apart_nil keys (hfirst keys hkeys)
      obtain ⟨inside, heval⟩ := hlists [] (by simp) htame
      refine ⟨_, heval, fun keys hkeys => ?_⟩
      rw [List.mem_singleton.mp hkeys]
      exact ⟨inside, htame, heval, rfl⟩
    | cons key keys =>
      have hnil : [] ∉ rest := fun hmem => Leaves.not_apart_nil _ (hfirst [] hmem).symm
      obtain ⟨hfirstTame, change, hadds, hgives⟩ := eval_foldl_times_all
        (fun others hothers => hlists others (List.mem_cons_of_mem _ hothers)) hnil hrest htame
      obtain ⟨inside, heval⟩ := hlists _ List.mem_cons_self hfirstTame
      refine ⟨_, hgives [[(key, .nested keys (.arr inside))]] heval, fun others hothers => ?_⟩
      rcases List.mem_cons.mp hothers with rfl | hothers
      · refine ⟨inside, hfirstTame, heval, ?_⟩
        rw [hadds.kept _ _ hfirst]
        exact Json.lookup?_nested (key :: keys) inside
      · obtain ⟨content, htame, heval, hadded⟩ := hadds.added others hothers
        exact ⟨content, htame, heval, hadded _⟩

/-- The product of what the fields outside every list and the ways to lists become. -/
theorem shows_pieces (hcompress : config.compressPaths = false)
    (hbound : Fields.get? bound config.rootVariable = some document)
    (hfits : scope.Fits document value) (hne : items ≠ []) (hbelow : ∀ item ∈ items, item.rest ≠ [])
    {listOf : List String → Query}
    (hlists : ∀ keys ∈ Group.keyses items, (listOf keys).isTame bound value = true →
      ∃ inside, (listOf keys).eval bound value = .one (.nested keys (.arr inside)))
    (htame : (Query.product (plains config scope items ++
      (Group.keyses items).map listOf)).isTame bound value = true) :
    ∃ rows, (Query.product (plains config scope items ++
        (Group.keyses items).map listOf)).eval bound value = .all rows ∧
      Shows config bound scope value items listOf rows := by
  rcases plains_cases config scope h.toShown with
    ⟨hnil, hnone⟩ | ⟨order, children, hfold, hspans, hsome⟩
  · rw [hnil] at htame ⊢
    refine h.shows_lists hnone hbelow ?_ hlists htame
    obtain ⟨item, hitem⟩ := List.exists_mem_of_ne_nil items hne
    cases hsplit : splitEach? item.rest with
    | none =>
      have hrest := eq_map_field_of_not_hasEach (splitEach?_eq_none_iff.mp hsplit)
      refine absurd ⟨item, hitem, hrest, ?_, rfl⟩ (hnone _ (item.value config scope))
      intro hnames
      rw [hnames] at hrest
      exact hbelow item hitem hrest
    | some split =>
      exact List.ne_nil_of_mem
        (Group.mem_keyses.mpr ⟨item, hitem, split.2, splitEach?_eq_some hsplit⟩)
  · rw [hfold, hcompress] at htame ⊢
    exact h.shows_fold hbound hfits hbelow hspans hsome hlists htame

/-! ## Lists inside each other -/

/-- The rows of a scope hold the values of a field that is shown outside every list and lives
elsewhere. -/
theorem rows_outside (hbound : Fields.get? bound config.rootVariable = some document)
    (hfits : scope.Fits document value) {listOf : List String → Query} {rows : List Json}
    (hshows : Shows config bound scope value items listOf rows) {item : Item} (hitem : item ∈ items)
    {names : List String} (hrest : item.rest = names.map .field)
    (hvalues : scope.valuesAt document value item.source = document.valuesAt item.source)
    (hothers : ∀ other ∈ items, other.rest ≠ item.rest →
      scope.CountsAlong counts document value other.arrays other.source) :
    Level.Rows counts (document.valuesAt item.source) names [] value rows := by
  have hcolumn := hshows.column item hitem names hrest fun other hother heach hne =>
    counts_value hbound hfits (h.seen other hother) heach
      (hothers other hother hne)
  rcases hcolumn with ⟨hempty, hzero⟩ | ⟨outputs, htame, heval, times, htimes, each, heach, hcolumn⟩
  · exact ⟨0, hzero, 0, hzero, by rw [hempty]; rfl⟩
  · have houtputs := congrArg Outputs.values
      (heval.symm.trans (eval_value_all hbound hfits item htame))
    refine ⟨times, htimes, each, heach, ?_⟩
    rw [hcolumn, ← hvalues]
    exact congrArg (fun values => (spread times each values).map some) houtputs

/-- The rows of a scope have the list of the rows of its elements at the keys to a list, when those
of each element are as they should be. -/
theorem rows_inside (hbound : Fields.get? bound config.rootVariable = some document)
    (hfits : scope.Fits document value) {listOf : List String → Query} {rows : List Json}
    (hshows : Shows config bound scope value items listOf rows) {item : Item} (hitem : item ∈ items)
    {level : Level} {levels : List Level} {names : List String} {inside : Path}
    (hrest : item.rest = elementsAt level.keys ++ inside)
    {rowsOf : Json → List Json} (hlist : (listOf level.keys).eval bound value =
      .one (.nested level.keys (.arr ((value.valuesAt level.elements).flatMap rowsOf))))
    (hothers : ∀ other ∈ items, other.rest ≠ item.rest →
      scope.CountsAlong counts document value other.arrays other.source) {values : List Json}
    (hrows : ∀ element ∈ value.valuesAt level.elements,
      Level.Rows counts values names levels element (rowsOf element)) :
    Level.Rows counts values names (level :: levels) value rows := by
  constructor
  · refine hshows.count fun other hother heach =>
      counts_value hbound hfits (h.seen other hother) heach (hothers other hother fun heq => ?_)
    rw [heq, hrest, hasEach_append] at heach
    simp [elementsAt, Path.hasEach, Segment.isEach] at heach
  · intro row hrow
    obtain ⟨content, -, heval, hlookup⟩ := hshows.list level.keys
      (Group.mem_keyses.mpr ⟨item, hitem, inside, hrest⟩)
    have hsame := Outputs.one_inj.mp (hlist.symm.trans heval)
    refine ⟨rowsOf, ?_, hrows⟩
    rw [hlookup row hrow, ← Json.lookup?_nested level.keys content, ← hsame, Json.lookup?_nested]

/-- The list on the way to a field lives behind the base of the scope, as the field says. -/
theorem home_elements {item : Item} (hitem : item ∈ items) {level : Level} {levels : List Level}
    {inside : Path} (hrest : item.rest = elementsAt level.keys ++ inside)
    (harrays : item.arrays = Level.lists scope.base (level :: levels)) :
    home (base ++ level.keys.map .field) ++ [.each] = scope.base ++ level.elements := by
  have hlist := (List.cons.inj ((arrays_eq_cons (h.seen item hitem) hrest).symm.trans harrays)).1
  rw [hlist, List.append_assoc]
  rfl

/-- The rows of an element hold the values of a field inside its list as they are seen from the
scope around the list. -/
theorem rows_of_members (hfits : scope.Fits document value) {item : Item} (hitem : item ∈ items)
    {level : Level} {levels : List Level} {names : List String}
    (hrest : item.rest = elementsAt level.keys ++ Level.shown levels names)
    (harrays : item.arrays = Level.lists scope.base (level :: levels))
    (hfar : ¬scope.base ++ Level.inside (level :: levels) <+: item.source)
    (hothers : ∀ other ∈ items, other.rest ≠ item.rest →
      scope.CountsAlong counts document value other.arrays other.source)
    {element : Json} (helement : element ∈ value.valuesAt level.elements) {rows : List Json}
    (hrows : HoldsElsewhere document (.element (scope.base ++ level.elements))
      (Group.ofKeys items level.keys).members element rows) :
    Level.Rows counts (document.valuesAt item.source) names levels element rows := by
  refine hrows _ (Group.member_mem hitem hrest) levels names rfl ?_ ?_ counts ?_
  · exact congrArg (List.drop 1) harrays
  · simpa [Level.inside, Scope.base] using hfar
  · intro other hother hdiffer
    obtain ⟨twin, htwin, htwinRest, hseen⟩ := Group.mem_members_ofKeys.mp hother
    have hcounts := hothers twin htwin fun heq => hdiffer (by
      rwa [htwinRest, hrest, List.append_cancel_left_eq] at heq)
    rw [arrays_eq_cons (h.seen twin htwin) htwinRest, Scope.CountsAlong,
      h.home_elements hitem hrest harrays, Scope.valuesAt_base_append hfits] at hcounts
    rw [hseen]
    exact hcounts element helement

/-- What is emitted for the fields of a scope makes rows, which hold the values of every field that
does not live in the elements of the innermost list around it. -/
theorem rows_emit (hcompress : config.compressPaths = false)
    (hbound : Fields.get? bound config.rootVariable = some document)
    (hfits : scope.Fits document value) (hne : items ≠ [])
    (htame : (emit config scope items).isTame bound value = true) :
    ∃ rows, (emit config scope items).eval bound value = .all rows ∧
      HoldsElsewhere document scope items value rows := by
  induction items using induction_members generalizing scope base value with
  | step items ih =>
    rcases h.whole_or_below with ⟨item, rfl, hrest⟩ | hbelow
    · rw [emit_whole config scope hrest] at htame ⊢
      refine ⟨_, eval_value_all hbound hfits item htame, ?_⟩
      intro other hother levels names hshown _ hfar counts _
      obtain rfl := List.mem_singleton.mp hother
      obtain ⟨rfl, rfl⟩ := Level.eq_nil_of_shown (hshown.symm.trans hrest)
      rw [Scope.valuesAt_of_not_leads (by simpa [Level.inside] using hfar)]
      exact ⟨1, one_mem _, 1, one_mem _, by rw [spread_one_one]; simp [Json.lookup?]⟩
    · rw [emit_of_below config scope h.toShown hbelow] at htame ⊢
      have hlists : ∀ keys ∈ Group.keyses items, (listQuery config scope keys
          (home (base ++ keys.map .field)) (Group.ofKeys items keys).members).isTame bound value =
            true → ∃ rowsOf : Json → List Json, _ := fun keys hkeys htame => by
        have hway := Group.mem_keyses.mp hkeys
        obtain ⟨item, hitem, inside, hrest⟩ := id hway
        have hsome := List.ne_nil_of_mem (Group.member_mem hitem hrest)
        refine eval_listQuery_all hbound hfits (fun element htame => ?_) htame
        exact (ih keys hway (h.members keys) (fun heq => by cases heq) hsome htame).imp
          fun _ hrows => hrows.1
      obtain ⟨rows, heval, hshows⟩ := h.shows_pieces hcompress hbound hfits hne hbelow
        (fun keys hkeys htame => (hlists keys hkeys htame).elim fun _ h => ⟨_, h.1⟩) htame
      refine ⟨rows, heval, ?_⟩
      intro item hitem levels names hrest harrays hfar counts hothers
      cases levels with
      | nil =>
        refine h.rows_outside hbound hfits hshows hitem hrest ?_ hothers
        exact Scope.valuesAt_of_not_leads (by simpa [Level.inside] using hfar)
      | cons level levels =>
        rw [Level.shown_cons] at hrest
        have hway : ∃ item ∈ items, ∃ inside, item.rest = elementsAt level.keys ++ inside :=
          ⟨item, hitem, _, hrest⟩
        obtain ⟨-, htame, -⟩ := hshows.list level.keys (Group.mem_keyses.mpr hway)
        obtain ⟨rowsOf, heval, heach⟩ := hlists level.keys (Group.mem_keyses.mpr hway) htame
        rw [h.home_elements hitem hrest harrays, Scope.valuesAt_base_append hfits] at heval heach
        refine h.rows_inside hbound hfits hshows hitem hrest heval hothers
          fun element helement => ?_
        obtain ⟨htame, heval⟩ := heach element helement
        have hsome := List.ne_nil_of_mem (Group.member_mem hitem hrest)
        obtain ⟨rows, hrun, hrows⟩ := ih level.keys hway (h.members level.keys)
          (fun heq => by cases heq) hsome htame
        have hsame : rowsOf element = rows := congrArg Outputs.values (heval.symm.trans hrun)
        rw [hsame]
        exact h.rows_of_members hfits hitem hrest harrays hfar hothers helement hrows

end Laid

end Projector.Synthesis
