import Projector.Proofs.Emissions

/-!
# Where a query writes what it reads

A query that constructs objects and lists, multiplies them and otherwise only follows steps is
described by its sites: each tells at which place of the output a value is written, through the
elements of which lists the query runs on the way, and which path of the document is read. No value
is lost when no object construction writes a key twice and no product writes at, above or below what
it has written already.
-/

namespace Projector

/-- A place of the output of a query at which a part of the document is written. -/
structure Site where
  /-- The way to the place, through the fields of objects and the elements of lists. -/
  place : Path
  /-- The elements that the query runs through for each list on the way, from the outside in. -/
  lists : List Path
  /-- The path in the document that is read for the place. -/
  source : Path

namespace Site

/-- A site inside an object construction that writes a key. -/
def below (key : String) (site : Site) : Site := { site with place := .field key :: site.place }

/-- A site inside the list that a query makes of some elements. -/
def inside (elements : Path) (site : Site) : Site :=
  { site with place := .each :: site.place, lists := elements :: site.lists }

/-- Two sites of which none is written at, above or below the other. -/
def Apart (site other : Site) : Prop := ¬site.place <+: other.place ∧ ¬other.place <+: site.place

/-- Sites at or below key paths that are apart are apart. -/
theorem apart_of_ends {site other : Site} {path stop : List String}
    (hpath : path.map .field <+: site.place) (hstop : stop.map .field <+: other.place)
    (h : Leaves.Apart path stop) : site.Apart other := by
  have hfront : ∀ {place : Path}, path.map Segment.field <+: place →
      stop.map Segment.field <+: place → path <+: stop ∨ stop <+: path := fun hpath hstop =>
    (List.prefix_or_prefix_of_prefix hpath hstop).imp Synthesis.prefix_map_field.mp
      Synthesis.prefix_map_field.mp
  constructor
  · intro hleads
    exact (hfront (hpath.trans hleads) hstop).elim h.1 h.2
  · intro hleads
    exact (hfront hpath (hstop.trans hleads)).elim h.1 h.2

end Site

instance (path other : List String) : Decidable (Leaves.Apart path other) :=
  inferInstanceAs (Decidable (_ ∧ _))

namespace Query

/-! ## Reading sites off a query -/

/-- The path in the document that steps read, given where the current value lives and the variable
that stands for the whole document. -/
def target? (root : String) (base : Path) : Query → Option Path
  | .input => some base
  | .var name => if name = root then some [] else none
  | .step query segment => (target? root base query).map fun path => path ++ [segment]
  | _ => none

mutual

/-- The sites of a query in the order in which they are written, unless it does something else than
constructing objects and lists, multiplying and following steps. -/
def sites? (root : String) (base : Path) : Query → Option (List Site)
  | .object entries => entrySites? root base entries
  | .times left right => do
    let first ← sites? root base left
    let next ← sites? root base right
    some (first ++ next)
  | .collect (.pipe run body) => do
    let elements ← target? root base run
    let found ← sites? root elements body
    some (found.map (Site.inside elements))
  | query => (target? root base query).map fun source => [{ place := [], lists := [], source }]

/-- The sites of some entries of an object construction. -/
def entrySites? (root : String) (base : Path) : List (String × Query) → Option (List Site)
  | [] => some []
  | (key, value) :: rest => do
    let first ← sites? root base value
    let next ← entrySites? root base rest
    some (first.map (Site.below key) ++ next)

end

/-- What only follows steps is written where it stands. -/
theorem sites?_of_target? {root : String} {base source : Path} {query : Query}
    (h : query.target? root base = some source) :
    query.sites? root base = some [{ place := [], lists := [], source }] := by
  cases query <;> simp_all [target?, sites?]

/-- Steps from a query go on from where it reads. -/
theorem target?_read (root : String) (base : Path) (query : Query) (path : Path) :
    (read query path).target? root base = (query.target? root base).map fun front =>
      front ++ path := by
  induction path generalizing query with
  | nil => simp [read]
  | cons segment path ih =>
    rw [read, List.foldl_cons, ← read, ih, target?, Option.map_map]
    simp [Function.comp_def]

/-- The sites of an object construction are those of its values, below their keys. -/
theorem sites?_object {α : Type} {root : String} {base : Path} {parts : List α}
    {entry : α → String × Query} {found : α → List Site}
    (h : ∀ part ∈ parts, (entry part).2.sites? root base = some (found part)) :
    (object (parts.map entry)).sites? root base =
      some (parts.flatMap fun part => (found part).map (Site.below (entry part).1)) := by
  rw [sites?]
  induction parts with
  | nil => rfl
  | cons part rest ih =>
    have hrest := ih fun other hother => h other (by simp [hother])
    rw [List.map_cons, entrySites?, h part (by simp), hrest]
    rfl

/-- The sites of a product are those of its pieces. -/
theorem sites?_product {root : String} {base : Path} {pieces : List Query}
    {found : List (List Site)} (hne : pieces ≠ [])
    (h : List.Forall₂ (fun piece sites => sites? root base piece = some sites) pieces found) :
    (product pieces).sites? root base = some found.flatten := by
  have hfold : ∀ {pieces : List Query} {found : List (List Site)} {left : Query}
      {first : List Site}, left.sites? root base = some first →
      List.Forall₂ (fun piece sites => sites? root base piece = some sites) pieces found →
      (pieces.foldl times left).sites? root base = some (first ++ found.flatten) := by
    intro pieces found left first hleft h
    induction h generalizing left first with
    | nil => simpa using hleft
    | @cons piece sites pieces found hpiece _ ih =>
      have hboth : (times left piece).sites? root base = some (first ++ sites) := by
        rw [sites?, hleft, hpiece]
        rfl
      rw [List.foldl_cons, ih hboth, List.flatten_cons, List.append_assoc]
  cases h with
  | nil => exact absurd rfl hne
  | cons hfirst hrest => exact hfold hfirst hrest

/-- The sites of a product are those of the left factor and those of the right one. -/
theorem sites?_times_eq_some_iff {root : String} {base : Path} {left right : Query}
    {sites : List Site} : (times left right).sites? root base = some sites ↔
      ∃ first next, left.sites? root base = some first ∧ right.sites? root base = some next ∧
        sites = first ++ next := by
  simp only [sites?, Option.bind_eq_bind, Option.bind_eq_some_iff, Option.some.injEq]
  grind

/-- The sites of a list are those of an element. -/
theorem sites?_collect_eq_some_iff {root : String} {base : Path} {run body : Query}
    {sites : List Site} : (collect (.pipe run body)).sites? root base = some sites ↔
      ∃ elements found, run.target? root base = some elements ∧
        body.sites? root elements = some found ∧ sites = found.map (Site.inside elements) := by
  simp only [sites?, Option.bind_eq_bind, Option.bind_eq_some_iff, Option.some.injEq]
  grind

/-- The sites of some entries are those of the first, below its key, and those of the others. -/
theorem entrySites?_cons_eq_some_iff {root : String} {base : Path} {key : String} {value : Query}
    {rest : List (String × Query)} {sites : List Site} :
    entrySites? root base ((key, value) :: rest) = some sites ↔
      ∃ first next, value.sites? root base = some first ∧
        entrySites? root base rest = some next ∧ sites = first.map (Site.below key) ++ next := by
  simp only [entrySites?, Option.bind_eq_bind, Option.bind_eq_some_iff, Option.some.injEq]
  grind

/-! ## Queries that lose nothing -/

mutual

/-- The key paths at which the objects that a query constructs and multiplies hold other values. -/
def ends : Query → List (List String)
  | .object entries => entryEnds entries
  | .times left right => ends left ++ ends right
  | _ => [[]]

/-- The same for some entries of an object construction. -/
def entryEnds : List (String × Query) → List (List String)
  | [] => []
  | (key, value) :: rest => (ends value).map (key :: ·) ++ entryEnds rest

end

mutual

/-- No object construction writes a key twice, and no product writes at, above or below what its
left factor has written. -/
def isLossless : Query → Bool
  | .input => true
  | .var _ => true
  | .step base _ => isLossless base
  | .collect body => isLossless body
  | .object entries => decide (Fields.names entries).Nodup && areLossless entries
  | .times left right =>
    isLossless left && isLossless right && (ends left).all fun path =>
      (ends right).all fun other => decide (Leaves.Apart path other)
  | .pipe first next => isLossless first && isLossless next
  | .bind _ body => isLossless body

/-- The same for the values of some entries. -/
def areLossless : List (String × Query) → Bool
  | [] => true
  | (_, value) :: rest => isLossless value && areLossless rest

end

/-- The ends of an object construction are those of its values, below their keys. -/
theorem ends_object (entries : List (String × Query)) :
    (object entries).ends = entries.flatMap fun entry => entry.2.ends.map (entry.1 :: ·) := by
  rw [ends]
  induction entries with
  | nil => rfl
  | cons entry rest ih =>
    obtain ⟨key, value⟩ := entry
    rw [entryEnds, ih, List.flatMap_cons]

/-- An object construction loses nothing when its keys are different and its values lose nothing. -/
theorem isLossless_object (entries : List (String × Query)) :
    (object entries).isLossless = true ↔
      Fields.Distinct entries ∧ ∀ entry ∈ entries, entry.2.isLossless = true := by
  have hall : areLossless entries = true ↔ ∀ entry ∈ entries, entry.2.isLossless = true := by
    induction entries with
    | nil => simp [areLossless]
    | cons entry rest ih =>
      obtain ⟨key, value⟩ := entry
      simp [areLossless, ih]
  rw [isLossless, Bool.and_eq_true, decide_eq_true_iff, hall]
  rfl

/-- A product loses nothing when its factors lose nothing and end apart from each other. -/
theorem isLossless_times (left right : Query) :
    (times left right).isLossless = true ↔ left.isLossless = true ∧ right.isLossless = true ∧
      ∀ path ∈ left.ends, ∀ other ∈ right.ends, Leaves.Apart path other := by
  simp only [isLossless, Bool.and_eq_true, List.all_eq_true, decide_eq_true_iff, and_assoc]

/-- A product loses nothing when its pieces lose nothing and end apart from each other. -/
theorem isLossless_product {pieces : List Query} (h : ∀ piece ∈ pieces, piece.isLossless = true)
    (hapart : pieces.Pairwise fun piece other =>
      ∀ path ∈ piece.ends, ∀ stop ∈ other.ends, Leaves.Apart path stop) :
    (product pieces).isLossless = true := by
  have hfold : ∀ (pieces : List Query) (left : Query), left.isLossless = true →
      (∀ piece ∈ pieces, piece.isLossless = true) →
      (left :: pieces).Pairwise (fun piece other =>
        ∀ path ∈ piece.ends, ∀ stop ∈ other.ends, Leaves.Apart path stop) →
      (pieces.foldl times left).isLossless = true := by
    intro pieces
    induction pieces with
    | nil => exact fun left hleft _ _ => hleft
    | cons piece pieces ih =>
      intro left hleft hpieces hapart
      obtain ⟨hfirst, hrest⟩ := List.pairwise_cons.mp hapart
      obtain ⟨hpiece, hothers⟩ := List.pairwise_cons.mp hrest
      refine ih _ ((isLossless_times left piece).mpr ⟨hleft, hpieces piece (by simp),
        hfirst piece (by simp)⟩) (fun other hother => hpieces other (by simp [hother])) ?_
      refine List.pairwise_cons.mpr ⟨fun other hother path hpath => ?_, hothers⟩
      rw [ends, List.mem_append] at hpath
      rcases hpath with hpath | hpath
      · exact hfirst other (by simp [hother]) path hpath
      · exact hpiece other hother path hpath
  cases pieces with
  | nil => rfl
  | cons first rest =>
    exact hfold rest first (h first (by simp)) (fun piece hpiece => h piece (by simp [hpiece]))
      hapart

/-! ## Sites of queries that lose nothing -/

mutual

/-- Every site stands at or below an end of the query. -/
theorem exists_end {root : String} {base : Path} {query : Query} {sites : List Site}
    (h : query.sites? root base = some sites) :
    ∀ site ∈ sites, ∃ path ∈ query.ends, path.map .field <+: site.place := by
  have hsingle : ∀ site ∈ sites, ∃ path ∈ [([] : List String)],
      path.map Segment.field <+: site.place := fun site _ => ⟨[], by simp, List.nil_prefix⟩
  cases query with
  | object entries =>
    rw [sites?] at h
    exact exists_entryEnd h
  | times left right =>
    obtain ⟨first, next, hfirst, hnext, rfl⟩ := sites?_times_eq_some_iff.mp h
    intro site hsite
    rw [ends]
    rcases List.mem_append.mp hsite with hsite | hsite
    · obtain ⟨path, hpath, hleads⟩ := exists_end hfirst site hsite
      exact ⟨path, List.mem_append_left _ hpath, hleads⟩
    · obtain ⟨path, hpath, hleads⟩ := exists_end hnext site hsite
      exact ⟨path, List.mem_append_right _ hpath, hleads⟩
  | _ => exact hsingle
termination_by structural query

/-- The same for some entries of an object construction. -/
theorem exists_entryEnd {root : String} {base : Path} {entries : List (String × Query)}
    {sites : List Site} (h : entrySites? root base entries = some sites) :
    ∀ site ∈ sites, ∃ path ∈ entryEnds entries, path.map .field <+: site.place := by
  cases entries with
  | nil =>
    obtain rfl := Option.some.inj h
    simp
  | cons entry rest =>
    obtain ⟨key, value⟩ := entry
    obtain ⟨first, next, hfirst, hnext, rfl⟩ := entrySites?_cons_eq_some_iff.mp h
    intro site hsite
    rw [entryEnds]
    rcases List.mem_append.mp hsite with hsite | hsite
    · obtain ⟨inner, hinner, rfl⟩ := List.mem_map.mp hsite
      obtain ⟨path, hpath, hleads⟩ := exists_end hfirst inner hinner
      refine ⟨key :: path, List.mem_append_left _ (List.mem_map_of_mem hpath), ?_⟩
      exact List.prefix_cons_inj _ |>.mpr hleads
    · obtain ⟨path, hpath, hleads⟩ := exists_entryEnd hnext site hsite
      exact ⟨path, List.mem_append_right _ hpath, hleads⟩
termination_by structural entries

end

/-- The ends of some entries are below their keys. -/
theorem exists_name_of_mem_entryEnds {entries : List (String × Query)} {path : List String}
    (h : path ∈ entryEnds entries) :
    ∃ name more, path = name :: more ∧ name ∈ Fields.names entries := by
  rw [← ends, ends_object] at h
  obtain ⟨entry, hentry, hpath⟩ := List.mem_flatMap.mp h
  obtain ⟨more, -, rfl⟩ := List.mem_map.mp hpath
  exact ⟨entry.1, more, rfl, List.mem_map_of_mem hentry⟩

mutual

/-- The sites of a query that loses nothing are apart from each other. -/
theorem pairwise_apart {root : String} {base : Path} {query : Query} {sites : List Site}
    (hlossless : query.isLossless = true) (h : query.sites? root base = some sites) :
    sites.Pairwise Site.Apart := by
  have hsingle : (query.target? root base).map (fun source =>
      [({ place := [], lists := [], source } : Site)]) = some sites →
        sites.Pairwise Site.Apart := by
    intro h
    obtain ⟨source, -, rfl⟩ := Option.map_eq_some_iff.mp h
    exact List.pairwise_singleton _ _
  cases query with
  | object entries =>
    rw [sites?] at h
    obtain ⟨hdistinct, hvalues⟩ := (isLossless_object entries).mp hlossless
    exact pairwise_apart_entries hdistinct hvalues h
  | times left right =>
    obtain ⟨first, next, hfirst, hnext, rfl⟩ := sites?_times_eq_some_iff.mp h
    obtain ⟨hleft, hright, hends⟩ := (isLossless_times left right).mp hlossless
    refine List.pairwise_append.mpr ⟨pairwise_apart hleft hfirst, pairwise_apart hright hnext, ?_⟩
    intro site hsite other hother
    obtain ⟨path, hpath, hleads⟩ := exists_end hfirst site hsite
    obtain ⟨stop, hstop, hleads'⟩ := exists_end hnext other hother
    exact Site.apart_of_ends hleads hleads' (hends path hpath stop hstop)
  | collect body =>
    cases body with
    | pipe run body =>
      obtain ⟨elements, found, -, hfound, rfl⟩ := sites?_collect_eq_some_iff.mp h
      rw [isLossless, isLossless, Bool.and_eq_true] at hlossless
      refine List.pairwise_map.mpr ((pairwise_apart hlossless.2 hfound).imp ?_)
      intro site other hapart
      simpa [Site.Apart, Site.inside, List.prefix_cons_inj] using hapart
    | _ => exact hsingle h
  | _ => exact hsingle h
termination_by structural query

/-- The same for some entries of an object construction. -/
theorem pairwise_apart_entries {root : String} {base : Path} {entries : List (String × Query)}
    {sites : List Site} (hdistinct : Fields.Distinct entries)
    (hvalues : ∀ entry ∈ entries, entry.2.isLossless = true)
    (h : entrySites? root base entries = some sites) : sites.Pairwise Site.Apart := by
  cases entries with
  | nil =>
    obtain rfl := Option.some.inj h
    exact .nil
  | cons entry rest =>
    obtain ⟨key, value⟩ := entry
    obtain ⟨first, next, hfirst, hnext, rfl⟩ := entrySites?_cons_eq_some_iff.mp h
    obtain ⟨hnew, hrest⟩ := List.nodup_cons.mp hdistinct
    have hvalue : value.isLossless = true := hvalues (key, value) (by simp)
    refine List.pairwise_append.mpr ⟨List.pairwise_map.mpr ((pairwise_apart hvalue hfirst).imp ?_),
      pairwise_apart_entries hrest (fun entry hentry => hvalues entry (by simp [hentry])) hnext, ?_⟩
    · intro site other hapart
      simpa [Site.Apart, Site.below, List.prefix_cons_inj] using hapart
    · intro site hsite other hother
      obtain ⟨inner, -, rfl⟩ := List.mem_map.mp hsite
      obtain ⟨path, hpath, hleads⟩ := exists_entryEnd hnext other hother
      obtain ⟨name, more, rfl, hname⟩ := exists_name_of_mem_entryEnds hpath
      have hfirst : [key].map Segment.field <+: (inner.below key).place := by simp [Site.below]
      refine Site.apart_of_ends hfirst hleads ?_
      have hne : key ≠ name := by
        rintro rfl
        exact hnew hname
      simp [Leaves.Apart, List.cons_prefix_cons, hne, hne.symm]
termination_by structural entries

end

end Query

end Projector
