import Projector.Proofs.Listings
import Projector.Proofs.Sites

/-!
# The keys under which fields are written

A field that is shown at a path is written under the names of this path. When paths are compressed,
a name is joined with the one behind it if all fields that are shown through it, outside every
further list, go on with this name. So each key of a written path consists of some names of the path
that follow each other, joined by dots, and a path can be told from the others by its keys when no
two stretches of names are joined to the same key.
-/

namespace Projector

namespace Trie

/-- Names joined by dots. -/
def joined : List String → String
  | [] => ""
  | [name] => name
  | name :: rest => dotted name (joined rest)

/-- The parts of a key between its dots. -/
def parts (key : String) : List String := (key.toList.splitOn '.').map String.ofList

/-- The characters of joined names are those of the names with dots between them. -/
theorem toList_joined {names : List String} (hne : names ≠ []) :
    (joined names).toList = ['.'].intercalate (names.map String.toList) := by
  induction names with
  | nil => exact absurd rfl hne
  | cons name names ih =>
    cases names with
    | nil => simp [joined]
    | cons next names =>
      rw [joined, dotted, String.toList_append, String.toList_append, ih (by simp)]
      · simp only [List.map_cons, List.intercalate_cons_cons]
        rfl
      · simp

/-- Names without dots are the parts of the key that they are joined to. -/
theorem parts_joined {names : List String} (hne : names ≠ [])
    (hfree : ∀ name ∈ names, '.' ∉ name.toList) : parts (joined names) = names := by
  rw [parts, toList_joined hne, List.splitOn_intercalate '.' (by simpa using hfree) (by simpa)]
  simp

end Trie

namespace Path

/-- Whether all fields that are shown through a front, outside every further list, go on with a
name. -/
def goOn (paths : List Path) (front : Path) (next : String) : Bool :=
  paths.all fun path =>
    (following? front path).all fun rest => hasEach rest || decide ([.field next] <+: rest)

/-- A name in front of a written path, joined with its first key. -/
def join (name : String) : Path → Path
  | .field key :: rest => .field (Trie.dotted name key) :: rest
  | path => .field name :: path

/-- The keys under which a field is written beside others, given its path behind a front that they
share. -/
def written (compress : Bool) (paths : List Path) (front : Path) : Path → Path
  | [] => []
  | .field name :: .field next :: rest =>
    let inner := written compress paths (front ++ [.field name]) (.field next :: rest)
    if compress && !hasEach rest && goOn paths (front ++ [.field name]) next then join name inner
    else .field name :: inner
  | segment :: rest => segment :: written compress paths (front ++ [segment]) rest

/-- Without compression every field is written under the names of its path. -/
theorem written_false (paths : List Path) (front path : Path) :
    written false paths front path = path := by
  fun_induction written false paths front path with
  | case1 => rfl
  | case2 front name next rest inner hjoins => simp at hjoins
  | case3 front name next rest inner _ ih => exact congrArg _ ih
  | case4 front segment rest _ ih => rw [ih]

/-- Joining names keeps the steps to elements. -/
theorem hasEach_join (name : String) (path : Path) : hasEach (join name path) = hasEach path := by
  unfold join
  split <;> simp [hasEach, Segment.isEach]

/-- A written path goes through lists when the path does. -/
theorem hasEach_written (compress : Bool) (paths : List Path) (front path : Path) :
    hasEach (written compress paths front path) = hasEach path := by
  fun_induction written compress paths front path with
  | case1 => rfl
  | case2 front name next rest inner _ ih =>
    rw [hasEach_join, ih]
    simp [hasEach, Segment.isEach]
  | case3 front name next rest inner _ ih =>
    simp only [hasEach, List.any_cons] at ih ⊢
    rw [ih]
  | case4 front segment rest _ ih =>
    simp only [hasEach, List.any_cons] at ih ⊢
    rw [ih]

/-- On the way to the elements of a list all names are written as they are. -/
theorem written_elementsAt (compress : Bool) (paths : List Path) (front : Path)
    (keys : List String) (inside : Path) :
    written compress paths front (Synthesis.elementsAt keys ++ inside) =
      Synthesis.elementsAt keys ++
        written compress paths (front ++ Synthesis.elementsAt keys) inside := by
  induction keys generalizing front with
  | nil => simp [Synthesis.elementsAt, written]
  | cons key keys ih =>
    cases keys with
    | nil => simp [Synthesis.elementsAt, written]
    | cons next keys =>
      have hrest := ih (front ++ [.field key])
      simp only [Synthesis.elementsAt, List.map_cons, List.cons_append, List.append_assoc,
        List.nil_append] at hrest ⊢
      rw [written, hrest]
      simp [hasEach, Segment.isEach]

/-- Fields go on with a name when every path of fields behind the front starts with it. -/
theorem goOn_iff {paths : List Path} {front : Path} {next : String} :
    goOn paths front next = true ↔
      ∀ rest, front ++ rest ∈ paths → hasEach rest = false → [.field next] <+: rest := by
  simp only [goOn, List.all_eq_true, Option.all_eq_true, following?_eq_some_iff, Bool.or_eq_true,
    decide_eq_true_eq]
  constructor
  · intro h rest hmem heach
    exact (h _ hmem rest rfl).resolve_left (by simp [heach])
  · rintro h path hmem rest rfl
    cases heach : hasEach rest with
    | true => exact .inl rfl
    | false => exact .inr (h rest hmem heach)

/-- Only what stands behind the front counts. -/
theorem written_congr (compress : Bool) {paths others : List Path} {front base : Path}
    (h : ∀ path, base ++ path ∈ others ↔ front ++ path ∈ paths) (path : Path) :
    written compress others base path = written compress paths front path := by
  induction path generalizing front base with
  | nil => rfl
  | cons segment path ih =>
    have hdeeper : ∀ path, (base ++ [segment]) ++ path ∈ others ↔
        (front ++ [segment]) ++ path ∈ paths := fun path => by
      simpa using h (segment :: path)
    have hgoOn : ∀ next, goOn others (base ++ [segment]) next =
        goOn paths (front ++ [segment]) next := fun next => by
      rw [Bool.eq_iff_iff, goOn_iff, goOn_iff]
      simp only [hdeeper]
    have hinner := ih hdeeper
    rcases segment with name | _
    · rcases path with _ | ⟨next | _, path⟩
      · rfl
      · rw [written, written, hinner, hgoOn]
      · simp only [written] at hinner ⊢
        rw [hinner]
    · simp only [written]
      rw [hinner]

/-! ## Names that are joined to one key -/

/-- The first key of some names consists of the first few of them. -/
theorem exists_taken (compress : Bool) (paths : List Path) (front : Path) (name : String)
    (names : List String) : ∃ taken rest, name :: names = taken ++ rest ∧ taken ≠ [] ∧
      written compress paths front ((name :: names).map .field) = .field (Trie.joined taken) ::
        written compress paths (front ++ taken.map .field) (rest.map .field) := by
  induction names generalizing front name with
  | nil => exact ⟨[name], [], rfl, by simp, rfl⟩
  | cons next names ih =>
    obtain ⟨taken, rest, hnames, hne, hinner⟩ := ih (front ++ [.field name]) next
    simp only [List.map_cons] at hinner ⊢
    rw [written, hinner]
    split
    · refine ⟨name :: taken, rest, by rw [hnames]; rfl, by simp, ?_⟩
      cases taken with
      | nil => exact absurd rfl hne
      | cons first taken => simp [join, Trie.joined]
    · refine ⟨[name], next :: names, rfl, by simp, ?_⟩
      simp [Trie.joined, hinner]

/-- No two stretches of names on the ways of some fields, from one place on, are joined to the same
key. -/
def Unambiguous (paths : List Path) : Prop :=
  ∀ path ∈ paths, ∀ other ∈ paths, ∀ (front : Path) (names others : List String),
    front ++ names.map .field <+: path → front ++ others.map .field <+: other →
      names ≠ [] → others ≠ [] → Trie.joined names = Trie.joined others → names = others

/-- No name on a path has a dot. -/
def isDotFree (path : Path) : Bool := (names path).all fun name => !name.toList.contains '.'

/-- Names without dots are joined to different keys. -/
theorem unambiguous_of_isDotFree {paths : List Path} (h : ∀ path ∈ paths, path.isDotFree = true) :
    Unambiguous paths := by
  have hfree : ∀ path ∈ paths, ∀ (front : Path) (stretch : List String),
      front ++ stretch.map .field <+: path → ∀ name ∈ stretch, '.' ∉ name.toList := by
    rintro path hpath front stretch ⟨rest, rfl⟩ name hname
    have hall := List.all_eq_true.mp (h _ hpath) name (by
      simp only [names, List.filterMap_append, List.mem_append]
      exact .inl (.inr (by simpa [Segment.name?] using hname)))
    simpa using hall
  intro path hpath other hother front names others hnames hothers hne hne' hjoined
  rw [← Trie.parts_joined hne (hfree path hpath front names hnames), hjoined,
    Trie.parts_joined hne' (hfree other hother front others hothers)]

/-- Names behind a front are joined to different keys when names are. -/
theorem Unambiguous.of_append {paths others : List Path} (h : Unambiguous paths) (front : Path)
    (hothers : ∀ path ∈ others, front ++ path ∈ paths) : Unambiguous others := by
  intro path hpath other hother base names more hnames hmore
  refine h _ (hothers path hpath) _ (hothers other hother) (front ++ base) names more ?_ ?_
  · rw [List.append_assoc]
    exact (List.prefix_append_right_inj front).mpr hnames
  · rw [List.append_assoc]
    exact (List.prefix_append_right_inj front).mpr hmore

/-- The keys under which fields are written can be told apart: paths are not compressed, or no names
are joined to the same key. -/
def Clear (compress : Bool) (paths : List Path) : Prop := compress = false ∨ Unambiguous paths

/-- Names that are written under the same first key start with the same name. -/
theorem eq_of_head_written {compress : Bool} {paths : List Path} (h : Clear compress paths)
    {front : Path} {name other : String} {names others : List String}
    (hnames : ∃ path ∈ paths, front ++ (name :: names).map .field <+: path)
    (hothers : ∃ path ∈ paths, front ++ (other :: others).map .field <+: path)
    (hhead : (written compress paths front ((name :: names).map .field)).head? =
      (written compress paths front ((other :: others).map .field)).head?) : name = other := by
  rcases h with rfl | h
  · simpa [written_false] using hhead
  · obtain ⟨taken, rest, heq, hne, hkeys⟩ := exists_taken compress paths front name names
    obtain ⟨taken', rest', heq', hne', hkeys'⟩ := exists_taken compress paths front other others
    rw [hkeys, hkeys', List.head?_cons, List.head?_cons, Option.some_inj, Segment.field.injEq]
      at hhead
    rw [heq, List.map_append, ← List.append_assoc] at hnames
    rw [heq', List.map_append, ← List.append_assoc] at hothers
    obtain ⟨path, hpath, hleads⟩ := hnames
    obtain ⟨twin, htwin, hleads'⟩ := hothers
    obtain rfl : taken = taken' := h path hpath twin htwin front taken taken'
      ((List.prefix_append _ _).trans hleads) ((List.prefix_append _ _).trans hleads') hne hne'
      hhead
    cases taken with
    | nil => exact absurd rfl hne
    | cons first taken => rw [(List.cons.inj heq).1, (List.cons.inj heq').1]

/-- Names whose keys are in front of the keys of other names, or of these names themselves, are in
front of these. -/
theorem prefix_of_written {compress compress' : Bool} {paths : List Path}
    (h : compress = false ∧ compress' = false ∨ Unambiguous paths) {front : Path}
    {names others : List String}
    (hnames : ∃ path ∈ paths, front ++ names.map .field <+: path)
    (hothers : ∃ path ∈ paths, front ++ others.map .field <+: path)
    (hwritten : written compress paths front (names.map .field) <+:
      written compress' paths front (others.map .field)) : names <+: others := by
  rcases h with ⟨rfl, rfl⟩ | h
  · rw [written_false, written_false] at hwritten
    exact Synthesis.prefix_map_field.mp hwritten
  induction hlength : names.length using Nat.strong_induction_on
    generalizing front names others with
  | _ length ih =>
    cases names with
    | nil => exact List.nil_prefix
    | cons name names =>
      obtain ⟨taken, rest, heq, hne, hkeys⟩ := exists_taken compress paths front name names
      cases others with
      | nil => rw [hkeys] at hwritten; simp [written] at hwritten
      | cons other others =>
        obtain ⟨taken', rest', heq', hne', hkeys'⟩ :=
          exists_taken compress' paths front other others
        rw [hkeys, hkeys', List.cons_prefix_cons] at hwritten
        obtain ⟨hjoined, hrest⟩ := hwritten
        rw [heq] at hnames hlength ⊢
        rw [heq'] at hothers ⊢
        simp only [List.map_append, ← List.append_assoc] at hnames hothers
        obtain ⟨path, hpath, hleads⟩ := id hnames
        obtain ⟨twin, htwin, hleads'⟩ := id hothers
        obtain rfl : taken = taken' := h path hpath twin htwin front taken taken'
          ((List.prefix_append _ _).trans hleads) ((List.prefix_append _ _).trans hleads') hne hne'
          (by simpa using hjoined)
        refine (List.prefix_append_right_inj taken).mpr (ih rest.length ?_ hnames hothers hrest rfl)
        have hpositive := List.length_pos_iff.mpr hne
        rw [← hlength, List.length_append]
        omega

end Path

end Projector
