import Projector.Proofs.Lookups
import Projector.Proofs.Tries

/-!
# The schema of a document

The schema of a document are the paths that lead from it into objects, by each of their keys, and
into lists of objects, by each key of the first one. The outline of the document lists exactly these
paths, each once and in the order of the keys, and every node shows of the value at its path what
kind it is, how many elements a list has, and a scalar as it is.
-/

namespace Projector

/-- What a node stands for that shows a value. -/
def Kind.ofJson : Json → Kind
  | .obj _ => .object
  | .arr items => .array items.length
  | value => .leaf value

namespace Json

/-- The paths of the schema of a value: the value itself, what is below each field of an object,
and what is below each field of the object that a list starts with. Nothing is below other lists. -/
inductive HasPath : Json → Path → Prop
  | root (value : Json) : HasPath value []
  | field {fields : Fields Json} {key : String} {value : Json} {path : Path}
      (hfield : (key, value) ∈ fields) (hpath : HasPath value path) :
      HasPath (.obj fields) (.field key :: path)
  | element {fields : Fields Json} {others : List Json} {key : String} {value : Json} {path : Path}
      (hfield : (key, value) ∈ fields) (hpath : HasPath value path) :
      HasPath (.arr (.obj fields :: others)) (.each :: .field key :: path)

/-- The value at a path, where the step to the elements of a list goes to the first one. -/
def firstAt? : Path → Json → Option Json
  | [], value => some value
  | .field name :: rest, .obj fields => (Fields.get? fields name).bind (firstAt? rest)
  | .each :: rest, .arr (first :: _) => firstAt? rest first
  | _, _ => none

/-- A path comes before another one in a document: it leads to the other one, or where they part
the object there has its key first. -/
def Precedes (document : Json) (path other : Path) : Prop :=
  (path <+: other ∧ path ≠ other) ∨
    ∃ front key next rest rest' fields, path = front ++ .field key :: rest ∧
      other = front ++ .field next :: rest' ∧ document.firstAt? front = some (.obj fields) ∧
      [key, next].Sublist (Fields.names fields)

mutual

/-- The paths of the schema of a value with what is there, in the order of the keys. -/
def schema : Json → List (Path × Json)
  | .obj fields => ([], .obj fields) :: schemaFields fields
  | .arr (.obj fields :: others) =>
    ([], .arr (.obj fields :: others)) ::
      (schemaFields fields).map fun spot => (.each :: spot.1, spot.2)
  | value => [([], value)]

/-- The paths of the schema below some fields. -/
def schemaFields : List (String × Json) → List (Path × Json)
  | [] => []
  | (key, value) :: rest =>
    (schema value).map (fun spot => (.field key :: spot.1, spot.2)) ++ schemaFields rest

end

/-- Below some fields there is what is below each of them. -/
theorem schemaFields_eq_flatMap (fields : List (String × Json)) :
    schemaFields fields = fields.flatMap fun field =>
      (schema field.2).map fun spot => (.field field.1 :: spot.1, spot.2) := by
  induction fields with
  | nil => rfl
  | cons field rest ih =>
    obtain ⟨key, value⟩ := field
    rw [schemaFields, ih, List.flatMap_cons]

/-! ## The order of paths -/

/-- The path of a value comes before the paths below it. -/
theorem precedes_nil (document : Json) {path : Path} (h : path ≠ []) : document.Precedes [] path :=
  .inl ⟨List.nil_prefix, h.symm⟩

/-- Behind a field paths come in the order that they have in its value. -/
theorem Precedes.field {fields : Fields Json} {key : String} {value : Json}
    (hget : Fields.get? fields key = some value) {path other : Path}
    (h : value.Precedes path other) :
    (Json.obj fields).Precedes (.field key :: path) (.field key :: other) := by
  rcases h with ⟨hleads, hne⟩ | ⟨front, name, next, rest, rest', inside, rfl, rfl, hfront, hnames⟩
  · exact .inl ⟨(List.prefix_cons_inj _).mpr hleads, by simpa using hne⟩
  · refine .inr ⟨.field key :: front, name, next, rest, rest', inside, rfl, rfl, ?_, hnames⟩
    rw [firstAt?, hget]
    exact hfront

/-- Behind the step to its elements paths of a list come in the order that they have in the first
element. -/
theorem Precedes.element {first : Json} (others : List Json) {path other : Path}
    (h : first.Precedes path other) :
    (Json.arr (first :: others)).Precedes (.each :: path) (.each :: other) := by
  rcases h with ⟨hleads, hne⟩ | ⟨front, name, next, rest, rest', inside, rfl, rfl, hfront, hnames⟩
  · exact .inl ⟨(List.prefix_cons_inj _).mpr hleads, by simpa using hne⟩
  · exact .inr ⟨.each :: front, name, next, rest, rest', inside, rfl, rfl, hfront, hnames⟩

/-! ## What is listed -/

/-- Some paths with values are those of the schema of a value, in their order. -/
structure Lists (value : Json) (spots : List (Path × Json)) : Prop where
  hasPath : ∀ path, path ∈ spots.map Prod.fst ↔ value.HasPath path
  firstAt : ∀ spot ∈ spots, value.firstAt? spot.1 = some spot.2
  ordered : (spots.map Prod.fst).Pairwise value.Precedes

/-- What has no fields to show has only itself in its schema. -/
theorem lists_self {value : Json} (h : ∀ path, value.HasPath path → path = []) :
    value.Lists [([], value)] where
  hasPath := by
    intro path
    simp only [List.map_cons, List.map_nil, List.mem_singleton]
    exact ⟨fun heq => heq ▸ .root value, h path⟩
  firstAt := by simp [firstAt?]
  ordered := List.pairwise_singleton _ _

section Fields

variable {fields : Fields Json} (hvalues : ∀ field ∈ fields, field.2.Lists field.2.schema)

include hvalues

/-- The paths below some fields are those of their values behind their keys. -/
theorem mem_schemaFields_iff {path : Path} : path ∈ (schemaFields fields).map Prod.fst ↔
    ∃ key value rest, (key, value) ∈ fields ∧ path = .field key :: rest ∧ value.HasPath rest := by
  rw [schemaFields_eq_flatMap, List.map_flatMap, List.mem_flatMap]
  constructor
  · rintro ⟨⟨key, value⟩, hfield, hpath⟩
    rw [List.map_map, List.mem_map] at hpath
    obtain ⟨spot, hspot, rfl⟩ := hpath
    exact ⟨key, value, spot.1, hfield, rfl,
      ((hvalues _ hfield).hasPath _).mp (List.mem_map_of_mem hspot)⟩
  · rintro ⟨key, value, rest, hfield, rfl, hpath⟩
    refine ⟨(key, value), hfield, ?_⟩
    obtain ⟨spot, hspot, rfl⟩ := List.mem_map.mp (((hvalues _ hfield).hasPath _).mpr hpath)
    rw [List.map_map]
    exact List.mem_map.mpr ⟨spot, hspot, rfl⟩

/-- The values below the fields of an object are there. -/
theorem firstAt_schemaFields (hdistinct : Fields.Distinct fields) :
    ∀ spot ∈ schemaFields fields, (Json.obj fields).firstAt? spot.1 = some spot.2 := by
  rw [schemaFields_eq_flatMap]
  intro spot hspot
  obtain ⟨field, hfield, hbelow⟩ := List.mem_flatMap.mp hspot
  obtain ⟨inner, hinner, rfl⟩ := List.mem_map.mp hbelow
  rw [firstAt?, Fields.get?_of_mem hdistinct hfield]
  exact (hvalues field hfield).firstAt inner hinner

/-- The paths below the fields of an object are in order. -/
theorem ordered_schemaFields (hdistinct : Fields.Distinct fields) :
    ((schemaFields fields).map Prod.fst).Pairwise (Json.obj fields).Precedes := by
  rw [schemaFields_eq_flatMap, List.map_flatMap, List.pairwise_flatMap]
  constructor
  · intro field hfield
    rw [List.map_map, List.pairwise_map]
    refine (List.pairwise_map.mp (hvalues field hfield).ordered).imp fun h => ?_
    exact h.field (Fields.get?_of_mem hdistinct hfield)
  · refine List.pairwise_iff_forall_sublist.mpr fun {field next} hsublist => ?_
    have hnames : [field.1, next.1].Sublist (Fields.names fields) := hsublist.map Prod.fst
    simp only [List.mem_map, forall_exists_index, and_imp, forall_apply_eq_imp_iff₂]
    intro spot _ twin _
    exact .inr ⟨[], _, _, _, _, fields, rfl, rfl, rfl, hnames⟩

/-- What is listed for an object. -/
theorem lists_object (hdistinct : Fields.Distinct fields) :
    (Json.obj fields).Lists (([], .obj fields) :: schemaFields fields) where
  hasPath := by
    intro path
    rw [List.map_cons, List.mem_cons, mem_schemaFields_iff hvalues]
    constructor
    · rintro (rfl | ⟨key, value, rest, hfield, rfl, hpath⟩)
      · exact .root _
      · exact .field hfield hpath
    · rintro (_ | ⟨hfield, hpath⟩)
      · exact .inl rfl
      · exact .inr ⟨_, _, _, hfield, rfl, hpath⟩
  firstAt := List.forall_mem_cons.mpr ⟨rfl, firstAt_schemaFields hvalues hdistinct⟩
  ordered := by
    refine List.pairwise_cons.mpr ⟨fun path hpath => ?_, ordered_schemaFields hvalues hdistinct⟩
    obtain ⟨key, value, rest, -, rfl, -⟩ := (mem_schemaFields_iff hvalues).mp hpath
    exact precedes_nil _ (by simp)

/-- What is listed for a list that starts with an object. -/
theorem lists_list (hdistinct : Fields.Distinct fields) (others : List Json) :
    (Json.arr (.obj fields :: others)).Lists (([], .arr (.obj fields :: others)) ::
      (schemaFields fields).map fun spot => (.each :: spot.1, spot.2)) where
  hasPath := by
    intro path
    have hbelow : path ∈ ((schemaFields fields).map fun spot => (.each :: spot.1, spot.2)).map
        Prod.fst ↔ ∃ inner ∈ (schemaFields fields).map Prod.fst, path = .each :: inner := by
      simp [eq_comm]
    rw [List.map_cons, List.mem_cons, hbelow]
    simp only [mem_schemaFields_iff hvalues]
    constructor
    · rintro (rfl | ⟨_, ⟨key, value, rest, hfield, rfl, hpath⟩, rfl⟩)
      · exact .root _
      · exact .element hfield hpath
    · rintro (_ | _ | ⟨hfield, hpath⟩)
      · exact .inl rfl
      · exact .inr ⟨_, ⟨_, _, _, hfield, rfl, hpath⟩, rfl⟩
  firstAt := by
    refine List.forall_mem_cons.mpr ⟨rfl, List.forall_mem_map.mpr fun spot hspot => ?_⟩
    exact firstAt_schemaFields hvalues hdistinct spot hspot
  ordered := by
    rw [List.map_cons, List.map_map]
    refine List.pairwise_cons.mpr ⟨fun path hpath => ?_, ?_⟩
    · obtain ⟨spot, -, rfl⟩ := List.mem_map.mp hpath
      exact precedes_nil _ (by simp)
    · have hordered := ordered_schemaFields hvalues hdistinct
      rw [List.pairwise_map] at hordered ⊢
      exact hordered.imp fun h => h.element others

end Fields

/-- The schema of a value with different keys in every object is listed in order. -/
theorem lists_schema (value : Json) (hvalue : value.WellFormed) : value.Lists value.schema := by
  refine (schema.mutual_induct
    (fun value => value.WellFormed → value.Lists value.schema)
    (fun fields => WellFormedFields fields → ∀ field ∈ fields, field.2.Lists field.2.schema)
    ?object ?list ?other ?none ?field).1 value hvalue
  case object =>
    rintro fields hfields ⟨hdistinct, hvalues⟩
    rw [schema]
    exact lists_object (hfields hvalues) hdistinct
  case list =>
    rintro fields others hfields ⟨⟨hdistinct, hvalues⟩, -⟩
    rw [schema]
    exact lists_list (hfields hvalues) hdistinct others
  case other =>
    intro value hobject hlist _
    rw [schema.eq_3 _ hobject hlist]
    refine lists_self fun path hpath => ?_
    cases hpath with
    | root => rfl
    | field => exact absurd rfl (hobject _)
    | element => exact absurd rfl (hlist _ _)
  case none => simp
  case field =>
    rintro key value rest hvalue hrest ⟨hfirst, hothers⟩
    exact List.forall_mem_cons.mpr ⟨hvalue hfirst, hrest hothers⟩

end Json

namespace Node

/-- The path of a node and what it stands for. -/
def shown (spot : Path × Node) : Path × Kind := (spot.1, spot.2.label.kind)

/-- The node of a value shows the paths of the schema of the value, in order, and what is there. -/
theorem map_shown_build (key address : String) (path : Path) (value : Json) :
    (walk path (build key address path value)).map shown =
      value.schema.map fun spot => (path ++ spot.1, Kind.ofJson spot.2) := by
  refine (build.mutual_induct
    (fun key address path value => (walk path (build key address path value)).map shown =
      value.schema.map fun spot => (path ++ spot.1, Kind.ofJson spot.2))
    (fun parent inArray base fields => (walkAll base (buildFields parent inArray base fields)).map
      shown = (Json.schemaFields fields).map fun spot => (base ++ spot.1, Kind.ofJson spot.2))
    ?object ?empty ?objects ?plain ?scalar ?none ?field).1 key address path value
  case object =>
    intro key address path fields hfields
    rw [build, fresh, walk, List.map_cons, Json.schema, List.map_cons]
    exact congrArg₂ List.cons (by simp [shown, Kind.ofJson]) hfields
  case empty =>
    intro key address path
    simp [build, fresh, walk, walkAll, Json.schema, shown, Kind.ofJson]
  case objects =>
    intro key address path fields rest hfields
    rw [build, fresh, walk, List.map_cons, Json.schema, List.map_cons, List.map_map]
    refine congrArg₂ List.cons (by simp [shown, Kind.ofJson]) (hfields.trans ?_)
    exact List.map_congr_left fun spot _ => by simp
  case plain =>
    intro key address path first rest hfirst
    rw [build.eq_4 _ _ _ _ _ hfirst, fresh, walk, walkAll, Json.schema.eq_3 _ (by simp)
      fun fields others heq => hfirst fields (List.cons.inj (Json.arr.inj heq)).1]
    simp [shown, Kind.ofJson]
  case scalar =>
    intro key address path value hobject hempty hobjects hplain
    rw [build.eq_5 _ _ _ _ hobject hempty hobjects hplain, fresh, walk, walkAll,
      Json.schema.eq_3 _ hobject fun fields others heq => hobjects fields others heq]
    cases value with
    | obj fields => exact absurd rfl (hobject fields)
    | arr items =>
      cases items with
      | nil => exact absurd rfl hempty
      | cons first rest => exact absurd rfl (hplain first rest)
    | _ => simp [shown, Kind.ofJson]
  case none =>
    intro parent inArray base
    rfl
  case field =>
    intro parent inArray base key value rest hvalue hrest
    rw [buildFields, walkAll, List.map_append, Json.schemaFields, List.map_append, key_build,
      hvalue, hrest, List.map_map]
    exact congrArg (· ++ _) (List.map_congr_left fun spot _ => by simp)

/-- The outline of a document shows the paths of the schema of the document, in order, and what is
there. -/
theorem map_shown_ofDocument (document : Json) :
    (ofDocument document).located.map (fun found => (found.path, found.node.label.kind)) =
      document.schema.map fun spot => (spot.1, Kind.ofJson spot.2) := by
  have hbuild := map_shown_build rootKey Address.root [] document
  simp only [List.nil_append] at hbuild
  rw [← hbuild, located, List.map_map]
  unfold ofDocument
  cases build rootKey Address.root [] document with
  | mk label children => simp [walk, shown, inner]

/-- Of a fresh outline only the root is shown expanded. -/
theorem expanded_ofDocument (document : Json) {found : Located}
    (hfound : found ∈ (ofDocument document).located) :
    found.node.label.expanded = true ↔ found.path = [] := by
  have hbuild : Everywhere (fun _ label => label.expanded = false) []
      (build rootKey Address.root [] document) :=
    everywhere_build (fun _ _ _ _ _ => rfl) _ _ _ _ _
  have hwalk := mem_located.mp hfound
  unfold ofDocument at hwalk
  cases hroot : build rootKey Address.root [] document with
  | mk label children =>
    rw [hroot] at hwalk hbuild
    rcases mem_walk_iff.mp hwalk with ⟨hpath, hnode⟩ | ⟨child, hchild, hbelow⟩
    · simp [hpath, hnode]
    · have hcollapsed := (everywhere_mk.mp hbuild).2 child hchild _ _ hbelow
      have hlead := (prefix_of_mem_walk hbelow).length_le
      constructor
      · intro hexpanded
        rw [hcollapsed] at hexpanded
        cases hexpanded
      · intro hpath
        rw [hpath] at hlead
        simp [Address.below] at hlead

end Node

open Node

/-- The outline of a document lists every path of the schema of the document exactly once, in the
order of the document. Each node stores the address of its path and shows of the first value at this
path what kind it is, how many elements a list has and which scalar it is. Only the root is
expanded, and nothing is marked. -/
theorem schema_ofDocument {document : Json} (hdocument : document.WellFormed) :
    ((ofDocument document).located.map Located.path).Nodup ∧
    (∀ path, path ∈ (ofDocument document).located.map Located.path ↔ document.HasPath path) ∧
    ((ofDocument document).located.map Located.path).Pairwise document.Precedes ∧
    ∀ found ∈ (ofDocument document).located,
      Address.parse found.address = .ok found.path ∧
      (∃ value, document.firstAt? found.path = some value ∧
        found.node.label.kind = .ofJson value) ∧
      (found.node.label.expanded = true ↔ found.path = []) ∧
      found.node.label.selected = false := by
  have hfresh := fresh_ofDocument hdocument
  have hlists := Json.lists_schema document hdocument
  have hshown := map_shown_ofDocument document
  have hpaths : (ofDocument document).located.map Located.path =
      document.schema.map Prod.fst := by
    have hfirst := congrArg (List.map Prod.fst) hshown
    rwa [List.map_map, List.map_map] at hfirst
  rw [hpaths]
  refine ⟨?_, hlists.hasPath, hlists.ordered, fun found hfound => ⟨?_, ?_, ?_, ?_⟩⟩
  · rw [← hpaths, located, List.map_map]
    exact hfresh.wellFormed.nodup_paths []
  · rw [show found.address = found.path.address from
      hfresh.addressed _ _ (mem_located.mp hfound)]
    exact Address.parse_address found.path
  · have hmem := List.mem_map_of_mem (f := fun found : Located =>
      (found.path, found.node.label.kind)) hfound
    rw [hshown] at hmem
    obtain ⟨spot, hspot, heq⟩ := List.mem_map.mp hmem
    obtain ⟨hpath, hkind⟩ := Prod.mk.inj heq
    exact ⟨spot.2, hpath ▸ hlists.firstAt spot hspot, hkind.symm⟩
  · exact expanded_ofDocument document hfound
  · exact unmarked_ofDocument document _ _ (mem_located.mp hfound)

/-- A document with lists of objects, of scalars and of lists, and with unruly keys. -/
def nestedLists : Json :=
  .obj [("z y", .arr [.obj [("b", .bool true), ("a", .arr [])], .int 3]),
    ("m", .arr [.arr [.obj [("x", .null)]]]), ("k", .obj [("", .str "v")])]

/-- The field of the first element has a node, and the fields inside lists of lists have none. -/
theorem schema_ofDocument_nestedLists : nestedLists.WellFormed ∧
    (∃ found ∈ (ofDocument nestedLists).located,
      Address.parse found.address = .ok [.field "z y", .each, .field "b"] ∧
      found.node.label.kind = .leaf (.bool true) ∧ found.node.label.expanded = false) ∧
    ∀ found ∈ (ofDocument nestedLists).located,
      found.path ≠ [.field "m", .each, .each, .field "x"] := by
  have hformed : nestedLists.WellFormed := by
    simp [nestedLists, Json.WellFormed, Json.WellFormedFields, Json.WellFormedItems,
      Fields.Distinct, Fields.names]
  obtain ⟨-, hpaths, -, hnodes⟩ := schema_ofDocument hformed
  refine ⟨hformed, ?_, fun found hfound hpath => ?_⟩
  · have hhas : nestedLists.HasPath [.field "z y", .each, .field "b"] :=
      .field List.mem_cons_self (.element List.mem_cons_self (.root _))
    obtain ⟨found, hfound, hpath⟩ := List.mem_map.mp ((hpaths _).mpr hhas)
    obtain ⟨hparse, ⟨value, hvalue, hkind⟩, hexpanded, -⟩ := hnodes found hfound
    rw [hpath] at hparse hvalue hexpanded
    obtain rfl : value = .bool true := Option.some.inj (hvalue.symm.trans rfl)
    exact ⟨found, hfound, hparse, hkind, by simpa using hexpanded⟩
  · have hhas := (hpaths _).mp (List.mem_map_of_mem hfound)
    rw [hpath] at hhas
    rcases hhas with _ | ⟨hfield, hbelow⟩
    simp only [List.mem_cons, Prod.mk.injEq, List.not_mem_nil, or_false] at hfield
    rcases hfield with ⟨hkey, -⟩ | ⟨-, rfl⟩ | ⟨hkey, -⟩
    · exact absurd hkey (by decide)
    · cases hbelow
    · exact absurd hkey (by decide)

end Projector
