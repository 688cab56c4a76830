import Mathlib.Data.Set.Finite.Lemmas
import Projector.Proofs.Arrangements

/-!
# The order in which fields are written

A query writes the fields of a scope that are outside every list first, in their order, and then
those inside lists, list by list; inside the elements of a list it is the same again. Reading the
places in the order of writing gives the keys of every object level, each where it first comes. They
are in the order of the first fields below them exactly when, at every level, the fields outside
further lists already have their keys in this order.
-/

namespace Projector

/-- A place of an output with the number of the field that is written there. -/
structure Numbered where
  /-- The place, from the output on. -/
  place : Path
  /-- The number of the field among all fields. -/
  order : Int

/-- A field is written before another one: as seen from the innermost elements that both are in, it
is outside every further list and the other one is not, or both or none are and it is numbered
first. -/
def Numbered.Before (field other : Numbered) : Prop :=
  ∀ front rest rest' : Path, field.place = front ++ rest → other.place = front ++ rest' →
    (∀ keys, Synthesis.elementsAt keys <+: rest → ¬Synthesis.elementsAt keys <+: rest') →
    (Path.hasEach rest = false ∧ Path.hasEach rest' = true) ∨
      (Path.hasEach rest = Path.hasEach rest' ∧ field.order < other.order)

/-- No field is written before itself. -/
theorem Numbered.not_before_self (field : Numbered) : ¬field.Before field := by
  intro h
  rcases h field.place [] [] (List.append_nil _).symm (List.append_nil _).symm (by
    simp [Synthesis.elementsAt]) with ⟨hnone, hsome⟩ | ⟨-, hlt⟩
  · cases hsome
  · omega

namespace Synthesis

/-- What is left of the way to elements is a way to elements. -/
theorem exists_elementsAt {keys : List String} {front rest : Path}
    (h : elementsAt keys = front ++ rest) (hne : rest ≠ []) : ∃ more, rest = elementsAt more := by
  obtain ⟨before, last, rfl⟩ := List.eq_nil_or_concat rest |>.resolve_left hne
  rw [elementsAt, List.concat_eq_append, ← List.append_assoc] at h
  obtain ⟨hkeys, hlast⟩ := List.append_inj' h rfl
  obtain ⟨-, more, -, -, rfl⟩ := List.map_eq_append_iff.mp hkeys
  exact ⟨more, by rw [List.concat_eq_append, elementsAt, hlast]⟩

/-- Fields outside every list are written in their order. -/
theorem before_of_outside {field other : Numbered} (hfield : Path.hasEach field.place = false)
    (hother : Path.hasEach other.place = false) (hlt : field.order < other.order) :
    field.Before other := by
  intro front rest rest' hplace hplace' _
  rw [hplace, hasEach_append, Bool.or_eq_false_iff] at hfield
  rw [hplace', hasEach_append, Bool.or_eq_false_iff] at hother
  exact .inr ⟨hfield.2.trans hother.2.symm, hlt⟩

/-- A field outside every list is written before one inside a list. -/
theorem before_of_inside {field other : Numbered} (hfield : Path.hasEach field.place = false)
    (hother : Path.hasEach other.place = true) : field.Before other := by
  intro front rest rest' hplace hplace' _
  rw [hplace, hasEach_append, Bool.or_eq_false_iff] at hfield
  rw [hplace', hasEach_append, hfield.1, Bool.false_or] at hother
  exact .inl ⟨hfield.2, hother⟩

/-- Fields inside different lists are written in their order. -/
theorem before_of_ne {field other : Numbered} {keys others : List String} (hne : keys ≠ others)
    (hfield : elementsAt keys <+: field.place) (hother : elementsAt others <+: other.place)
    (hlt : field.order < other.order) : field.Before other := by
  intro front rest rest' hplace hplace' _
  have hfront : Path.hasEach front = false := by
    by_contra heach
    cases hsplit : splitEach? front with
    | none => exact heach (splitEach?_eq_none_iff.mp hsplit)
    | some split =>
      -- Both are inside the list that the front goes to.
      obtain ⟨ways, inside⟩ := split
      have hleads : elementsAt ways <+: front := ⟨inside, (splitEach?_eq_some hsplit).symm⟩
      have hways : ∀ {place rest : Path} {keys : List String}, place = front ++ rest →
          elementsAt keys <+: place → keys = ways := fun hplace hlead =>
        eq_of_leads hlead (hplace ▸ hleads.trans (List.prefix_append _ _))
      exact hne ((hways hplace hfield).trans (hways hplace' hother).symm)
  have hinside : ∀ {place rest : Path} {keys : List String}, place = front ++ rest →
      elementsAt keys <+: place → Path.hasEach rest = true := by
    rintro _ rest keys hplace ⟨inside, rfl⟩
    have heach := congrArg Path.hasEach hplace
    rw [hasEach_append, hasEach_append, hfront, Bool.false_or] at heach
    rw [← heach]
    simp [elementsAt, Path.hasEach, Segment.isEach]
  exact .inr ⟨(hinside hplace hfield).trans (hinside hplace' hother).symm, hlt⟩

/-- Inside the elements of one list fields are written as in each of the elements. -/
theorem before_within {field other : Numbered} (h : field.Before other) (keys : List String) :
    Numbered.Before { field with place := elementsAt keys ++ field.place }
      { other with place := elementsAt keys ++ other.place } := by
  intro front rest rest' hplace hplace' hdeep
  dsimp only at hplace hplace'
  rcases List.append_eq_append_iff.mp hplace with ⟨more, rfl, hrest⟩ | ⟨more, hkeys, rfl⟩
  · rw [List.append_assoc, List.append_cancel_left_eq] at hplace'
    exact h more rest rest' hrest hplace' hdeep
  · rw [hkeys, List.append_assoc, List.append_cancel_left_eq] at hplace'
    by_cases hmore : more = []
    · subst hmore
      exact h [] _ rest' rfl hplace' hdeep
    · -- Both would go on to the elements of the same list.
      obtain ⟨ways, rfl⟩ := exists_elementsAt hkeys hmore
      exact absurd ⟨_, hplace'⟩ (hdeep ways (List.prefix_append _ _))

end Synthesis

/-! ## Keys of an object level -/

/-- The key under which a place goes on from an object level. -/
def keyAt? (level place : Path) : Option String :=
  match following? level place with
  | some (.field key :: _) => some key
  | _ => none

/-- The keys of an object level in the order in which they first come in some places. -/
def keysAt (level : Path) (places : List Path) : List String :=
  (places.filterMap (keyAt? level)).eraseDups

/-- What the key at a level says of a place. -/
theorem keyAt?_eq_some_iff {level place : Path} {key : String} :
    keyAt? level place = some key ↔ ∃ rest, place = level ++ .field key :: rest := by
  unfold keyAt?
  split
  · rename_i other rest hrest
    rw [following?_eq_some_iff] at hrest
    rw [hrest, Option.some_inj]
    constructor
    · rintro rfl
      exact ⟨rest, rfl⟩
    · rintro ⟨rest', heq⟩
      exact Segment.field.inj (List.cons.inj (List.append_cancel_left heq)).1
  · rename_i hnone
    simp only [reduceCtorEq, false_iff, not_exists]
    rintro rest rfl
    exact hnone key rest (following?_eq_some_iff.mpr rfl)

/-- The keys of a level are those under which places go on from it. -/
theorem mem_keysAt {level : Path} {fields : List Numbered} {key : String} :
    key ∈ keysAt level (fields.map Numbered.place) ↔
      ∃ field ∈ fields, keyAt? level field.place = some key := by
  simp only [keysAt, List.mem_eraseDups, List.filterMap_map, List.mem_filterMap,
    Function.comp_apply]

namespace Numbered

/-- The first field under a key of a level is numbered before all fields under another. -/
def Leads (fields : List Numbered) (level : Path) (key other : String) : Prop :=
  ∃ field ∈ fields, keyAt? level field.place = some key ∧
    ∀ next ∈ fields, keyAt? level next.place = some other → field.order < next.order

instance (fields : List Numbered) (level : Path) (key other : String) :
    Decidable (Leads fields level key other) :=
  inferInstanceAs (Decidable (∃ field ∈ fields, keyAt? level field.place = some key ∧
    ∀ next ∈ fields, keyAt? level next.place = some other → field.order < next.order))

/-- When places are written one after the other, the keys at every object level come in the order of
the first fields below them. -/
def Ascending (fields : List Numbered) (written : List Path) : Prop :=
  ∀ level, (keysAt level written).Pairwise (Leads fields level)

/-- The fields that are outside the lists of a level. -/
def outsideAt (level : Path) (fields : List Numbered) : List Numbered :=
  fields.filter fun field => (following? level field.place).any fun rest => !Path.hasEach rest

/-- At every object level a key with the first field also has the first field outside further lists,
unless the other key has none. -/
def Forward (fields : List Numbered) : Prop :=
  ∀ level key other, Leads fields level key other →
    (∃ field ∈ outsideAt level fields, keyAt? level field.place = some other) →
      Leads (outsideAt level fields) level key other

/-- Of the fields under a key one is first. -/
theorem exists_first {fields : List Numbered} {level : Path} {key : String}
    (h : ∃ field ∈ fields, keyAt? level field.place = some key) :
    ∃ field ∈ fields, keyAt? level field.place = some key ∧
      ∀ next ∈ fields, keyAt? level next.place = some key → field.order ≤ next.order := by
  have hfinite : {field | field ∈ fields ∧ keyAt? level field.place = some key}.Finite :=
    (List.finite_toSet fields).subset fun field hfield => hfield.1
  obtain ⟨field, ⟨hfield, hkey⟩, hfirst⟩ := Set.exists_min_image _ Numbered.order hfinite h
  exact ⟨field, hfield, hkey, fun next hnext hnextKey => hfirst next ⟨hnext, hnextKey⟩⟩

/-- Of two different members of a list one comes first. -/
theorem rel_or_rel {α : Type} {rel : α → α → Prop} {members : List α} (h : members.Pairwise rel)
    {member other : α} (hmember : member ∈ members) (hother : other ∈ members)
    (hne : member ≠ other) : rel member other ∨ rel other member := by
  have hsymm : Std.Symm fun first second => rel first second ∨ rel second first :=
    ⟨fun _ _ => Or.symm⟩
  have heither : members.Pairwise fun first second => rel first second ∨ rel second first :=
    h.imp Or.inl
  exact heither.forall hmember hother hne

/-- Of two keys of a level one has the first field. -/
theorem leads_or_leads {fields : List Numbered}
    (hnumbers : fields.Pairwise fun field next => field.order < next.order) {level : Path}
    {key other : String} (hkey : ∃ field ∈ fields, keyAt? level field.place = some key)
    (hother : ∃ field ∈ fields, keyAt? level field.place = some other) (hne : key ≠ other) :
    Leads fields level key other ∨ Leads fields level other key := by
  obtain ⟨field, hfield, hfieldKey, hfirst⟩ := exists_first hkey
  obtain ⟨twin, htwin, htwinKey, htwinFirst⟩ := exists_first hother
  have hdiffer : field ≠ twin := by
    rintro rfl
    exact hne (Option.some.inj (hfieldKey.symm.trans htwinKey))
  rcases rel_or_rel hnumbers hfield htwin hdiffer with hlt | hlt
  · exact .inl ⟨field, hfield, hfieldKey, fun next hnext hnextKey =>
      lt_of_lt_of_le hlt (htwinFirst next hnext hnextKey)⟩
  · exact .inr ⟨twin, htwin, htwinKey, fun next hnext hnextKey =>
      lt_of_lt_of_le hlt (hfirst next hnext hnextKey)⟩

/-- Two keys do not both lead. -/
theorem Leads.asymm {fields : List Numbered} {level : Path} {key other : String}
    (h : Leads fields level key other) : ¬Leads fields level other key := by
  rintro ⟨twin, htwin, htwinKey, htwinFirst⟩
  obtain ⟨field, hfield, hfieldKey, hfirst⟩ := h
  have hlt := hfirst twin htwin htwinKey
  have hlt' := htwinFirst field hfield hfieldKey
  omega

/-- Of two fields under different keys of a level, the first one written is outside the lists of the
level and the second one is not, or both or none are and it is numbered first. -/
theorem Before.at_level {field other : Numbered} (h : field.Before other) {level : Path}
    {key key' : String} (hne : key ≠ key') {rest rest' : Path}
    (hplace : field.place = level ++ .field key :: rest)
    (hplace' : other.place = level ++ .field key' :: rest') :
    (Path.hasEach rest = false ∧ Path.hasEach rest' = true) ∨
      (Path.hasEach rest = Path.hasEach rest' ∧ field.order < other.order) := by
  have hways : ∀ keys, Synthesis.elementsAt keys <+: .field key :: rest →
      ¬Synthesis.elementsAt keys <+: .field key' :: rest' := by
    intro keys hlead hlead'
    cases keys with
    | nil => simp [Synthesis.elementsAt] at hlead
    | cons name keys =>
      simp only [Synthesis.elementsAt, List.map_cons, List.cons_append, List.cons_prefix_cons,
        Segment.field.injEq] at hlead hlead'
      exact hne (hlead.1.symm.trans hlead'.1)
  simpa [Path.hasEach, Segment.isEach] using h level _ _ hplace hplace' hways

/-- A field under a key is outside the lists of the level when its place goes on without lists. -/
theorem mem_outsideAt {fields : List Numbered} {level : Path} {key : String} {field : Numbered} :
    field ∈ outsideAt level fields ∧ keyAt? level field.place = some key ↔
      field ∈ fields ∧ ∃ rest, field.place = level ++ .field key :: rest ∧
        Path.hasEach rest = false := by
  rw [outsideAt, List.mem_filter, keyAt?_eq_some_iff, and_assoc]
  refine and_congr_right fun _ => ?_
  have hoption : ∀ rest, field.place = level ++ .field key :: rest →
      ((following? level field.place).any (fun rest => !Path.hasEach rest) = true ↔
        Path.hasEach rest = false) := by
    intro rest hplace
    rw [following?_eq_some_iff.mpr hplace, Option.any_some, Bool.not_eq_true']
    simp [Path.hasEach, Segment.isEach]
  constructor
  · rintro ⟨hnone, rest, hplace⟩
    exact ⟨rest, hplace, (hoption rest hplace).mp hnone⟩
  · rintro ⟨rest, hplace, hnone⟩
    exact ⟨(hoption rest hplace).mpr hnone, rest, hplace⟩

/-- The first field under a key of a level is written before all fields under another. -/
def Heads (fields : List Numbered) (level : Path) (key other : String) : Prop :=
  ∃ field ∈ fields, keyAt? level field.place = some key ∧
    ∀ next ∈ fields, keyAt? level next.place = some other → field.Before next

/-- In the order of writing, the keys of a level come in the order in which their first fields are
written. -/
theorem pairwise_heads {fields written : List Numbered} (hperm : written.Perm fields)
    (hbefore : written.Pairwise Before) (level : Path) :
    (keysAt level (written.map Numbered.place)).Pairwise fun key other =>
      key ≠ other ∧ Heads fields level key other := by
  rw [keysAt, List.filterMap_map]
  refine (Synthesis.nodup_eraseDups _).and
    ((Synthesis.pairwise_eraseDups_filterMap hbefore (keyAt? level ∘ Numbered.place)).imp ?_)
  rintro key other ⟨field, hfield, hkey, hfirst⟩
  exact ⟨field, hperm.mem_iff.mp hfield, hkey, fun next hnext =>
    hfirst next (hperm.mem_iff.mpr hnext)⟩

/-- When a key is written first and also has the first field, it has the first field outside further
lists, unless the other key has none. -/
theorem Heads.leads_outsideAt {fields : List Numbered} {level : Path} {key other : String}
    (h : Heads fields level key other) (hne : key ≠ other)
    (hother : ∃ field ∈ outsideAt level fields, keyAt? level field.place = some other) :
    Leads (outsideAt level fields) level key other := by
  obtain ⟨field, hfield, hfieldKey, hfirst⟩ := h
  obtain ⟨rest, hplace⟩ := keyAt?_eq_some_iff.mp hfieldKey
  have hnext : ∀ next ∈ outsideAt level fields, keyAt? level next.place = some other →
      Path.hasEach rest = false ∧ field.order < next.order := by
    intro next hnext hnextKey
    obtain ⟨hnext, rest', hplace', hnone⟩ := mem_outsideAt.mp ⟨hnext, hnextKey⟩
    rcases (hfirst next hnext hnextKey).at_level hne hplace hplace' with
      ⟨-, hsome⟩ | ⟨hsame, hlt⟩
    · rw [hnone] at hsome
      cases hsome
    · exact ⟨hsame.trans hnone, hlt⟩
  obtain ⟨twin, htwin, htwinKey⟩ := hother
  have hnone := (hnext twin htwin htwinKey).1
  obtain ⟨houtside, hkey⟩ := mem_outsideAt.mpr ⟨hfield, rest, hplace, hnone⟩
  exact ⟨field, houtside, hkey, fun next hin hnextKey => (hnext next hin hnextKey).2⟩

/-- When a key is written first and has no field outside further lists, it has the first field. -/
theorem Heads.leads {fields : List Numbered} {level : Path} {key other : String}
    (h : Heads fields level key other) (hne : key ≠ other)
    (hnone : ¬∃ field ∈ outsideAt level fields, keyAt? level field.place = some key) :
    Leads fields level key other := by
  obtain ⟨field, hfield, hfieldKey, hfirst⟩ := h
  obtain ⟨rest, hplace⟩ := keyAt?_eq_some_iff.mp hfieldKey
  refine ⟨field, hfield, hfieldKey, fun next hnext hnextKey => ?_⟩
  obtain ⟨rest', hplace'⟩ := keyAt?_eq_some_iff.mp hnextKey
  rcases (hfirst next hnext hnextKey).at_level hne hplace hplace' with ⟨houtside, -⟩ | ⟨-, hlt⟩
  · exact absurd ⟨field, mem_outsideAt.mpr ⟨hfield, rest, hplace, houtside⟩⟩ hnone
  · exact hlt

/-- In the order of writing, keys come in the order of the first fields below them exactly when the
first fields outside the lists of each level already put them in this order. -/
theorem ascending_iff {fields written : List Numbered} (hperm : written.Perm fields)
    (hbefore : written.Pairwise Before)
    (hnumbers : fields.Pairwise fun field next => field.order < next.order) :
    Ascending fields (written.map Numbered.place) ↔ Forward fields := by
  have hkeys : ∀ level key, key ∈ keysAt level (written.map Numbered.place) ↔
      ∃ field ∈ fields, keyAt? level field.place = some key := by
    intro level key
    simp only [mem_keysAt, hperm.mem_iff]
  constructor
  · intro h level key other hleads hother
    have hne : key ≠ other := by
      rintro rfl
      exact hleads.asymm hleads
    have hkey : key ∈ keysAt level (written.map Numbered.place) := by
      obtain ⟨field, hfield, hfieldKey, -⟩ := hleads
      exact (hkeys level key).mpr ⟨field, hfield, hfieldKey⟩
    have hotherKey : other ∈ keysAt level (written.map Numbered.place) := by
      obtain ⟨twin, htwin, htwinKey⟩ := hother
      exact (hkeys level other).mpr ⟨twin, (mem_outsideAt.mp ⟨htwin, htwinKey⟩).1, htwinKey⟩
    rcases rel_or_rel ((pairwise_heads hperm hbefore level).and (h level)) hkey hotherKey hne with
      ⟨⟨-, hheads⟩, -⟩ | ⟨-, hbehind⟩
    · exact hheads.leads_outsideAt hne hother
    · exact absurd hbehind hleads.asymm
  · intro h level
    refine (pairwise_heads hperm hbefore level).imp_of_mem ?_
    rintro key other hkey hother ⟨hne, hheads⟩
    by_cases hnone : ∃ field ∈ outsideAt level fields, keyAt? level field.place = some key
    · rcases leads_or_leads hnumbers ((hkeys level key).mp hkey) ((hkeys level other).mp hother)
        hne with hleads | hleads
      · exact hleads
      · -- The other key would have the first field outside further lists, so be written first.
        have hbehind := h level other key hleads hnone
        have hother : ∃ field ∈ outsideAt level fields, keyAt? level field.place = some other := by
          obtain ⟨twin, htwin, htwinKey, -⟩ := hbehind
          exact ⟨twin, htwin, htwinKey⟩
        exact absurd hbehind (hheads.leads_outsideAt hne hother).asymm
    · exact hheads.leads hne hnone

/-- When the fields are written in the order of their numbers, the first fields outside the lists of
each level put its keys in the order of the first fields. -/
theorem forward_of_before {fields : List Numbered} (hbefore : fields.Pairwise Before)
    (hnumbers : fields.Pairwise fun field next => field.order < next.order) : Forward fields := by
  refine (ascending_iff (.refl _) hbefore hnumbers).mp fun level => ?_
  rw [keysAt, List.filterMap_map]
  exact Synthesis.pairwise_eraseDups_filterMap hnumbers (keyAt? level ∘ Numbered.place)

end Numbered

end Projector
