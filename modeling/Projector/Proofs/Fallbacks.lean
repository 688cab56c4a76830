import Mathlib
import Projector.Proofs.CanonicalAddresses
import Projector.Proofs.EmittedSites
import Projector.Proofs.EmittedTexts
import Projector.Proofs.Iterations
import Projector.Proofs.Selections

/-!
# When lists may be left out

An entry that leaves its lists out leaves it to the others to tell where they live, and when none
does, each list is taken to live at the same keys inside the one around it. Filling in the lists at
the places where the entry is shown makes the entry tell itself. This changes the query exactly when
some list is taken to live elsewhere than where it is shown and the entry is now the first one to
tell of it.
-/

namespace Projector

namespace Synthesis

/-- A field, with its lists filled in at the places where it is shown when it is chosen for that and
has left them out. -/
def Item.refill (choice : Item × Bool) : Item :=
  if choice.2 = true ∧ choice.1.arrays = [] then
    { choice.1 with arrays := Path.lists [] choice.1.rest }
  else choice.1

/-- A chosen field that has left out the list at a path. -/
structure FillsIn (choice : Item × Bool) (place : Path) : Prop where
  chosen : choice.2 = true
  arrays : choice.1.arrays = []
  inside : place ++ [.each] <+: choice.1.rest

/-- Filling in lists changes nothing but the lists. -/
theorem bare_refill (choice : Item × Bool) : (Item.refill choice).bare = choice.1.bare := by
  unfold Item.refill
  split
  · rfl
  · rfl

/-- A field that is filled in tells that a list lives where it is shown. -/
theorem FillsIn.tells {choice : Item × Bool} {place : Path} (h : FillsIn choice place) :
    choice.1.tells place = none ∧ (Item.refill choice).tells place = some place := by
  have hrefill : Item.refill choice = { choice.1 with arrays := Path.lists [] choice.1.rest } :=
    if_pos ⟨h.chosen, h.arrays⟩
  rw [hrefill, Item.tells, Item.tells, if_pos h.inside, if_pos h.inside, h.arrays,
    getElem?_lists [] h.inside]
  exact ⟨rfl, rfl⟩

/-- A field tells what it told, unless it is filled in. -/
theorem tells_refill (choice : Item × Bool) (place : Path) :
    (Item.refill choice).tells place = choice.1.tells place ∨ FillsIn choice place := by
  by_cases hchoice : choice.2 = true ∧ choice.1.arrays = []
  · by_cases hinside : place ++ [.each] <+: choice.1.rest
    · exact .inr ⟨hchoice.1, hchoice.2, hinside⟩
    · have hrefill : Item.refill choice =
          { choice.1 with arrays := Path.lists [] choice.1.rest } := if_pos hchoice
      left
      rw [hrefill, Item.tells, Item.tells, if_neg hinside, if_neg hinside]
  · left
    rw [Item.refill, if_neg hchoice]

/-- A field that tells nothing once it is filled in has told nothing. -/
theorem tells_of_refill {choice : Item × Bool} {place : Path}
    (h : (Item.refill choice).tells place = none) : choice.1.tells place = none := by
  rcases tells_refill choice place with heq | hfills
  · rw [← heq, h]
  · exact hfills.tells.1

/-- The first field that tells of a list is one that is filled in. -/
def FilledFirst (choices : List (Item × Bool)) (place : Path) : Prop :=
  ∃ front choice back, choices = front ++ choice :: back ∧ FillsIn choice place ∧
    ∀ other ∈ front, other.1.tells place = none

/-- A list is then told to live where it is shown. -/
theorem FilledFirst.told {choices : List (Item × Bool)} {place : Path}
    (h : FilledFirst choices place) : told (choices.map Item.refill) place = some place := by
  obtain ⟨front, choice, back, rfl, hfills, hfront⟩ := h
  induction front with
  | nil => simp [Synthesis.told, hfills.tells.2]
  | cons other front ih =>
    have hrest := ih fun another hmem => hfront another (List.mem_cons_of_mem _ hmem)
    rw [List.cons_append, List.map_cons, Synthesis.told, List.findSome?_cons]
    rcases tells_refill other place with heq | hother
    · rw [heq, hfront other List.mem_cons_self]
      exact hrest
    · rw [hother.tells.2]

/-- Otherwise the fields tell what they told. -/
theorem told_refill (choices : List (Item × Bool)) (place : Path) :
    told (choices.map Item.refill) place = told (choices.map Prod.fst) place ∨
      FilledFirst choices place := by
  cases htold : told (choices.map Item.refill) place with
  | none =>
    left
    rw [told, List.findSome?_eq_none_iff, List.forall_mem_map] at htold
    refine (List.findSome?_eq_none_iff.mpr (List.forall_mem_map.mpr fun choice hchoice => ?_)).symm
    exact tells_of_refill (htold choice hchoice)
  | some list =>
    rw [told, List.findSome?_map, List.findSome?_eq_some_iff] at htold
    obtain ⟨front, choice, back, rfl, hchoice, hfront⟩ := htold
    have hnone : ∀ other ∈ front, other.1.tells place = none :=
      fun other hother => tells_of_refill (hfront other hother)
    rcases tells_refill choice place with heq | hfills
    · left
      rw [Function.comp_apply, heq] at hchoice
      rw [told, List.findSome?_map]
      exact (List.findSome?_eq_some_iff.mpr ⟨front, choice, back, rfl, hchoice, hnone⟩).symm
    · exact .inr ⟨front, choice, back, rfl, hfills, hnone⟩

/-! ## When the homes of lists stay the same -/

/-- Every list of which a filled in field is the first one to tell is taken to live where it is
shown. -/
def Undisputed (choices : List (Item × Bool)) : Prop :=
  ∀ place, FilledFirst choices place → livesAt (choices.map Prod.fst) [] place = place

/-- Filling in fields leaves all lists where they are exactly when those of which a filled in field
is the first one to tell are where they are shown. -/
theorem undisputed_iff (choices : List (Item × Bool)) :
    Undisputed choices ↔ ∀ place,
      (∃ item ∈ choices.map Prod.fst, place ++ [.each] <+: item.rest) →
        livesAt (choices.map Item.refill) [] place = livesAt (choices.map Prod.fst) [] place := by
  constructor
  · intro h place _
    refine livesAlong_congr fun front _ => ?_
    rcases told_refill choices ([] ++ front) with htold | hfirst
    · exact .inl htold
    · exact .inr ((livesAlong_of_told [] hfirst.told).trans (h front hfirst).symm)
  · intro h place hfirst
    have hfilled : livesAt (choices.map Item.refill) [] place = place :=
      livesAlong_of_told [] hfirst.told
    obtain ⟨front, choice, back, rfl, hfills, -⟩ := hfirst
    rw [← h place ⟨choice.1, by simp, hfills.inside⟩]
    exact hfilled

/-! ## When the query stays the same -/

/-- Reads in one scope are different when they read from different places. -/
theorem locate_inj {config : Config} {scope : Scope} {shown source other : Path}
    (h : locate config scope shown source = locate config scope shown other) : source = other := by
  have htarget := target?_locate config scope shown other
  rw [← h, target?_locate] at htarget
  exact Option.some.inj htarget

/-- Fields inside the same lists make different queries when they take one of them to live at
different places. -/
theorem livesAt_of_emit_eq (config : Config) {items others : List Item} (scope : Scope)
    (hemit : emit config scope items = emit config scope others) {place : Path}
    (hitems : ∃ item ∈ items, place ++ [.each] <+: item.rest)
    (hothers : ∃ item ∈ others, place ++ [.each] <+: item.rest) :
    livesAt items scope.base place = livesAt others scope.base place := by
  induction hlength : place.length using Nat.strongRecOn generalizing place with
  | _ length ih =>
    have hiterations := iterationsAt_emit config scope hitems
    rw [hemit, iterationsAt_emit config scope hothers] at hiterations
    have haround : scope.around items place = scope.around others place := by
      unfold Scope.around
      cases hlast : (Path.lists [] place).getLast? with
      | none => rfl
      | some outer =>
        have houter : outer ++ [.each] <+: place := by
          obtain ⟨front, rfl, hfront⟩ := mem_lists.mp (List.mem_of_getLast? hlast)
          exact hfront
        have hshorter : outer.length < length := by
          have hle := houter.length_le
          rw [List.length_append, List.length_singleton] at hle
          omega
        have hdeeper : outer ++ [.each] <+: place ++ [.each] :=
          houter.trans (List.prefix_append _ _)
        obtain ⟨item, hitem, hinside⟩ := hitems
        obtain ⟨other, hother, hotherInside⟩ := hothers
        have hlives := ih outer.length hshorter ⟨item, hitem, hdeeper.trans hinside⟩
          ⟨other, hother, hdeeper.trans hotherInside⟩ rfl
        simp only [hlives]
    rw [haround] at hiterations
    have hlocate := locate_inj (List.cons.inj hiterations).1
    exact (List.append_cancel_right hlocate).symm

/-- Filling in lists keeps what is made of the fields exactly when no list that it tells of is taken
to live elsewhere. -/
theorem emit_refill_iff (config : Config) (choices : List (Item × Bool)) :
    emit config .document (choices.map Item.refill) =
      emit config .document (choices.map Prod.fst) ↔ Undisputed choices := by
  have hbare : (choices.map Item.refill).map Item.bare = (choices.map Prod.fst).map Item.bare := by
    rw [List.map_map, List.map_map]
    exact List.map_congr_left fun choice _ => bare_refill choice
  have hrest : ∀ choice : Item × Bool, (Item.refill choice).rest = choice.1.rest := by
    intro choice
    have hsame := congrArg Item.rest (bare_refill choice)
    exact hsame
  have hinside : ∀ place, (∃ item ∈ choices.map Item.refill, place ++ [.each] <+: item.rest) ↔
      ∃ item ∈ choices.map Prod.fst, place ++ [.each] <+: item.rest := by
    intro place
    simp only [List.mem_map, exists_exists_and_eq_and, hrest]
  rw [undisputed_iff]
  constructor
  · intro hemit place hplace
    exact livesAt_of_emit_eq config .document hemit ((hinside place).mpr hplace) hplace
  · intro hlives
    exact emit_congr config .document hbare fun place hplace =>
      hlives place ((hinside place).mp hplace)

/-- The same holds of the query, as filling in lists relocates no field. -/
theorem ofItems_refill_iff (config : Config) (choices : List (Item × Bool)) :
    ofItems config (choices.map Item.refill) = ofItems config (choices.map Prod.fst) ↔
      Undisputed choices := by
  have hrelocated : (choices.map Item.refill).any Item.isRelocated =
      (choices.map Prod.fst).any Item.isRelocated := by
    rw [List.any_map, List.any_map]
    refine congrArg choices.any (funext fun choice => ?_)
    have hsame := congrArg Item.isRelocated (bare_refill choice)
    exact hsame
  rw [← emit_refill_iff config]
  unfold ofItems
  simp only [List.isEmpty_map, hrelocated]
  cases hempty : choices.isEmpty with
  | true =>
    rw [List.isEmpty_iff.mp hempty]
    simp
  | false =>
    cases (choices.map Prod.fst).any Item.isRelocated with
    | false => simp
    | true => simp

/-- The same holds of the text of the query, as different queries have different texts. -/
theorem render_refill_iff (config : Config) (choices : List (Item × Bool)) :
    (ofItems config (choices.map Item.refill)).render =
      (ofItems config (choices.map Prod.fst)).render ↔ Undisputed choices := by
  rw [← ofItems_refill_iff config]
  exact ⟨render_ofItems_inj, congrArg Query.render⟩

end Synthesis

/-! ## Entries that leave their lists out -/

/-- The addresses of the lists on the way to where an entry is shown. -/
def Entry.ownArrays (entry : Entry) : List String :=
  match Address.parse entry.display with
  | .ok path => (Path.lists [] path).map Path.address
  | .error _ => []

/-- An entry, with the lists on the way to where it is shown when it is chosen for that and has left
them out. -/
def Entry.refill (choice : Entry × Bool) : Entry :=
  if choice.2 = true ∧ choice.1.arrays = [] then
    { choice.1 with arrays := choice.1.ownArrays }
  else choice.1

namespace Synthesis

/-- Some entries as synthesis reads them, in order, each with whether it is chosen. -/
def readChoices (choices : List (Entry × Bool)) :
    Except Address.Fault (List (Item × Bool)) :=
  (Trie.sortByOrder (fun choice => choice.1.order) choices).mapM fun choice =>
    (Item.ofEntry choice.1).map fun item => (item, choice.2)

/-- What is read from an entry. -/
theorem ofEntry_eq_ok_iff {entry : Entry} {item : Item} : Item.ofEntry entry = .ok item ↔
    Address.parse entry.display = .ok item.rest ∧ Address.parse entry.source = .ok item.source ∧
      entry.order = item.order ∧ entry.arrays.mapM Address.parse = .ok item.arrays := by
  unfold Item.ofEntry
  cases Address.parse entry.display with
  | error fault => simp [bind, Except.bind]
  | ok rest =>
    cases Address.parse entry.source with
    | error fault => simp [bind, Except.bind]
    | ok source =>
      cases entry.arrays.mapM Address.parse with
      | error fault => simp [bind, Except.bind]
      | ok arrays =>
        cases item
        simp [bind, Except.bind]

/-- Only no addresses are read as no lists. -/
theorem eq_nil_of_mapM_parse {addresses : List String}
    (h : addresses.mapM Address.parse = .ok []) : addresses = [] := by
  cases addresses with
  | nil => rfl
  | cons address rest =>
    obtain ⟨_, _, -, -, hcons⟩ := exists_of_mapM_cons h
    cases hcons

/-- Lists are read back from their addresses. -/
theorem mapM_parse_address (lists : List Path) :
    (lists.map Path.address).mapM Address.parse = .ok lists := by
  rw [List.mapM_map]
  exact (mapM_eq_ok fun list _ => Address.parse_address list).trans (by rw [List.map_id'])

/-- Filling in the lists of an entry fills in those of its item. -/
theorem ofEntry_refill (choice : Entry × Bool) : Item.ofEntry (Entry.refill choice) =
    ((Item.ofEntry choice.1).map fun item => (item, choice.2)).map Item.refill := by
  obtain ⟨entry, chosen⟩ := choice
  by_cases hchoice : chosen = true ∧ entry.arrays = []
  · have hrefill : Entry.refill (entry, chosen) = { entry with arrays := entry.ownArrays } :=
      if_pos hchoice
    obtain ⟨rfl, hnone⟩ := hchoice
    rw [hrefill, Item.ofEntry, Item.ofEntry, Entry.ownArrays, hnone]
    cases Address.parse entry.display with
    | error fault => rfl
    | ok rest =>
      simp only [mapM_parse_address]
      cases Address.parse entry.source <;> rfl
  · have hrefill : Entry.refill (entry, chosen) = entry := if_neg hchoice
    rw [hrefill]
    cases hread : Item.ofEntry entry with
    | error fault => rfl
    | ok item =>
      have harrays := (ofEntry_eq_ok_iff.mp hread).2.2.2
      have hitem : Item.refill (item, chosen) = item := if_neg fun hsame =>
        hchoice ⟨hsame.1, eq_nil_of_mapM_parse (harrays.trans (congrArg Except.ok hsame.2))⟩
      exact congrArg Except.ok hitem.symm

/-- The query of chosen entries is that of what is read, and filling in the lists of the entries
fills in those of their items. -/
theorem query_readChoices (config : Config) (choices : List (Entry × Bool)) :
    query config (choices.map Prod.fst) =
        (readChoices choices).map (fun items => ofItems config (items.map Prod.fst)) ∧
      query config (choices.map Entry.refill) =
        (readChoices choices).map (fun items => ofItems config (items.map Item.refill)) := by
  have horder : ∀ choice : Entry × Bool, (Entry.refill choice).order = choice.1.order := by
    intro choice
    unfold Entry.refill
    split
    · rfl
    · rfl
  have hkept : ∀ choice : Entry × Bool, Item.ofEntry choice.1 =
      ((Item.ofEntry choice.1).map fun item => (item, choice.2)).map Prod.fst := by
    intro choice
    cases Item.ofEntry choice.1 <;> rfl
  rw [query, query, Trie.sortByOrder_map Prod.fst (fun _ => rfl), Trie.sortByOrder_map Entry.refill horder,
    mapM_map_eq_map hkept, mapM_map_eq_map ofEntry_refill, ← readChoices]
  constructor
  · cases readChoices choices <;> rfl
  · cases readChoices choices <;> rfl

/-- When no field tells of a list elsewhere than where it is shown, nothing is disputed. -/
theorem undisputed_of_tells {choices : List (Item × Bool)}
    (h : ∀ choice ∈ choices, ∀ place list, choice.1.tells place = some list → list = place) :
    Undisputed choices := by
  refine fun place _ => livesAlong_self (fun shown list htold => ?_) [] place
  obtain ⟨item, hitem, htells⟩ := List.exists_of_findSome?_eq_some htold
  obtain ⟨choice, hchoice, rfl⟩ := List.mem_map.mp hitem
  exact h choice hchoice shown list htells

/-- An entry that leaves its lists out, or gives those on the way to where it is shown, is read as
such an item. -/
theorem arrays_of_ofEntry {entry : Entry} {item : Item} (hread : Item.ofEntry entry = .ok item)
    (h : entry.arrays = [] ∨ entry.arrays = entry.ownArrays) :
    item.arrays = [] ∨ item.arrays = Path.lists [] item.rest := by
  obtain ⟨hrest, -, -, harrays⟩ := ofEntry_eq_ok_iff.mp hread
  rcases h with hnone | hown
  · left
    rw [hnone] at harrays
    exact (Except.ok.inj harrays).symm
  · right
    rw [hown, Entry.ownArrays, hrest] at harrays
    exact Except.ok.inj (harrays.symm.trans (mapM_parse_address _))

/-- Such an item tells of no list that it lives elsewhere than where it is shown. -/
theorem eq_of_tells {item : Item} (h : item.arrays = [] ∨ item.arrays = Path.lists [] item.rest)
    {place list : Path} (htells : item.tells place = some list) : list = place := by
  rw [Item.tells] at htells
  split at htells
  · rename_i hinside
    rcases h with hnone | hown
    · rw [hnone] at htells
      cases htells
    · rw [hown, getElem?_lists [] hinside] at htells
      exact (Option.some.inj htells).symm
  · cases htells

/-- What is read from entries that leave their lists out or give those on the way to where they are
shown is not disputed. -/
theorem undisputed_readChoices {choices : List (Entry × Bool)} {items : List (Item × Bool)}
    (hread : readChoices choices = .ok items)
    (h : ∀ choice ∈ choices, choice.1.arrays = [] ∨ choice.1.arrays = choice.1.ownArrays) :
    Undisputed items := by
  refine undisputed_of_tells fun item hitem place list htells => ?_
  obtain ⟨choice, hchoice, hfield⟩ := exists_of_mem_mapM hread hitem
  have hown := h choice (Trie.mem_sortByOrder.mp hchoice)
  cases hof : Item.ofEntry choice.1 with
  | error fault =>
    rw [hof] at hfield
    cases hfield
  | ok field =>
    rw [hof] at hfield
    obtain rfl := Except.ok.inj hfield
    exact eq_of_tells (arrays_of_ofEntry hof hown) htells

end Synthesis

/-- Filling in the lists that some entries leave out keeps the expression exactly when every list of
which such an entry is then the first one to tell was taken to live where it is shown. So it does
when no entry gives other lists than those on the way to where it is shown. -/
theorem expression_refill_iff (config : Config) (choices : List (Entry × Bool)) :
    (Synthesis.expression config (choices.map Entry.refill) =
        Synthesis.expression config (choices.map Prod.fst) ↔
      ∀ items, Synthesis.readChoices choices = .ok items → Synthesis.Undisputed items) ∧
    ((∀ choice ∈ choices, choice.1.arrays = [] ∨ choice.1.arrays = choice.1.ownArrays) →
      Synthesis.expression config (choices.map Entry.refill) =
        Synthesis.expression config (choices.map Prod.fst)) := by
  have hiff : Synthesis.expression config (choices.map Entry.refill) =
      Synthesis.expression config (choices.map Prod.fst) ↔
        ∀ items, Synthesis.readChoices choices = .ok items → Synthesis.Undisputed items := by
    obtain ⟨hkept, hfilled⟩ := Synthesis.query_readChoices config choices
    rw [Synthesis.expression, Synthesis.expression, hkept, hfilled]
    cases Synthesis.readChoices choices with
    | error fault =>
      refine iff_of_true rfl fun items hread => ?_
      cases hread
    | ok items =>
      simp only [Except.map, Except.ok.injEq, forall_eq']
      exact Synthesis.render_refill_iff config items
  exact ⟨hiff, fun hown => hiff.mpr fun items hread =>
    Synthesis.undisputed_readChoices hread hown⟩

/-- Entries of fields in a list and in a list inside it, of which the first one leaves its list out
and is chosen. -/
def halfTold : List (Entry × Bool) :=
  [(⟨"$.a[].y", "$.a[].y", "y", 0, []⟩, true),
    (⟨"$.a[].b[].x", "$.c", "x", 1, ["$.a", "$.a[].b"]⟩, false)]

/-- The expression of these entries. -/
def halfToldText : String :=
  ". as $root | \x7ba: [.a[] | \x7by: .y\x7d * \x7bb: [.b[] | \x7bx: $root.c\x7d]\x7d]\x7d"

/-- Filling in the list keeps their expression. -/
theorem expression_refill_iff_halfTold :
    (∀ choice ∈ halfTold, choice.1.arrays = [] ∨ choice.1.arrays = choice.1.ownArrays) ∧
    (halfTold.map Entry.refill).map Entry.arrays = [["$.a"], ["$.a", "$.a[].b"]] ∧
    Synthesis.expression .standard (halfTold.map Prod.fst) = .ok halfToldText ∧
    Synthesis.expression .standard (halfTold.map Entry.refill) = .ok halfToldText := by
  have hown : ∀ choice ∈ halfTold,
      choice.1.arrays = [] ∨ choice.1.arrays = choice.1.ownArrays := by
    decide +kernel
  have hkept : Synthesis.expression .standard (halfTold.map Prod.fst) = .ok halfToldText := by
    cbv
  exact ⟨hown, by decide +kernel, hkept,
    ((expression_refill_iff .standard halfTold).2 hown).trans hkept⟩

/-- Entries of fields in a list that lives elsewhere than where it is shown, and in a list inside
it. The second one leaves its lists out and is chosen. -/
def movedList : List (Entry × Bool) :=
  [(⟨"$.a[].y", "$.c[].y", "y", 0, ["$.c"]⟩, false),
    (⟨"$.a[].b[].x", "$.c[].b[].x", "x", 1, []⟩, true)]

/-- The list inside is taken to live in the elements of the one around it, wherever that lives.
Once it is filled in it is the list where the field is shown, so the expression changes. -/
theorem ne_expression_movedList :
    (∀ choice ∈ movedList, Address.canonical choice.1.display = .ok choice.1.display ∧
      Address.canonical choice.1.source = .ok choice.1.source) ∧
    (movedList.map Entry.refill).map Entry.arrays = [["$.c"], ["$.a", "$.a[].b"]] ∧
    Synthesis.expression .standard (movedList.map Prod.fst) =
      .ok (". as $root | \x7ba: [$root.c[] | \x7by: .y\x7d * " ++
        "\x7bb: [.b[] | \x7bx: .x\x7d]\x7d]\x7d") ∧
    Synthesis.expression .standard (movedList.map Entry.refill) =
      .ok (". as $root | \x7ba: [$root.c[] | \x7by: .y\x7d * " ++
        "\x7bb: [$root.a[].b[] | \x7bx: $root.c[].b[].x\x7d]\x7d]\x7d") ∧
    Synthesis.expression .standard (movedList.map Entry.refill) ≠
      Synthesis.expression .standard (movedList.map Prod.fst) := by
  have hkept : Synthesis.expression .standard (movedList.map Prod.fst) =
      .ok (". as $root | \x7ba: [$root.c[] | \x7by: .y\x7d * " ++
        "\x7bb: [.b[] | \x7bx: .x\x7d]\x7d]\x7d") := by
    cbv
  have hfilled : Synthesis.expression .standard (movedList.map Entry.refill) =
      .ok (". as $root | \x7ba: [$root.c[] | \x7by: .y\x7d * " ++
        "\x7bb: [$root.a[].b[] | \x7bx: $root.c[].b[].x\x7d]\x7d]\x7d") := by
    cbv
  refine ⟨by decide +kernel, by decide +kernel, hkept, hfilled, ?_⟩
  rw [hkept, hfilled]
  decide

end Projector
