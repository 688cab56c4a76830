import Projector.Proofs.ListHomes

/-!
# What list constructions run through

A query builds its output from object constructions and list constructions, so every list of the
output stands at a path of keys and steps to elements. Read off the query at such a path, the query
of some fields has exactly one list construction there when a field is shown inside a list at this
path, and what it runs through depends on where that list and the list around it are taken to live.
-/

namespace Projector

namespace Query

mutual

/-- What the list constructions at a path of the output run through. -/
def iterationsAt : Query → Path → List Query
  | .collect (.pipe run _), [] => [run]
  | .collect (.pipe _ body), .each :: inside => iterationsAt body inside
  | .object entries, .field name :: rest => entryIterationsAt entries name rest
  | .times left right, place => iterationsAt left place ++ iterationsAt right place
  | .bind _ body, place => iterationsAt body place
  | _, _ => []

/-- What the list constructions at a path behind one of the keys run through. -/
def entryIterationsAt : List (String × Query) → String → Path → List Query
  | [], _, _ => []
  | (key, value) :: rest, name, place =>
    (if key = name then iterationsAt value place else []) ++ entryIterationsAt rest name place

end

/-- A query without list constructions at any path of its output. -/
def Listless (query : Query) : Prop := ∀ place, query.iterationsAt place = []

/-- What is read is taken as it is. -/
theorem listless_read {base : Query} (h : base.Listless) (path : Path) :
    (read base path).Listless := by
  induction path generalizing base with
  | nil => exact h
  | cons segment path ih => exact ih fun place => by simp [iterationsAt]

/-- An object construction of values without lists is without lists. -/
theorem listless_object {entries : List (String × Query)}
    (h : ∀ entry ∈ entries, entry.2.Listless) : (object entries).Listless := by
  intro place
  cases place with
  | nil => rfl
  | cons segment rest =>
    cases segment with
    | each => rfl
    | field name =>
      rw [iterationsAt]
      induction entries with
      | nil => rfl
      | cons entry entries ih =>
        obtain ⟨key, value⟩ := entry
        rw [entryIterationsAt, ih fun other hother => h other (by simp [hother]),
          h (key, value) (by simp) rest]
        simp

/-- The list constructions of a product are those of its pieces. -/
theorem iterationsAt_product (pieces : List Query) (place : Path) :
    (product pieces).iterationsAt place = pieces.flatMap fun piece => piece.iterationsAt place := by
  cases pieces with
  | nil => rfl
  | cons first rest =>
    have hfold : ∀ left : Query, (rest.foldl times left).iterationsAt place =
        left.iterationsAt place ++ rest.flatMap fun piece => piece.iterationsAt place := by
      induction rest with
      | nil => simp
      | cons piece rest ih =>
        intro left
        rw [List.foldl_cons, ih, iterationsAt, List.append_assoc, List.flatMap_cons]
    rw [product, hfold, List.flatMap_cons]

end Query

namespace Synthesis

/-- What lives somewhere is read, without a list construction. -/
theorem listless_locate (config : Config) (scope : Scope) (shown source : Path) :
    (locate config scope shown source).Listless := by
  have hinput : Query.input.Listless := fun place => rfl
  have hroot : (absolute config source).Listless := Query.listless_read (fun place => rfl) source
  unfold locate
  split
  · split
    · exact Query.listless_read hinput source
    · exact hroot
  · split
    · exact Query.listless_read hinput _
    · exact hroot

/-- The object construction of the fields outside every list has no lists. -/
theorem listless_plains {config : Config} {scope : Scope} {items : List Item} {piece : Query}
    (hpiece : piece ∈ plains config scope items) : piece.Listless :=
  forall_plains (fun _ => Query.listless_object)
    (fun item _ => listless_locate config scope item.rest item.source) piece hpiece

/-- Behind some keys stands what is wrapped in them. -/
theorem iterationsAt_wrap (keys : List String) (query : Query) (place : Path) :
    (wrap keys query).iterationsAt place =
      ((following? (keys.map .field) place).map query.iterationsAt).getD [] := by
  induction keys generalizing place with
  | nil => rfl
  | cons key keys ih =>
    have hwrap : wrap (key :: keys) query = .object [(key, wrap keys query)] := rfl
    rw [hwrap]
    cases place with
    | nil => rfl
    | cons segment place =>
      cases segment with
      | each => rfl
      | field name =>
        rw [Query.iterationsAt, Query.entryIterationsAt, Query.entryIterationsAt, List.append_nil,
          ih, List.map_cons, following?]
        by_cases hname : key = name
        · simp [hname]
        · simp [hname]

/-- Keys are told apart from other keys by a path that goes on with no key behind them. -/
theorem keys_of_append {keys others : List String} {rest tail : Path}
    (hrest : ∀ name path, rest ≠ .field name :: path)
    (htail : ∀ name path, tail ≠ .field name :: path)
    (h : others.map Segment.field ++ rest = keys.map .field ++ tail) : others = keys := by
  induction keys generalizing others with
  | nil =>
    cases others with
    | nil => rfl
    | cons other others => exact absurd h.symm (htail other _)
  | cons key keys ih =>
    cases others with
    | nil => exact absurd h (hrest key _)
    | cons other others =>
      obtain ⟨hkey, hothers⟩ := List.cons.inj h
      rw [Segment.field.inj hkey, ih hothers]

/-- The list constructions at a way to a list and inside this list are those of the piece for this
way. -/
theorem iterationsAt_emit_way (config : Config) (scope : Scope) {items : List Item}
    {keys : List String} (hkeys : keys ∈ Group.keyses items) {tail : Path}
    (htail : ∀ name path, tail ≠ .field name :: path) :
    (emit config scope items).iterationsAt (keys.map .field ++ tail) =
      (Query.collect (.pipe (locate config scope (elementsAt keys)
          (livesAt items scope.base (keys.map .field) ++ [.each]))
        (emit config (.element (livesAt items scope.base (keys.map .field) ++ [.each]))
          (Group.ofKeys items keys).members))).iterationsAt tail := by
  have hwholes : (wholes config scope items).flatMap
      (fun piece => piece.iterationsAt (keys.map .field ++ tail)) = [] := by
    refine List.flatMap_eq_nil_iff.mpr fun piece hpiece => ?_
    obtain ⟨item, -, rfl⟩ := List.mem_map.mp hpiece
    exact listless_locate config scope _ _ _
  have hplains : (plains config scope items).flatMap
      (fun piece => piece.iterationsAt (keys.map .field ++ tail)) = [] :=
    List.flatMap_eq_nil_iff.mpr fun piece hpiece => listless_plains hpiece _
  have hother : ∀ others, others ≠ keys →
      (listQuery config scope others (livesAt items scope.base (others.map .field))
        (Group.ofKeys items others).members).iterationsAt (keys.map .field ++ tail) = [] := by
    intro others hne
    rw [listQuery, iterationsAt_wrap]
    cases hrest : following? (others.map Segment.field) (keys.map .field ++ tail) with
    | none => rfl
    | some rest =>
      have hplace := (following?_eq_some_iff.mp hrest).symm
      cases rest with
      | nil => exact absurd (keys_of_append (by simp) htail hplace) hne
      | cons segment rest =>
        cases segment with
        | each => exact absurd (keys_of_append (by simp) htail hplace) hne
        | field name => rfl
  have hself : following? (keys.map Segment.field) (keys.map .field ++ tail) = some tail :=
    following?_eq_some_iff.mpr rfl
  obtain ⟨front, back, hsplit⟩ := List.append_of_mem hkeys
  have hnodup : (Group.keyses items).Nodup := nodup_eraseDups _
  rw [hsplit, List.nodup_append, List.nodup_cons] at hnodup
  obtain ⟨-, ⟨hback, -⟩, hfront⟩ := hnodup
  rw [emit_eq_livesAt, Query.iterationsAt_product, List.flatMap_append, List.flatMap_append,
    hwholes, hplains, hsplit, List.flatMap_map, List.flatMap_append, List.flatMap_cons,
    List.flatMap_eq_nil_iff.mpr fun others hmem =>
      hother others (hfront others hmem keys List.mem_cons_self),
    List.flatMap_eq_nil_iff.mpr fun others hmem => hother others (ne_of_mem_of_not_mem hmem hback),
    listQuery, iterationsAt_wrap, hself]
  simp

/-- What a place is read in: the element of the innermost list around it, and the scope itself when
there is no list around it. -/
def Scope.around (scope : Scope) (items : List Item) (place : Path) : Scope :=
  match (Path.lists [] place).getLast? with
  | none => scope
  | some outer => .element (livesAt items scope.base outer ++ [.each])

/-- The lists on a path, as seen from further inside. -/
theorem lists_eq_map (base path : Path) :
    Path.lists base path = (Path.lists [] path).map fun list => base ++ list := by
  induction path generalizing base with
  | nil => rfl
  | cons segment path ih =>
    cases segment <;> simp [Path.lists, ih (base ++ _), ih [_], Function.comp_def]

/-- Keys lead into no list. -/
theorem around_map_field (scope : Scope) (items : List Item) (keys : List String) :
    scope.around items (keys.map .field) = scope := by
  rw [Scope.around, lists_of_not_hasEach [] (hasEach_map_field keys)]
  rfl

/-- The list around a place inside a list is that list or one further inside. -/
theorem around_elementsAt (scope : Scope) (items : List Item) (keys : List String)
    (inside : Path) :
    scope.around items (elementsAt keys ++ inside) =
      (Scope.element (livesAt items scope.base (keys.map .field) ++ [.each])).around
        (Group.ofKeys items keys).members inside := by
  rw [Scope.around, Scope.around, lists_elementsAt, List.getLast?_cons, lists_eq_map,
    List.getLast?_map]
  cases (Path.lists [] inside).getLast? with
  | none => rfl
  | some outer =>
    have hmembers := livesAt_members items scope.base keys outer
    simp only [base_element, Option.map_some, Option.getD_some, List.nil_append, hmembers]

/-- Inside a list a value is read from an element. -/
theorem exists_around_elementsAt (scope : Scope) (items : List Item) (keys : List String)
    (inside : Path) : ∃ base, scope.around items (elementsAt keys ++ inside) = .element base := by
  rw [Scope.around, lists_elementsAt, List.getLast?_cons]
  exact ⟨_, rfl⟩

/-- There is exactly one list construction at a path when a field is shown inside a list there. It
runs through the elements of where this list is taken to live, as read from the element of the list
around it. -/
theorem iterationsAt_emit (config : Config) (scope : Scope) {items : List Item} {place : Path}
    (hplace : ∃ item ∈ items, place ++ [.each] <+: item.rest) :
    (emit config scope items).iterationsAt place =
      [locate config (scope.around items place) (place ++ [.each])
        (livesAt items scope.base place ++ [.each])] := by
  induction items using induction_members generalizing scope place with
  | step items ih =>
    obtain ⟨item, hitem, rest, hrest⟩ := hplace
    cases hsplit : splitEach? place with
    | none =>
      -- No list is around the one at the place.
      have hfields := eq_map_field_of_not_hasEach (splitEach?_eq_none_iff.mp hsplit)
      generalize Path.names place = keys at hfields
      subst hfields
      have hkeys := Group.mem_keyses.mpr ⟨item, hitem, rest, hrest.symm⟩
      have hway := iterationsAt_emit_way config scope hkeys
        (show ∀ name path, ([] : Path) ≠ .field name :: path by simp)
      rw [List.append_nil] at hway
      rw [hway, around_map_field]
      rfl
    | some split =>
      obtain ⟨keys, inside⟩ := split
      obtain rfl := splitEach?_eq_some hsplit
      rw [List.append_assoc, List.append_assoc] at hrest
      have hkeys : ∃ item ∈ items, ∃ inside, item.rest = elementsAt keys ++ inside :=
        ⟨item, hitem, _, hrest.symm⟩
      have hway : (emit config scope items).iterationsAt (elementsAt keys ++ inside) =
          (emit config (.element (livesAt items scope.base (keys.map .field) ++ [.each]))
            (Group.ofKeys items keys).members).iterationsAt inside := by
        rw [elementsAt, List.append_assoc, List.singleton_append]
        exact iterationsAt_emit_way config scope (Group.mem_keyses.mpr hkeys) (by simp)
      have hinside := ih keys hkeys
        (.element (livesAt items scope.base (keys.map .field) ++ [.each]))
        (show ∃ member ∈ (Group.ofKeys items keys).members, inside ++ [.each] <+: member.rest from
          ⟨_, Group.member_mem hitem hrest.symm, rest, by simp⟩)
      rw [base_element, livesAt_members, ← around_elementsAt] at hinside
      rw [hway, hinside]
      -- How the list is shown does not matter inside an element.
      obtain ⟨base, haround⟩ := exists_around_elementsAt scope items keys inside
      rw [haround]
      rfl

end Synthesis

end Projector
