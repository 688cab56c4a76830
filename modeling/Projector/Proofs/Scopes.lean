import Projector.Proofs.Closedness
import Projector.Proofs.Evaluations

/-!
# Reading in a scope

What lives outside every list can be read in every scope, through the root variable or directly.
What lives inside lists can only be read in the elements of the last of these. A selection preserves
scopes when every field and every list on its way can be read in the elements of the list before;
then what a query reads is what a projection shows.
-/

namespace Projector.Synthesis

/-- What lives at a path can be read in a scope: it lives outside every list, or in the element at
hand outside every further list. -/
def Scope.reaches (scope : Scope) (source : Path) : Bool :=
  !Path.hasEach source ||
    match scope with
    | .document => false
    | .element base => (following? base source).any fun rest => !Path.hasEach rest

/-- Each list on a way, and in the end a value, can be read in the elements of the list before. -/
def Scope.reachesAlong : Scope → (arrays : List Path) → (source : Path) → Bool
  | scope, [], source => scope.reaches source
  | scope, list :: rest, source =>
    scope.reaches list && reachesAlong (.element (list ++ [.each])) rest source

/-- In the document only what lives outside every list is reached. -/
theorem reaches_document {source : Path} :
    Scope.document.reaches source = true ↔ ∃ names : List String, source = names.map .field := by
  simp only [Scope.reaches, Bool.or_false, Bool.not_eq_true']
  constructor
  · exact fun h => ⟨_, eq_map_field_of_not_hasEach h⟩
  · rintro ⟨names, rfl⟩
    exact hasEach_map_field names

/-- In an element also the fields of the element are reached. -/
theorem reaches_element {base source : Path} :
    (Scope.element base).reaches source = true ↔
      ∃ names : List String, source = names.map .field ∨ source = base ++ names.map .field := by
  simp only [Scope.reaches, Bool.or_eq_true, Bool.not_eq_true']
  constructor
  · rintro (h | h)
    · exact ⟨_, .inl (eq_map_field_of_not_hasEach h)⟩
    · obtain ⟨rest, hrest, heach⟩ := (Option.any_eq_true _ _).mp h
      rw [following?_eq_some_iff.mp hrest]
      exact ⟨_, .inr (congrArg _ (eq_map_field_of_not_hasEach (by simpa using heach)))⟩
  · rintro ⟨names, rfl | rfl⟩
    · exact .inl (hasEach_map_field names)
    · right
      rw [following?_eq_some_iff.mpr rfl]
      simpa using hasEach_map_field names

/-- What a scope evaluates on, as the frame that a projection reads from. -/
inductive Scope.Sees (document : Json) : Scope → Json → Frame → Prop
  | document : Sees document .document document { base := [], current := document }
  | element (list : Path) (current : Json) :
    Sees document (.element (list ++ [.each])) current { base := list ++ [.each], current }

/-- The root variable stands for the document, or a query does without it. -/
def Readable (config : Config) (bound : Fields Json) (document : Json) (query : Query) : Prop :=
  Fields.get? bound config.rootVariable = some document ∨ query.isClosed [] = true

section Reading

variable {config : Config} {bound : Fields Json} {document value : Json} {scope : Scope}
  {frame : Frame}

/-- A part of a query is readable when the whole is. -/
theorem Readable.of_imp {query part : Query} (h : Readable config bound document query)
    (hpart : query.isClosed [] = true → part.isClosed [] = true) :
    Readable config bound document part :=
  h.imp id hpart

/-- A query that reads from the root variable reads from the document. -/
theorem Readable.eval_root {source : Path}
    (h : Readable config bound document (absolute config source)) :
    (Query.var config.rootVariable).eval bound value = .one document := by
  rcases h with h | h
  · rw [Query.eval, h]
  · rw [absolute, Query.isClosed_read] at h
    simp [Query.isClosed] at h

/-- Outside every list what lives at a path is read from the document. -/
theorem read_map_field (frame : Frame) (names : List String) :
    frame.read document (names.map .field) = document.follow names := by
  simp [Frame.read, hasEach_map_field, names_map_field]

/-- In an element what lives there is read from the element. -/
theorem read_element (list : Path) (current : Json) (names : List String) :
    Frame.read document { base := list ++ [.each], current }
      (list ++ [.each] ++ names.map .field) = current.follow names := by
  have heach : Path.hasEach (list ++ [.each] ++ names.map .field) = true := by
    simp [Path.hasEach, Segment.isEach]
  rw [Frame.read, if_pos heach, List.drop_left, names_map_field]

/-- Nothing that lives outside every list, nor its elements unless these are at hand, is read from
an element. -/
theorem following?_map_field {list steps : Path} {names : List String}
    (hsteps : steps = [] ∨ steps = [.each] ∧
      Scope.element (list ++ [.each]) ≠ .element (names.map .field ++ [.each])) :
    following? (list ++ [.each]) (names.map .field ++ steps) = none := by
  rw [following?_eq_none_iff]
  have hshorter : ¬list ++ [.each] <+: names.map .field := by
    intro hleads
    have heach := hleads.subset (List.mem_append_right list (List.mem_singleton_self _))
    simp at heach
  rcases hsteps with rfl | ⟨rfl, hne⟩
  · rwa [List.append_nil]
  · rw [List.prefix_concat_iff]
    rintro (heq | hleads)
    · exact hne (by rw [heq])
    · exact hshorter hleads

/-- What is reached is read by following names from a value at hand: from the element or the
document. -/
theorem exists_locate (hsees : scope.Sees document value frame) {shown source steps : Path}
    (hreaches : scope.reaches source = true)
    (hsteps : steps = [] ∨ steps = [.each] ∧ scope ≠ .element (source ++ [.each]))
    (hreadable : Readable config bound document (locate config scope shown (source ++ steps))) :
    ∃ query start names, query.eval bound value = .one start ∧
      locate config scope shown (source ++ steps) = .read query (names.map .field ++ steps) ∧
      start.follow names = frame.read document source := by
  have hroot : ∀ names : List String, source = names.map .field →
      locate config scope shown (source ++ steps) = absolute config (source ++ steps) →
      ∃ query start names, query.eval bound value = .one start ∧
        locate config scope shown (source ++ steps) = .read query (names.map .field ++ steps) ∧
        start.follow names = frame.read document source := by
    rintro names rfl habsolute
    rw [habsolute] at hreadable ⊢
    exact ⟨_, document, names, hreadable.eval_root, rfl, (read_map_field frame names).symm⟩
  cases hsees with
  | document =>
    obtain ⟨names, rfl⟩ := reaches_document.mp hreaches
    by_cases hshown : names.map .field ++ steps = shown
    · refine ⟨.input, document, names, rfl, ?_, (read_map_field _ names).symm⟩
      rw [locate, if_pos hshown]
    · refine hroot names rfl ?_
      rw [locate, if_neg hshown]
  | element list current =>
    obtain ⟨names, rfl | rfl⟩ := reaches_element.mp hreaches
    · refine hroot names rfl ?_
      rw [locate, following?_map_field hsteps]
    · refine ⟨.input, value, names, rfl, ?_, (read_element list value names).symm⟩
      have hrest : following? (list ++ [.each]) (list ++ [.each] ++ names.map .field ++ steps) =
          some (names.map .field ++ steps) :=
        following?_eq_some_iff.mpr (List.append_assoc _ _ _)
      rw [locate, hrest]

/-- What is reached is read as a projection reads it. -/
theorem eval_locate (hsees : scope.Sees document value frame) {shown source : Path}
    (hreaches : scope.reaches source = true)
    (hreadable : Readable config bound document (locate config scope shown source))
    (htame : (locate config scope shown source).isTame bound value = true) :
    (locate config scope shown source).eval bound value = .one (frame.read document source) := by
  have hnil : source ++ [] = source := List.append_nil source
  rw [← hnil] at hreadable htame
  obtain ⟨query, start, names, hstart, hread, hfollow⟩ :=
    exists_locate hsees hreaches (.inl rfl) hreadable
  rw [hread, List.append_nil] at htame
  rw [hnil, List.append_nil] at hread
  rw [hread, Query.eval_read hstart names htame, hfollow]

/-- The elements of a list that is reached are those that a projection reads. -/
theorem eval_locate_elements (hsees : scope.Sees document value frame) {shown list : Path}
    (hreaches : scope.reaches list = true) (hne : scope ≠ .element (list ++ [.each]))
    (hreadable : Readable config bound document (locate config scope shown (list ++ [.each])))
    (htame : (locate config scope shown (list ++ [.each])).isTame bound value = true) :
    ∃ elements, frame.read document list = .arr elements ∧
      (locate config scope shown (list ++ [.each])).eval bound value = .all elements := by
  obtain ⟨query, start, names, hstart, hread, hfollow⟩ :=
    exists_locate hsees hreaches (.inr ⟨rfl, hne⟩) hreadable
  rw [hread] at htame ⊢
  rw [← hfollow]
  exact Query.eval_read_elements hstart names htame

end Reading

/-! ## Ways that are reached -/

/-- There are no steps to elements on a path of fields. -/
theorem count_each_map_field (names : List String) :
    (names.map Segment.field).count .each = 0 := by
  rw [List.count_eq_zero]
  simp

/-- There are as many lists on a path as steps to elements. -/
theorem length_lists (base path : Path) : (Path.lists base path).length = path.count .each := by
  induction path generalizing base with
  | nil => rfl
  | cons segment path ih => cases segment <;> simp [Path.lists, ih]

/-- The lists on a path in two parts. -/
theorem lists_append (base front rest : Path) :
    Path.lists base (front ++ rest) = Path.lists base front ++ Path.lists (base ++ front) rest := by
  induction front generalizing base with
  | nil => simp [Path.lists]
  | cons segment front ih => cases segment <;> simp [Path.lists, ih]

/-- The list in front of a step to elements, counted by the lists in front of it. -/
theorem getElem?_lists (base : Path) {front path : Path} (h : front ++ [.each] <+: path) :
    (Path.lists base path)[front.count .each]? = some (base ++ front) := by
  obtain ⟨rest, rfl⟩ := h
  have hlength := length_lists base front
  rw [List.append_assoc, lists_append, List.getElem?_append_right hlength.le, hlength, Nat.sub_self]
  rfl

/-- What is reached lives outside every list, or behind the base of the scope through no further
list. -/
theorem Scope.count_of_reaches {scope : Scope} {source : Path} (h : scope.reaches source = true) :
    source.count .each = 0 ∨
      (scope.base <+: source ∧ source.count .each = scope.base.count .each) := by
  cases scope with
  | document =>
    obtain ⟨names, rfl⟩ := reaches_document.mp h
    exact .inl (count_each_map_field names)
  | element base =>
    obtain ⟨names, rfl | rfl⟩ := reaches_element.mp h
    · exact .inl (count_each_map_field names)
    · exact .inr ⟨List.prefix_append _ _, by
        rw [List.count_append, count_each_map_field, Nat.add_zero, Scope.base]⟩

/-- Along every list that is reached a value can live in the elements of one more list. -/
theorem count_le_of_reachesAlong {scope : Scope} {arrays : List Path} {source : Path}
    (h : scope.reachesAlong arrays source = true) :
    source.count .each ≤ arrays.length + scope.base.count .each := by
  induction arrays generalizing scope with
  | nil =>
    have hcount := Scope.count_of_reaches h
    omega
  | cons list rest ih =>
    rw [Scope.reachesAlong, Bool.and_eq_true] at h
    have hlist := Scope.count_of_reaches h.1
    have hrest := ih h.2
    rw [base_element, List.count_append, List.count_singleton_self] at hrest
    rw [List.length_cons]
    omega

/-- What is reached and lives in the elements of as many lists as the base of the scope lives behind
this base. -/
theorem Scope.leads_of_reaches {scope : Scope} {path : Path}
    (hscope : scope = .document ∨ ∃ list, scope = .element (list ++ [.each]))
    (h : scope.reaches path = true) (hle : scope.base.count .each ≤ path.count .each) :
    scope.base <+: path ∧ path.count .each = scope.base.count .each := by
  rcases Scope.count_of_reaches h with hnone | hbehind
  · rcases hscope with rfl | ⟨list, rfl⟩
    · exact ⟨List.nil_prefix, hnone⟩
    · rw [base_element, List.count_append, List.count_singleton_self] at hle
      omega
  · exact hbehind

/-- A value that lives in the elements of as many lists as are reached on its way lives in the
elements of each, one inside the other. -/
theorem chained_of_reachesAlong {scope : Scope} {arrays : List Path} {source : Path}
    (hscope : scope = .document ∨ ∃ list, scope = .element (list ++ [.each]))
    (h : scope.reachesAlong arrays source = true)
    (hcount : source.count .each = arrays.length + scope.base.count .each) :
    Chained scope.base arrays source := by
  induction arrays generalizing scope with
  | nil =>
    rw [List.length_nil, Nat.zero_add] at hcount
    exact (Scope.leads_of_reaches hscope h hcount.ge).1
  | cons list rest ih =>
    rw [Scope.reachesAlong, Bool.and_eq_true] at h
    have hle := count_le_of_reachesAlong h.2
    have hstep : (Scope.element (list ++ [.each])).base.count .each = list.count .each + 1 := by
      rw [base_element, List.count_append, List.count_singleton_self]
    rw [List.length_cons] at hcount
    have hlist := Scope.leads_of_reaches hscope h.1 (by omega)
    exact ⟨hlist.1.trans (List.prefix_append _ _), ih (.inr ⟨list, rfl⟩) h.2 (by omega)⟩

/-- Lists that are shown where they live are all reached. -/
theorem reachesAlong_lists {scope : Scope} (names : List String) (path : Path) :
    scope.reachesAlong (Path.lists (scope.base ++ names.map .field) path)
      (scope.base ++ names.map .field ++ path) = true := by
  have hreaches : ∀ (scope : Scope) (names : List String),
      scope.reaches (scope.base ++ names.map .field) = true := by
    intro scope names
    cases scope with
    | document => exact reaches_document.mpr ⟨names, rfl⟩
    | element base => exact reaches_element.mpr ⟨names, .inr rfl⟩
  induction path generalizing scope names with
  | nil =>
    rw [List.append_nil]
    exact hreaches scope names
  | cons segment path ih =>
    cases segment with
    | field name =>
      have hrest := @ih scope (names ++ [name])
      simpa [Path.lists] using hrest
    | each =>
      have hrest := @ih (.element (scope.base ++ names.map .field ++ [.each])) []
      rw [Path.lists, Scope.reachesAlong, hreaches, Bool.true_and]
      simpa [Scope.base] using hrest

end Projector.Synthesis
