import Projector.Proofs.TwinOutputs

/-!
# Queries that differ in how keys are joined

A trie of queries is folded once with its chains of keys joined and once without. On every value the
two object constructions have twin outputs, when the queries at the leaves read values without dots
in their keys; this is an induction on the trie, with the names that were joined to the key of an
entry as what the second value has in front of the leaves. Products and lists keep twins.
-/

namespace Projector

namespace Query

/-- Two queries whose outputs on a value are twins. -/
def Mirrors (bound : Fields Json) (value : Json) (front : List String) (paths : Set (List String))
    (query other : Query) : Prop :=
  Outputs.Agree (Json.Twins front paths) (query.eval bound value) (other.eval bound value)

section Mirrors

variable {bound : Fields Json} {value : Json} {front : List String} {paths : Set (List String)}
  {query other : Query}

/-- Below one more key the second query has the leaves behind it. -/
theorem Mirrors.nested (h : Mirrors bound value front paths query other) (hsome : paths.Nonempty)
    (key : String) :
    Mirrors bound value (key :: front) paths query (.object [(key, other)]) := by
  have heval : (object [(key, other)]).eval bound value =
      (other.eval bound value).bind fun output => .one (.obj [(key, output)]) := by
    rw [eval, evalEntries]
    rfl
  unfold Mirrors
  rw [heval]
  exact h.map_right fun _ _ htwins => htwins.nested hsome key

/-- A query that reads values without dots in their keys mirrors itself. -/
theorem mirrors_self
    (h : ∀ output ∈ (query.eval bound value).values, output.Undotted) :
    Mirrors bound value [] {[]} query query :=
  Outputs.agree_self fun output houtput => .of_undotted (h output houtput)

/-! ## Object constructions -/

/-- An entry of an object construction and the entry that it stands for, with the leaves of their
values. -/
structure Pairing where
  /-- The entry with the key that names were joined to. -/
  joined : String × Query
  /-- The entry with the first of the names. -/
  plain : String × Query
  /-- The other names. -/
  front : List String
  /-- The leaves of the values. -/
  paths : Set (List String)

/-- The leaves of an entry. -/
def Pairing.leaves (pairing : Pairing) : Set (List String) :=
  Json.pathsBehind (pairing.plain.1 :: pairing.front) pairing.paths

/-- The key of the first entry stands for the names, and the values have twin outputs. -/
structure Pairing.Holds (bound : Fields Json) (value : Json) (pairing : Pairing) : Prop where
  parts_eq : Trie.parts pairing.joined.1 = pairing.plain.1 :: pairing.front
  nonempty : pairing.paths.Nonempty
  mirrors : Mirrors bound value pairing.front pairing.paths pairing.joined.2 pairing.plain.2

/-- Object constructions of entries that stand for each other have twin outputs. -/
theorem agree_evalEntries {pairings : List Pairing} {done : Set (List String)}
    {fields fields' : Fields Json} (hfields : Json.Twins [] done (.obj fields) (.obj fields'))
    (hnone : [] ∉ done) (hpairings : ∀ pairing ∈ pairings, pairing.Holds bound value)
    (hdistinct : (pairings.map fun pairing => pairing.plain.1).Nodup)
    (hnew : ∀ pairing ∈ pairings, ∀ path, pairing.plain.1 :: path ∉ done) :
    Outputs.Agree (Json.Twins [] (done ∪ {path | ∃ pairing ∈ pairings, path ∈ pairing.leaves}))
      (evalEntries bound (pairings.map Pairing.joined) fields value)
      (evalEntries bound (pairings.map Pairing.plain) fields' value) := by
  induction pairings generalizing done fields fields' with
  | nil =>
    have hdone : done ∪ {path | ∃ pairing ∈ ([] : List Pairing), path ∈ pairing.leaves} = done := by
      simp
    rw [hdone]
    exact Outputs.agree_one hfields
  | cons pairing pairings ih =>
    obtain ⟨⟨key, query⟩, ⟨name, other⟩, front, paths⟩ := pairing
    obtain ⟨hkey, hsome, hmirrors⟩ := hpairings _ List.mem_cons_self
    obtain ⟨hfirst, hrest⟩ := List.nodup_cons.mp hdistinct
    dsimp only at hkey hsome hmirrors hfirst
    have hdone : done ∪ {path | ∃ pairing ∈ (⟨(key, query), (name, other), front, paths⟩ :
        Pairing) :: pairings, path ∈ pairing.leaves} =
        (done ∪ Json.pathsBehind (name :: front) paths) ∪
          {path | ∃ pairing ∈ pairings, path ∈ pairing.leaves} := by
      ext path
      simp [Pairing.leaves, or_assoc]
    rw [hdone, List.map_cons, List.map_cons, evalEntries, evalEntries]
    refine hmirrors.bind fun output output' htwins => ?_
    refine ih (hfields.put hnone htwins hsome hkey (hnew _ List.mem_cons_self)) ?_
      (fun pairing hpairing => hpairings pairing (by simp [hpairing])) hrest ?_
    · rintro (hnil | ⟨rest, -, hnil⟩)
      · exact hnone hnil
      · cases hnil
    · rintro pairing hpairing path (hpath | ⟨rest, -, hpath⟩)
      · exact hnew pairing (by simp [hpairing]) path hpath
      · have hname : pairing.plain.1 = name := (List.cons.inj hpath).1
        exact hfirst (hname ▸ List.mem_map_of_mem (f := fun pairing => pairing.plain.1) hpairing)

/-- Object constructions of entries that stand for each other, from the start. -/
theorem mirrors_object {pairings : List Pairing}
    (hpairings : ∀ pairing ∈ pairings, pairing.Holds bound value)
    (hdistinct : (pairings.map fun pairing => pairing.plain.1).Nodup) :
    Mirrors bound value [] {path | ∃ pairing ∈ pairings, path ∈ pairing.leaves}
      (.object (pairings.map Pairing.joined)) (.object (pairings.map Pairing.plain)) := by
  have hempty : Json.Twins [] ∅ (.obj []) (.obj []) :=
    ⟨fun _ _ => False, by simp, .empty, by
      rw [Leaves.behind_nil]
      exact .of_fills (fun _ => id) List.nodup_nil fun _ _ _ => id⟩
  have hentries := agree_evalEntries hempty (Set.notMem_empty _) hpairings hdistinct
    fun _ _ _ => Set.notMem_empty _
  rw [Set.empty_union] at hentries
  unfold Mirrors
  rw [eval, eval]
  exact hentries

end Mirrors

end Query

/-! ## Folded tries -/

namespace Trie

/-- The key paths of a trie. -/
def paths {α : Type} (trie : Trie α) : Set (List String) :=
  {path | ∃ leaf ∈ listing trie, leaf.path = path}

/-- The key paths of some children. -/
def pathsBelow {α : Type} (children : Fields (Trie α)) : Set (List String) :=
  {path | ∃ leaf ∈ listingBelow children, leaf.path = path}

/-- The key paths of children are those of each child behind its key. -/
theorem mem_pathsBelow {α : Type} {children : Fields (Trie α)} {path : List String} :
    path ∈ pathsBelow children ↔ ∃ child ∈ children, ∃ rest ∈ paths child.2,
      path = child.1 :: rest := by
  simp only [pathsBelow, paths, Set.mem_ofPred_eq, listingBelow_eq_flatMap, List.mem_flatMap,
    List.mem_map]
  constructor
  · rintro ⟨leaf, ⟨child, hchild, inner, hinner, rfl⟩, rfl⟩
    exact ⟨child, hchild, inner.path, ⟨inner, hinner, rfl⟩, rfl⟩
  · rintro ⟨child, hchild, _, ⟨inner, hinner, rfl⟩, rfl⟩
    exact ⟨_, ⟨child, hchild, inner, hinner, rfl⟩, rfl⟩

section Mirrors

variable {bound : Fields Json} {value : Json}

/-- A trie whose entry with joined keys stands for the one without, given the names behind its key
and the key paths behind them. -/
structure Mirrored (bound : Fields Json) (value : Json) (key : String) (trie : Trie Query)
    (front : List String) (rest : Set (List String)) : Prop where
  parts_eq : parts (foldEntry Query.object id true key trie).key = key :: front
  nonempty : rest.Nonempty
  paths_eq : Json.pathsBehind front rest = trie.paths
  mirrors : Query.Mirrors bound value front rest (foldEntry .object id true key trie).value
    (foldEntry .object id false key trie).value

/-- The object constructions of tidy children have twin outputs when the entries of the children
stand for each other. -/
theorem TidyBelow.mirrors_fields {children : Fields (Trie Query)} (h : TidyBelow children)
    (hchild : ∀ child ∈ children, ∃ front rest, Mirrored bound value child.1 child.2 front rest) :
    Query.Mirrors bound value [] (pathsBelow children)
      (.object (Folded.fields (foldEntries .object id true children)))
      (.object (Folded.fields (foldEntries .object id false children))) := by
  choose! front rest hmirrored using hchild
  let pairing : String × Trie Query → Query.Pairing := fun child =>
    { joined := ((foldEntry .object id true child.1 child.2).key,
        (foldEntry .object id true child.1 child.2).value)
      plain := (child.1, (foldEntry .object id false child.1 child.2).value)
      front := front child
      paths := rest child }
  have hpaths : {path | ∃ entry ∈ children.map pairing, path ∈ entry.leaves} =
      pathsBelow children := by
    ext path
    simp only [Set.mem_ofPred_eq, List.mem_map, exists_exists_and_eq_and, mem_pathsBelow]
    refine exists_congr fun child => and_congr_right fun hchild => ?_
    rw [← (hmirrored child hchild).paths_eq]
    exact Json.mem_pathsBehind_cons
  have hobject := @Query.mirrors_object bound value (children.map pairing) ?_ ?_
  · rw [hpaths, List.map_map, List.map_map] at hobject
    rw [h.fields_eq, h.fields_eq]
    simp only [key_foldEntry_false]
    exact hobject
  · refine List.forall_mem_map.mpr fun child hchild => ?_
    exact ⟨(hmirrored child hchild).parts_eq, (hmirrored child hchild).nonempty,
      (hmirrored child hchild).mirrors⟩
  · rw [List.map_map]
    exact h.distinct

/-- The value of the entry of a branch that nothing is joined to. -/
theorem value_foldEntry_false (key : String) (order : Int) (children : Fields (Trie Query)) :
    (foldEntry Query.object id false key (.branch order children)).value =
      .object (Folded.fields (foldEntries Query.object id false children)) :=
  congrArg Folded.value (foldEntry_branch Query.object id key order (by simp))

/-- The entry whose key is joined with that of its only child stands for the one without. -/
theorem Mirrored.only {only : String × Trie Query} {front : List String}
    {rest : Set (List String)} (h : Mirrored bound value only.1 only.2 front rest)
    (htidy : TidyBelow [only]) {key : String} (hkey : '.' ∉ key.toList) (order : Int) :
    Mirrored bound value key (.branch order [only]) (only.1 :: front) rest where
  parts_eq := by
    rw [foldEntry_only, parts_dotted, parts_of_dotFree hkey, h.parts_eq]
    rfl
  nonempty := h.nonempty
  paths_eq := by
    have hpaths : (Trie.branch order [only]).paths = pathsBelow [only] := rfl
    ext path
    rw [hpaths, Json.mem_pathsBehind_cons, h.paths_eq]
    simp only [mem_pathsBelow, List.mem_singleton, exists_eq_left]
  mirrors := by
    have hnested := h.mirrors.nested h.nonempty only.1
    rw [foldEntry_only, value_foldEntry_false, htidy.fields_eq]
    simp only [List.map_cons, List.map_nil, key_foldEntry_false]
    exact hnested

/-- The entry whose key is joined with no other stands for itself when those below it do. -/
theorem TidyBelow.mirrored {children : Fields (Trie Query)} (h : TidyBelow children)
    (hchild : ∀ child ∈ children, ∃ front rest, Mirrored bound value child.1 child.2 front rest)
    (hseveral : ¬∃ only, children = [only]) (hsome : (pathsBelow children).Nonempty)
    {key : String} (hkey : '.' ∉ key.toList) (order : Int) :
    Mirrored bound value key (.branch order children) [] (pathsBelow children) := by
  have hjoined : foldEntry Query.object id true key (.branch order children) =
      { key, value := .object (Folded.fields (foldEntries Query.object id true children)),
        order } :=
    foldEntry_branch Query.object id key order fun hjoins => hseveral hjoins.2
  refine ⟨?_, hsome, ?_, ?_⟩
  · rw [hjoined, parts_of_dotFree hkey]
  · have hpaths : (Trie.branch order children).paths = pathsBelow children := rfl
    ext path
    simp [hpaths, Json.pathsBehind]
  · rw [hjoined, value_foldEntry_false]
    exact h.mirrors_fields hchild

/-- A leaf whose path has no dots and whose query reads values without dots in their keys. -/
structure Leaf.Undotted (bound : Fields Json) (value : Json) (leaf : Leaf Query) : Prop where
  path : ∀ name ∈ leaf.path, '.' ∉ name.toList
  values : ∀ output ∈ (leaf.value.eval bound value).values, output.Undotted

/-- The key of a child has no dots when the paths of the leaves have none, and these go on without
dots below it. -/
theorem undotted_child {children : Fields (Trie Query)} {child : String × Trie Query}
    (hmem : child ∈ children) (htidy : Tidy child.2)
    (h : ∀ leaf ∈ listingBelow children, leaf.Undotted bound value) :
    '.' ∉ child.1.toList ∧ ∀ leaf ∈ listing child.2, leaf.Undotted bound value := by
  have hbelow : ∀ leaf ∈ listing child.2, (leaf.below child.1).Undotted bound value :=
    fun leaf hleaf => h _ (mem_listingBelow hmem hleaf)
  constructor
  · obtain ⟨leaf, hleaf, -⟩ := htidy.exists_leaf
    exact (hbelow leaf hleaf).path child.1 List.mem_cons_self
  · exact fun leaf hleaf => ⟨fun name hname =>
      (hbelow leaf hleaf).path name (List.mem_cons_of_mem _ hname), (hbelow leaf hleaf).values⟩

/-- The entry of a tidy trie with joined keys stands for the one without, when no key has a dot and
the queries at the leaves read values without dots in their keys. -/
theorem Tidy.mirrored {trie : Trie Query} (h : Tidy trie) {key : String}
    (hkey : '.' ∉ key.toList) (hleaves : ∀ leaf ∈ listing trie, leaf.Undotted bound value) :
    ∃ front rest, Mirrored bound value key trie front rest := by
  induction h generalizing key with
  | leaf query order =>
    refine ⟨[], {[]}, parts_of_dotFree hkey, Set.singleton_nonempty _, ?_,
      Query.mirrors_self (hleaves _ (List.mem_singleton_self _)).values⟩
    ext path
    simp [Json.pathsBehind, paths, listing, eq_comm]
  | @branch order children horder hdistinct hascending hchild ih =>
    have htidy : TidyBelow children := ⟨hdistinct, hascending, hchild⟩
    have hbelow : ∀ child ∈ children, ∃ front rest,
        Mirrored bound value child.1 child.2 front rest := by
      intro child hmem
      obtain ⟨hname, hinside⟩ := undotted_child hmem (hchild child hmem) hleaves
      exact ih child hmem hname hinside
    by_cases honly : ∃ only, children = [only]
    · obtain ⟨only, rfl⟩ := honly
      obtain ⟨front, rest, hmirrored⟩ := hbelow only (List.mem_singleton_self _)
      exact ⟨_, _, hmirrored.only htidy hkey order⟩
    · obtain ⟨leaf, hleaf, -⟩ := horder
      exact ⟨_, _, htidy.mirrored hbelow honly ⟨leaf.path, leaf, hleaf, rfl⟩ hkey order⟩

/-- The object constructions that tidy children are folded into have twin outputs. -/
theorem TidyBelow.mirrors_fold {children : Fields (Trie Query)} (h : TidyBelow children)
    (hleaves : ∀ leaf ∈ listingBelow children, leaf.Undotted bound value) :
    Query.Mirrors bound value [] (pathsBelow children) (fold .object id true children)
      (fold .object id false children) := by
  refine h.mirrors_fields fun child hmem => ?_
  obtain ⟨hname, hinside⟩ := undotted_child hmem (h.child child hmem) hleaves
  exact (h.child child hmem).mirrored hname hinside

end Mirrors

end Trie

/-! ## Products -/

namespace Query

variable {bound : Fields Json} {value : Json}

/-- The products of queries with twin outputs whose leaves are apart have twin outputs. -/
theorem Mirrors.times {paths others : Set (List String)} {left left' right right' : Query}
    (hleft : Mirrors bound value [] paths left left')
    (hright : Mirrors bound value [] others right right') (hnone : [] ∉ paths)
    (hnone' : [] ∉ others) (hapart : Json.PathsApart paths others) :
    Mirrors bound value [] (paths ∪ others) (.times left right) (.times left' right') := by
  unfold Mirrors
  rw [eval, eval]
  refine hright.bind fun newer newer' hnewer => hleft.bind fun older older' holder => ?_
  obtain ⟨fields, fields', rfl, rfl⟩ := hnewer.exists_fields hnone'
  obtain ⟨known, known', rfl, rfl⟩ := holder.exists_fields hnone
  exact Outputs.agree_one (holder.merge hnewer hnone hnone' hapart)

/-- Two factors of products with twin outputs, and their leaves. -/
structure Factor where
  /-- The factor with joined keys. -/
  joined : Query
  /-- The factor without. -/
  plain : Query
  /-- The leaves of their outputs. -/
  paths : Set (List String)

/-- Two factors have twin outputs, with some leaves. -/
structure Factor.Holds (bound : Fields Json) (value : Json) (factor : Factor) : Prop where
  nonempty : factor.paths.Nonempty
  mirrors : Mirrors bound value [] factor.paths factor.joined factor.plain

/-- Paths that are apart from some path are not empty. -/
theorem not_nil_of_pathsApart {paths others : Set (List String)}
    (hapart : Json.PathsApart paths others) (hsome : others.Nonempty) : [] ∉ paths := by
  obtain ⟨other, hother⟩ := hsome
  exact fun hnil => Leaves.not_apart_nil other (hapart [] hnil other hother)

/-- Products to which more factors with twin outputs are added have twin outputs. -/
theorem mirrors_foldl_times {first : Factor} {factors : List Factor}
    (hholds : ∀ factor ∈ first :: factors, factor.Holds bound value)
    (hapart : (first :: factors).Pairwise fun factor other =>
      Json.PathsApart factor.paths other.paths) :
    Mirrors bound value [] {path | ∃ factor ∈ first :: factors, path ∈ factor.paths}
      ((factors.map Factor.joined).foldl .times first.joined)
      ((factors.map Factor.plain).foldl .times first.plain) := by
  induction factors generalizing first with
  | nil =>
    have hpaths : {path | ∃ factor ∈ [first], path ∈ factor.paths} = first.paths := by simp
    rw [hpaths]
    exact (hholds first (by simp)).mirrors
  | cons factor factors ih =>
    obtain ⟨hfirst, hrest⟩ := List.pairwise_cons.mp hapart
    obtain ⟨hfactor, hfactors⟩ := List.pairwise_cons.mp hrest
    have hfirstHolds := hholds first (by simp)
    have hfactorHolds := hholds factor (by simp)
    have hfirstFactor := hfirst factor (by simp)
    have hfactorFirst : Json.PathsApart factor.paths first.paths :=
      fun path hpath other hother => (hfirstFactor other hother path hpath).symm
    let both : Factor := ⟨.times first.joined factor.joined, .times first.plain factor.plain,
      first.paths ∪ factor.paths⟩
    have hboth : both.Holds bound value :=
      ⟨hfirstHolds.nonempty.inl, hfirstHolds.mirrors.times hfactorHolds.mirrors
        (not_nil_of_pathsApart hfirstFactor hfactorHolds.nonempty)
        (not_nil_of_pathsApart hfactorFirst hfirstHolds.nonempty) hfirstFactor⟩
    have hpaths : {path | ∃ one ∈ first :: factor :: factors, path ∈ one.paths} =
        {path | ∃ one ∈ both :: factors, path ∈ one.paths} := by
      ext path
      simp [both, or_assoc]
    rw [hpaths]
    refine @ih both ?_ ?_
    · intro other hother
      rcases List.mem_cons.mp hother with rfl | hother
      · exact hboth
      · exact hholds other (by simp [hother])
    · refine List.pairwise_cons.mpr ⟨?_, hfactors⟩
      rintro other hother path (hpath | hpath) way hway
      · exact hfirst other (by simp [hother]) path hpath way hway
      · exact hfactor other hother path hpath way hway

/-- Products of factors with twin outputs whose leaves are apart have twin outputs. -/
theorem mirrors_product {factors : List Factor} (hne : factors ≠ [])
    (hholds : ∀ factor ∈ factors, factor.Holds bound value)
    (hapart : factors.Pairwise fun factor other => Json.PathsApart factor.paths other.paths) :
    Mirrors bound value [] {path | ∃ factor ∈ factors, path ∈ factor.paths}
      (product (factors.map Factor.joined)) (product (factors.map Factor.plain)) := by
  cases factors with
  | nil => exact absurd rfl hne
  | cons first factors => exact mirrors_foldl_times hholds hapart

/-! ## Lists -/

/-- Lists of what queries with twin outputs give for the elements of a list have twin outputs. -/
theorem mirrors_collect (paths : Set (List String)) {run body body' : Query}
    (hbody : ∀ element ∈ (run.eval bound value).values,
      Mirrors bound element [] paths body body') :
    Mirrors bound value [] {[]} (.collect (.pipe run body)) (.collect (.pipe run body')) := by
  unfold Mirrors
  rw [eval, eval, eval, eval]
  have hlists : ∀ items items', List.Forall₂ (Json.Twins [] paths) items items' →
      Json.Twins [] {[]} (.arr items) (.arr items') := fun _ _ hitems => .of_items hitems
  refine Outputs.Agree.collected ?_ hlists
  have hself : Outputs.Agree (fun element element' => element = element' ∧
      element ∈ (run.eval bound value).values) (run.eval bound value) (run.eval bound value) :=
    Outputs.agree_self fun element helement => ⟨rfl, helement⟩
  refine hself.bind ?_
  rintro element _ ⟨rfl, helement⟩
  exact hbody element helement

end Query

end Projector
