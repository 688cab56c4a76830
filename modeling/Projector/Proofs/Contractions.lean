import Projector.Proofs.Layouts

/-!
# Compression as contraction

Folding with compression joins keys while it goes down, but what it joins can be told from the trie
alone: under each key starts a chain of branches with a single child each, and the whole chain
becomes one entry, under the names of the chain joined by dots, with what the chain ends at. So the
contracted trie, folded without compression, gives the same. The values are written either way, each
once and in the same order.
-/

namespace Projector

open scoped List

namespace Layout

variable {α : Type}

/-- What holds of an object whenever it holds of its entries holds of every layout. -/
@[elab_as_elim]
theorem inductFields {motive : Layout α → Prop} (value : ∀ content, motive (.value content))
    (object : ∀ fields, (∀ field ∈ fields, motive field.2) → motive (.object fields))
    (layout : Layout α) : motive layout :=
  @Layout.rec α motive (fun fields => ∀ field ∈ fields, motive field.2)
    (fun field => motive field.2) value object (by simp)
    (fun _ _ hfirst hrest => List.forall_mem_cons.mpr ⟨hfirst, hrest⟩) (fun _ _ h => h) layout

/-- The values of an object are those of its entries. -/
theorem contents_object (fields : List (String × Layout α)) :
    (object fields).contents = fields.flatMap fun field => field.2.contents := by
  rw [contents, places_object, List.map_flatMap]
  simp only [List.map_map]
  rfl

end Layout

/-! ## Texts with values in them -/

/-- A text that has some values in it, each of them once and in the order given, whatever they are
written as. -/
inductive Prints {α : Type} : List α → ((α → String) → String) → Prop
  /-- A text without values. -/
  | rest (text : String) : Prints [] fun _ => text
  /-- A value with a text in front of it and some more behind it. -/
  | value (front : String) (content : α) {contents : List α} {behind : (α → String) → String}
      (h : Prints contents behind) :
      Prints (content :: contents) fun write => front ++ write content ++ behind write

namespace Prints

variable {α : Type} {contents others : List α} {text more : (α → String) → String}

/-- A text with values in it, with some text in front. -/
theorem behind (front : String) (h : Prints contents text) :
    Prints contents fun write => front ++ text write := by
  cases h with
  | rest text => exact .rest _
  | value between content h =>
    simp only [← String.append_assoc]
    exact .value (front ++ between) content h

/-- Two texts with values in them, one behind the other. -/
theorem append (h : Prints contents text) (hmore : Prints others more) :
    Prints (contents ++ others) fun write => text write ++ more write := by
  induction h with
  | rest text => exact hmore.behind text
  | value front content _ ih =>
    simp only [List.cons_append, String.append_assoc]
    simpa only [String.append_assoc] using Prints.value front content ih

/-- Texts with values in them, one behind the other with a mark between them. -/
theorem intercalate {ι : Type} (mark : String) {parts : List ι} {contents : ι → List α}
    {text : ι → (α → String) → String} (h : ∀ part ∈ parts, Prints (contents part) (text part)) :
    Prints (parts.flatMap contents)
      fun write => mark.intercalate (parts.map fun part => text part write) := by
  induction parts with
  | nil =>
    simp only [List.map_nil, String.intercalate_nil]
    exact .rest ""
  | cons part parts ih =>
    obtain ⟨hpart, hparts⟩ := List.forall_mem_cons.mp h
    cases parts with
    | nil => simpa using hpart
    | cons next parts =>
      simp only [List.map_cons, String.intercalate_cons_cons, String.append_assoc]
      exact hpart.append ((ih hparts).behind mark)

/-- The text of a layout has the values of the layout in it. -/
theorem render_layout (layout : Layout α) : Prints layout.contents
    fun write => layout.eval Query.renderObject write := by
  induction layout using Layout.inductFields with
  | value content =>
    have hvalue := Prints.value "" content (.rest "")
    simp only [String.empty_append, String.append_empty] at hvalue
    exact hvalue
  | object fields ih =>
    have hentries : Prints (fields.flatMap fun field => field.2.contents) fun write =>
        ", ".intercalate (fields.map fun field =>
          renderKey field.1 ++ ": " ++ field.2.eval Query.renderObject write) :=
      intercalate ", " fun field hmem => (ih field hmem).behind _
    have hobject := (hentries.behind "\x7b").append (.rest "\x7d")
    simp only [List.append_nil] at hobject
    simp only [Layout.contents_object, Layout.eval_object, Query.renderObject, List.map_map]
    exact hobject

end Prints

namespace Trie

variable {α β : Type}

/-! ## Chains -/

/-- What holds of a branch whenever it holds of its children holds of every trie. -/
@[elab_as_elim]
theorem inductChildren {motive : Trie α → Prop} (leaf : ∀ value order, motive (.leaf value order))
    (branch : ∀ order children, (∀ child ∈ children, motive child.2) →
      motive (.branch order children)) (trie : Trie α) : motive trie :=
  @Trie.rec α motive (fun children => ∀ child ∈ children, motive child.2)
    (fun child => motive child.2) leaf branch (by simp)
    (fun _ _ hfirst hrest => List.forall_mem_cons.mpr ⟨hfirst, hrest⟩) (fun _ _ h => h) trie

/-- The chain that starts at a node: the keys that lead down as long as a branch has a single child,
and what they lead to, which is a leaf or a branch with no children or several. -/
def chain : Trie α → List String × Trie α
  | .branch _ [(key, child)] => (key :: (chain child).1, (chain child).2)
  | node => ([], node)

/-- A trie is not smaller than what its chain ends at. -/
theorem sizeOf_chain (trie : Trie α) : sizeOf trie.chain.2 ≤ sizeOf trie := by
  fun_induction chain trie with
  | case1 order key child ih =>
    simp only [branch.sizeOf_spec, List.cons.sizeOf_spec, Prod.mk.sizeOf_spec]
    omega
  | case2 => exact Nat.le_refl _

/-- A chain does not end at a branch with a single child. -/
theorem chain_ne_only (trie : Trie α) (order : Int) (only : String × Trie α) :
    trie.chain.2 ≠ .branch order [only] := by
  fun_induction chain trie with
  | case1 _ _ _ ih => exact ih
  | case2 node h => exact h order only.1 only.2

/-- A node with another order. -/
def withOrder (order : Int) : Trie α → Trie α
  | .leaf value _ => .leaf value order
  | .branch _ children => .branch order children

@[simp] theorem order_withOrder (order : Int) (trie : Trie α) :
    (trie.withOrder order).order = order := by
  cases trie <;> rfl

/-- A trie with all chains below it contracted: each child becomes what its chain ends at, under the
names of the chain joined by dots, and keeps its place among its siblings. -/
def contract : Trie α → Trie α
  | .leaf value order => .leaf value order
  | .branch order children =>
    .branch order (children.attach.map fun ⟨(key, child), _⟩ =>
      (joined (key :: child.chain.1), child.chain.2.contract.withOrder child.order))
termination_by trie => sizeOf trie
decreasing_by
  have hchild := List.sizeOf_lt_of_mem ‹(key, child) ∈ children›
  have hchain := sizeOf_chain child
  simp only [Prod.mk.sizeOf_spec, branch.sizeOf_spec] at hchild ⊢
  omega

/-- What a child becomes when chains are contracted. -/
def contracted (child : String × Trie α) : String × Trie α :=
  (joined (child.1 :: child.2.chain.1), child.2.chain.2.contract.withOrder child.2.order)

/-- The children of a branch are contracted one by one. -/
theorem contract_branch (order : Int) (children : Fields (Trie α)) :
    contract (.branch order children) = .branch order (children.map contracted) := by
  rw [contract]
  exact congrArg _ (List.attach_map_val (f := contracted))

/-! ## Folding the contracted trie -/

/-- What is written for a node does not depend on the key it stands under. -/
theorem value_foldEntry_key (object : Fields β → β) (value : α → β) (compress : Bool)
    (key other : String) (trie : Trie α) :
    (foldEntry object value compress key trie).value =
      (foldEntry object value compress other trie).value := by
  cases trie with
  | leaf content order => rfl
  | branch order children =>
    unfold foldEntry
    split <;> rfl

/-- Nor on its order. -/
theorem value_foldEntry_withOrder (object : Fields β → β) (value : α → β) (compress : Bool)
    (key : String) (order : Int) (trie : Trie α) :
    (foldEntry object value compress key (trie.withOrder order)).value =
      (foldEntry object value compress key trie).value := by
  cases trie with
  | leaf content first => rfl
  | branch first children =>
    rw [withOrder]
    unfold foldEntry
    split <;> rfl

/-- Under compression the entry of a node has the names of its chain, joined, as its key, and what
the chain ends at as its value. -/
theorem foldEntry_chain (object : Fields β → β) (value : α → β) (key : String) (trie : Trie α) :
    foldEntry object value true key trie =
      { key := joined (key :: trie.chain.1)
        value := (foldEntry object value true key trie.chain.2).value
        order := trie.order } := by
  fun_induction chain trie generalizing key with
  | case1 order next child ih =>
    rw [foldEntry_only, ih next, value_foldEntry_key object value true next key]
    rfl
  | case2 node h =>
    cases node with
    | leaf content order => rfl
    | branch order children =>
      rw [foldEntry_branch object value key order]
      · rfl
      · rintro ⟨-, only, rfl⟩
        exact h order only.1 only.2 rfl

/-- Children that are contracted become the same object construction without compression, when what
their chains end at becomes the same value. -/
theorem fields_contracted {object : Fields β → β} {value : α → β} {children : Fields (Trie α)}
    (h : ∀ child ∈ children, (foldEntry object value true child.1 child.2.chain.2).value =
      (foldEntry object value false child.1 child.2.chain.2.contract).value) :
    Folded.fields (foldEntries object value true children) =
      Folded.fields (foldEntries object value false (children.map contracted)) := by
  rw [fields_foldEntries_sorted, fields_foldEntries_sorted,
    sortByOrder_map contracted fun child => order_withOrder child.2.order _, List.map_map]
  refine List.map_congr_left fun child hmem => ?_
  rw [foldEntry_chain, h child (mem_sortByOrder.mp hmem), Function.comp_apply, contracted,
    key_foldEntry_false, value_foldEntry_withOrder]
  exact congrArg _ (value_foldEntry_key object value false _ _ _)

/-- What no chain goes on from becomes the same value when it is contracted first. -/
theorem value_foldEntry_contract (object : Fields β → β) (value : α → β) (key : String)
    (trie : Trie α) (h : ∀ order only, trie ≠ .branch order [only]) :
    (foldEntry object value true key trie).value =
      (foldEntry object value false key trie.contract).value := by
  -- Contraction goes on at the ends of chains, where the hypothesis holds again.
  fun_induction contract trie generalizing key with
  | case1 content order => rfl
  | case2 order children ih =>
    have hfields : Folded.fields (foldEntries object value true children) =
        Folded.fields (foldEntries object value false (children.map contracted)) :=
      fields_contracted fun child hmem =>
        ih child.1 child.2 hmem child.1 (chain_ne_only child.2)
    rw [← contract, contract_branch, foldEntry_branch object value key order,
      foldEntry_branch object value key order, hfields]
    · simp
    · rintro ⟨-, only, rfl⟩
      exact h order only rfl

/-- Folding a trie with compression is folding the contracted trie without. -/
theorem fold_contract (object : Fields β → β) (value : α → β) (trie : Trie α) :
    fold object value true trie.children = fold object value false trie.contract.children := by
  cases trie with
  | leaf content order =>
    rw [contract]
    rfl
  | branch order children =>
    rw [contract_branch]
    exact congrArg object (fields_contracted fun child _ =>
      value_foldEntry_contract object value child.1 _ (chain_ne_only child.2))

/-! ## The values and their order -/

/-- The values of an object construction are those of its entries. -/
theorem contents_fields (compress : Bool) (children : Fields (Trie α)) :
    (Layout.object (Folded.fields (foldEntries .object .value compress children))).contents =
      (sortByOrder (fun child => child.2.order) children).flatMap fun child =>
        (foldEntry Layout.object Layout.value compress child.1 child.2).value.contents := by
  rw [Layout.contents_object, fields_foldEntries_sorted, List.flatMap_map]

/-- Compression keeps the values of an entry and their order. -/
theorem contents_foldEntry (key : String) (trie : Trie α) :
    (foldEntry Layout.object Layout.value true key trie).value.contents =
      (foldEntry Layout.object Layout.value false key trie).value.contents := by
  induction trie using inductChildren generalizing key with
  | leaf content order => rfl
  | branch order children ih =>
    have hplain : (foldEntry Layout.object Layout.value false key (.branch order children)).value =
        .object (Folded.fields (foldEntries .object .value false children)) :=
      congrArg Folded.value (foldEntry_branch Layout.object Layout.value key order (by simp))
    rw [hplain, contents_fields]
    by_cases honly : ∃ only, children = [only]
    · obtain ⟨only, rfl⟩ := honly
      rw [foldEntry_only, ih only (List.mem_singleton_self _), sortByOrder,
        List.mergeSort_singleton, List.flatMap_singleton]
    · rw [foldEntry_branch Layout.object Layout.value key order fun h => honly h.2,
        contents_fields]
      exact List.flatMap_congr fun child hmem => ih child (mem_sortByOrder.mp hmem) child.1

/-- The values of the entries of some children, one after the other, are those of the leaves of the
children when the values of each entry are. -/
theorem flatMap_contents_perm {children : Fields (Trie α)} {contents : String × Trie α → List α}
    (h : ∀ child ∈ children, contents child ~ (listing child.2).map Leaf.value) :
    (sortByOrder (fun child => child.2.order) children).flatMap contents ~
      (listingBelow children).map Leaf.value := by
  refine ((List.mergeSort_perm children _).flatMap_right contents).trans ?_
  rw [listingBelow_eq_flatMap, List.map_flatMap]
  refine List.Perm.flatMap_left children fun child hmem => (h child hmem).trans (.of_eq ?_)
  rw [List.map_map]
  rfl

/-- The values of an entry are those of the leaves. -/
theorem contents_foldEntry_perm (key : String) (trie : Trie α) :
    (foldEntry Layout.object Layout.value false key trie).value.contents ~
      (listing trie).map Leaf.value := by
  induction trie using inductChildren generalizing key with
  | leaf content order => exact .refl _
  | branch order children ih =>
    rw [foldEntry_branch Layout.object Layout.value key order (by simp), contents_fields, listing]
    exact flatMap_contents_perm fun child hmem => ih child hmem child.1

/-- A trie whose values stay as they are stays as it is. -/
theorem map_id (trie : Trie α) : map id trie = trie := by
  induction trie using inductChildren with
  | leaf content order => rfl
  | branch order children ih =>
    have hchildren : mapBelow id children = children := by
      induction children with
      | nil => rfl
      | cons child rest ihrest =>
        obtain ⟨hchild, hrest⟩ := List.forall_mem_cons.mp ih
        rw [mapBelow, hchild, ihrest hrest]
    rw [map, hchildren]

/-- A key that names were joined to is written in quotes. -/
theorem renderKey_dotted (name key : String) :
    renderKey (dotted name key) = Json.quote (dotted name key) := by
  have hbare : Text.isBare (dotted name key) = false := by
    rw [Bool.eq_false_iff]
    intro hbare
    have hdot : '.' ∈ (dotted name key).toList := by simp [dotted]
    have hpart := Text.isIdentifierPart_of_mem (Text.isIdentifier_of_isBare hbare) _ hdot
    revert hpart
    decide
  rw [renderKey, hbare]
  rfl

/-- Folding a branch with compression is folding the contracted branch without, whatever object
constructions and values become. In the text of either, the values of the leaves stand each once and
in the same order, and the keys that names were joined to stand in quotes. -/
theorem contraction_fold (order : Int) (children : Fields (Trie α)) :
    (∀ (β : Type) (object : Fields β → β) (value : α → β), fold object value true children =
      fold object value false (contract (.branch order children)).children) ∧
    (∃ contents, contents ~ (listingBelow children).map Leaf.value ∧
      ∀ compress, Prints contents fun write =>
        fold Query.renderObject write compress children) ∧
    ∀ name next rest, renderKey (joined (name :: next :: rest)) =
      Json.quote (joined (name :: next :: rest)) := by
  refine ⟨fun β object value => fold_contract object value (.branch order children), ?_,
    fun name next rest => renderKey_dotted name (joined (next :: rest))⟩
  let layout (compress : Bool) := fold Layout.object Layout.value compress children
  have hlayout (compress : Bool) : (layout compress).contents = _ :=
    contents_fields compress children
  have hsame : (layout true).contents = (layout false).contents := by
    rw [hlayout, hlayout]
    exact List.flatMap_congr fun child _ => contents_foldEntry child.1 child.2
  refine ⟨(layout false).contents, ?_, fun compress => ?_⟩
  · rw [hlayout]
    exact flatMap_contents_perm fun child _ => contents_foldEntry_perm child.1 child.2
  · have heval (write : α → String) : fold Query.renderObject write compress children =
        (layout compress).eval Query.renderObject write := by
      have hmap := fold_map Query.renderObject write id compress (.branch order children)
      rwa [map_id] at hmap
    have hcontents : (layout compress).contents = (layout false).contents := by
      cases compress with
      | false => rfl
      | true => exact hsame
    simp only [heval, ← hcontents]
    exact Prints.render_layout _

end Trie

end Projector
