import Mathlib.Algebra.Group.Submonoid.Defs
import Projector.Proofs.ReadValues

/-!
# Columns of outputs

An object construction and a product of objects have a row for every choice of one output for each
of their parts. Seen as a table, the column of a part has the outputs of this part in their order,
each several times in place and all several times in turn. How often is a product of the numbers of
outputs of other parts: it is among any numbers that have these among them, and one, and products.
A list construction has one output, so a product with it adds a column and no rows.
-/

namespace Projector

/-! ## Repetitions -/

section Spread

variable {α β : Type}

/-- Values of which each is repeated in place, and all are repeated in turn. -/
def spread (times each : Nat) (values : List α) : List α :=
  (List.replicate times (values.flatMap (List.replicate each))).flatten

/-- Values that are only repeated in turn. -/
theorem spread_one_right (times : Nat) (values : List α) :
    spread times 1 values = (List.replicate times values).flatten := by
  have hplain : values.flatMap (List.replicate 1) = values := List.flatMap_singleton' values
  rw [spread, hplain]

/-- Values that are not repeated. -/
@[simp] theorem spread_one_one (values : List α) : spread 1 1 values = values := by
  simp [spread_one_right]

/-- Values that stand once for each of others are repeated in turn. -/
theorem flatMap_const_eq_spread (others : List β) (values : List α) :
    (others.flatMap fun _ => values) = spread others.length 1 values := by
  rw [spread_one_right, List.flatMap_def, List.map_const']

/-- No values are repeated. -/
@[simp] theorem spread_nil (times each : Nat) : spread times each ([] : List α) = [] := by
  simp [spread]

/-- What is done to each of some repeated values is done to the values. -/
theorem map_spread (change : α → β) (times each : Nat) (values : List α) :
    (spread times each values).map change = spread times each (values.map change) := by
  simp [spread, List.map_flatMap, List.flatMap_map]

/-- Repeated values, each of which is repeated in place. -/
theorem flatMap_replicate_spread (times each each' : Nat) (values : List α) :
    (spread times each values).flatMap (List.replicate each') =
      spread times (each * each') values := by
  rw [spread, ← List.flatMap_id, List.flatMap_assoc, List.flatMap_replicate, id, List.flatMap_assoc]
  simp only [List.flatMap_replicate, List.flatten_replicate_replicate]
  rfl

/-- Values that are repeated twice are repeated as often as both together say. -/
theorem spread_spread (times each times' each' : Nat) (values : List α) :
    spread times each (spread times' each' values) =
      spread (times * times') (each' * each) values := by
  rw [spread, flatMap_replicate_spread, spread, ← List.map_replicate, ← List.flatten_flatten,
    List.flatten_replicate_replicate]
  rfl

end Spread

/-! ## What stands at a key path -/

namespace Json

/-- The value at a key path of an object, if it has one there. -/
def lookup? : Json → List String → Option Json
  | value, [] => some value
  | .obj fields, name :: names => (Fields.get? fields name).bind fun part => lookup? part names
  | _, _ :: _ => none

/-- Below a key of an object stands what is below it in the value under the key. -/
theorem lookup?_obj (fields : Fields Json) (name : String) (names : List String) :
    (obj fields).lookup? (name :: names) = (Fields.get? fields name).bind (·.lookup? names) := rfl

/-- The fields of a value, if it is an object. -/
def fieldsOf : Option Json → Fields Json
  | some (.obj fields) => fields
  | _ => []

/-- What stands below a key of a value is below it among the fields. -/
theorem bind_lookup? (known : Option Json) (name : String) (names : List String) :
    known.bind (·.lookup? (name :: names)) =
      (Fields.get? (fieldsOf known) name).bind (·.lookup? names) := by
  cases known with
  | none => rfl
  | some value => cases value <;> rfl

/-- An object with a single field written over a value is written among its fields. -/
theorem overlay_singleton (known : Option Json) (key : String) (value : Json) :
    overlay known (.obj [(key, value)]) = .obj (Fields.put (fieldsOf known) key
      (overlay (Fields.get? (fieldsOf known) key) value)) := by
  have hfresh : obj [(key, value)] =
      .obj (Fields.put [] key (overlay (Fields.get? [] key) value)) := by
    simp [Fields.put, Fields.get?, overlay_none]
  cases known with
  | none => exact hfresh
  | some older =>
    cases older with
    | obj fields => simp [overlay, mergeFields, fieldsOf]
    | _ => exact hfresh

/-- What stands below a key after an object with a single field was written over a value. -/
theorem lookup?_overlay_singleton (known : Option Json) (key name : String) (value : Json)
    (names : List String) :
    (overlay known (.obj [(key, value)])).lookup? (name :: names) =
      if key = name then (overlay (Fields.get? (fieldsOf known) key) value).lookup? names
      else known.bind (·.lookup? (name :: names)) := by
  rw [overlay_singleton, lookup?_obj, Fields.get?_put, bind_lookup?]
  split <;> rfl

/-- A list that is written at some keys stands there. -/
theorem lookup?_overlay_nested (known : Option Json) (keys : List String) (items : List Json) :
    (overlay known (nested keys (.arr items))).lookup? keys = some (.arr items) := by
  induction keys generalizing known with
  | nil => rfl
  | cons key keys ih =>
    rw [nested, List.foldr_cons, ← nested, lookup?_overlay_singleton, if_pos rfl]
    exact ih _

/-- A value below some keys stands at these keys. -/
theorem lookup?_nested (keys : List String) (items : List Json) :
    (nested keys (.arr items)).lookup? keys = some (.arr items) := by
  rw [← overlay_none (nested keys (.arr items))]
  exact lookup?_overlay_nested none keys items

/-- What is written at some keys leaves what stands at a path apart from them. -/
theorem lookup?_overlay_apart (known : Option Json) {keys path : List String}
    (hapart : Leaves.Apart path keys) (value : Json) :
    (overlay known (nested keys value)).lookup? path = known.bind (·.lookup? path) := by
  induction keys generalizing known path with
  | nil => exact absurd hapart.symm (Leaves.not_apart_nil path)
  | cons key keys ih =>
    cases path with
    | nil => exact absurd hapart (Leaves.not_apart_nil _)
    | cons name path =>
      rw [nested, List.foldr_cons, ← nested, lookup?_overlay_singleton]
      split
      · rename_i hkey
        subst hkey
        rw [ih _ (Leaves.apart_cons.mp hapart), bind_lookup?]
      · rfl

end Json

namespace Query

variable {bound : Fields Json} {value : Json}

/-! ## Rows of an object construction -/

/-- A query whose number of outputs, when its evaluation is tame, is among some numbers. -/
def Counts (bound : Fields Json) (value : Json) (counts : Submonoid ℕ) (query : Query) : Prop :=
  query.isTame bound value = true →
    ∃ outputs, query.eval bound value = .all outputs ∧ outputs.length ∈ counts

/-- A column of some rows holds the outputs of a query: each of them several times in place and all
of them several times in turn, where how often is among some numbers. When zero is one of these the
column may have no rows, although the query may have outputs. -/
def Holds (bound : Fields Json) (value : Json) (counts : Submonoid ℕ) (query : Query)
    (column : List (Option Json)) : Prop :=
  (column = [] ∧ 0 ∈ counts) ∨
    ∃ outputs, query.isTame bound value = true ∧ query.eval bound value = .all outputs ∧
      ∃ times ∈ counts, ∃ each ∈ counts, column = (spread times each outputs).map some

variable {counts : Submonoid ℕ}

/-- What a query has as its outputs is what is counted. -/
theorem Counts.length_mem {query : Query} (h : Counts bound value counts query)
    (htame : query.isTame bound value = true) {outputs : List Json}
    (heval : query.eval bound value = .all outputs) : outputs.length ∈ counts := by
  obtain ⟨counted, hcounted, hmem⟩ := h htame
  obtain rfl : outputs = counted := congrArg Outputs.values (heval.symm.trans hcounted)
  exact hmem

/-- A column that is repeated holds what it held. -/
theorem Holds.spread {query : Query} {column : List (Option Json)}
    (h : Holds bound value counts query column) {times each : ℕ} (htimes : times ∈ counts)
    (heach : each ∈ counts) : Holds bound value counts query (spread times each column) := by
  rcases h with ⟨rfl, hzero⟩ | ⟨outputs, htame, heval, times', htimes', each', heach', rfl⟩
  · exact .inl ⟨spread_nil _ _, hzero⟩
  · refine .inr ⟨outputs, htame, heval, times * times', mul_mem htimes htimes', each' * each,
      mul_mem heach' heach, ?_⟩
    rw [← map_spread, spread_spread]

/-- Rows of fields as some entries construct them: the column under a key holds the outputs of the
entry with this key, repeated as the other entries count, and there are as many rows as all entries
count. -/
structure Tabulates (bound : Fields Json) (value : Json) (entries : List (String × Query))
    (rows : List (Fields Json)) : Prop where
  column : ∀ {counts : Submonoid ℕ}, ∀ entry ∈ entries,
    (∀ other ∈ entries, other.1 ≠ entry.1 → Counts bound value counts other.2) →
    Holds bound value counts entry.2 (rows.map fun row => Fields.get? row entry.1)
  count : ∀ {counts : Submonoid ℕ}, (∀ entry ∈ entries, Counts bound value counts entry.2) →
    rows.length ∈ counts

/-- There are no rows when the first entry has no outputs. -/
theorem tabulates_none {first : String × Query} {rest : List (String × Query)}
    (htame : first.2.isTame bound value = true) (heval : first.2.eval bound value = .all [])
    (hnew : first.1 ∉ Fields.names rest) : Tabulates bound value (first :: rest) [] := by
  constructor
  · intro counts entry hentry hothers
    rcases List.mem_cons.mp hentry with rfl | hentry
    · exact .inr ⟨[], htame, heval, 1, one_mem _, 1, one_mem _, rfl⟩
    · have hdiffer : first.1 ≠ entry.1 := fun hkey => hnew (hkey ▸ List.mem_map_of_mem hentry)
      exact .inl ⟨rfl, (hothers first List.mem_cons_self hdiffer).length_mem htame heval⟩
  · exact fun hall => (hall first List.mem_cons_self).length_mem htame heval

/-- Each output of a first entry is written in front of each row that the others construct. -/
theorem Tabulates.cons {rest : List (String × Query)} {rows : List (Fields Json)}
    (h : Tabulates bound value rest rows) {first : String × Query} {outputs : List Json}
    (htame : first.2.isTame bound value = true)
    (heval : first.2.eval bound value = .all outputs) (hnew : first.1 ∉ Fields.names rest) :
    Tabulates bound value (first :: rest)
      (outputs.flatMap fun output => rows.map ((first.1, output) :: ·)) := by
  have hdiffer : ∀ entry ∈ rest, first.1 ≠ entry.1 := by
    intro entry hentry hkey
    exact hnew (hkey ▸ List.mem_map_of_mem hentry)
  constructor
  · intro counts entry hentry hothers
    rcases List.mem_cons.mp hentry with rfl | hentry
    · have hrows : rows.length ∈ counts := h.count fun other hother =>
        hothers other (List.mem_cons_of_mem _ hother) (hdiffer other hother).symm
      refine .inr ⟨outputs, htame, heval, 1, one_mem _, rows.length, hrows, ?_⟩
      simp [spread, List.map_flatMap, Fields.get?, Function.comp_def, List.map_const']
    · have hcolumn : ((outputs.flatMap fun output => rows.map ((first.1, output) :: ·)).map
          fun row => Fields.get? row entry.1) =
          spread outputs.length 1 (rows.map fun row => Fields.get? row entry.1) := by
        have hread : ∀ (output : Json) (row : Fields Json),
            Fields.get? ((first.1, output) :: row) entry.1 = Fields.get? row entry.1 :=
          fun output row => if_neg (hdiffer entry hentry)
        simp only [List.map_flatMap, List.map_map, Function.comp_def, hread]
        exact flatMap_const_eq_spread _ _
      have hfirst := hothers first List.mem_cons_self (hdiffer entry hentry)
      rw [hcolumn]
      refine (h.column entry hentry fun other hother => ?_).spread
        (hfirst.length_mem htame heval) (one_mem _)
      exact hothers other (List.mem_cons_of_mem _ hother)
  · intro counts hall
    have hrows := h.count fun entry hentry => hall entry (List.mem_cons_of_mem _ hentry)
    have hproduct := mul_mem ((hall first List.mem_cons_self).length_mem htame heval) hrows
    simpa [List.length_flatMap] using hproduct

/-- Entries with different keys, each with some outputs, construct a row for each choice of one
output of every entry. -/
theorem evalEntries_all {entries : List (String × Query)} (hdistinct : Fields.Distinct entries)
    (htame : areTame bound entries value = true)
    (h : ∀ entry ∈ entries, entry.2.isTame bound value = true →
      ∃ outputs, entry.2.eval bound value = .all outputs) :
    ∃ rows : List (Fields Json), Tabulates bound value entries rows ∧
      ∀ fields : Fields Json, (Fields.names fields ++ Fields.names entries).Nodup →
        evalEntries bound entries fields value =
          .all (rows.map fun row => .obj (fields ++ row)) := by
  induction entries with
  | nil => exact ⟨[[]], ⟨by simp, by simp⟩, fun fields _ => by simp [evalEntries]; rfl⟩
  | cons first rest ih =>
    obtain ⟨hnew, hrest⟩ := List.nodup_cons.mp hdistinct
    rw [areTame, Bool.and_eq_true] at htame
    obtain ⟨outputs, heval⟩ := h _ List.mem_cons_self htame.1
    by_cases hnone : outputs = []
    · subst hnone
      refine ⟨[], tabulates_none htame.1 heval hnew, fun fields _ => ?_⟩
      rw [evalEntries, heval]
      rfl
    · have hrestTame : areTame bound rest value = true := by
        simpa [heval, Outputs.all, hnone] using htame.2
      obtain ⟨rows, hrows, hgives⟩ :=
        ih hrest hrestTame fun entry hentry => h entry (List.mem_cons_of_mem _ hentry)
      refine ⟨_, hrows.cons htame.1 heval hnew, fun fields hfields => ?_⟩
      have hfresh : first.1 ∉ Fields.names fields := by
        intro hmem
        exact (List.nodup_append.mp hfields).2.2 first.1 hmem first.1 (by simp [Fields.names]) rfl
      have hnext : ∀ output ∈ outputs,
          evalEntries bound rest (Fields.put fields first.1 output) value =
            .all (rows.map fun row => .obj (fields ++ (first.1, output) :: row)) := by
        intro output _
        rw [Fields.put_of_not_mem hfresh, hgives _ (by simpa [Fields.names] using hfields)]
        simp
      rw [evalEntries, heval, Outputs.bind_all_eq hnext]
      simp [List.map_flatMap, Function.comp_def]

/-! ## Rows of a folded trie -/

/-- Rows of values as the queries at some leaves construct them: the column at a path holds the
outputs of the query there, repeated as the other queries count, and there are as many rows as all
queries count. -/
structure Spreads (bound : Fields Json) (value : Json) (leaves : Leaves Query)
    (rows : List Json) : Prop where
  column : ∀ {counts : Submonoid ℕ}, ∀ path query, leaves path query →
    (∀ way other, leaves way other → way ≠ path → Counts bound value counts other) →
    Holds bound value counts query (rows.map (·.lookup? path))
  count : ∀ {counts : Submonoid ℕ},
    (∀ path query, leaves path query → Counts bound value counts query) → rows.length ∈ counts

/-- A single leaf has the outputs of its query as its rows. -/
theorem spreads_leaf {leaves : Leaves Query} {query : Query}
    (honly : ∀ path other, leaves path other → path = [] ∧ other = query)
    (hself : leaves [] query) (htame : query.isTame bound value = true) {outputs : List Json}
    (heval : query.eval bound value = .all outputs) : Spreads bound value leaves outputs := by
  constructor
  · intro counts path other hleaf _
    obtain ⟨rfl, rfl⟩ := honly path other hleaf
    refine .inr ⟨outputs, htame, heval, 1, one_mem _, 1, one_mem _, ?_⟩
    rw [spread_one_one]
    exact List.map_congr_left fun output _ => by cases output <;> rfl
  · exact fun hall => (hall [] query hself).length_mem htame heval

/-- The object construction of some entries has rows as the leaves behind their keys construct
them, when every entry has. -/
theorem eval_object_all {leaves : Leaves Query} {entries : List (String × Query)}
    (hdistinct : Fields.Distinct entries) (hnone : ∀ query, ¬leaves [] query)
    (hcovered : ∀ key path query, leaves (key :: path) query → ∃ entry ∈ entries, entry.1 = key)
    (hentry : ∀ entry ∈ entries, entry.2.isTame bound value = true →
      ∃ rows, entry.2.eval bound value = .all rows ∧
        Spreads bound value (leaves.below entry.1) rows)
    (htame : (object entries).isTame bound value = true) :
    ∃ rows : List (Fields Json), (object entries).eval bound value = .all (rows.map .obj) ∧
      Spreads bound value leaves (rows.map .obj) := by
  obtain ⟨rows, htable, hgives⟩ := evalEntries_all hdistinct htame fun entry hmem htame =>
    (hentry entry hmem htame).imp fun _ h => h.1
  have hcount : ∀ {counts : Submonoid ℕ}, ∀ entry ∈ entries,
      (∀ path query, leaves (entry.1 :: path) query → Counts bound value counts query) →
        Counts bound value counts entry.2 := by
    intro counts entry hmem hleaves htame
    obtain ⟨rows, heval, hrows⟩ := hentry entry hmem htame
    exact ⟨rows, heval, hrows.count hleaves⟩
  have hfresh : (Fields.names ([] : Fields Json) ++ Fields.names entries).Nodup := by
    rw [Fields.names, List.map_nil, List.nil_append]
    exact hdistinct
  refine ⟨rows, hgives [] hfresh, ?_, ?_⟩
  · intro counts path query hleaf hothers
    cases path with
    | nil => exact absurd hleaf (hnone query)
    | cons key path =>
      obtain ⟨entry, hmem, rfl⟩ := hcovered key path query hleaf
      rcases htable.column entry hmem fun other hother hne => hcount other hother
          fun rest query hrest => hothers _ query hrest fun heq => hne (List.cons.inj heq).1 with
        ⟨hempty, hzero⟩ | ⟨outputs, htame, heval, times, htimes, each, heach, hcolumn⟩
      · rw [List.map_eq_nil_iff.mp hempty]
        exact .inl ⟨rfl, hzero⟩
      · obtain ⟨inner, hinner, hrows⟩ := hentry entry hmem htame
        obtain rfl : outputs = inner := congrArg Outputs.values (heval.symm.trans hinner)
        have hbelow : (rows.map Json.obj).map (·.lookup? (entry.1 :: path)) =
            spread times each (outputs.map (·.lookup? path)) := by
          have hread : (rows.map Json.obj).map (·.lookup? (entry.1 :: path)) =
              (rows.map fun row => Fields.get? row entry.1).map (·.bind (·.lookup? path)) := by
            simp [Json.lookup?_obj, Function.comp_def]
          rw [hread, hcolumn, ← map_spread, List.map_map]
          rfl
        rw [hbelow]
        refine (hrows.column path query hleaf fun way other hother hne => ?_).spread htimes heach
        exact hothers _ other hother fun heq => hne (List.cons.inj heq).2
  · intro counts hall
    rw [List.length_map]
    exact htable.count fun entry hmem => hcount entry hmem fun path query => hall _ query

/-- The children of a branch as the entries of an object construction, which has rows as the leaves
construct them when the entry of every child has. -/
theorem eval_branch_all {leaves : Leaves Query} {order : Int} {children : Fields (Trie Query)}
    (hspans : (Trie.branch order children).Spans leaves)
    (hchild : ∀ key child, Fields.get? children key = some child →
      (Trie.foldEntry .object id false key child).value.isTame bound value = true →
      ∃ rows, (Trie.foldEntry .object id false key child).value.eval bound value = .all rows ∧
        Spreads bound value (leaves.below key) rows)
    (htame : (Trie.fold .object id false children).isTame bound value = true) :
    ∃ rows : List (Fields Json),
      (Trie.fold .object id false children).eval bound value = .all (rows.map .obj) ∧
        Spreads bound value leaves (rows.map .obj) := by
  cases hspans with
  | branch hnone hdistinct hcovered _ _ =>
    refine eval_object_all (distinct_fields_foldEntries hdistinct) hnone ?_ ?_ htame
    · intro key path query hleaf
      obtain ⟨child, hget⟩ := Option.isSome_iff_exists.mp (hcovered key path query hleaf)
      exact ⟨_, mem_fields_foldEntries.mpr ⟨_, Fields.mem_of_get? hget, rfl⟩, rfl⟩
    · intro entry hentry
      obtain ⟨⟨key, child⟩, hmem, rfl⟩ := mem_fields_foldEntries.mp hentry
      exact hchild key child (Fields.get?_of_mem hdistinct hmem)

/-- The entry of a trie whose leaves have some outputs each has rows as the leaves construct
them. -/
theorem eval_foldEntry_all {leaves : Leaves Query} {trie : Trie Query} (hspans : trie.Spans leaves)
    (hleaf : ∀ path query, leaves path query → query.isTame bound value = true →
      ∃ outputs, query.eval bound value = .all outputs) (key : String)
    (htame : (Trie.foldEntry .object id false key trie).value.isTame bound value = true) :
    ∃ rows, (Trie.foldEntry .object id false key trie).value.eval bound value = .all rows ∧
      Spreads bound value leaves rows := by
  induction hspans generalizing key with
  | @leaf leaves query order hself honly =>
    rw [Trie.foldEntry] at htame ⊢
    obtain ⟨outputs, houtputs⟩ := hleaf [] query hself htame
    exact ⟨outputs, houtputs, spreads_leaf honly hself htame houtputs⟩
  | @branch leaves order children hnone hdistinct hcovered hinhabited hchild ih =>
    have hbranch : (Trie.branch order children).Spans leaves :=
      .branch hnone hdistinct hcovered hinhabited hchild
    obtain ⟨rows, heval, hrows⟩ := eval_branch_all hbranch (fun name child hget htame =>
      ih name child hget (fun path query => hleaf _ query) name htame) htame
    exact ⟨_, heval, hrows⟩

/-- The object construction that a trie is folded into has rows as the leaves construct them. -/
theorem eval_fold_all {leaves : Leaves Query} {order : Int} {children : Fields (Trie Query)}
    (hspans : (Trie.branch order children).Spans leaves)
    (hleaf : ∀ path query, leaves path query → query.isTame bound value = true →
      ∃ outputs, query.eval bound value = .all outputs)
    (htame : (Trie.fold .object id false children).isTame bound value = true) :
    ∃ rows : List (Fields Json),
      (Trie.fold .object id false children).eval bound value = .all (rows.map .obj) ∧
        Spreads bound value leaves (rows.map .obj) := by
  refine eval_branch_all hspans (fun key child hget htame => ?_) htame
  cases hspans with
  | branch _ _ _ _ hchild =>
    exact eval_foldEntry_all (hchild key child hget) (fun path query => hleaf _ query) key htame

/-! ## Products with lists -/

/-- A change of rows that adds the lists of some queries, each at its keys, and leaves alone what is
apart from the keys. -/
structure Adds (bound : Fields Json) (value : Json) (keyses : List (List String))
    (listOf : List String → Query) (change : Fields Json → Fields Json) : Prop where
  kept : ∀ row path, (∀ keys ∈ keyses, Leaves.Apart path keys) →
    (Json.obj (change row)).lookup? path = (Json.obj row).lookup? path
  added : ∀ keys ∈ keyses, ∃ items, (listOf keys).isTame bound value = true ∧
    (listOf keys).eval bound value = .one (.nested keys (.arr items)) ∧
    ∀ row, (Json.obj (change row)).lookup? keys = some (.arr items)

/-- One more list is added at keys that are apart from the others. -/
theorem Adds.concat {keyses : List (List String)} {listOf : List String → Query}
    {change : Fields Json → Fields Json} (h : Adds bound value keyses listOf change)
    {key : String} {keys : List String} {items : List Json}
    (htame : (listOf (key :: keys)).isTame bound value = true)
    (heval : (listOf (key :: keys)).eval bound value = .one (.nested (key :: keys) (.arr items)))
    (hapart : ∀ others ∈ keyses, Leaves.Apart others (key :: keys)) :
    Adds bound value (keyses ++ [key :: keys]) listOf
      fun row => Json.mergeFields (change row) [(key, .nested keys (.arr items))] := by
  constructor
  · intro row path hpath
    have hlast : Leaves.Apart path (key :: keys) := hpath _ (by simp)
    exact (Json.lookup?_overlay_apart (some (.obj (change row))) hlast _).trans
      (h.kept row path fun others hothers => hpath others (by simp [hothers]))
  · intro others hothers
    rcases List.mem_append.mp hothers with hothers | hothers
    · obtain ⟨inside, htame, heval, hadded⟩ := h.added others hothers
      refine ⟨inside, htame, heval, fun row => ?_⟩
      exact (Json.lookup?_overlay_apart (some (.obj (change row))) (hapart others hothers) _).trans
        (hadded row)
    · rw [List.mem_singleton.mp hothers]
      exact ⟨items, htame, heval, fun row =>
        Json.lookup?_overlay_nested (some (.obj (change row))) (key :: keys) items⟩

/-- A product with an object writes this object over each row. -/
theorem eval_times_all {left right : Query} {rows : List (Fields Json)} {fields : Fields Json}
    (hleft : left.eval bound value = .all (rows.map .obj))
    (hright : right.eval bound value = .one (.obj fields)) :
    (times left right).eval bound value =
      .all ((rows.map fun row => Json.mergeFields row fields).map .obj) := by
  have hnext : ∀ row ∈ rows.map Json.obj, multiply row (.obj fields) =
      .all [Json.overlay (some row) (.obj fields)] := by
    intro row hrow
    obtain ⟨older, -, rfl⟩ := List.mem_map.mp hrow
    rfl
  rw [eval, hright, Outputs.bind_one, hleft, Outputs.bind_all_eq hnext, ← List.map_eq_flatMap,
    List.map_map, List.map_map]
  rfl

/-- A product with queries of one list each, at keys that are apart, adds these lists to each
row. -/
theorem eval_foldl_times_all {first : Query} {keyses : List (List String)}
    {listOf : List String → Query}
    (hlists : ∀ keys ∈ keyses, (listOf keys).isTame bound value = true →
      ∃ items, (listOf keys).eval bound value = .one (.nested keys (.arr items)))
    (hne : [] ∉ keyses) (hapart : keyses.Pairwise Leaves.Apart)
    (htame : ((keyses.map listOf).foldl times first).isTame bound value = true) :
    first.isTame bound value = true ∧ ∃ change, Adds bound value keyses listOf change ∧
      ∀ rows : List (Fields Json), first.eval bound value = .all (rows.map .obj) →
        ((keyses.map listOf).foldl times first).eval bound value =
          .all ((rows.map change).map .obj) := by
  induction keyses using List.reverseRecOn with
  | nil =>
    exact ⟨htame, id, ⟨fun _ _ _ => rfl, by simp⟩, fun rows heval => by simpa using heval⟩
  | append_singleton keyses keys ih =>
    obtain ⟨hbefore, -, hlast⟩ := List.pairwise_append.mp hapart
    rw [List.map_append, List.foldl_append, List.map_singleton, List.foldl_cons, List.foldl_nil,
      isTame, Bool.and_eq_true] at htame
    obtain ⟨items, heval⟩ := hlists keys (by simp) htame.1
    have hleft : ((keyses.map listOf).foldl times first).isTame bound value = true := by
      simpa [heval] using htame.2
    obtain ⟨hfirst, change, hadds, hgives⟩ :=
      ih (fun others hothers => hlists others (by simp [hothers]))
        (fun hnil => hne (by simp [hnil])) hbefore hleft
    cases keys with
    | nil => simp at hne
    | cons key keys =>
      refine ⟨hfirst, _, hadds.concat htame.1 heval fun others hothers =>
        hlast others hothers _ (List.mem_singleton_self _), fun rows hrows => ?_⟩
      rw [List.map_append, List.foldl_append, List.map_singleton, List.foldl_cons, List.foldl_nil,
        eval_times_all (hgives rows hrows) heval, List.map_map (f := change)]
      rfl

end Query

end Projector
