import Projector.Fields

/-!
# Key tries

The fields of an output object form a trie over their key paths. Every node carries an order: a
leaf that of its field, a branch that of the first field below it. A trie is folded into nested
object constructions whose entries stand in ascending order; when paths are compressed, a chain of
branches with a single child each becomes one entry whose key joins the names with dots.
-/

namespace Projector

/-- A trie over key paths with a value at each leaf. -/
inductive Trie (α : Type)
  /-- A field whose path ends here. -/
  | leaf (value : α) (order : Int)
  /-- What paths go on through here, by their next key. -/
  | branch (order : Int) (children : List (String × Trie α))

namespace Trie

variable {α β : Type}

/-- The trie of no fields. -/
def empty : Trie α := .branch 0 []

instance : Inhabited (Trie α) := ⟨empty⟩

/-- The order of a node among its siblings. -/
def order : Trie α → Int
  | .leaf _ order => order
  | .branch order _ => order

/-- A field to be put into a trie: a first key and the keys below it, its value and its order. -/
structure Item (α : Type) where
  /-- The first key of its path. -/
  key : String
  /-- The keys behind the first one. -/
  below : List String
  /-- The value of the field. -/
  value : α
  /-- Its place among all fields. -/
  order : Int

/-- A field at a path, which must not be empty. -/
def Item.ofPath? (path : List String) (value : α) (order : Int) : Option (Item α) :=
  match path with
  | [] => none
  | key :: below => some { key, below, value, order }

/-- The children of a branch; a leaf has none. -/
def children : Trie α → Fields (Trie α)
  | .leaf _ _ => []
  | .branch _ children => children

/-- What stands under a key after a field was put below it. A branch that is there already keeps
its order, and a leaf gives way. -/
def plant (value : α) (order : Int) : (below : List String) → Option (Trie α) → Trie α
  | [], _ => .leaf value order
  | key :: below, known =>
    match known with
    | some (.branch first children) =>
      .branch first
        (Fields.put children key (plant value order below (Fields.get? children key)))
    | _ => .branch order [(key, plant value order below none)]

/-- Children after a field was put among them. -/
def insert (children : Fields (Trie α)) (item : Item α) : Fields (Trie α) :=
  Fields.put children item.key
    (plant item.value item.order item.below (Fields.get? children item.key))

/-- Items in ascending order; those of equal order stay as they are. -/
def sortByOrder {γ : Type} (order : γ → Int) (items : List γ) : List γ :=
  items.mergeSort fun a b => decide (order a ≤ order b)

/-- The trie of some fields. Fields of lower order come first; a later field takes the place of an
earlier one whose path it meets. -/
def ofItems (items : List (Item α)) : Trie α :=
  let sorted := sortByOrder Item.order items
  .branch ((sorted.head?.map Item.order).getD 0) (sorted.foldl insert [])

/-- An entry of an object construction. -/
structure Folded (β : Type) where
  /-- The key it is written under. -/
  key : String
  /-- What is written under the key. -/
  value : β
  /-- Its place among its siblings. -/
  order : Int

/-- The fields of an object construction: its entries in ascending order. -/
def Folded.fields (entries : List (Folded β)) : Fields β :=
  (sortByOrder Folded.order entries).map fun entry => (entry.key, entry.value)

/-- Names joined by a dot. -/
def dotted (outer inner : String) : String := outer ++ "." ++ inner

mutual

/-- The entry of a node under a key. A branch becomes an object construction of the entries below
it, or, under compression, is joined with its only child. -/
def foldEntry (object : Fields β → β) (value : α → β) (compress : Bool) (key : String) :
    Trie α → Folded β
  | .leaf content order => { key, value := value content, order }
  | .branch order children =>
    match compress, foldEntries object value compress children with
    | true, [only] => { key := dotted key only.key, value := only.value, order }
    | _, entries => { key, value := object (Folded.fields entries), order }

/-- The entries of some children, in the order of the children. -/
def foldEntries (object : Fields β → β) (value : α → β) (compress : Bool) :
    List (String × Trie α) → List (Folded β)
  | [] => []
  | (key, child) :: rest =>
    foldEntry object value compress key child :: foldEntries object value compress rest

end

/-- The object construction of some children, given what an object construction and a value
become. -/
def fold (object : Fields β → β) (value : α → β) (compress : Bool)
    (children : Fields (Trie α)) : β :=
  object (Folded.fields (foldEntries object value compress children))

end Trie

end Projector
