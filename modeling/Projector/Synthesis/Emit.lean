import Projector.Config
import Projector.Following
import Projector.Query.Basic
import Projector.Selection
import Projector.Synthesis.Group
import Projector.Trie

/-!
# From a selection to a query

The query of a selection builds an object with every selected field where it is shown. Fields that
are shown outside every list form one object construction. Fields inside lists are grouped by the
outermost list: a group becomes the list of what the same procedure makes of its fields inside one
element, wrapped in an object for each key on the way to the list. The pieces are multiplied.

Inside an element a value is read from the element when it lives there, and from the whole document
through the root variable otherwise; the variable is bound when some field is relocated. What a
group runs through is where its list lives, so fields moved into the list do not change it.
-/

namespace Projector

namespace Synthesis

/-- What a part of a query is evaluated on: the whole document, or an element of a list, given the
path of its elements. -/
inductive Scope
  | document
  | element (base : Path)

/-- What lives at a path, read from the whole document through the root variable. -/
def absolute (config : Config) (source : Path) : Query := .read (.var config.rootVariable) source

/-- What lives at a path, read in a scope in which it is shown at another. In the whole document it
is read directly when it is shown where it lives, in an element when it lives in the element. -/
def locate (config : Config) (scope : Scope) (shown source : Path) : Query :=
  match scope with
  | .document => if source = shown then .read .input source else absolute config source
  | .element base =>
    match following? base source with
    | some rest => .read .input rest
    | none => absolute config source

/-- The elements that a group runs through: those of its list where one of its fields says it
lives, and otherwise where it is shown. -/
def Group.base (scope : Scope) (group : Group) : Path :=
  match group.list?, scope with
  | some list, _ => list ++ [.each]
  | none, .document => elementsAt group.keys
  | none, .element base => base ++ elementsAt group.keys

/-- Wraps a query in an object construction for each key, the first one outermost. -/
def wrap (keys : List String) (query : Query) : Query :=
  keys.foldr (fun key inside => .object [(key, inside)]) query

/-- The value of a field read in a scope. -/
def Item.value (config : Config) (scope : Scope) (item : Item) : Query :=
  locate config scope item.rest item.source

/-- The values of the fields that are shown at the scope itself. -/
def wholes (config : Config) (scope : Scope) (items : List Item) : List Query :=
  (items.filter fun item => item.rest.isEmpty).map (Item.value config scope)

/-- A field shown below the scope and outside every list, as a field of an object construction. -/
def Item.plain? (config : Config) (scope : Scope) (item : Item) : Option (Trie.Item Query) :=
  if Path.hasEach item.rest then none
  else Trie.Item.ofPath? (Path.names item.rest) (item.value config scope) item.order

/-- The object construction of the fields shown outside every list, if there are any. -/
def plains (config : Config) (scope : Scope) (items : List Item) : List Query :=
  match items.filterMap (Item.plain? config scope) with
  | [] => []
  | fields => [Trie.fold .object id config.compressPaths (Trie.ofItems fields).children]

/-- What the fields of a scope become: their values, an object construction and the lists of their
groups, multiplied. -/
def emit (config : Config) (scope : Scope) (items : List Item) : Query :=
  let lists := (Group.ofItems items).attach.map fun ⟨group, _⟩ =>
    let base := group.base scope
    let run := locate config scope (elementsAt group.keys) base
    wrap group.keys (.collect (.pipe run (emit config (.element base) group.members)))
  .product (wholes config scope items ++ plains config scope items ++ lists)
termination_by height items
decreasing_by exact Group.height_members_lt ‹_›

/-- An entry with its addresses read. -/
def Item.ofEntry (entry : Entry) : Except Address.Fault Item := do
  let rest ← Address.parse entry.display
  let source ← Address.parse entry.source
  let arrays ← entry.arrays.mapM Address.parse
  .ok { rest, source, order := entry.order, arrays }

/-- Whether a field is read from elsewhere than where it is shown. -/
def Item.isRelocated (item : Item) : Bool := decide (item.rest ≠ item.source)

/-- The query of some fields: the identity when there are none, and otherwise what they become on
the whole document, with the root variable bound when one of them is relocated. -/
def ofItems (config : Config) (items : List Item) : Query :=
  if items.isEmpty then .input
  else
    let body := emit config .document items
    if items.any Item.isRelocated then .bind config.rootVariable body else body

/-- The query of a selection. Entries may come in any order; their orders count. -/
def query (config : Config) (entries : List Entry) : Except Address.Fault Query := do
  let items ← (Trie.sortByOrder Entry.order entries).mapM Item.ofEntry
  .ok (ofItems config items)

/-- The text of the query of a selection. -/
def expression (config : Config) (entries : List Entry) : Except Address.Fault String :=
  (query config entries).map Query.render

end Synthesis

/-- The text of the query for some addresses of a document: those of nodes that can be selected,
each counted once, in the order of the document. -/
def expressionFor (config : Config) (document : Json) (addresses : List String) :
    Except Address.Fault String := do
  let toggle (root : Node) (address : String) : Node := (root.toggle? address).getD root
  let outline := addresses.eraseDups.foldl toggle (Node.ofDocument document)
  let entries ← outline.plainSelection
  Synthesis.expression config entries

end Projector
