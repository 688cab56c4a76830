import Projector.Address.Arithmetic
import Projector.Outline.Node

/-!
# Building outlines

The outline of a document has a node for the document, for every field of an object it reaches,
and for every field of the first element of a list that starts with an object. Below any other
list there is nothing.
-/

namespace Projector.Node

/-- The key of the root. -/
def rootKey : String := "root"

/-- A node as it is built: collapsed and not selected. -/
def fresh (key address : String) (kind : Kind) (origin : Path) (children : List Node) : Node :=
  .mk { key, address, kind, expanded := false, selected := false, origin } children

mutual

/-- The node of a value that is reached under a key at an address, which is that of a path. -/
def build (key address : String) (path : Path) : Json → Node
  | .obj fields => fresh key address .object path (buildFields address false path fields)
  | .arr [] => fresh key address (.array 0) path []
  | .arr (.obj fields :: rest) =>
    fresh key address (.array (rest.length + 1)) path
      (buildFields address true (path ++ [.each]) fields)
  | .arr (_ :: rest) => fresh key address (.array (rest.length + 1)) path []
  | value => fresh key address (.leaf value) path []

/-- The nodes of some fields of a parent, or of its elements, behind a path. -/
def buildFields (parent : String) (inArray : Bool) (base : Path) : List (String × Json) → List Node
  | [] => []
  | (key, value) :: rest =>
    build key (Address.child parent key inArray) (base ++ [.field key]) value ::
      buildFields parent inArray base rest

end

/-- The outline of a document, of which only the root is expanded. -/
def ofDocument (document : Json) : Node :=
  match build rootKey Address.root [] document with
  | .mk label children => .mk { label with expanded := true } children

end Projector.Node
