/-!
# Path names

A path name is a root mark, which is empty for relative names, and the components behind it. Empty
components and those that stay where they are mean nothing and are dropped; those that lead up are
kept. Two slashes in front are a mark of their own.
-/

namespace Projector

/-- A path name in its normal form. -/
structure Pathname where
  /-- The root mark: none, one slash or two. -/
  root : String
  /-- The components that mean something. -/
  parts : List String
  deriving DecidableEq

namespace Pathname

/-- The mark between components. -/
def separator : Char := '/'

/-- The component that stays where it is. -/
def here : String := "."

/-- The component that leads up. -/
def up : String := ".."

/-- The pieces of a text between separators. -/
def pieces : List Char → List (List Char)
  | [] => [[]]
  | c :: rest =>
    if c = separator then [] :: pieces rest
    else
      match pieces rest with
      | [] => [[c]]
      | first :: others => (c :: first) :: others

/-- The root mark of a text. -/
def rootOf : List Char → String
  | '/' :: '/' :: '/' :: _ => "/"
  | '/' :: '/' :: _ => "//"
  | '/' :: _ => "/"
  | _ => ""

/-- Whether a component means something. -/
def isProper (part : String) : Bool := !part.isEmpty && part != here

/-- The path name that a text writes. -/
def ofText (text : String) : Pathname :=
  { root := rootOf text.toList
    parts := ((pieces text.toList).map String.ofList).filter isProper }

/-- A path name followed from another one; one with a root of its own stands for itself. -/
def join (folder name : Pathname) : Pathname :=
  if name.root.isEmpty then { folder with parts := folder.parts ++ name.parts } else name

/-- The text of a path name. -/
def text (path : Pathname) : String :=
  if path.root.isEmpty && path.parts.isEmpty then here
  else path.root ++ "/".intercalate path.parts

end Pathname

end Projector
