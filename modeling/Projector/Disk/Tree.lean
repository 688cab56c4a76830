import Projector.Disk.Pathname

/-!
# Files and folders

A disk is seen from the current folder: a tree of folders and files. Of what lies above the current
folder nothing is known, so it counts as an empty folder. Following a path name fails at the first
component that cannot be followed.
-/

namespace Projector

/-- A file with its bytes, or a folder with what is in it. -/
inductive Tree
  | file (bytes : List UInt8)
  | folder (entries : List (String × Tree))

/-- What the disk refuses. -/
inductive DiskFault
  /-- Nothing has the name. -/
  | notFound
  /-- A file is used as a folder. -/
  | notFolder
  /-- A folder is used as a file. -/
  | isFolder
  /-- No name can be that long. -/
  | nameTooLong
  deriving DecidableEq

namespace DiskFault

/-- The number of a refusal. -/
def code : DiskFault → Nat
  | .notFound => 2
  | .notFolder => 20
  | .isFolder => 21
  | .nameTooLong => 36

/-- The wording of a refusal. -/
def text : DiskFault → String
  | .notFound => "No such file or directory"
  | .notFolder => "Not a directory"
  | .isFolder => "Is a directory"
  | .nameTooLong => "File name too long"

end DiskFault

/-- The longest name of a file or folder, in bytes. -/
def longestName : Nat := 255

/-- The longest path name, in bytes. -/
def longestPath : Nat := 4095

namespace Tree

/-- What has a name among the entries of a folder. -/
def entry? (entries : List (String × Tree)) (name : String) : Option Tree :=
  (entries.find? fun entry => decide (entry.1 = name)).map Prod.snd

/-- What nothing is known about. -/
def unknown : Tree := .folder []

/-- Follows components from a tree; `above` are the folders around it, the nearest first. -/
def follow (above : List Tree) (tree : Tree) : List String → Except DiskFault Tree
  | [] => .ok tree
  | part :: rest =>
    match tree with
    | .file _ => .error .notFolder
    | .folder entries =>
      if part = Pathname.up then
        match above with
        | [] => follow [] unknown rest
        | parent :: above => follow above parent rest
      else if longestName < part.utf8ByteSize then .error .nameTooLong
      else
        match entry? entries part with
        | none => .error .notFound
        | some next => follow (tree :: above) next rest

/-- What a path name leads to from the current folder. -/
def find (current : Tree) (path : Pathname) : Except DiskFault Tree :=
  if longestPath < path.text.utf8ByteSize then .error .nameTooLong
  else if path.root.isEmpty then follow [] current path.parts
  else follow [] unknown path.parts

/-- The bytes of the file that a path name leads to. -/
def readFile (current : Tree) (path : Pathname) : Except DiskFault (List UInt8) := do
  match ← current.find path with
  | .file bytes => .ok bytes
  | .folder _ => .error .isFolder

/-- What is in the folder that a path name leads to. -/
def readFolder (current : Tree) (path : Pathname) : Except DiskFault (List (String × Tree)) := do
  match ← current.find path with
  | .file _ => .error .notFolder
  | .folder entries => .ok entries

/-- Whether something is a file. -/
def isFile : Tree → Bool
  | .file _ => true
  | .folder _ => false

end Tree

end Projector
