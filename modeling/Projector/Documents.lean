import Projector.Disk.Tree
import Projector.Json.Source
import Projector.Notice
import Projector.Text.Quoted

/-!
# Documents on disk

The documents of a folder are its files with the suffix of JSON. A document is loaded by its bare
name; a name that could lead out of the folder or into another one is refused before the disk is
touched.
-/

namespace Projector.Documents

/-- Why a document is not loaded. -/
inductive Fault
  /-- The name could lead out of the folder. -/
  | invalidName
  /-- The disk refuses a path name. -/
  | disk (fault : DiskFault) (path : String)
  /-- The bytes of the file are no JSON value. -/
  | invalid (fault : Json.SourceFault)
  deriving DecidableEq

/-- The wording of why a document is not loaded. -/
def Fault.message : Fault → String
  | .invalidName => "Invalid filename"
  | .disk fault path =>
    "[Errno " ++ toString fault.code ++ "] " ++ fault.text ++ ": " ++ Text.quoted path
  | .invalid fault => "Invalid JSON: " ++ fault.message

/-- Why a request for documents fails: the document is not loaded, or the disk is not asked at all
because a path name holds a zero character. -/
inductive Failure
  /-- The document is not loaded. -/
  | document (fault : Fault)
  /-- A path name holds a zero character. -/
  | zeroInPath
  deriving DecidableEq

/-- The wording of a failure. -/
def Failure.message : Failure → String
  | .document fault => fault.message
  | .zeroInPath => "embedded null byte"

/-- Whether a path name holds a zero character. -/
def hasZero (path : Pathname) : Bool := path.text.toList.contains '\x00'

/-- The suffix of documents. -/
def suffix : String := ".json"

/-- The suffix of a name: its part from the last dot on, if something stands on both sides of the
dot. -/
def suffixOf (name : String) : String :=
  let reversed := name.toList.reverse
  let ending := reversed.takeWhile (· != '.')
  let stem := (reversed.dropWhile (· != '.')).drop 1
  if ending.isEmpty || stem.isEmpty then "" else String.ofList ('.' :: ending.reverse)

/-- Whether an entry of a folder is a document. -/
def isDocument (entry : String × Tree) : Bool :=
  entry.2.isFile && suffixOf entry.1 == suffix

/-- Names in ascending order of their characters. -/
def sorted (names : List String) : List String := names.mergeSort fun a b => decide (a ≤ b)

/-- The names of the documents of a folder, in ascending order. -/
def list (disk : Tree) (folder : String) : Except Failure (List String) :=
  let path := Pathname.ofText folder
  if hasZero path then .error .zeroInPath
  else
    match disk.readFolder path with
    | .error fault => .error (.document (.disk fault path.text))
    | .ok entries => .ok (sorted ((entries.filter isDocument).map Prod.fst))

/-- The document in the file that a path name leads to. -/
def readAt (disk : Tree) (path : Pathname) : Except Failure Json :=
  if hasZero path then .error .zeroInPath
  else
    match disk.readFile path with
    | .error fault => .error (.document (.disk fault path.text))
    | .ok bytes => ((Json.Source.bytes bytes).read).mapError fun fault => .document (.invalid fault)

/-- The document in the file at a path. -/
def read (disk : Tree) (path : String) : Except Failure Json := readAt disk (Pathname.ofText path)

/-- Whether two dots stand next to each other. -/
def hasDoubleDot : List Char → Bool
  | '.' :: '.' :: _ => true
  | _ :: rest => hasDoubleDot rest
  | [] => false

/-- Whether a name cannot lead anywhere but to an entry of its folder. -/
def isBareName (name : String) : Bool :=
  let text := name.toList
  !hasDoubleDot text && !text.contains '/' && !text.contains '\\'

/-- The path name of a document in a folder. -/
def pathIn (folder name : String) : Pathname :=
  (Pathname.ofText folder).join (Pathname.ofText name)

/-- Loads a document of a folder by its name, and reports it once the name is accepted. -/
def load (disk : Tree) (folder name : String) : Except Failure Json × List Notice :=
  if isBareName name then (readAt disk (pathIn folder name), [.loading name folder])
  else (.error (.document .invalidName), [])

end Projector.Documents
