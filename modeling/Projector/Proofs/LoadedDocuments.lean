import Projector.Proofs.Folders
import Projector.Proofs.SessionEvents

/-!
# Documents that are loaded

A document of a folder is listed when its name has the suffix of documents, and loaded when nothing
in its name could lead out of the folder. The second rule refuses some names that the first one
lists; a name that both accept leads to the very file that is listed. A session that is asked for a
document starts over with it, or keeps everything but its error. Only for a zero character in the
path name it has no answer, and it keeps everything then as well.
-/

namespace Projector

namespace Documents

/-! ## Loading what is listed -/

/-- What reading a file with some bytes gives at a path name that leads to it: the document that the
bytes write, unless they write none or the path name is too long. -/
def contents (path : Pathname) (bytes : List UInt8) : Except Failure Json :=
  if longestPath < path.text.utf8ByteSize then
    .error (.document (.disk .nameTooLong path.text))
  else ((Json.Source.bytes bytes).read).mapError fun fault => .document (.invalid fault)

/-- A folder with a document whose name is fine, one whose name is not, and something that is no
document. -/
def mixedFolder : List (String × Tree) :=
  [("b.json", .file [0x31]), ("a..json", .file [0x32]), ("c.json", .folder [])]

/-- A disk with that folder. -/
def mixedDisk : Tree := .folder [("docs", .folder mixedFolder)]

end Documents

/-! ## Loading in a session -/

namespace Session

end Session

end Projector
