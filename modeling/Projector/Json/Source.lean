import Projector.Json.Reader
import Projector.Text.Encoding

/-!
# Documents before they are read

A document comes as text or as the bytes of a file, which are decoded first.
-/

namespace Projector.Json

/-- A document before it is read. -/
inductive Source
  /-- A text. -/
  | text (written : String)
  /-- The bytes of a file. -/
  | bytes (stored : List UInt8)

/-- Why a document is not read. -/
inductive SourceFault
  /-- The bytes are no text. -/
  | undecodable (fault : Text.DecodingFault)
  /-- The text is no JSON value. -/
  | invalid (fault : Fault)
  deriving DecidableEq

/-- The wording of why a document is not read. -/
def SourceFault.message : SourceFault → String
  | .undecodable fault => fault.message
  | .invalid fault => fault.message

/-- The value that a document holds. -/
def Source.read : Source → Except SourceFault Json
  | .text written => (Json.read written).mapError .invalid
  | .bytes stored => do
    let written ← (Text.decodeBytes stored).mapError .undecodable
    (readChars written).mapError .invalid

end Projector.Json
