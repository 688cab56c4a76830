import Projector.Text.Identifier
import Projector.Text.Quoted

/-!
# Options

Whether chains of keys are compressed, and the name of the variable that the document is bound to
when something has to be read from elsewhere in it.
-/

namespace Projector

/-- The options of synthesis. -/
structure Config where
  /-- Whether chains of keys are joined into one key. -/
  compressPaths : Bool
  /-- The name of the variable, without its mark. -/
  rootVariable : String
  /-- The variable is an identifier of the query language. -/
  rootVariable_identifier : Text.isIdentifier rootVariable = true

namespace Config

/-- The options used when none are given. -/
def standard : Config :=
  { compressPaths := true, rootVariable := "root", rootVariable_identifier := by decide }

/-- A root variable that is no identifier. -/
structure BadVariable where
  name : String
  deriving DecidableEq

/-- The wording of the refusal of a root variable. -/
def BadVariable.message (fault : BadVariable) : String :=
  "root_variable must be a jq identifier, got " ++ Text.quoted fault.name

/-- Options with a given variable, unless it is no identifier. -/
def make (compressPaths : Bool) (rootVariable : String) : Except BadVariable Config :=
  if h : Text.isIdentifier rootVariable = true then
    .ok { compressPaths, rootVariable, rootVariable_identifier := h }
  else .error ⟨rootVariable⟩

/-- The same options with compression on or off. -/
def withCompression (config : Config) (compressPaths : Bool) : Config :=
  { config with compressPaths }

/-- The reference to the root variable. -/
def rootReference (config : Config) : String := "$" ++ config.rootVariable

end Config

end Projector
