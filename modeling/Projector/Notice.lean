import Projector.Workspace

/-!
# Notices

What the parts of the library report while they work, in the order in which it happens. Details for
the developer are told apart from what concerns the user.
-/

namespace Projector

/-- Whom a notice concerns. -/
inductive Notice.Level
  | debug
  | info
  deriving DecidableEq

/-- The word for a level. -/
def Notice.Level.name : Notice.Level → String
  | .debug => "DEBUG"
  | .info => "INFO"

/-- Something worth reporting. -/
inductive Notice
  | refused (refusal : Refusal)
  | moved (source target : String)
  | compiling (expression : String)
  | loading (name folder : String)
  | switching (filename : Option String)
  | droppedStale (token latest : Nat)
  deriving DecidableEq

namespace Notice

/-- Whom a notice concerns: changes of the document concern the user. -/
def level : Notice → Level
  | .loading _ _ => .info
  | .switching _ => .info
  | _ => .debug

/-- The name of a document that has none. -/
def unnamed : String := "<unnamed>"

/-- The wording of a notice. -/
def message : Notice → String
  | .refused refusal => refusal.message
  | .moved source target => "moved " ++ source ++ " to " ++ target
  | .compiling expression => "compiling jq program: " ++ expression
  | .loading name folder => "loading " ++ name ++ " from " ++ folder
  | .switching none => "switching document to " ++ unnamed
  | .switching (some filename) =>
    "switching document to " ++ (if filename.isEmpty then unnamed else filename)
  | .droppedStale token latest =>
    "dropping stale response " ++ toString token ++ " (latest " ++ toString latest ++ ")"

end Notice

end Projector
