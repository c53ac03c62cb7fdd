import Gml.Diagnostic

/-!
# Failures

What can keep a command from doing its work.
-/

namespace Gml

/-- The name of a stage. -/
def Stage.name : Stage → String
  | lexical => "Lexical"
  | grammar => "Syntax"
  | resolution => "Resolution"
  | codeGen => "CodeGen"
  | assembly => "Assembly"

/-- A diagnostic with all that it consists of. -/
def Diagnostic.fullText (d : Diagnostic) : String :=
  Text.record "Diagnostic" [("stage", d.stage.name), ("message", Text.quoted d.message),
    ("position", d.position.fullText)]

/-- The report of a failed stage for a script in a file. -/
def Stage.reportIn (stage : Stage) (message path : String) (position : Position) : String :=
  stage.report message s!"{path}:{position.text}" ++ "\n"

/-- Why a command failed. -/
inductive Failure where
  /-- A file or folder is missing. -/
  | notFound (message : String)
  /-- A file could not be read or written. -/
  | inputOutput (message : String)
  /-- A file is not in the form that it should have. -/
  | json (message : String)
  /-- A script cannot be compiled. -/
  | compile (path : String) (diagnostic : Diagnostic)
  deriving Inhabited

namespace Failure

/-- The report of a failure. -/
def text : Failure → String
  | notFound message => s!"FileNotFoundError: {message}\n"
  | inputOutput message => s!"IOError: {message}\n"
  | json message => s!"JsonError: {message}\n"
  | compile path d => d.stage.reportIn d.message path d.position

/-- A failure with all that it consists of. -/
def fullText : Failure → String
  | notFound message => Text.tuple "FileNotFound" [Text.quoted message]
  | inputOutput message => Text.tuple "IO" [message]
  | json message => Text.tuple "Json" [message]
  | compile path d => Text.record "Compile" [("path", Text.quoted path), ("diagnostic", d.fullText)]

end Failure

end Gml
