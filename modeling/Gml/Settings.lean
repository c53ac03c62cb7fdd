import Gml.Json.Reader
import Gml.Json.Writer
import Gml.Path
import Gml.Text.Blank

/-!
# Settings

Settings that hold for every run of the command line. They are kept in a file under the home folder,
of which there is one for each named environment, and variables of the process override them.
-/

namespace Gml

/-- Settings of the command line. -/
structure Settings where
  /-- The folder that the settings are kept in. -/
  installDir : String
  /-- The context that is used unless another is given. -/
  contextPath : Option String := none
  /-- The folder that results are written to unless another is given. -/
  outputDir : String
  /-- Whether to print more. -/
  debug : Bool := false
  /-- The name of the environment. -/
  envName : String
  deriving DecidableEq, Repr, Inhabited

/-- The variables of a process. -/
abbrev Variables := String → Option String

namespace Settings

/-- The name of the environment that the variables select. -/
def environment (lookUp : Variables) : String :=
  (lookUp "GMLC_ENV").getD "default"

/-- The folder that the settings of an environment are kept in. -/
def folder (lookUp : Variables) : String :=
  Path.join (Path.join ((lookUp "HOME").getD ".") ".gmlc") (environment lookUp)

/-- The file that the settings of an environment are kept in. -/
def location (lookUp : Variables) : String :=
  Path.join (folder lookUp) "config.json"

/-- The settings of an environment that has none yet. -/
def defaults (lookUp : Variables) : Settings where
  installDir := folder lookUp
  outputDir := Path.join (folder lookUp) "out"
  envName := environment lookUp

/-- Whether a text means yes. -/
def isYes (text : String) : Bool :=
  let trimmed := (text.toList.dropWhile Text.isBlank).reverse.dropWhile Text.isBlank
  String.ofList (trimmed.reverse.map Char.toLower) ∈ ["true", "1", "yes"]

/-- The settings with what variables override. -/
def override (settings : Settings) (lookUp : Variables) : Settings :=
  { settings with
    contextPath := lookUp "GMLC_CONTEXT" <|> settings.contextPath
    outputDir := (lookUp "GMLC_OUTPUT_DIR").getD settings.outputDir
    debug := ((lookUp "GMLC_DEBUG").map isYes).getD settings.debug }

/-- A text or nothing. -/
def optionalText? : Json → Option (Option String)
  | .null => some none
  | value => value.string?.map some

/-- Settings from data. -/
def ofJson? (value : Json) : Option Settings := do
  match ← value.record? ["install_dir", "context_path", "output_dir", "debug", "env_name"] with
  | [some installDir, contextPath, some outputDir, debug, some envName] =>
    return {
      installDir := ← installDir.string?
      contextPath := ← Json.field? none optionalText? contextPath
      outputDir := ← outputDir.string?
      debug := ← Json.field? false Json.bool? debug
      envName := ← envName.string? }
  | _ => none

/-- The settings in a text. -/
def parse? (text : String) : Option Settings := do
  ofJson? (← Json.parse? text)

/-- Settings as data. -/
def toJson (settings : Settings) : Json :=
  .ofMembers [("install_dir", .ofString settings.installDir),
    ("context_path", (settings.contextPath.map Json.ofString).getD .null),
    ("output_dir", .ofString settings.outputDir),
    ("debug", .bool settings.debug),
    ("env_name", .ofString settings.envName)]

/-- The text of settings. -/
def text (settings : Settings) : String :=
  settings.toJson.pretty

end Settings

end Gml
