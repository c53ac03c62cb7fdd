import Gml.Assembly.File
import Gml.Code.Listing
import Gml.Command.Arguments
import Gml.Compile
import Gml.Context.File
import Gml.Host
import Gml.Scan

/-!
# Running commands

What each command does. A command first reads its settings, and writes the usual ones if there are
none. It ends with a code: zero if all went well and one if something failed.
-/

namespace Gml

variable {m : Type → Type} [Monad m] [Host m]

namespace Command

open Run

/-! ### Settings and contexts -/

/-- The settings, and whether they were written only now. -/
def loadSettings : Run m (Settings × Bool) := do
  let lookUp ← ExceptT.lift Host.processVariables
  let path := Settings.location lookUp
  if ← pathExists path then
    match Settings.parse? (← readText path) with
    | some settings => return (settings.override lookUp, false)
    | none => throw (.json "")
  else
    let settings := Settings.defaults lookUp
    save path settings.text
    return (settings.override lookUp, true)

/-- The context in a file, or an empty one if none is given. -/
def loadContext (path : Option String) (settings : Settings) : Run m Context := do
  match path <|> settings.contextPath with
  | some path =>
    unless ← pathExists path do
      throw (.notFound s!"Resolution context not found: {path}")
    match Context.parse? (← readText path) with
    | some context => return context
    | none => throw (.json "")
  | none =>
    if settings.debug then
      printLine "No resolution context given, using an empty one"
    return {}

/-! ### Compiling -/

/-- The scripts in files. -/
def readFiles (paths : List String) : Run m (List ScriptFile) :=
  paths.mapM fun path => do
    unless ← ExceptT.lift (Host.isFile path) do
      throw (.notFound s!"Source file not found: {path}")
    return { name := path, text := ← readText path }

/-- The bytes of code, which is listed first if that is wanted. -/
def assembleFile (file : ScriptFile) (context : Context) (listing : Bool) (code : Code) :
    Run m (Except Diagnostic Assembly) := do
  if listing then
    printLine s!"== {file.name} ==\n{code.text}"
  return code.assemble context.encoding

/-- Writes the bytes and the tables of a script. -/
def writeResult (file : ScriptFile) (out : String) (assembly : Assembly) : Run m Unit := do
  let stem := (Path.stem? file.name).getD "out"
  let binary := Path.join out (stem ++ ".bin")
  attempt (Host.write binary ⟨assembly.bytes.toArray⟩)
  attempt (Host.write (Path.join out (stem ++ ".json")) assembly.tableText.toUTF8)
  printLine s!"Compiled {file.name} -> {binary} ({assembly.bytes.length} bytes)"

/-- Finishes a script, and tells whether it failed. -/
def finishFile (context : Context) (out : String) (listing : Bool)
    (file : ScriptFile) (code : Except Diagnostic Code) : Run m Bool := do
  let assembly ←
    match code with
    | .ok code => assembleFile file context listing code
    | .error diagnostic => pure (.error diagnostic)
  match assembly with
  | .ok assembly =>
    writeResult file out assembly
    return false
  | .error diagnostic =>
    ExceptT.lift (Host.printError (Failure.compile file.name diagnostic).text)
    return true

/-- Compiles scripts and writes what comes out. The result is the number of scripts that failed. -/
def compileFiles (paths : List String) (context : Context) (out : String) (listing : Bool) :
    Run m Nat := do
  let files ← readFiles paths
  let codes := Batch.toCode files context
  attempt (Host.makeFolders out)
  let failed ← (files.zip codes).filterM fun (file, code) =>
    finishFile context out listing file code
  return failed.length

/-- The compile command. -/
def runCompile (settings : Settings) (files : List String) (context : Option String)
    (tier : Option Nat) (out : Option String) (listing : Bool) : Run m UInt32 := do
  let context ← loadContext context settings
  let context := { context with versionTier := tier.getD context.versionTier }
  let out := out.getD settings.outputDir
  if settings.debug then
    printLine s!"Compiling {files.length} file(s) at tier {context.versionTier} into {out}"
  let failures ← compileFiles files context out (listing || settings.debug)
  if failures = 0 then return 0
  ExceptT.lift (Host.printError s!"{failures} of {files.length} file(s) failed to compile\n")
  return 1

/-! ### Tokens -/

/-- The line of a token. -/
def tokenLine (token : Token) : String :=
  s!"{token.position.text}\t{token.kind.name}\t{token.value}"

/-- The tokens command. -/
def runTokens (file : String) (tier : Nat) : Run m UInt32 := do
  match tokenize (← readText file) tier with
  | .ok found =>
    found.forM fun token => printLine (tokenLine token)
    return 0
  | .error diagnostic => throw (.compile file diagnostic)

/-! ### Scanning -/

/-- How deep folders can lie in each other: no path is longer than this. -/
def maxDepth : Nat := 4096

/-- Adds the scripts in a folder and in the folders inside of it, in order. -/
def scanFolder (addFile : String → Scan → Scan) : Nat → String → Scan → Run m Scan
  | 0, _, _ => throw (.inputOutput "File name too long")
  | depth + 1, folder, found => do
    let names ← attempt (Host.names folder)
    names.foldlM (fun found name => do
      let path := Path.join folder name
      if ← ExceptT.lift (Host.isFolder path) then
        scanFolder addFile depth path found
      else if Path.extension? name = some "gml" then
        let text ← readText path
        return (addFile name { found with files := found.files + 1 }).addText text
      else return found) found

/-- Adds a script that is called like its file. -/
def addScriptFile (name : String) (found : Scan) : Scan :=
  match Path.stem? name with
  | some stem => found.addScript stem
  | none => found

/-- Scans a project: its scripts, and the folder of each object. -/
def scanProject (root : String) : Run m Scan := do
  unless ← ExceptT.lift (Host.isFolder root) do
    throw (.notFound s!"Expected {root} to be a project directory")
  let scripts := Path.join root "scripts"
  let found ←
    if ← ExceptT.lift (Host.isFolder scripts) then scanFolder addScriptFile maxDepth scripts {}
    else pure {}
  let objects := Path.join root "objects"
  if ← ExceptT.lift (Host.isFolder objects) then
    (← attempt (Host.names objects)).foldlM (fun found name => do
      let path := Path.join objects name
      if ← ExceptT.lift (Host.isFolder path) then
        scanFolder (fun _ found => found) maxDepth path (found.addObject name)
      else return found) found
  else return found

/-- The scan command. -/
def runScan (settings : Settings) (folder : String) (context out : Option String) :
    Run m UInt32 := do
  let context ← loadContext context settings
  let found ← scanProject folder
  let context := found.apply context
  (found.report context).forM printLine
  if let some path := out then
    save path context.text
    printLine s!"\nWrote resolution context to {path}"
  return 0

/-! ### All commands -/

/-- Says whether the settings were written only now. -/
def runInit (isNew : Bool) : Run m UInt32 := do
  let path := Settings.location (← ExceptT.lift Host.processVariables)
  if isNew then
    printLine s!"Initialized new config file at: {path}"
  else
    printLine s!"Config file already exists at: {path}"
    printLine "Remove it to reinitialize with defaults."
  return 0

/-- Does what a command says. -/
def execute (command : Command) : Run m UInt32 := do
  let (settings, isNew) ← loadSettings
  match command with
  | .compile files context tier out listing => runCompile settings files context tier out listing
  | .tokens file tier => runTokens file tier
  | .scan folder context out => runScan settings folder context out
  | .showSettings =>
    printLine s!"Environment: {settings.envName}"
    printLine settings.text
    return 0
  | .initSettings => runInit isNew
  | .locateSettings =>
    printLine (Settings.location (← ExceptT.lift Host.processVariables))
    return 0

/-- Does what a command says, and reports if that fails. -/
def run (command : Command) : m UInt32 := do
  match ← (execute command).run with
  | .ok code => return code
  | .error failure =>
    Host.printError s!"Error: {failure.fullText}\n"
    return 1

end Command

end Gml
