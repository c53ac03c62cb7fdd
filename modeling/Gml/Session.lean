import Gml.Files
import Gml.Host

/-!
# Sessions

A session is a host that is a value: variables, files and what was printed so far. Commands that run
in it change nothing else.
-/

namespace Gml

/-- A host as a value. -/
structure Session where
  /-- The variables of the process. -/
  processVariables : Table String String := {}
  /-- The files. -/
  files : Files := {}
  /-- What was printed. -/
  output : String := ""
  /-- What was printed to the errors. -/
  errors : String := ""
  deriving Inhabited

namespace Session

/-- Asks the files of a session for what may not be there. -/
def ask (request : Files → Option α) : StateM Session (Except String α) :=
  return (request (← get).files).elim (.error "No such file or directory") .ok

/-- Changes the files of a session, if that is possible. -/
def change (request : Files → Option Files) : StateM Session (Except String Unit) := do
  match request (← get).files with
  | some files =>
    modify fun session => { session with files }
    return .ok ()
  | none => return .error "No such file or directory"

end Session

instance : Host (StateM Session) where
  processVariables := return (← get).processVariables.get?
  isFile path := return (← get).files.isFile path
  isFolder path := return (← get).files.isFolder path
  names path := Session.ask (·.names? path)
  read path := Session.ask (·.read? path)
  write path bytes := Session.change (·.write? path bytes)
  makeFolders path := Session.change (·.makeFolders? path)
  print text := modify fun session => { session with output := session.output ++ text }
  printError text := modify fun session => { session with errors := session.errors ++ text }

end Gml
