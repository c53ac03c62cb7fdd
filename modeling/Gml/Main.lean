import Gml.Command

/-!
# The program

The command line. Its host is the operating system.
-/

namespace Gml

/-- Does what the operating system may refuse. -/
def answered (action : IO α) : IO (Except String α) := do
  try return .ok (← action)
  catch failure => return .error (toString failure)

/-- Whether something holds of a path. Nothing holds of one that leads nowhere. -/
def holds (test : IO Bool) : IO Bool :=
  test <|> pure false

instance : Host IO where
  processVariables := do
    let names := ["HOME", "GMLC_ENV", "GMLC_CONTEXT", "GMLC_OUTPUT_DIR", "GMLC_DEBUG"]
    let values ← names.mapM fun name => return (name, ← IO.getEnv name)
    return fun name => (values.lookup name).join
  isFile path := holds do return !(← (← IO.FS.realPath path).isDir)
  isFolder path := holds do (← IO.FS.realPath path).isDir
  names path := answered do
    return sortNames ((← (← IO.FS.realPath path).readDir).toList.map (·.fileName))
  read path := answered (IO.FS.readBinFile path)
  write path bytes := answered (IO.FS.writeBinFile path bytes)
  makeFolders path := answered (unless path = "" do IO.FS.createDirAll path)
  print text := IO.print text
  printError text := IO.eprint text

end Gml

/-- Runs the command that the arguments ask for. -/
def main (arguments : List String) : IO UInt32 := do
  match Gml.Command.ofArguments? arguments with
  | some command => command.run
  | none =>
    IO.eprintln "Usage: gmlc <compile|tokens|scan|config> ..."
    return 2
