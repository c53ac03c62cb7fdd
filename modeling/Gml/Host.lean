import Gml.Failure
import Gml.Settings

/-!
# Hosts

A command asks its host for variables of the process and for files, and tells it what to write and
to print. The host may be the operating system or, for a command that is only thought through, a
value that stands for it.
-/

namespace Gml

/-- What commands ask of the place that they run in. A request that can go wrong tells in words why
it did. -/
class Host (m : Type → Type) where
  /-- The variables of the process. -/
  processVariables : m Variables
  /-- Whether a path leads to a file. -/
  isFile : String → m Bool
  /-- Whether a path leads to a folder. -/
  isFolder : String → m Bool
  /-- The names of the files and folders in a folder, in order. -/
  names : String → m (Except String (List String))
  /-- The bytes of a file. -/
  read : String → m (Except String ByteArray)
  /-- Writes a file, in place of one that is there. -/
  write : String → ByteArray → m (Except String Unit)
  /-- Makes a folder and all those on the way to it, unless they are there. -/
  makeFolders : String → m (Except String Unit)
  /-- Prints to the output. -/
  print : String → m Unit
  /-- Prints to the errors. -/
  printError : String → m Unit

/-- A part of a command. -/
abbrev Run (m : Type → Type) := ExceptT Failure m

namespace Run

variable {m : Type → Type} [Monad m] [Host m]

/-- Does what can go wrong. -/
def attempt (action : m (Except String α)) : Run m α := do
  match ← (action : m (Except String α)) with
  | .ok result => return result
  | .error message => throw (.inputOutput message)

/-- Prints a line. -/
def printLine (line : String) : Run m Unit :=
  ExceptT.lift (Host.print (line ++ "\n"))

/-- The text of a file. -/
def readText (path : String) : Run m String := do
  let bytes ← attempt (Host.read path)
  match String.fromUTF8? bytes with
  | some text => return text
  | none => throw (.inputOutput "stream did not contain valid UTF-8")

/-- Writes text to a file, and makes the folder that it belongs to. -/
def save (path text : String) : Run m Unit := do
  attempt (Host.makeFolders (Path.parent path))
  attempt (Host.write path text.toUTF8)

/-- Whether there is a file or folder at a path. -/
def pathExists (path : String) : Run m Bool := do
  if ← ExceptT.lift (Host.isFile path) then return true
  else ExceptT.lift (Host.isFolder path)

end Run

end Gml
