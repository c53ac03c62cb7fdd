import Gml.Names
import Gml.Path
import Gml.Table

/-!
# Files

The files and folders below a root, one of them the working folder. A path that starts with a slash
leads on from the root, any other one from the working folder.
-/

namespace Gml

/-- The files and folders below the root. -/
structure Files where
  /-- The place of the working folder. -/
  working : List String := []
  /-- The folders besides the working folder and those around it. -/
  folders : List (List String) := []
  /-- The files, with their bytes. -/
  contents : Table (List String) ByteArray := {}
  deriving Inhabited

namespace Files

/-- The places of all folders but the root. -/
def allFolders (files : Files) : List (List String) :=
  (List.range files.working.length).map (fun n => files.working.take (n + 1)) ++ files.folders

/-- Whether there is a folder at a place. -/
def hasFolder (files : Files) (place : List String) : Bool :=
  place = [] || place ∈ files.allFolders

/-- Whether there is a file at a place. -/
def hasFile (files : Files) (place : List String) : Bool :=
  files.contents.contains place

/-- The place where a path starts. -/
def origin (files : Files) (path : String) : List String :=
  if Path.isAbsolute path then [] else files.working

/-- Follows the pieces of a path from a place. All but the last have to lead through folders that
are there. The root lies in itself. -/
def follow? (files : Files) : List String → List String → Option (List String)
  | place, [] => some place
  | place, piece :: rest =>
    if !files.hasFolder place then none
    else if piece = "" || piece = "." then files.follow? place rest
    else if piece = ".." then files.follow? place.dropLast rest
    else files.follow? (place ++ [piece]) rest

/-- The place that a path leads to. -/
def place? (files : Files) (path : String) : Option (List String) :=
  if path = "" then none else files.follow? (files.origin path) (Path.pieces path)

/-- Whether a path leads to a file. -/
def isFile (files : Files) (path : String) : Bool :=
  (files.place? path).any files.hasFile

/-- Whether a path leads to a folder. -/
def isFolder (files : Files) (path : String) : Bool :=
  (files.place? path).any files.hasFolder

/-- The bytes of a file. -/
def read? (files : Files) (path : String) : Option ByteArray := do
  files.contents.get? (← files.place? path)

/-- The name of a place, if it lies directly in a folder. -/
def nameIn? (folder place : List String) : Option String := do
  let name ← place.getLast?
  guard (place.dropLast = folder)
  return name

/-- The names of the files and folders in a folder, in order. -/
def names? (files : Files) (path : String) : Option (List String) := do
  let folder ← files.place? path
  guard (files.hasFolder folder)
  let names := (files.allFolders ++ files.contents.keys).filterMap (nameIn? folder)
  return sortNames names

/-- Writes a file. -/
def write? (files : Files) (path : String) (bytes : ByteArray) : Option Files := do
  let place ← files.place? path
  guard (!files.hasFolder place)
  return { files with contents := files.contents.insert place bytes }

/-- Makes the folders that the pieces of a path lead through from a place. -/
def makeFrom? (files : Files) : List String → List String → Option Files
  | _, [] => some files
  | place, piece :: rest =>
    if piece = "" || piece = "." then files.makeFrom? place rest
    else if piece = ".." then files.makeFrom? place.dropLast rest
    else
      let place := place ++ [piece]
      if files.hasFile place then none
      else if files.hasFolder place then files.makeFrom? place rest
      else makeFrom? { files with folders := files.folders ++ [place] } place rest

/-- Makes a folder and all those on the way to it. -/
def makeFolders? (files : Files) (path : String) : Option Files :=
  if path = "" then some files else files.makeFrom? (files.origin path) (Path.pieces path)

end Files

end Gml
