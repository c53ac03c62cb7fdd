/-!
# Paths

Paths are texts whose parts are divided by slashes. A path that starts with a slash is absolute.
-/

namespace Gml.Path

/-- The texts between the slashes of a path. -/
def pieces (path : String) : List String :=
  (path.toList.splitOn '/').map String.ofList

/-- Whether a path starts at the root of all files. -/
def isAbsolute (path : String) : Bool :=
  path.toList.head? = some '/'

/-- A path that goes on with another. -/
def join (base path : String) : String :=
  if isAbsolute path then path
  else if base = "" || base.toList.getLast? = some '/' then base ++ path
  else base ++ "/" ++ path

/-- The parts of a path that are not empty and do not just stand for the place itself. -/
def parts (path : String) : List String :=
  (pieces path).filter fun part => part ≠ "" && part ≠ "."

/-- The path to the folder that a path leads into. -/
def parent (path : String) : String :=
  let above := "/".intercalate (parts path).dropLast
  if isAbsolute path then "/" ++ above else above

/-- The last part of a path, if it names a file or folder. -/
def fileName? (path : String) : Option String :=
  (parts path).getLast?.filter (· ≠ "..")

/-- The parts of a name around its last dot. A dot at the start of a name divides nothing. -/
def splitName (name : String) : String × Option String :=
  let characters := name.toList.reverse
  let extension := characters.takeWhile (· ≠ '.')
  match characters.dropWhile (· ≠ '.') with
  | [] | [_] => (name, none)
  | _ :: stem => (String.ofList stem.reverse, some (String.ofList extension.reverse))

/-- The last part of a path without what follows its last dot. -/
def stem? (path : String) : Option String :=
  (fileName? path).map fun name => (splitName name).1

/-- What follows the last dot of a path. -/
def extension? (path : String) : Option String := do
  (splitName (← fileName? path)).2

end Gml.Path
