/-!
# Names in order

Sets of names are lists without repetitions, in the order of the characters of the names.
-/

namespace Gml

/-- Names in order, with one more. -/
def insertName (name : String) : List String → List String
  | [] => [name]
  | first :: rest =>
    if name = first then first :: rest
    else if name < first then name :: first :: rest
    else first :: insertName name rest

/-- The set of some names. -/
def sortNames (names : List String) : List String :=
  names.foldr insertName []

/-- A name that is inserted is the only new one. -/
theorem mem_insertName {name other : String} {names : List String} :
    other ∈ insertName name names ↔ other = name ∨ other ∈ names := by
  induction names with
  | nil => simp [insertName]
  | cons first rest ih => grind [insertName]

end Gml
