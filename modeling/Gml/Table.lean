/-!
# Tables

A table has at most one value for each key. It keeps its keys in the order in which they first came;
a new value for a key that is already there takes the place of the old one.
-/

namespace Gml

/-- A finite table. -/
structure Table (κ α : Type) where
  /-- The keys with their values. -/
  entries : List (κ × α) := []
  deriving DecidableEq, Repr, Inhabited

namespace Table

variable {κ α : Type} [DecidableEq κ]

/-- The value of a key among entries. -/
def find? (key : κ) : List (κ × α) → Option α
  | [] => none
  | entry :: rest => if entry.1 = key then some entry.2 else find? key rest

/-- The value of a key, if it has one. -/
def get? (table : Table κ α) (key : κ) : Option α :=
  find? key table.entries

/-- Whether a key has a value. -/
def contains (table : Table κ α) (key : κ) : Bool :=
  (table.get? key).isSome

/-- Entries with one of them set. -/
def set (key : κ) (value : α) : List (κ × α) → List (κ × α)
  | [] => [(key, value)]
  | entry :: rest => if entry.1 = key then (key, value) :: rest else entry :: set key value rest

/-- Gives a key a value. -/
def insert (table : Table κ α) (key : κ) (value : α) : Table κ α :=
  ⟨set key value table.entries⟩

/-- The keys. -/
def keys (table : Table κ α) : List κ :=
  table.entries.map Prod.fst

/-- The table of entries, of which later ones win. -/
def ofList (entries : List (κ × α)) : Table κ α :=
  entries.foldl (fun table entry => table.insert entry.1 entry.2) {}

/-- A key finds what was set last. -/
theorem find?_set (key key' : κ) (value : α) (entries : List (κ × α)) :
    find? key' (set key value entries) = if key = key' then some value else find? key' entries := by
  induction entries with
  | nil => simp [set, find?]
  | cons entry rest ih =>
    by_cases h : entry.1 = key
    · by_cases h' : key = key' <;> simp [set, find?, h, h']
    · have step : set key value (entry :: rest) = entry :: set key value rest := by simp [set, h]
      by_cases h' : entry.1 = key'
      · have : key ≠ key' := fun e => h (h'.trans e.symm)
        simp [step, find?, h', this]
      · simp [step, find?, h', ih]

/-- So it does in a table. -/
theorem get?_insert (table : Table κ α) (key key' : κ) (value : α) :
    (table.insert key value).get? key' = if key = key' then some value else table.get? key' :=
  find?_set key key' value table.entries

end Table

end Gml
