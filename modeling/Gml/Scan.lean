import Gml.Context
import Gml.Names
import Gml.Scan.Words
import Gml.Token

/-!
# Scanning a project

A scan gathers what the scripts of a project define and use: scripts, objects, enumerations and the
names that are called. A context is then extended by what was found. Names come in the order of
their characters.
-/

namespace Gml

/-- What was found in a project. -/
structure Scan where
  /-- The names of the scripts. -/
  scripts : List String := []
  /-- The names of the objects. -/
  objects : List String := []
  /-- The enumerations. -/
  enums : Enums := {}
  /-- The names that are called. -/
  calls : List String := []
  /-- The number of files. -/
  files : Nat := 0
  deriving Inhabited

namespace Scan

/-- Members that were found so far, and the value that the next one has unless it tells another. -/
structure Members where
  /-- The members. -/
  members : Table String Int64 := {}
  /-- The next value. -/
  next : Int64 := 0
  deriving Inhabited

/-- Adds the member that an entry declares, if it does. -/
def Members.add (found : Members) (entry : List Char) : Members :=
  match member? entry with
  | none => found
  | some (name, literal) =>
    let value := (literal.bind Literal.value?).getD found.next
    { members := found.members.insert name value, next := value + 1 }

/-- The members that the body of an enumeration declares. -/
def membersOf (body : List Char) : Table String Int64 :=
  ((entries body).foldl Members.add {}).members

/-- Adds a script. -/
def addScript (scan : Scan) (name : String) : Scan :=
  { scan with scripts := insertName name scan.scripts }

/-- Adds an object. -/
def addObject (scan : Scan) (name : String) : Scan :=
  { scan with objects := insertName name scan.objects }

/-- Adds an enumeration. A later one takes the place of an earlier one. -/
def addEnum (scan : Scan) (name body : List Char) : Scan :=
  { scan with enums := scan.enums.insert (String.ofList name) (membersOf body) }

/-- Adds a called name, unless it is a word of the language. -/
def addCall (scan : Scan) (name : String) : Scan :=
  if (Kind.ofWord? name).isSome then scan
  else { scan with calls := insertName name scan.calls }

/-- Adds what the text of a script declares and calls. -/
def addText (scan : Scan) (text : String) : Scan :=
  let text := withoutComments text.toList
  let scan := (declarations text).foldl (fun scan (name, body) => scan.addEnum name body) scan
  (calledNames text).foldl addCall scan

/-- What enumerations and calls keep, a text keeps. -/
theorem addText_induction {P : Scan → Prop} {scan : Scan} (text : String)
    (henum : ∀ scan name body, P scan → P (scan.addEnum name body))
    (hcall : ∀ scan name, P scan → P (scan.addCall name)) (h : P scan) : P (scan.addText text) := by
  have hcalls : ∀ (names : List String) (scan : Scan), P scan → P (names.foldl addCall scan) := by
    intro names
    induction names with
    | nil => exact fun _ h => h
    | cons name names ih => exact fun scan h => ih _ (hcall scan name h)
  have henums : ∀ (found : List (List Char × List Char)) (scan : Scan), P scan →
      P (found.foldl (fun scan entry => scan.addEnum entry.1 entry.2) scan) := by
    intro found
    induction found with
    | nil => exact fun _ h => h
    | cons entry found ih => exact fun scan h => ih _ (henum scan entry.1 entry.2 h)
  exact hcalls _ _ (henums _ _ h)

/-! ### Contexts -/

/-- The first number after those of the symbols of a kind. -/
def nextReference (kind : SymbolKind) (symbols : Table String Symbol) : Int32 :=
  let used := symbols.entries.filterMap fun (_, symbol) =>
    if symbol.kind = kind then some (symbol.reference + 1) else none
  match used with
  | [] => 0
  | first :: rest => rest.foldl max first

/-- Numbers the names that are no symbols yet, from a number on. -/
def number (kind : SymbolKind) :
    Int32 → List String → Table String Symbol → Table String Symbol
  | _, [], symbols => symbols
  | next, name :: rest, symbols =>
    if symbols.contains name then number kind next rest symbols
    else number kind (next + 1) rest (symbols.insert name { kind, reference := next })

/-- Adds names as symbols of a kind. The new ones get the numbers after those that the kind has. -/
def addSymbols (kind : SymbolKind) (names : List String) (symbols : Table String Symbol) :
    Table String Symbol :=
  number kind (nextReference kind symbols) names symbols

/-- Extends a context by what was found. -/
def apply (scan : Scan) (context : Context) : Context :=
  let symbols := addSymbols .script scan.scripts context.symbols
  let symbols := addSymbols .object scan.objects symbols
  let enums := scan.enums.entries.foldl
    (fun (enums : Enums) (name, members) => enums.insert name members) context.enums
  { context with symbols, enums }

/-- The called names that nothing is known of. -/
def unknownCalls (scan : Scan) (context : Context) : List String :=
  scan.calls.filter fun name =>
    !(name ∈ context.builtinFunctions || context.symbols.contains name || name ∈ scan.scripts)

/-! ### Reports -/

/-- A section of a report: a heading with the number of entries, and a line for each. -/
def found (heading : String) (entries : List String) : List String :=
  ["", s!"{heading} found ({entries.length})"] ++ entries.map ("  - " ++ ·)

/-- The enumerations, in the order of their names. -/
def enumLines (scan : Scan) : List String :=
  (sortNames scan.enums.keys).map fun name =>
    let members := (scan.enums.get? name).getD {}
    s!"{name} ({members.entries.length} members)"

/-- The report on a scan. -/
def report (scan : Scan) (context : Context) : List String :=
  let unknown := scan.unknownCalls context
  ["", "=== Symbol Scan Results ===", "", s!"Files scanned: {scan.files}"]
    ++ found "Scripts" scan.scripts
    ++ found "Objects" scan.objects
    ++ found "Enums" scan.enumLines
    ++ ["", s!"Unknown calls ({unknown.length})"] ++ unknown.map ("  - " ++ ·)

end Scan

end Gml
