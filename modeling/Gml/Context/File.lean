import Gml.Context
import Gml.Json.Reader
import Gml.Json.Writer

/-!
# Context files

The JSON form of contexts. Only the tier has to be given; whatever else is missing is empty, or the
usual byte layout.
-/

namespace Gml

open Json

/-- The names of the kinds of symbols. -/
def SymbolKind.names : List (String × SymbolKind) :=
  [("script", script), ("object", object), ("asset", asset)]

/-- The name of a kind of symbol. -/
def SymbolKind.text : SymbolKind → String
  | script => "script"
  | object => "object"
  | asset => "asset"

/-- The names of the orders of bytes. -/
def Endianness.names : List (String × Endianness) :=
  [("little", little), ("big", big)]

/-- The name of an order of bytes. -/
def Endianness.text : Endianness → String
  | little => "little"
  | big => "big"

/-! ### Reading -/

/-- A byte layout. -/
def Encoding.ofJson? (value : Json) : Option Encoding := do
  match ← value.record? ["opcode_width", "operand_width", "endianness"] with
  | [some opcodeWidth, some operandWidth, some endianness] =>
    return {
      opcodeWidth := (← opcodeWidth.int? 0 255).toNat
      operandWidth := (← operandWidth.int? 0 255).toNat
      endianness := ← endianness.choice? Endianness.names }
  | _ => none

/-- A symbol. -/
def Symbol.ofJson? (value : Json) : Option Symbol := do
  match ← value.record? ["kind", "reference"] with
  | [some kind, some reference] =>
    return {
      kind := ← kind.choice? SymbolKind.names
      reference := Int32.ofInt
        (← reference.int? Int32.minValue.toInt Int32.maxValue.toInt) }
  | _ => none

/-- A set of names. -/
def namesOfJson? (value : Json) : Option (List String) :=
  (value.list? Json.string?).map (List.foldl addName [])

/-- The members of an enumeration. -/
def membersOfJson? (value : Json) : Option (Table String Int64) :=
  (value.members? fun n => (n.int? Int64.minValue.toInt Int64.maxValue.toInt).map Int64.ofInt).map
    Table.ofList

/-- A context. -/
def Context.ofJson? (value : Json) : Option Context := do
  match ← value.record? ["version_tier", "builtin_functions", "builtin_variables", "user_symbols",
      "enums", "encoding"] with
  | [some versionTier, builtinFunctions, builtinVariables, symbols, enums, encoding] =>
    return {
      versionTier := (← versionTier.int? 0 (UInt32.size - 1)).toNat
      builtinFunctions := ← field? [] namesOfJson? builtinFunctions
      builtinVariables := ← field? [] namesOfJson? builtinVariables
      symbols := ← field? {} (fun v => (v.members? Symbol.ofJson?).map Table.ofList) symbols
      enums := ← field? {} (fun v => (v.members? membersOfJson?).map Table.ofList) enums
      encoding := ← field? {} Encoding.ofJson? encoding }
  | _ => none

/-- The context in a text. -/
def Context.parse? (text : String) : Option Context := do
  Context.ofJson? (← Json.parse? text)

/-! ### Writing -/

/-- A byte layout as data. -/
def Encoding.toJson (encoding : Encoding) : Json :=
  .ofMembers [("opcode_width", .ofNat encoding.opcodeWidth),
    ("operand_width", .ofNat encoding.operandWidth),
    ("endianness", .ofString encoding.endianness.text)]

/-- A symbol as data. -/
def Symbol.toJson (symbol : Symbol) : Json :=
  .ofMembers [("kind", .ofString symbol.kind.text), ("reference", .ofInt symbol.reference.toInt)]

/-- A table as data. -/
def Table.toJson (write : α → Json) (table : Table String α) : Json :=
  .ofMembers (table.entries.map fun entry => (entry.1, write entry.2))

/-- A context as data. -/
def Context.toJson (context : Context) : Json :=
  .ofMembers [("version_tier", .ofNat context.versionTier),
    ("builtin_functions", .array (context.builtinFunctions.map .ofString)),
    ("builtin_variables", .array (context.builtinVariables.map .ofString)),
    ("user_symbols", context.symbols.toJson Symbol.toJson),
    ("enums", context.enums.toJson fun members => members.toJson fun n => .ofInt n.toInt),
    ("encoding", context.encoding.toJson)]

/-- The text of a context. -/
def Context.text (context : Context) : String :=
  context.toJson.pretty

end Gml
