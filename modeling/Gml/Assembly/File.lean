import Gml.Assembly
import Gml.Json.Writer
import Gml.Number.Layout

/-!
# Table files

The tables that come with bytes are kept in a file of their own, as JSON.
-/

namespace Gml

/-- A number for a table of constants. What is no number there is written as nothing. -/
def Double.toJson (x : Double) : Json :=
  match x.form with
  | .finite .. => .number (Layout.table.text x)
  | _ => .null

/-- A place in a script as data. -/
def Position.toJson (position : Position) : Json :=
  .ofMembers [("line", .ofNat position.line), ("column", .ofNat position.column),
    ("index", .ofNat position.index)]

/-- The tables that come with bytes, as data. -/
def Assembly.toJson (assembly : Assembly) : Json :=
  .ofMembers [("strings", .array (assembly.strings.toList.map .ofString)),
    ("constants", .array (assembly.constants.toList.map Double.toJson)),
    ("locals", .array (assembly.locals.toList.map .ofString)),
    ("debug", .array (assembly.marks.toList.map fun (start, position) =>
      .array [.ofNat start, position.toJson]))]

/-- The text of the tables. -/
def Assembly.tableText (assembly : Assembly) : String :=
  assembly.toJson.pretty

end Gml
