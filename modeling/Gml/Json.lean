/-!
# Structured data

Contexts, settings and tables are kept in files as JSON. A value keeps everything that its reader
may have to judge: numbers stay as they were written, members stay in their order and may repeat,
and a text whose escapes do not make up characters is told from one whose escapes do.

The functions below read typed data out of a value. A record may be written as an object or, in the
order of its fields, as an array.
-/

namespace Gml

/-- A JSON value. -/
inductive Json where
  | null
  | bool (value : Bool)
  /-- A number, as written. -/
  | number (literal : String)
  /-- A text, if its escapes make up one. -/
  | string (text : Option String)
  | array (elements : List Json)
  /-- Members with their keys, if the escapes of these make up texts. -/
  | object (members : List (Option String × Json))
  deriving Inhabited

namespace Json

/-- A text. -/
def ofString (text : String) : Json :=
  string (some text)

/-- A whole number. -/
def ofInt (n : Int) : Json :=
  number (toString n)

/-- A whole number. -/
def ofNat (n : Nat) : Json :=
  number (toString n)

/-- An object with the given members. -/
def ofMembers (members : List (String × Json)) : Json :=
  object (members.map fun member => (some member.1, member.2))

/-! ### Typed data -/

/-- A truth value. -/
def bool? : Json → Option Bool
  | bool value => some value
  | _ => none

/-- A text. -/
def string? : Json → Option String
  | string text => text
  | _ => none

/-- The number that decimal digits stand for, if all characters are digits and there is one. -/
def natOfDigits? (digits : List Char) : Option Nat :=
  if digits.isEmpty || !digits.all Char.isDigit then none
  else some (digits.foldl (fun n c => n * 10 + (c.toNat - '0'.toNat)) 0)

/-- The whole number that a literal stands for. A literal with a fraction or an exponent stands for
none, and neither does a negative zero. -/
def intOfLiteral? (literal : String) : Option Int :=
  match literal.toList with
  | '-' :: digits => do
    let n ← natOfDigits? digits
    if n = 0 then none else some (-n)
  | digits => (natOfDigits? digits).map Int.ofNat

/-- A whole number within bounds. -/
def int? (low high : Int) : Json → Option Int
  | number literal => (intOfLiteral? literal).filter fun n => low ≤ n && n ≤ high
  | _ => none

/-- Every element of an array. -/
def list? (read : Json → Option α) : Json → Option (List α)
  | array elements => elements.mapM read
  | _ => none

/-- Every member of an object, in order. -/
def members? (read : Json → Option α) : Json → Option (List (String × α))
  | object members => members.mapM fun member => do return (← member.1, ← read member.2)
  | _ => none

/-- One of several names. A name may also be the only key of an object, with no value. -/
def choice? (names : List (String × α)) : Json → Option α
  | string (some name) => names.lookup name
  | object [(some name, null)] => names.lookup name
  | _ => none

/-- The values of the fields of a record, for each field in turn. A field that is named twice spoils
the record; other members do not matter. -/
def record? (fields : List String) : Json → Option (List (Option Json))
  | object members => do
    let members ← members.mapM fun member => do return (← member.1, member.2)
    let named (field : String) := members.filter fun member => member.1 = field
    guard (fields.all fun field => (named field).length ≤ 1)
    return fields.map fun field => (named field).head?.map Prod.snd
  | array elements => do
    guard (elements.length ≤ fields.length)
    return elements.map some ++ List.replicate (fields.length - elements.length) none
  | _ => none

/-- A field that may be missing. -/
def field? (default : α) (read : Json → Option α) : Option Json → Option α
  | none => some default
  | some value => read value

end Json

end Gml
