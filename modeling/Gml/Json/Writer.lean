import Gml.Json
import Gml.Text.Quoted

/-!
# Writing JSON

Values are written over several lines, two blanks further in for each level; an empty array or
object stays on one line. Only quotes, backslashes and control characters are escaped.
-/

namespace Gml.Json

/-- A character as it stands in a text. -/
def escapeChar (c : Char) : String :=
  if c = '"' then "\\\""
  else if c = '\\' then "\\\\"
  else if c = '\x08' then "\\b"
  else if c = '\x0c' then "\\f"
  else if c = '\n' then "\\n"
  else if c = '\r' then "\\r"
  else if c = '\t' then "\\t"
  else if c.toNat < 0x10 then "\\u000" ++ Text.hexDigits c.toNat
  else if c.toNat < 0x20 then "\\u00" ++ Text.hexDigits c.toNat
  else c.toString

/-- A text in quotes. -/
def textLiteral (text : String) : String :=
  "\"" ++ String.join (text.toList.map escapeChar) ++ "\""

/-- The start of a line that is so many levels in. -/
def newLine (level : Nat) : String :=
  "\n" ++ String.ofList (List.replicate (2 * level) ' ')

mutual

/-- A value that stands so many levels in. -/
def write (level : Nat) : Json → String
  | null => "null"
  | bool value => if value then "true" else "false"
  | number literal => literal
  | string text => textLiteral (text.getD "")
  | array [] => "[]"
  | array (element :: rest) =>
    "[" ++ newLine (level + 1) ++ write (level + 1) element ++ writeElements (level + 1) rest
      ++ newLine level ++ "]"
  | object [] => "\x7b\x7d"
  | object ((key, value) :: rest) =>
    "\x7b" ++ newLine (level + 1) ++ textLiteral (key.getD "") ++ ": " ++ write (level + 1) value
      ++ writeMembers (level + 1) rest ++ newLine level ++ "\x7d"
termination_by structural value => value

/-- The elements after the first. -/
def writeElements (level : Nat) : List Json → String
  | [] => ""
  | element :: rest => "," ++ newLine level ++ write level element ++ writeElements level rest
termination_by structural elements => elements

/-- The members after the first. -/
def writeMembers (level : Nat) : List (Option String × Json) → String
  | [] => ""
  | (key, value) :: rest =>
    "," ++ newLine level ++ textLiteral (key.getD "") ++ ": " ++ write level value
      ++ writeMembers level rest
termination_by structural members => members

end

/-- A value as text. -/
def pretty (value : Json) : String :=
  value.write 0

end Gml.Json
