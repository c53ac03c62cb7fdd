import Gml.Text.Extend
import Gml.Text.Hidden

/-!
# Quoted text

The form in which messages and listings show a text or a single character: between quotes, on one
line, and with nothing in it that a reader could not see. The quote itself, the backslash and the
common controls have a short escape; every other character that shows nothing of its own, and every
character that would attach to the one before it, is written by its number.
-/

namespace Gml.Text

/-- The hexadecimal digits of a number, in lower case and without leading zeros. -/
def hexDigits (n : Nat) : String :=
  String.ofList (Nat.toDigits 16 n)

/-- A character written by its number. -/
def numbered (c : Char) : String :=
  "\\u\x7b" ++ hexDigits c.toNat ++ "\x7d"

/-- A character as it stands between two of the given quotes. -/
def escaped (quote c : Char) : String :=
  if c = '\x00' then "\\0"
  else if c = '\t' then "\\t"
  else if c = '\r' then "\\r"
  else if c = '\n' then "\\n"
  else if c = '\\' then "\\\\"
  else if c = quote then "\\" ++ quote.toString
  else if isExtender c || isHidden c then numbered c
  else c.toString

/-- A text in double quotes. -/
def quoted (text : String) : String :=
  "\"" ++ String.join (text.toList.map (escaped '"')) ++ "\""

/-- A single character in single quotes. -/
def quotedChar (c : Char) : String :=
  "'" ++ escaped '\'' c ++ "'"

end Gml.Text
