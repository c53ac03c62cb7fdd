import Gml.Json

/-!
# Reading JSON

A value is read from the front of a text, and the rest of the text is handed on. A whole text is one
value with nothing but blanks around it.

Every step of the reader takes at least one character, so the length of the text bounds the number
of steps.
-/

namespace Gml.Json

/-- A character between the parts of a value. -/
def isSpace (c : Char) : Bool :=
  c = ' ' || c = '\n' || c = '\t' || c = '\r'

/-- The text without the blanks at its start. -/
def skipSpace (chars : List Char) : List Char :=
  chars.dropWhile isSpace

/-! ### Numbers -/

/-- A run of at least one digit, and the rest. -/
def digits? (chars : List Char) : Option (List Char × List Char) :=
  match chars.takeWhile Char.isDigit with
  | [] => none
  | digits => some (digits, chars.drop digits.length)

/-- The digits before the point: a single zero, or a run that does not start with one. -/
def whole? : List Char → Option (List Char × List Char)
  | '0' :: rest =>
    match rest with
    | c :: _ => if c.isDigit then none else some (['0'], rest)
    | [] => some (['0'], [])
  | chars => digits? chars

/-- The point and the digits after it, if there is a point. -/
def fraction? : List Char → Option (List Char × List Char)
  | '.' :: rest => (digits? rest).map fun (digits, rest) => ('.' :: digits, rest)
  | chars => some ([], chars)

/-- The exponent, if there is one. -/
def exponent? : List Char → Option (List Char × List Char)
  | c :: rest =>
    if c = 'e' || c = 'E' then
      match rest with
      | '+' :: rest => (digits? rest).map fun (digits, rest) => (c :: '+' :: digits, rest)
      | '-' :: rest => (digits? rest).map fun (digits, rest) => (c :: '-' :: digits, rest)
      | _ => (digits? rest).map fun (digits, rest) => (c :: digits, rest)
    else some ([], c :: rest)
  | [] => some ([], [])

/-- A number. -/
def readNumber? (chars : List Char) : Option (Json × List Char) := do
  let (sign, chars) :=
    match chars with
    | '-' :: rest => (['-'], rest)
    | _ => ([], chars)
  let (whole, chars) ← whole? chars
  let (fraction, chars) ← fraction? chars
  let (exponent, chars) ← exponent? chars
  return (number (String.ofList (sign ++ whole ++ fraction ++ exponent)), chars)

/-! ### Texts -/

/-- The value of a hexadecimal digit. -/
def hexDigit? (c : Char) : Option Nat :=
  if c.isDigit then some (c.toNat - '0'.toNat)
  else if 'a' ≤ c && c ≤ 'f' then some (c.toNat - 'a'.toNat + 10)
  else if 'A' ≤ c && c ≤ 'F' then some (c.toNat - 'A'.toNat + 10)
  else none

/-- The number that four hexadecimal digits stand for. -/
def unit? (a b c d : Char) : Option Nat := do
  return (((← hexDigit? a) * 16 + (← hexDigit? b)) * 16 + (← hexDigit? c)) * 16 + (← hexDigit? d)

/-- The characters of a text, still in 16-bit units where they were written so. -/
inductive Piece where
  /-- A character that stands for itself or has a short escape. -/
  | char (c : Char)
  /-- A 16-bit unit. -/
  | unit (n : Nat)

/-- The character of a short escape. -/
def shortEscape? (c : Char) : Option Char :=
  [('"', '"'), ('\\', '\\'), ('/', '/'), ('b', '\x08'), ('f', '\x0c'), ('n', '\n'), ('r', '\r'),
    ('t', '\t')].lookup c

/-- The pieces of a text after its opening quote. -/
def pieces? : List Char → Option (List Piece × List Char)
  | [] => none
  | '"' :: rest => some ([], rest)
  | '\\' :: 'u' :: a :: b :: c :: d :: rest => do
    let n ← unit? a b c d
    let (later, rest) ← pieces? rest
    return (.unit n :: later, rest)
  | '\\' :: c :: rest => do
    let c ← shortEscape? c
    let (later, rest) ← pieces? rest
    return (.char c :: later, rest)
  | c :: rest =>
    if c = '\\' || c.toNat < 0x20 then none
    else do
      let (later, rest) ← pieces? rest
      return (.char c :: later, rest)

/-- The text of pieces. Two units beyond the sixteen-bit range make up one character; one alone
makes up none. -/
def textOf? : List Piece → Option (List Char)
  | [] => some []
  | .char c :: rest => (c :: ·) <$> textOf? rest
  | .unit high :: .unit low :: rest =>
    if 0xd800 ≤ high && high ≤ 0xdbff then
      if 0xdc00 ≤ low && low ≤ 0xdfff then
        (Char.ofNat (0x10000 + (high - 0xd800) * 0x400 + (low - 0xdc00)) :: ·) <$> textOf? rest
      else none
    else if 0xdc00 ≤ high && high ≤ 0xdfff then none
    else (Char.ofNat high :: ·) <$> textOf? (.unit low :: rest)
  | .unit n :: rest =>
    if 0xd800 ≤ n && n ≤ 0xdfff then none else (Char.ofNat n :: ·) <$> textOf? rest

/-- A text after its opening quote. -/
def readText? (chars : List Char) : Option (Option String × List Char) := do
  let (pieces, rest) ← pieces? chars
  return ((textOf? pieces).map String.ofList, rest)

/-! ### Values -/

/-- Takes a word off the front of a text. -/
def word? (word : List Char) (value : Json) (chars : List Char) : Option (Json × List Char) :=
  if word.isPrefixOf chars then some (value, chars.drop word.length) else none

mutual

/-- A value, within a number of steps. -/
def readValue? : Nat → List Char → Option (Json × List Char)
  | 0, _ => none
  | steps + 1, chars =>
    match skipSpace chars with
    | '[' :: rest =>
      match skipSpace rest with
      | ']' :: rest => some (array [], rest)
      | rest => do
        let (elements, rest) ← readElements? steps rest
        return (array elements, rest)
    | '\x7b' :: rest =>
      match skipSpace rest with
      | '\x7d' :: rest => some (object [], rest)
      | rest => do
        let (members, rest) ← readMembers? steps rest
        return (object members, rest)
    | '"' :: rest => do
      let (text, rest) ← readText? rest
      return (string text, rest)
    | 't' :: rest => word? "rue".toList (bool true) rest
    | 'f' :: rest => word? "alse".toList (bool false) rest
    | 'n' :: rest => word? "ull".toList null rest
    | chars => readNumber? chars

/-- The elements of an array and its closing bracket. -/
def readElements? : Nat → List Char → Option (List Json × List Char)
  | 0, _ => none
  | steps + 1, chars => do
    let (element, rest) ← readValue? steps chars
    match skipSpace rest with
    | ',' :: rest =>
      let (later, rest) ← readElements? steps rest
      return (element :: later, rest)
    | ']' :: rest => return ([element], rest)
    | _ => none

/-- The members of an object and its closing brace. -/
def readMembers? : Nat → List Char → Option (List (Option String × Json) × List Char)
  | 0, _ => none
  | steps + 1, chars =>
    match skipSpace chars with
    | '"' :: rest => do
      let (key, rest) ← readText? rest
      match skipSpace rest with
      | ':' :: rest =>
        let (value, rest) ← readValue? steps rest
        match skipSpace rest with
        | ',' :: rest =>
          let (later, rest) ← readMembers? steps rest
          return ((key, value) :: later, rest)
        | '\x7d' :: rest => return ([(key, value)], rest)
        | _ => none
      | _ => none
    | _ => none

end

/-- The value that a whole text stands for. -/
def parse? (text : String) : Option Json := do
  let chars := text.toList
  let (value, rest) ← readValue? (chars.length + 1) chars
  guard (skipSpace rest).isEmpty
  return value

end Gml.Json
