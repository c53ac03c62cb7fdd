import Gml.Diagnostic
import Gml.Source
import Gml.Text.Blank
import Gml.Text.Numeral

/-!
# Reading tokens

A source is read from left to right as gaps and tokens in turn. A gap is made of white space,
comments and directive lines; `Cursor.gapLength` measures one piece of it. A `Lexeme` is what a
token looks like before it has a place: its kind, its value and the number of characters that it is
written with, which is never zero.

A text literal without a closing quote runs to the end of the source, but leaves the line feed at
the very end alone.
-/

namespace Gml

/-! ### Gaps -/

/-- The number of characters before the end of the line. -/
def lineLength (chars : List Char) : Nat :=
  (chars.takeWhile (· ≠ '\n')).length

/-- The number of characters of a block comment after its opening mark. A comment without a closing
mark runs to the end. -/
def commentLength : List Char → Nat
  | [] => 0
  | '*' :: '/' :: _ => 2
  | _ :: rest => commentLength rest + 1

/-- The length of the piece of a gap at the cursor: one white space, one comment or one directive
line. Zero if a token comes next, or nothing. -/
def Cursor.gapLength (cursor : Cursor) : Nat :=
  match cursor.rest with
  | [] => 0
  | c :: rest =>
    if Text.isBlank c then 1
    else if c = '/' && rest.head? = some '/' then lineLength cursor.rest
    else if c = '/' && rest.head? = some '*' then commentLength (rest.drop 1) + 2
    else if c = '#' && cursor.atLineStart then lineLength cursor.rest
    else 0

/-- There is no gap at the end. -/
theorem Cursor.gapLength_eq_zero {cursor : Cursor} (h : cursor.rest = []) :
    cursor.gapLength = 0 := by
  simp [gapLength, h]

/-- Reads all pieces of a gap. -/
def Cursor.skipGap (cursor : Cursor) : Cursor :=
  if cursor.gapLength = 0 then cursor else skipGap (cursor.advance cursor.gapLength)
termination_by cursor.rest.length
decreasing_by
  have : cursor.rest ≠ [] := fun h => ‹¬ cursor.gapLength = 0› (gapLength_eq_zero h)
  have := List.length_pos_iff.mpr this
  simp only [rest_advance, List.length_drop]
  omega

/-- A gap makes nothing longer. -/
theorem Cursor.length_rest_skipGap (cursor : Cursor) :
    cursor.skipGap.rest.length ≤ cursor.rest.length := by
  fun_induction skipGap cursor with
  | case1 => simp
  | case2 cursor h ih =>
    simp only [rest_advance, List.length_drop] at ih
    omega

/-! ### Lexemes -/

/-- A token without its place. -/
structure Lexeme where
  /-- What it is. -/
  kind : Kind
  /-- Its text, or the characters that a text literal stands for. -/
  value : String
  /-- The number of characters that it is written with. -/
  length : Nat
  /-- No token is empty. -/
  length_pos : 0 < length

namespace Lexeme

open Text

/-- A token that stands for its own text. -/
def ofChars (kind : Kind) (first : Char) (rest : List Char) : Lexeme :=
  { kind
    value := String.ofList (first :: rest)
    length := rest.length + 1
    length_pos := Nat.succ_pos _ }

/-- A character that may open a text literal. -/
def isQuote (c : Char) : Bool :=
  c = '"' || c = '\''

/-- An octal digit. -/
def isOctalDigit (c : Char) : Bool :=
  '0' ≤ c && c ≤ '7'

/-- A character that a name may go on with. -/
def isNameChar (c : Char) : Bool :=
  c.isAlphanum || c = '_'

/-- The character with a number; numbers without a character give the replacement character. -/
def charOf (n : Nat) : Char :=
  if n.isValidChar then Char.ofNat n else '�'

/-- The digits of a decimal number, with at most one point among them. -/
def decimalDigits (chars : List Char) : List Char :=
  let whole := chars.takeWhile Char.isDigit
  match chars.drop whole.length with
  | '.' :: rest => whole ++ '.' :: rest.takeWhile Char.isDigit
  | _ => whole

/-- A character given by a letter and hexadecimal digits: what it stands for and its length. Without
digits the letter stands for itself. -/
def hexEscape (letter : Char) (most : Nat) (rest : List Char) : List Char × Nat :=
  let digits := (rest.take most).takeWhile isHexDigit
  if digits.isEmpty then ([letter], 1)
  else ([charOf (numberOf 16 digits)], digits.length + 1)

/-- What comes after a backslash: the characters that it stands for and its length. A line feed
stands for nothing, so that a text can go on in the next line. -/
def escape : List Char → List Char × Nat
  | [] => ([], 0)
  | 'n' :: _ => (['\n'], 1)
  | 'r' :: _ => (['\r'], 1)
  | 't' :: _ => (['\t'], 1)
  | 'a' :: _ => (['\x07'], 1)
  | 'v' :: _ => (['\x0b'], 1)
  | 'f' :: _ => (['\x0c'], 1)
  | 'b' :: _ => (['\x08'], 1)
  | '\n' :: _ => ([], 1)
  | 'u' :: rest => hexEscape 'u' 4 rest
  | 'x' :: rest => hexEscape 'x' 2 rest
  | c :: rest =>
    if isOctalDigit c then
      let digits := c :: (rest.take 2).takeWhile isOctalDigit
      ([charOf (numberOf 8 digits)], digits.length)
    else ([c], 1)

/-- The rest of a text literal after its opening quote: the characters that it stands for, and its
length with the closing quote. -/
def escapedText (quote : Char) : List Char → List Char × Nat
  | [] => ([], 0)
  | ['\n'] => ([], 0)
  | c :: rest =>
    if c = quote then ([], 1)
    else if c = '\\' then
      let (here, n) := escape rest
      let (later, m) := escapedText quote (rest.drop n)
      (here ++ later, n + m + 1)
    else
      let (later, m) := escapedText quote rest
      (c :: later, m + 1)
termination_by chars => chars.length

/-- The rest of a raw text literal after its opening quote. -/
def rawText (quote : Char) : List Char → List Char × Nat
  | [] => ([], 0)
  | ['\n'] => ([], 0)
  | c :: rest =>
    if c = quote then ([], 1)
    else
      let (later, m) := rawText quote rest
      (c :: later, m + 1)

/-- A text literal, given what comes after its opening marks. -/
def ofText (kind : Kind) (marks : Nat) (body : List Char × Nat) : Lexeme :=
  { kind
    value := String.ofList body.1
    length := marks + 1 + body.2
    length_pos := by omega }

/-- An opening bracket together with the sign after it. The sign `@` before a quote starts a raw
text inside the bracket. -/
def bracket (next afterNext : Char) : Lexeme :=
  if next = '?' then ofChars .mapIndex '[' ['?']
  else if next = '@' && !isQuote afterNext then ofChars .arrayRefIndex '[' ['@']
  else if next = '#' then ofChars .gridIndex '[' ['#']
  else if next = '|' then ofChars .listIndex '[' ['|']
  else ofChars .leftBracket '[' []

/-- An operator or bracket; of two operators with the same start the longer wins. -/
def operator? (c next afterNext : Char) : Option Lexeme :=
  if c = '[' then some (bracket next afterNext)
  else
    match Kind.doubleOperators.lookup (c, next) with
    | some kind => some (ofChars kind c [next])
    | none => (Kind.singleOperators.lookup c).map fun kind => ofChars kind c []

/-- A name or a word of the language. -/
def ofWord (first : Char) (rest : List Char) : Lexeme :=
  let more := rest.takeWhile isNameChar
  let kind := (Kind.ofWord? (String.ofList (first :: more))).getD .identifier
  ofChars kind first more

/-- The token at the start of a text, if there is one. -/
def read? (tier : Nat) : List Char → Option Lexeme
  | [] => none
  | c :: rest =>
    let next := rest[0]?.getD Cursor.beyond
    let afterNext := rest[1]?.getD Cursor.beyond
    if c = '$' && isHexDigit next then
      some (ofChars .number c (rest.takeWhile isHexDigit))
    else if c = '0' && (next = 'x' || next = 'X') && isHexDigit afterNext then
      some (ofChars .number c (next :: (rest.drop 1).takeWhile isHexDigit))
    else if c.isDigit || (c = '.' && next.isDigit) then
      some (ofChars .number c ((decimalDigits (c :: rest)).drop 1))
    else if c = '"' || (c = '\'' && tier < literalTier) then
      some (ofText .string 0 (escapedText c rest))
    else if c = '@' && isQuote next then
      some (ofText .rawString 1 (rawText next (rest.drop 1)))
    else if c.isAlpha || c = '_' then
      some (ofWord c rest)
    else
      operator? c next afterNext

end Lexeme

/-! ### Tokens -/

/-- The token that ends every source. -/
def Token.ending (position : Position) : Token :=
  { kind := .endOfFile, value := "", position }

/-- The tokens from the cursor on. -/
def Cursor.tokens (tier : Nat) (source : Source) (cursor : Cursor) :
    Except Diagnostic (List Token) :=
  let position := cursor.skipGap.position source
  match _h : cursor.skipGap.rest with
  | [] => .ok [.ending position]
  | c :: rest =>
    match Lexeme.read? tier (c :: rest) with
    | none => .error ⟨.unrecognized c, position⟩
    | some lexeme => do
      let later ← tokens tier source (cursor.skipGap.advance lexeme.length)
      return { kind := lexeme.kind, value := lexeme.value, position } :: later
termination_by cursor.rest.length
decreasing_by
  have := cursor.length_rest_skipGap
  have := lexeme.length_pos
  have : 0 < cursor.skipGap.rest.length := by simp [_h]
  simp only [rest_advance, List.length_drop]
  omega

/-- The tokens of a source text in a version tier. -/
def tokenize (text : String) (tier : Nat) : Except Diagnostic (List Token) :=
  let source := Source.ofString text
  (Cursor.start source).tokens tier source

end Gml
