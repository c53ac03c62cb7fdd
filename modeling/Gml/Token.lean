import Gml.Position

/-!
# Tokens

A token is a stretch of the source with a meaning of its own: a literal, a name, a word of the
language, an operator or a bracket. Several operators have a second spelling as a word, so a token
keeps its text beside its kind.
-/

namespace Gml

/-- What a token is. -/
inductive Kind where
  /-- A number. -/
  | number
  /-- A text with escapes. -/
  | string
  /-- A text taken as it stands. -/
  | rawString
  /-- A name. -/
  | identifier
  | kwIf
  | kwThen
  | kwElse
  | kwWhile
  | kwDo
  | kwFor
  | kwUntil
  | kwRepeat
  | kwWith
  | kwSwitch
  | kwCase
  | kwDefault
  | kwReturn
  | kwExit
  | kwBreak
  | kwContinue
  | kwVar
  | kwGlobalVar
  | kwStruct
  | kwEnum
  /-- The word `div`. -/
  | intDiv
  | plus
  | minus
  | star
  | slash
  /-- The sign `%` or the word `mod`. -/
  | percent
  | bitAnd
  | bitOr
  | bitXor
  | bitNot
  | shiftLeft
  | shiftRight
  /-- The sign `&&` or the word `and`. -/
  | logicalAnd
  /-- The sign `||` or the word `or`. -/
  | logicalOr
  /-- The sign `^^` or the word `xor`. -/
  | logicalXor
  /-- The sign `!` or the word `not`. -/
  | bang
  | equal
  /-- The sign `!=` or `<>`. -/
  | notEqual
  | less
  | lessEqual
  | greater
  | greaterEqual
  /-- The sign `=` or `:=`. -/
  | assign
  | plusAssign
  | minusAssign
  | starAssign
  | slashAssign
  | percentAssign
  | orAssign
  | andAssign
  | xorAssign
  | increment
  | decrement
  | leftParen
  | rightParen
  /-- An opening brace or the word `begin`. -/
  | leftBrace
  /-- A closing brace or the word `end`. -/
  | rightBrace
  | leftBracket
  /-- The opening `[?`. -/
  | mapIndex
  /-- The opening `[@`. -/
  | arrayRefIndex
  /-- The opening `[#`. -/
  | gridIndex
  /-- The opening `[|`. -/
  | listIndex
  | rightBracket
  | question
  | colon
  | dot
  | comma
  | semicolon
  /-- The end of the source. -/
  | endOfFile
  deriving DecidableEq, Repr, Inhabited

namespace Kind

/-- The name of a kind in messages and token listings. -/
def name : Kind → String
  | number => "Number"
  | string => "String"
  | rawString => "RawString"
  | identifier => "Identifier"
  | kwIf => "If"
  | kwThen => "Then"
  | kwElse => "Else"
  | kwWhile => "While"
  | kwDo => "Do"
  | kwFor => "For"
  | kwUntil => "Until"
  | kwRepeat => "Repeat"
  | kwWith => "With"
  | kwSwitch => "Switch"
  | kwCase => "Case"
  | kwDefault => "Default"
  | kwReturn => "Return"
  | kwExit => "Exit"
  | kwBreak => "Break"
  | kwContinue => "Continue"
  | kwVar => "Var"
  | kwGlobalVar => "GlobalVar"
  | kwStruct => "Struct"
  | kwEnum => "Enum"
  | intDiv => "IntDiv"
  | plus => "Plus"
  | minus => "Minus"
  | star => "Star"
  | slash => "Slash"
  | percent => "Percent"
  | bitAnd => "BitAnd"
  | bitOr => "BitOr"
  | bitXor => "BitXor"
  | bitNot => "BitNot"
  | shiftLeft => "ShiftLeft"
  | shiftRight => "ShiftRight"
  | logicalAnd => "LogicalAnd"
  | logicalOr => "LogicalOr"
  | logicalXor => "LogicalXor"
  | bang => "Bang"
  | equal => "Equal"
  | notEqual => "NotEqual"
  | less => "Less"
  | lessEqual => "LessEqual"
  | greater => "Greater"
  | greaterEqual => "GreaterEqual"
  | assign => "Assign"
  | plusAssign => "PlusAssign"
  | minusAssign => "MinusAssign"
  | starAssign => "StarAssign"
  | slashAssign => "SlashAssign"
  | percentAssign => "PercentAssign"
  | orAssign => "OrAssign"
  | andAssign => "AndAssign"
  | xorAssign => "XorAssign"
  | increment => "Increment"
  | decrement => "Decrement"
  | leftParen => "LParen"
  | rightParen => "RParen"
  | leftBrace => "LBrace"
  | rightBrace => "RBrace"
  | leftBracket => "LBracket"
  | mapIndex => "MapIndex"
  | arrayRefIndex => "ArrayRefIndex"
  | gridIndex => "GridIndex"
  | listIndex => "ListIndex"
  | rightBracket => "RBracket"
  | question => "Question"
  | colon => "Colon"
  | dot => "Dot"
  | comma => "Comma"
  | semicolon => "Semicolon"
  | endOfFile => "EOF"

/-- Whether a token opens an index. -/
def isIndexOpen : Kind → Bool
  | leftBracket | mapIndex | arrayRefIndex | gridIndex | listIndex => true
  | _ => false

/-- Whether a token assigns. -/
def isAssignment : Kind → Bool
  | assign | plusAssign | minusAssign | starAssign | slashAssign | percentAssign
  | orAssign | andAssign | xorAssign => true
  | _ => false

/-- The words of the language and what they stand for. -/
def words : List (String × Kind) :=
  [("if", kwIf), ("then", kwThen), ("else", kwElse), ("while", kwWhile), ("do", kwDo),
   ("for", kwFor), ("until", kwUntil), ("repeat", kwRepeat), ("with", kwWith),
   ("switch", kwSwitch), ("case", kwCase), ("default", kwDefault), ("return", kwReturn),
   ("exit", kwExit), ("break", kwBreak), ("continue", kwContinue), ("var", kwVar),
   ("globalvar", kwGlobalVar), ("struct", kwStruct), ("enum", kwEnum), ("and", logicalAnd),
   ("or", logicalOr), ("xor", logicalXor), ("not", bang), ("mod", percent), ("div", intDiv),
   ("begin", leftBrace), ("end", rightBrace)]

/-- The kind of a word of the language. -/
def ofWord? (word : String) : Option Kind :=
  words.lookup word

/-- The operators of two characters. -/
def doubleOperators : List ((Char × Char) × Kind) :=
  [(('=', '='), equal), (('!', '='), notEqual), (('<', '>'), notEqual), (('<', '='), lessEqual),
   (('>', '='), greaterEqual), (('<', '<'), shiftLeft), (('>', '>'), shiftRight),
   (('&', '&'), logicalAnd), (('|', '|'), logicalOr), (('^', '^'), logicalXor),
   (('+', '='), plusAssign), (('-', '='), minusAssign), (('*', '='), starAssign),
   (('/', '='), slashAssign), (('%', '='), percentAssign), (('|', '='), orAssign),
   (('&', '='), andAssign), (('^', '='), xorAssign), (('+', '+'), increment),
   (('-', '-'), decrement), ((':', '='), assign)]

/-- The operators and brackets of one character. An opening bracket is not among them: what follows
it decides what it opens. -/
def singleOperators : List (Char × Kind) :=
  [('+', plus), ('-', minus), ('*', star), ('/', slash), ('%', percent), ('=', assign),
   ('<', less), ('>', greater), ('&', bitAnd), ('|', bitOr), ('^', bitXor), ('~', bitNot),
   ('!', bang), ('?', question), (':', colon), ('.', dot), (',', comma), (';', semicolon),
   ('(', leftParen), (')', rightParen), ('{', leftBrace), ('}', rightBrace), (']', rightBracket)]

end Kind

/-- A token with its place. -/
structure Token where
  /-- What it is. -/
  kind : Kind
  /-- Its text; for a text literal, the characters that it stands for. -/
  value : String
  /-- Where it starts. -/
  position : Position
  deriving DecidableEq, Repr, Inhabited

end Gml
