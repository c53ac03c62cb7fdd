import Gml.Feature
import Gml.Instruction
import Gml.Token
import Gml.Tree.Text

/-!
# Diagnostics

A script that cannot be compiled has exactly one diagnostic: what is wrong with it, and where. What
is wrong is a `Fault`, a cause with the things that it is about; its wording and the stage of
compilation that it belongs to are functions of the cause.
-/

namespace Gml

/-- The stages of compilation. -/
inductive Stage where
  /-- Reading tokens. -/
  | lexical
  /-- Reading the tree. -/
  | grammar
  /-- Looking up names. -/
  | resolution
  /-- Writing instructions. -/
  | codeGen
  /-- Writing bytes. -/
  | assembly
  deriving DecidableEq, Repr, Inhabited

/-- The name of the errors of a stage. -/
def Stage.text : Stage → String
  | lexical => "LexingError"
  | grammar => "SyntaxError"
  | resolution => "ResolutionError"
  | codeGen => "CodeGenError"
  | assembly => "AssemblyError"

/-- Where a token was found that could not go on. -/
inductive Misplaced where
  /-- After an expression that is no statement by itself. -/
  | afterExpression
  /-- Between the arms of a switch. -/
  | betweenCases
  /-- In place of the key of a struct literal. -/
  | atStructKey
  /-- In place of an expression. -/
  | atExpression
  deriving DecidableEq, Repr, Inhabited

/-- The end of the message about a misplaced token. -/
def Misplaced.text : Misplaced → String
  | afterExpression => "after expression; expecting assignment or call"
  | betweenCases => "in switch; expecting case or default"
  | atStructKey => "in struct literal; expecting a key"
  | atExpression => "found during parsing"

/-- The deepest nesting of statements and expressions that is read. -/
def maxNesting : Nat := 128

/-- What can be wrong with a script. -/
inductive Fault where
  /-- A character that starts no token. -/
  | unrecognized (char : Char)
  /-- A token other than the one that has to come. -/
  | expected (kind : Kind) (found : Token)
  /-- A token where a name has to come. -/
  | expectedName (found : Token)
  /-- A token that cannot go on. -/
  | unexpected (found : Token) (place : Misplaced)
  /-- Too many levels of nesting. -/
  | tooDeep
  /-- Reading that goes on for more rounds or levels than there can be. -/
  | endless
  /-- A break with nothing to leave. -/
  | strayBreak
  /-- A continue with nothing to go on with. -/
  | strayContinue
  /-- The reserved word `struct`. -/
  | reservedWord
  /-- An assignment to something that is no variable. -/
  | badAssignment
  /-- A step by one of something that is no variable. -/
  | badUpdate
  /-- An index with too many or too few parts. -/
  | indexCount (count : Nat) (accessor : Accessor)
  /-- A hexadecimal number of more than 64 bits. -/
  | hexRange (text : String)
  /-- A number that cannot be read. -/
  | malformedNumber (text : String)
  /-- A member of an enumeration whose value is not a constant. -/
  | enumValue (enumeration member : String)
  /-- A member that an enumeration does not have. -/
  | noMember (enumeration member : String)
  /-- A local variable with a name that has a fixed meaning. -/
  | localName (name : String)
  /-- A global variable with a name that has a fixed meaning. -/
  | globalName (name : String)
  /-- A store to a member of an enumeration. -/
  | assignsMember
  /-- A store to a function of the target. -/
  | assignsFunction (name : String)
  /-- A store to a script, object or asset. -/
  | assignsSymbol (name : String)
  /-- A store to a name with a fixed number. -/
  | assignsConstant (name : String)
  /-- A feature that the tier does not have. -/
  | unavailable (feature : Feature) (tier : Nat)
  /-- A statement in place of an expression. -/
  | statementAsExpression (node : Node)
  /-- An expression in place of a statement. -/
  | expressionAsStatement
  /-- A name that cannot be loaded or stored. -/
  | notVariable (name : String) (resolution : Resolution)
  /-- A store to something that has no place. -/
  | notPlace
  /-- A break outside of every frame. -/
  | breakOutside
  /-- A continue outside of every frame. -/
  | continueOutside
  /-- A frame that is gone when it should be closed. -/
  | frameUnderflow
  /-- A branch without a target. -/
  | neverPatched (site : Nat)
  /-- An instruction that should be a branch. -/
  | notBranch (site : Nat)
  /-- A branch to beyond the script. -/
  | leavesScript (site : Nat)
  /-- A compilation that did not come to an end. -/
  | crashed (name : String)
  /-- More than fits in a byte. -/
  | tooManyForByte (what : String) (count : Nat)
  /-- More than fits in a word. -/
  | tooManyForWord (what : String) (count : Nat)
  /-- A width that operation codes cannot have. -/
  | opcodeWidth (width : Nat)
  /-- A width that operands cannot have. -/
  | operandWidth (width : Nat)
  /-- An operand that is too large for its width. -/
  | operandRange (operand : Int) (instruction : Instruction) (width : Nat)
  deriving Inhabited

namespace Fault

/-- A token as messages show it. -/
def shown (token : Token) : String :=
  if token.kind = .endOfFile then "end of file" else Text.quoted token.value

/-- The stage that a fault belongs to. -/
def stage : Fault → Stage
  | unrecognized .. => .lexical
  | expected .. | expectedName .. | unexpected .. | tooDeep | endless | strayBreak
  | strayContinue | reservedWord | badAssignment | badUpdate | indexCount .. | hexRange ..
  | malformedNumber .. => .grammar
  | enumValue .. | noMember .. | localName .. | globalName .. | assignsMember
  | assignsFunction .. | assignsSymbol .. | assignsConstant .. | unavailable .. => .resolution
  | statementAsExpression .. | expressionAsStatement | notVariable .. | notPlace | breakOutside
  | continueOutside | frameUnderflow | neverPatched .. | notBranch .. | leavesScript ..
  | crashed .. => .codeGen
  | tooManyForByte .. | tooManyForWord .. | opcodeWidth .. | operandWidth .. | operandRange .. =>
    .assembly

/-- The wording of a fault. -/
def message : Fault → String
  | unrecognized char => s!"Unrecognized character {Text.quotedChar char}"
  | expected kind found => s!"Expecting {kind.name} but got {shown found}"
  | expectedName found => s!"Expecting identifier but got {shown found}"
  | unexpected found place => s!"Unexpected {shown found} {place.text}"
  | tooDeep => s!"Code is nested more than {maxNesting} levels deep"
  | endless => "Code does not end"
  | strayBreak => "break used outside of a loop, switch or with"
  | strayContinue => "continue used outside of a loop or with"
  | reservedWord => "'struct' is a reserved word"
  | badAssignment => "Invalid assignment target"
  | badUpdate => "Invalid increment/decrement target"
  | indexCount count accessor => s!"Wrong number of indices ({count}) for {accessor.text} accessor"
  | hexRange text => s!"Hex literal {text} out of range"
  | malformedNumber text => s!"Malformed number {text}"
  | enumValue enumeration member => s!"Value of {enumeration}.{member} must be a constant integer"
  | noMember enumeration member => s!"Enum {enumeration} has no member {member}"
  | localName name => s!"Cannot declare {name} as a local variable"
  | globalName name => s!"Cannot declare {name} as a global variable"
  | assignsMember => "Cannot assign to an enum member"
  | assignsFunction name => s!"Cannot assign to builtin function {name}"
  | assignsSymbol name => s!"Cannot assign to asset {name}"
  | assignsConstant name => s!"Cannot assign to constant {name}"
  | unavailable feature tier =>
    s!"{feature.name} are not available before version tier {feature.minTier}"
      ++ s!" (target is tier {tier})"
  | statementAsExpression node => s!"Statement {node.kindText} used as an expression"
  | expressionAsStatement => "Expression used as a statement"
  | notVariable name resolution => s!"{name} ({resolution.text}) is not a variable"
  | notPlace => "Invalid assignment target"
  | breakOutside => "break outside of a loop"
  | continueOutside => "continue outside of a loop"
  | frameUnderflow => "Loop frame stack underflow"
  | neverPatched site => s!"Branch at instruction {site} was never patched"
  | notBranch site => s!"Instruction {site} is not a branch"
  | leavesScript site => s!"Branch at instruction {site} leaves the script"
  | crashed name => s!"compiler panicked while compiling {name}"
  | tooManyForByte what count => s!"Too many {what} ({count}), at most 255"
  | tooManyForWord what count => s!"Too many {what} ({count})"
  | opcodeWidth width => s!"Unsupported opcode width {width}"
  | operandWidth width => s!"Unsupported operand width {width}"
  | operandRange operand instruction width =>
    s!"Operand {operand} of {instruction.text} does not fit in {width} byte(s)"

end Fault

/-- A fault with the place that it was found at. -/
structure Diagnostic where
  /-- What is wrong. -/
  fault : Fault
  /-- Where. -/
  position : Position
  deriving Inhabited

namespace Diagnostic

/-- The stage that failed. -/
def stage (d : Diagnostic) : Stage :=
  d.fault.stage

/-- What is wrong, in words. -/
def message (d : Diagnostic) : String :=
  d.fault.message

/-- Whether the compiler is to blame and not the script. -/
def isInternal (d : Diagnostic) : Bool :=
  d.stage = .codeGen

end Diagnostic

/-- A report of a failed stage; the place is already in the form that the reader is to see. -/
def Stage.report (stage : Stage) (message place : String) : String :=
  s!"{stage.text}: {message}\n  --> {place}"

/-- The report of a diagnostic. -/
def Diagnostic.text (d : Diagnostic) : String :=
  d.stage.report d.message d.position.text

end Gml
