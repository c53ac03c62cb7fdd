import Gml.Tree.Parser.Expression

/-!
# Reading statements

A statement is told by its first token; one that starts with no word of the language is an
assignment, a call or a step by one. `Parse.grammar` ties the knot: the actions of each level of
nesting are made from those of the next, and there are only so many levels.
-/

namespace Gml

/-- The assignment of a sign. -/
def AssignOp.ofKind : Kind → AssignOp
  | .plusAssign => .add
  | .minusAssign => .subtract
  | .starAssign => .multiply
  | .slashAssign => .divide
  | .percentAssign => .modulo
  | .orAssign => .bitOr
  | .andAssign => .bitAnd
  | .xorAssign => .bitXor
  | _ => .assign

namespace Parse

/-! ### Parts -/

/-- An assignment, a call or a step by one. -/
def simple (inner : Inner) : Parse Node := do
  let start ← position
  let target ← unary inner
  if (← kind).isAssignment then
    unless target.isAssignable do
      fail .badAssignment
    let operator := AssignOp.ofKind (← next).kind
    return .assign start target operator (← inner.expression)
  else
    match target with
    | .call .. | .update .. => return .discard start target
    | _ => unexpected .afterExpression

/-- A name and the value after it, if there is one. -/
def binding (inner : Inner) : Parse (Binding Node) := do
  let token ← eatName
  let value ← if ← skip .assign then some <$> inner.expression else pure none
  return { name := token.value, value, position := token.position }

/-- Local variables. -/
def declaration (inner : Inner) : Parse Node := do
  let start := (← eat .kwVar).position
  return .declare start (← separated (binding inner))

/-- An arm of a switch. -/
def switchCase (inner : Inner) : Parse (Case Node) := do
  let start ← position
  let label ←
    match ← kind with
    | .kwCase =>
      let _ ← next
      some <$> inner.expression
    | .kwDefault =>
      let _ ← next
      pure none
    | _ => unexpected .betweenCases
  let _ ← eat .colon
  let body ← manyUntil (fun kind => kind ∈ [.kwCase, .kwDefault, .rightBrace, .endOfFile])
    inner.statement
  return { label, body, position := start }

/-! ### Statements by their first token -/

/-- Statements in braces. -/
def block (inner : Inner) : Parse Node := do
  let start := (← eat .leftBrace).position
  let body ← manyUntil (fun kind => kind ∈ [.rightBrace, .endOfFile]) inner.statement
  let _ ← eat .rightBrace
  return .block start body

/-- A choice. -/
def ifElse (inner : Inner) : Parse Node := do
  let start := (← eat .kwIf).position
  let condition ← inner.expression
  let _ ← skip .kwThen
  let thenBody ← inner.statement
  let elseBody ← if ← skip .kwElse then some <$> inner.statement else pure none
  return .ifElse start condition thenBody elseBody

/-- A loop that tests first. -/
def whileDo (inner : Inner) : Parse Node := do
  let start := (← eat .kwWhile).position
  let condition ← inner.expression
  let _ ← skip .kwDo
  return .whileDo start condition (← inLoop inner.statement)

/-- A loop that tests last. -/
def doUntil (inner : Inner) : Parse Node := do
  let start := (← eat .kwDo).position
  let body ← inLoop inner.statement
  let _ ← eat .kwUntil
  let condition ← inner.expression
  let _ ← skip .semicolon
  return .doUntil start body condition

/-- A loop with a fixed count. -/
def repeatTimes (inner : Inner) : Parse Node := do
  let start := (← eat .kwRepeat).position
  let count ← inner.expression
  return .repeatTimes start count (← inLoop inner.statement)

/-- A loop with clauses. -/
def forLoop (inner : Inner) : Parse Node := do
  let start := (← eat .kwFor).position
  let _ ← eat .leftParen
  let init ← listUntil .semicolon do
    if ← check .kwVar then declaration inner else simple inner
  let _ ← eat .semicolon
  let condition ← if ← check .semicolon then pure none else some <$> inner.expression
  let _ ← eat .semicolon
  let step ← listUntil .rightParen (simple inner)
  let _ ← eat .rightParen
  return .forLoop start init condition step (← inLoop inner.statement)

/-- A choice among arms. -/
def switch (inner : Inner) : Parse Node := do
  let start := (← eat .kwSwitch).position
  let subject ← inner.expression
  let _ ← eat .leftBrace
  modify fun parser => { parser with breakableDepth := parser.breakableDepth + 1 }
  let cases ← manyUntil (fun kind => kind ∈ [.rightBrace, .endOfFile]) (switchCase inner)
  modify fun parser => { parser with breakableDepth := parser.breakableDepth - 1 }
  let _ ← eat .rightBrace
  return .switch start subject cases

/-- A body run as each of several instances. -/
def withEach (inner : Inner) : Parse Node := do
  let start := (← eat .kwWith).position
  let targets ←
    if ← skip .leftParen then
      let targets ← separated inner.expression
      let _ ← eat .rightParen
      pure targets
    else
      pure [← inner.expression]
  return .withEach start targets (← inLoop inner.statement)

/-- Global variables. -/
def globals : Parse Node := do
  let start := (← eat .kwGlobalVar).position
  let names ← separated eatName
  let _ ← skip .semicolon
  return .declareGlobal start (names.map Token.value)

/-- An enumeration. -/
def enumeration (inner : Inner) : Parse Node := do
  let start := (← eat .kwEnum).position
  let name ← eatName
  let _ ← eat .leftBrace
  let members ← listUntil .rightBrace (binding inner)
  let _ ← eat .rightBrace
  let _ ← skip .semicolon
  return .declareEnum start name.value members

/-- The end of the script with a value. -/
def returning (inner : Inner) : Parse Node := do
  let start := (← eat .kwReturn).position
  let value ←
    match ← kind with
    | .semicolon | .rightBrace | .endOfFile => pure none
    | _ => some <$> inner.expression
  let _ ← skip .semicolon
  return .returning start value

/-- A statement of one level of nesting. -/
def statement (inner : Inner) : Parse Node := do
  let start ← position
  match ← kind with
  | .semicolon =>
    let _ ← next
    return .block start []
  | .leftBrace => block inner
  | .kwIf => ifElse inner
  | .kwWhile => whileDo inner
  | .kwDo => doUntil inner
  | .kwRepeat => repeatTimes inner
  | .kwFor => forLoop inner
  | .kwSwitch => switch inner
  | .kwWith => withEach inner
  | .kwVar =>
    let declared ← declaration inner
    let _ ← skip .semicolon
    return declared
  | .kwGlobalVar => globals
  | .kwEnum => enumeration inner
  | .kwReturn => returning inner
  | .kwExit =>
    let _ ← next
    let _ ← skip .semicolon
    return .exit start
  | .kwBreak =>
    if (← get).breakableDepth = 0 then
      fail .strayBreak
    let _ ← next
    let _ ← skip .semicolon
    return .breaking start
  | .kwContinue =>
    if (← get).loopDepth = 0 then
      fail .strayContinue
    let _ ← next
    let _ ← skip .semicolon
    return .continuing start
  | .kwStruct => fail .reservedWord
  | _ =>
    let result ← simple inner
    let _ ← skip .semicolon
    return result

/-! ### Nesting -/

/-- The actions that may go on for a number of levels of nesting. -/
def grammar : Nat → Inner
  | 0 => { statement := fail .endless, expression := fail .endless, operand := fail .endless }
  | levels + 1 =>
    let inner := grammar levels
    { statement := nested (statement inner)
      expression := nested (conditional inner)
      operand := nested (unary inner) }

end Parse

namespace Parser

/-- A parser at the start of its tokens. -/
def ofTokens (tokens : List Token) : Parser :=
  { tokens := tokens.toArray }

/-- Reads one expression. -/
def expression : Parse Node :=
  (Parse.grammar (maxNesting + 1)).expression

/-- Reads one statement. -/
def statement : Parse Node :=
  (Parse.grammar (maxNesting + 1)).statement

/-- Reads statements up to the end. -/
def script : Parse Script := do
  return ⟨← Parse.manyUntil (· = .endOfFile) statement⟩

end Parser

/-- The script that tokens stand for. -/
def Script.ofTokens (tokens : List Token) : Except Diagnostic Script :=
  (Parser.script.run.run (.ofTokens tokens)).1

/-- The script that a source text stands for in a version tier. -/
def Script.parse (text : String) (tier : Nat) : Except Diagnostic Script := do
  Script.ofTokens (← tokenize text tier)

end Gml
