import Gml.Number.Layout
import Gml.Text.Quoted
import Gml.Tree

/-!
# Trees as text

The full text of a tree, for messages about a node that stands where it cannot. Every part is
written with its name, on one line.
-/

namespace Gml

/-! ### Names of operators -/

/-- The name of an operator. -/
def BinaryOp.text : BinaryOp → String
  | add => "Add"
  | subtract => "Subtract"
  | multiply => "Multiply"
  | divide => "Divide"
  | intDivide => "IntDivide"
  | modulo => "Modulo"
  | bitAnd => "BitAnd"
  | bitOr => "BitOr"
  | bitXor => "BitXor"
  | shiftLeft => "ShiftLeft"
  | shiftRight => "ShiftRight"
  | equal => "Equal"
  | notEqual => "NotEqual"
  | less => "Less"
  | lessEqual => "LessEqual"
  | greater => "Greater"
  | greaterEqual => "GreaterEqual"

/-- The name of an operator. -/
def LogicalOp.text : LogicalOp → String
  | and => "And"
  | or => "Or"
  | xor => "Xor"

/-- The name of an operator. -/
def UnaryOp.text : UnaryOp → String
  | not => "Not"
  | negate => "Negate"
  | bitNot => "BitNot"

/-- The name of an accessor. -/
def Accessor.text : Accessor → String
  | array => "Array"
  | map => "Map"
  | arrayRef => "ArrayRef"
  | grid => "Grid"
  | list => "List"

/-- The name of an assignment. -/
def AssignOp.text : AssignOp → String
  | assign => "Assign"
  | add => "Add"
  | subtract => "Subtract"
  | multiply => "Multiply"
  | divide => "Divide"
  | modulo => "Modulo"
  | bitOr => "BitOr"
  | bitAnd => "BitAnd"
  | bitXor => "BitXor"

/-- The name of a step. -/
def Step.text : Step → String
  | increment => "Increment"
  | decrement => "Decrement"

/-- What a name refers to, as text. -/
def Resolution.text : Resolution → String
  | unresolved => "Unresolved"
  | localVar => "Local"
  | globalVar => "Global"
  | argument index => s!"Argument({index})"
  | argumentArray => "ArgumentArray"
  | builtinFunction => "BuiltinFunction"
  | builtinVariable => "BuiltinVariable"
  | userSymbol reference => s!"UserSymbol({reference})"
  | intrinsic value => s!"Intrinsic({value})"
  | dynamic => "Dynamic"

/-! ### Shapes -/

namespace Text

/-- A named group of named parts. -/
def record (name : String) (parts : List (String × String)) : String :=
  name ++ " \x7b " ++ String.intercalate ", " (parts.map fun part => part.1 ++ ": " ++ part.2)
    ++ " \x7d"

/-- A named group of parts. -/
def tuple (name : String) (parts : List String) : String :=
  name ++ "(" ++ String.intercalate ", " parts ++ ")"

/-- A sequence. -/
def sequence (parts : List String) : String :=
  "[" ++ String.intercalate ", " parts ++ "]"

/-- A truth value. -/
def truth (b : Bool) : String :=
  if b then "true" else "false"

end Text

open Text

/-- A place with all its numbers. -/
def Position.fullText (p : Position) : String :=
  record "Position" [("line", toString p.line), ("column", toString p.column),
    ("index", toString p.index)]

namespace Node

/-- A node with its place, given the text of what it is. -/
def placed (node : Node) (kind : String) : String :=
  record "Node" [("kind", kind), ("position", node.position.fullText)]

/-- A part of a node that is itself a node. -/
def part (name : String) (node : Node) (kind : String) : String × String :=
  (name, node.placed kind)

mutual

/-- What a node is, without its own place. -/
def kindText : Node → String
  | int _ value => tuple "NumericLiteral" [tuple "Int" [toString value]]
  | real _ value => tuple "NumericLiteral" [tuple "Real" [Layout.value.text value]]
  | string _ value verbatim =>
    record "StringLiteral" [("value", quoted value), ("verbatim", truth verbatim)]
  | ident _ name resolution =>
    record "Identifier" [("name", quoted name), ("resolution", resolution.text)]
  | binary _ operator lhs rhs =>
    record "BinaryExpression"
      [("operator", operator.text), part "lhs" lhs lhs.kindText, part "rhs" rhs rhs.kindText]
  | logical _ operator lhs rhs =>
    record "LogicalExpression"
      [("operator", operator.text), part "lhs" lhs lhs.kindText, part "rhs" rhs rhs.kindText]
  | unary _ operator operand =>
    record "UnaryExpression" [("operator", operator.text), part "operand" operand operand.kindText]
  | conditional _ condition thenValue elseValue =>
    record "Conditional" [part "condition" condition condition.kindText,
      part "then" thenValue thenValue.kindText, part "otherwise" elseValue elseValue.kindText]
  | call _ callee arguments =>
    record "FunctionCall"
      [part "callee" callee callee.kindText, ("arguments", sequence (fullTexts arguments))]
  | index _ container accessor indices =>
    record "Index" [part "target" container container.kindText, ("accessor", accessor.text),
      ("indices", sequence (fullTexts indices))]
  | member _ instanceOf field =>
    record "Member" [part "target" instanceOf instanceOf.kindText, ("field", quoted field)]
  | update _ target step inFront =>
    record "Update"
      [part "target" target target.kindText, ("step", step.text), ("prefix", truth inFront)]
  | struct _ fields => tuple "StructLiteral" [sequence (fieldTexts fields)]
  | array _ elements => tuple "ArrayLiteral" [sequence (fullTexts elements)]
  | assign _ target operator value =>
    record "Assignment" [part "target" target target.kindText, ("operator", operator.text),
      part "value" value value.kindText]
  | block _ body => tuple "Block" [sequence (fullTexts body)]
  | ifElse _ condition thenBody elseBody =>
    record "If" [part "condition" condition condition.kindText,
      part "then" thenBody thenBody.kindText, ("otherwise", optionalText elseBody)]
  | whileDo _ condition body =>
    record "While" [part "condition" condition condition.kindText, part "body" body body.kindText]
  | doUntil _ body condition =>
    record "DoUntil" [part "body" body body.kindText, part "condition" condition condition.kindText]
  | repeatTimes _ count body =>
    record "Repeat" [part "count" count count.kindText, part "body" body body.kindText]
  | forLoop _ init condition step body =>
    record "For" [("init", sequence (fullTexts init)), ("condition", optionalText condition),
      ("step", sequence (fullTexts step)), part "body" body body.kindText]
  | switch _ subject cases =>
    record "Switch" [part "subject" subject subject.kindText, ("cases", sequence (caseTexts cases))]
  | withEach _ targets body =>
    record "With" [("targets", sequence (fullTexts targets)), part "body" body body.kindText]
  | declare _ bindings => tuple "Var" [sequence (bindingTexts "Declaration" bindings)]
  | declareGlobal _ names => tuple "GlobalVar" [sequence (names.map quoted)]
  | declareEnum _ name members =>
    record "Enum"
      [("name", quoted name), ("members", sequence (bindingTexts "EnumMember" members))]
  | returning _ value => tuple "Return" [optionalText value]
  | exit _ => "Exit"
  | breaking _ => "Break"
  | continuing _ => "Continue"
  | discard _ expression => tuple "Expression" [placed expression expression.kindText]
termination_by structural node => node

/-- Each of several nodes. -/
def fullTexts : List Node → List String
  | [] => []
  | node :: rest => placed node node.kindText :: fullTexts rest
termination_by structural nodes => nodes

/-- A node that may be missing. -/
def optionalText : Option Node → String
  | none => "None"
  | some node => tuple "Some" [placed node node.kindText]
termination_by structural node => node

/-- Each field of a struct. -/
def fieldTexts : List (String × Node) → List String
  | [] => []
  | (key, value) :: rest => tuple "" [quoted key, placed value value.kindText] :: fieldTexts rest
termination_by structural fields => fields

/-- Each of several bindings of one sort. -/
def bindingTexts (sort : String) : List (Binding Node) → List String
  | [] => []
  | ⟨name, value, position⟩ :: rest =>
    record sort [("name", quoted name), ("value", optionalText value),
      ("position", position.fullText)] :: bindingTexts sort rest
termination_by structural bindings => bindings

/-- Each arm of a switch. -/
def caseTexts : List (Case Node) → List String
  | [] => []
  | ⟨label, body, position⟩ :: rest =>
    record "Case" [("label", optionalText label), ("body", sequence (fullTexts body)),
      ("position", position.fullText)] :: caseTexts rest
termination_by structural cases => cases

end

end Node

end Gml
