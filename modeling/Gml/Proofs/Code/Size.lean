import Gml.Proofs.Code.Layout

/-!
# The size of code

How many instructions are written for a tree, counted on the tree alone. An expression has the same
code wherever it stands. A statement has not: a `break`, a `continue` and the end of the script first
undo what the constructs around them have done, so that the kinds of these constructs count, too.

`Script.codeSize` is the number of instructions of a script. The end of the script may add one.
-/

namespace Gml

/-! ### Leaving constructs -/

namespace FrameKind

/-- The instructions of a `break` inside of constructs of given kinds. -/
def breakSize (kinds : List FrameKind) : Nat :=
  if kinds.head? = some .within then 2 else 1

/-- The number of switches that a `continue` crosses. -/
def crossedCount (kinds : List FrameKind) : Nat :=
  (kinds.takeWhile (· = .switch)).length

/-- The number of instances that the end of the script leaves. -/
def enteredCount (kinds : List FrameKind) : Nat :=
  kinds.count .within

end FrameKind

namespace Node

/-! ### Places -/

/-- Whether the node is a name. -/
def isName : Node → Bool
  | ident .. => true
  | _ => false

/-- The number of values that the address of the node takes on the stack. -/
def addressWidth : Node → UInt8
  | member .. => 1
  | index _ container accessor indices =>
    if Generate.isArgument container accessor indices then 1 else UInt8.ofNat indices.length + 1
  | _ => 0

/-- The instructions that load from the node and keep its address. -/
def keepingSize (target : Node) : Nat :=
  if target.addressWidth ≠ 0 then 2 else 1

/-- The instructions that step the node by one and leave a value. -/
def steppingSize (target : Node) : Nat :=
  target.keepingSize + if target.isName then 4 else 6

/-! ### Expressions -/

mutual

/-- The instructions of an expression. -/
def expressionSize : Node → Nat
  | int .. | real .. | string .. | ident .. => 1
  | binary _ _ lhs rhs => lhs.expressionSize + rhs.expressionSize + 1
  | logical _ .xor lhs rhs => lhs.expressionSize + rhs.expressionSize + 3
  | logical _ _ lhs rhs => lhs.expressionSize + rhs.expressionSize + 5
  | unary _ _ operand => operand.expressionSize + 1
  | conditional _ condition thenValue elseValue =>
    condition.expressionSize + thenValue.expressionSize + elseValue.expressionSize + 2
  | call _ callee arguments =>
    expressionsSize arguments + (if callee.isCalledByName then 0 else callee.expressionSize) + 1
  | index _ container accessor indices =>
    (if Generate.isArgument container accessor indices then 0 else container.expressionSize)
      + expressionsSize indices + 1
  | member _ instanceOf _ => instanceOf.expressionSize + 1
  | update _ target _ _ => target.addressSize + target.steppingSize
  | struct _ fields => fieldsSize fields + 1
  | array _ elements => expressionsSize elements + 1
  | _ => 0
termination_by structural node => node

/-- The instructions of an address. -/
def addressSize : Node → Nat
  | member _ instanceOf _ => instanceOf.expressionSize
  | index _ container accessor indices =>
    (if Generate.isArgument container accessor indices then 0 else container.expressionSize)
      + expressionsSize indices
  | _ => 0
termination_by structural node => node

/-- The instructions of several expressions. -/
def expressionsSize : List Node → Nat
  | [] => 0
  | node :: rest => node.expressionSize + expressionsSize rest
termination_by structural nodes => nodes

/-- The instructions of the fields of a struct. -/
def fieldsSize : List (String × Node) → Nat
  | [] => 0
  | (_, value) :: rest => 1 + value.expressionSize + fieldsSize rest
termination_by structural fields => fields

end

/-- The instructions of an expression that may be missing, and of one after it. -/
def clauseSize : Option Node → Nat
  | none => 0
  | some node => node.expressionSize + 1

/-- The instructions that give local variables their values. -/
def declarationsSize : List (Binding Node) → Nat
  | [] => 0
  | binding :: rest => clauseSize binding.value + declarationsSize rest

/-- The instructions that compare the subject of a switch with its labels. -/
def labelsSize : List (Case Node) → Nat
  | [] => 0
  | arm :: rest =>
    (match arm.label with
      | some label => label.expressionSize + 3
      | none => 0) + labelsSize rest

/-! ### Statements -/

mutual

/-- The instructions of a statement inside of constructs of given kinds. -/
@[simp]
def statementSize : Node → List FrameKind → Nat
  | block _ body, kinds => statementsSize body kinds
  | assign _ target operator value, _ =>
    target.addressSize + value.expressionSize
      + if operator.binary?.isSome then target.keepingSize + 2 else 1
  | discard _ (update _ target _ _), _ => target.addressSize + target.keepingSize + 3
  | discard _ expression, _ => expression.expressionSize + 1
  | ifElse _ condition thenBody elseBody, kinds =>
    condition.expressionSize + thenBody.statementSize kinds + 1
      + match elseBody with
        | some elseBody => elseBody.statementSize kinds + 1
        | none => 0
  | whileDo _ condition body, kinds =>
    condition.expressionSize + body.statementSize (.loop :: kinds) + 2
  | doUntil _ body condition, kinds =>
    body.statementSize (.loop :: kinds) + condition.expressionSize + 1
  | repeatTimes _ count body, kinds =>
    count.expressionSize + body.statementSize (.counter :: kinds) + 8
  | forLoop _ init condition step body, kinds =>
    statementsSize init kinds + clauseSize condition + body.statementSize (.loop :: kinds)
      + statementsSize step kinds + 1
  | switch _ subject cases, kinds =>
    subject.expressionSize + labelsSize cases + armsSize cases (.switch :: kinds) + 2
  | withEach _ targets body, kinds =>
    expressionsSize targets + targets.length * (body.statementSize (.within :: kinds) + 2)
  | declare _ bindings, _ => declarationsSize bindings
  | returning _ value, kinds =>
    (match value with
      | some value => value.expressionSize
      | none => 0) + FrameKind.enteredCount kinds + 1
  | exit _, kinds => FrameKind.enteredCount kinds + 1
  | breaking _, kinds => FrameKind.breakSize kinds
  | continuing _, kinds => FrameKind.crossedCount kinds + 1
  | _, _ => 0
termination_by structural node => node

/-- The instructions of several statements. -/
def statementsSize : List Node → List FrameKind → Nat
  | [], _ => 0
  | node :: rest, kinds => node.statementSize kinds + statementsSize rest kinds
termination_by structural nodes => nodes

/-- The instructions of the arms of a switch. -/
def armsSize : List (Case Node) → List FrameKind → Nat
  | [], _ => 0
  | ⟨_, body, _⟩ :: rest, kinds => statementsSize body kinds + armsSize rest kinds
termination_by structural cases => cases

end

end Node

/-- The instructions of a script. -/
def Script.codeSize (script : Script) : Nat :=
  Node.statementsSize script.body []

end Gml
