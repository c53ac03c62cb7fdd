import Gml.Context
import Gml.Diagnostic

/-!
# What names refer to

Before code can be written for a script, every name in it is tagged with what it refers to. The
script is gone through in the order in which it will run: a variable is known from the end of its
declaration on, at whatever depth that stands. Enumerations at top level are known from the start.

Some members are replaced on the way: `global.x` and `self.x` by the variable, and a member of an
enumeration by its value.
-/

namespace Gml

/-- What a script has declared so far. -/
structure Scope where
  /-- Local variables. -/
  locals : List String := []
  /-- Global variables. -/
  globals : List String := []
  /-- Enumerations, together with those of the context. -/
  enums : Enums := {}
  deriving Inhabited

/-- An action that may declare something. -/
abbrev Resolve := StateT Scope (Except Diagnostic)

/-- The number after `argument`, if it is one: it has no leading zeros, and there are only so many
arguments. A plus sign may come before it. -/
def argumentNumber? (digits : List Char) : Option UInt8 :=
  let plain := if digits.head? = some '+' then digits.drop 1 else digits
  let n := plain.foldl (fun n c => n * 10 + (c.toNat - '0'.toNat)) 0
  if digits.head? = some '0' && digits.length ≠ 1 then none
  else if plain.isEmpty || !plain.all Char.isDigit || maxArguments ≤ n then none
  else some (UInt8.ofNat n)

/-- The argument that a name stands for, if it is an argument's name. -/
def argumentOf? (name : String) : Option UInt8 :=
  let word := "argument".toList
  if word.isPrefixOf name.toList then argumentNumber? (name.toList.drop word.length) else none

namespace Scope

/-- What a name refers to. -/
def resolution (context : Context) (scope : Scope) (name : String) : Resolution :=
  if name ∈ scope.locals then .localVar
  else if let some value := intrinsic? name then .intrinsic value
  else if name = "argument" then .argumentArray
  else if let some index := argumentOf? name then .argument index
  else if name ∈ scope.globals then .globalVar
  else if name ∈ context.builtinFunctions then .builtinFunction
  else if name ∈ context.builtinVariables then .builtinVariable
  else if let some symbol := context.symbols.get? name then .userSymbol symbol.reference
  else .dynamic

/-- Whether a name has a meaning that no variable may take. -/
def isTaken (context : Context) (name : String) : Bool :=
  (intrinsic? name).isSome || name ∈ context.builtinFunctions

/-- The values of the members of an enumeration. A member without a value follows the one before it,
and values may refer to the members before them. -/
def memberValues (enums : Enums) (enumeration : String) :
    List (Binding Node) → (next : Int64) → (values : Table String Int64) →
      Except Diagnostic (Table String Int64)
  | [], _, values => .ok values
  | member :: rest, next, values => do
    let value ←
      match member.value with
      | none => pure next
      | some expression =>
        match expression.constant? { enums, values } with
        | some value => pure value
        | none => throw ⟨.enumValue enumeration member.name, expression.position⟩
    memberValues enums enumeration rest (value + 1) (values.insert member.name value)

end Scope

namespace Resolve

/-- Fails at a place. -/
def fail (fault : Fault) (position : Position) : Resolve α :=
  throw ⟨fault, position⟩

/-- Declares an enumeration and gives the values of its members. -/
def declareEnum (name : String) (members : List (Binding Node)) :
    Resolve (Table String Int64) := do
  let values ← Scope.memberValues (← get).enums name members 0 {}
  modify fun scope => { scope with enums := scope.enums.insert name values }
  return values

/-- Declares a local variable. -/
def declareLocal (context : Context) (name : String) (position : Position) : Resolve Unit := do
  if Scope.isTaken context name then
    fail (.localName name) position
  modify fun scope => { scope with locals := addName scope.locals name }

/-- Declares a global variable. -/
def declareGlobal (context : Context) (position : Position) (name : String) : Resolve Unit := do
  if Scope.isTaken context name then
    fail (.globalName name) position
  modify fun scope => { scope with globals := addName scope.globals name }

/-- Refuses a feature that the tier does not have. -/
def require (context : Context) (feature : Feature) (position : Position) : Resolve Unit :=
  if context.supports feature then return
  else fail (.unavailable feature context.versionTier) position

/-- Refuses a target that nothing can be stored to. -/
def storable : Node → Resolve Node
  | .int p _ | .real p _ => fail .assignsMember p
  | .ident p name .builtinFunction => fail (.assignsFunction name) p
  | .ident p name (.userSymbol _) => fail (.assignsSymbol name) p
  | .ident p name (.intrinsic _) => fail (.assignsConstant name) p
  | target => return target

/-- What a member stands for if it needs no instance: a variable, or the value of a member of an
enumeration. A local variable hides all of these. -/
def shortcut? (context : Context) (position : Position) (name field : String) :
    Resolve (Option Node) := do
  let scope ← get
  if name ∈ scope.locals then
    return none
  else if name = "global" then
    return some (.ident position field .globalVar)
  else if name = "self" then
    let resolution := if field ∈ context.builtinVariables then .builtinVariable else .dynamic
    return some (.ident position field resolution)
  else
    match scope.enums.get? name with
    | none => return none
    | some members =>
      match members.get? field with
      | some value => return some (.int position value)
      | none => fail (.noMember name field) position

/-- The value of each member, written out. -/
def fixedMembers (values : Table String Int64) (members : List (Binding Node)) :
    List (Binding Node) :=
  members.map fun member =>
    { member with value := some (.int member.position ((values.get? member.name).getD 0)) }

end Resolve

/-- Where a node stands. -/
inductive Site where
  /-- In place of a statement, where an expression is also taken. -/
  | statement
  /-- In place of an expression, where a statement is refused. -/
  | expression
  deriving DecidableEq, Repr

namespace Node

open Resolve

/-- Lets a statement stand only in place of one. -/
def onlyStatement (site : Site) (node : Node) (result : Resolve Node) : Resolve Node :=
  match site with
  | .statement => result
  | .expression => fail (.statementAsExpression node) node.position

mutual

/-- Tags every name in a node. -/
def resolve (context : Context) (site : Site) : Node → Resolve Node
  | int p value => return .int p value
  | real p value => return .real p value
  | string p value verbatim => do
    if verbatim then
      require context .rawStrings p
    return .string p value verbatim
  | ident p name _ => return .ident p name ((← get).resolution context name)
  | binary p operator lhs rhs => do
    let lhs ← lhs.resolve context .expression
    let rhs ← rhs.resolve context .expression
    return .binary p operator lhs rhs
  | logical p operator lhs rhs => do
    let lhs ← lhs.resolve context .expression
    let rhs ← rhs.resolve context .expression
    return .logical p operator lhs rhs
  | unary p operator operand =>
    return .unary p operator (← operand.resolve context .expression)
  | conditional p condition thenValue elseValue => do
    let condition ← condition.resolve context .expression
    let thenValue ← thenValue.resolve context .expression
    let elseValue ← elseValue.resolve context .expression
    return .conditional p condition thenValue elseValue
  | call p callee arguments => do
    let callee ← callee.resolve context .expression
    return .call p callee (← resolveAll context .expression arguments)
  | index p container accessor indices => do
    let container ← container.resolve context .expression
    return .index p container accessor (← resolveAll context .expression indices)
  | member p instanceOf field => do
    let short ←
      match instanceOf with
      | ident _ name _ => shortcut? context p name field
      | _ => pure none
    match short with
    | some node => return node
    | none => return .member p (← instanceOf.resolve context .expression) field
  | update p target step inFront => do
    let target ← storable (← target.resolve context .expression)
    return .update p target step inFront
  | struct p fields => do
    require context .structLiterals p
    return .struct p (← resolveFields context fields)
  | array p elements => do
    require context .arrayLiterals p
    return .array p (← resolveAll context .expression elements)
  | assign p target operator value =>
    onlyStatement site (.assign p target operator value) do
      let value ← value.resolve context .expression
      let target ← storable (← target.resolve context .expression)
      return .assign p target operator value
  | block p body =>
    onlyStatement site (.block p body) do
      return .block p (← resolveAll context .statement body)
  | ifElse p condition thenBody elseBody =>
    onlyStatement site (.ifElse p condition thenBody elseBody) do
      let condition ← condition.resolve context .expression
      let thenBody ← thenBody.resolve context .statement
      let elseBody ← resolveOptional context .statement elseBody
      return .ifElse p condition thenBody elseBody
  | whileDo p condition body =>
    onlyStatement site (.whileDo p condition body) do
      let condition ← condition.resolve context .expression
      let body ← body.resolve context .statement
      return .whileDo p condition body
  | doUntil p body condition =>
    onlyStatement site (.doUntil p body condition) do
      let body ← body.resolve context .statement
      let condition ← condition.resolve context .expression
      return .doUntil p body condition
  | repeatTimes p count body =>
    onlyStatement site (.repeatTimes p count body) do
      let count ← count.resolve context .expression
      let body ← body.resolve context .statement
      return .repeatTimes p count body
  | forLoop p init condition step body =>
    onlyStatement site (.forLoop p init condition step body) do
      let init ← resolveAll context .statement init
      let condition ← resolveOptional context .expression condition
      let step ← resolveAll context .statement step
      let body ← body.resolve context .statement
      return .forLoop p init condition step body
  | switch p subject cases =>
    onlyStatement site (.switch p subject cases) do
      let subject ← subject.resolve context .expression
      return .switch p subject (← resolveCases context cases)
  | withEach p targets body =>
    onlyStatement site (.withEach p targets body) do
      let targets ← resolveAll context .expression targets
      let body ← body.resolve context .statement
      return .withEach p targets body
  | declare p bindings =>
    onlyStatement site (.declare p bindings) do
      return .declare p (← resolveVariables context bindings)
  | declareGlobal p names =>
    onlyStatement site (.declareGlobal p names) do
      names.forM (Resolve.declareGlobal context p)
      return .declareGlobal p names
  | declareEnum p name members =>
    onlyStatement site (.declareEnum p name members) do
      let values ← Resolve.declareEnum name members
      return .declareEnum p name (fixedMembers values members)
  | returning p value =>
    onlyStatement site (.returning p value) do
      return .returning p (← resolveOptional context .expression value)
  | exit p => onlyStatement site (.exit p) (return .exit p)
  | breaking p => onlyStatement site (.breaking p) (return .breaking p)
  | continuing p => onlyStatement site (.continuing p) (return .continuing p)
  | discard p expression =>
    onlyStatement site (.discard p expression) do
      return .discard p (← expression.resolve context .expression)
termination_by structural node => node

/-- Each of several nodes. -/
def resolveAll (context : Context) (site : Site) : List Node → Resolve (List Node)
  | [] => return []
  | node :: rest => do
    let node ← node.resolve context site
    return node :: (← resolveAll context site rest)
termination_by structural nodes => nodes

/-- A node that may be missing. -/
def resolveOptional (context : Context) (site : Site) : Option Node → Resolve (Option Node)
  | none => return none
  | some node => return some (← node.resolve context site)
termination_by structural node => node

/-- Each field of a struct. -/
def resolveFields (context : Context) : List (String × Node) → Resolve (List (String × Node))
  | [] => return []
  | (key, value) :: rest => do
    let value ← value.resolve context .expression
    return (key, value) :: (← resolveFields context rest)
termination_by structural fields => fields

/-- Each declared variable. Its value does not know of it yet. -/
def resolveVariables (context : Context) : List (Binding Node) → Resolve (List (Binding Node))
  | [] => return []
  | ⟨name, value, position⟩ :: rest => do
    let value ← resolveOptional context .expression value
    declareLocal context name position
    return ⟨name, value, position⟩ :: (← resolveVariables context rest)
termination_by structural bindings => bindings

/-- Each arm of a switch. -/
def resolveCases (context : Context) : List (Case Node) → Resolve (List (Case Node))
  | [] => return []
  | ⟨label, body, position⟩ :: rest => do
    let label ← resolveOptional context .expression label
    let body ← resolveAll context .statement body
    return ⟨label, body, position⟩ :: (← resolveCases context rest)
termination_by structural cases => cases

end

end Node

namespace Script

/-- Declares the enumerations at top level. -/
def declareEnums : List Node → Resolve Unit
  | [] => return
  | .declareEnum _ name members :: rest => do
    let _ ← Resolve.declareEnum name members
    declareEnums rest
  | _ :: rest => declareEnums rest

/-- Tags every name in a script. -/
def resolve (context : Context) (script : Script) : Except Diagnostic Script := do
  let action : Resolve (List Node) := do
    declareEnums script.body
    Node.resolveAll context .statement script.body
  let (body, _) ← action.run { enums := context.enums }
  return ⟨body⟩

end Script

end Gml
