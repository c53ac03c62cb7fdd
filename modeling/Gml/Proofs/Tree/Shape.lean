import Gml.Proofs.Tree.Every

/-!
# The shape of trees

What code needs of a tree beyond its names: expressions stand where values are wanted and statements
where they are not (`Node.Shaped`), and a `break` or `continue` stands inside of something that it
can leave or go on with (`Node.Enclosed`).

A tree has one type of node for expressions and statements, so that this is a property of trees and
not part of their type. A tree that is read has the right shape, and looking up its names keeps it;
after that no name is left without a meaning, and what is stored to is a variable, a field or an
element (`Node.Settled`).
-/

namespace Gml

/-- Whether a name with this meaning can be stored to. -/
def Resolution.isVariable : Resolution → Bool
  | localVar | globalVar | argument _ | argumentArray | builtinVariable | dynamic => true
  | unresolved | builtinFunction | userSymbol _ | intrinsic _ => false

namespace Node

/-- Whether the node is an expression. All others are statements. -/
def isExpression : Node → Bool
  | int .. | real .. | string .. | ident .. | binary .. | logical .. | unary .. | conditional ..
  | call .. | index .. | member .. | update .. | struct .. | array .. => true
  | _ => false

/-- Whether the node can be stored to once its names are looked up. -/
def isStorable : Node → Bool
  | ident _ _ resolution => resolution.isVariable
  | member .. | index .. => true
  | _ => false

/-- The parts of a node are expressions and statements as they should be, names have a meaning that
is admitted, and so have the targets of stores. -/
def Shaped (name : Resolution → Bool) (target : Node → Bool) : Node → Prop
  | ident _ _ resolution => name resolution = true
  | binary _ _ lhs rhs | logical _ _ lhs rhs => lhs.isExpression = true ∧ rhs.isExpression = true
  | unary _ _ operand => operand.isExpression = true
  | conditional _ condition thenValue elseValue =>
    condition.isExpression = true ∧ thenValue.isExpression = true ∧ elseValue.isExpression = true
  | call _ callee arguments =>
    callee.isExpression = true ∧ ∀ argument ∈ arguments, argument.isExpression = true
  | index _ container _ indices =>
    container.isExpression = true ∧ ∀ index ∈ indices, index.isExpression = true
  | member _ instanceOf _ => instanceOf.isExpression = true
  | update _ place _ _ => target place = true
  | struct _ fields => ∀ field ∈ fields, field.2.isExpression = true
  | array _ elements => ∀ element ∈ elements, element.isExpression = true
  | assign _ place _ value => target place = true ∧ value.isExpression = true
  | block _ body => ∀ statement ∈ body, statement.isExpression = false
  | ifElse _ condition thenBody elseBody =>
    condition.isExpression = true ∧ thenBody.isExpression = false ∧
      ∀ body ∈ elseBody, body.isExpression = false
  | whileDo _ condition body | doUntil _ body condition | repeatTimes _ condition body =>
    condition.isExpression = true ∧ body.isExpression = false
  | forLoop _ init condition step body =>
    (∀ statement ∈ init, statement.isExpression = false) ∧
      (∀ test ∈ condition, test.isExpression = true) ∧
      (∀ statement ∈ step, statement.isExpression = false) ∧ body.isExpression = false
  | switch _ subject cases =>
    subject.isExpression = true ∧ ∀ arm ∈ cases,
      (∀ label ∈ arm.label, label.isExpression = true) ∧
        ∀ statement ∈ arm.body, statement.isExpression = false
  | withEach _ targets body =>
    (∀ target ∈ targets, target.isExpression = true) ∧ body.isExpression = false
  | declare _ bindings => ∀ binding ∈ bindings, ∀ value ∈ binding.value, value.isExpression = true
  | returning _ value => ∀ result ∈ value, result.isExpression = true
  | discard _ expression => expression.isExpression = true
  | _ => True

/-- A node of a tree that is read: names have no meaning yet, and what is stored to is a name, a
field or an element. -/
abbrev Formed : Node → Prop :=
  Shaped (fun _ => true) isAssignable

/-- A node of a tree whose names are looked up. -/
abbrev Settled : Node → Prop :=
  Shaped (· ≠ .unresolved) isStorable

/-- The places that a node has itself. -/
def places : Node → List Position
  | switch p _ cases => p :: cases.map (·.position)
  | declare p bindings | declareEnum p _ bindings => p :: bindings.map (·.position)
  | node => [node.position]

/-- A node has a place. -/
theorem position_mem_places (node : Node) : node.position ∈ node.places := by
  cases node <;> exact List.mem_cons_self

/-- A node has a property, and its own places have one. -/
structure In (p : Node → Prop) (P : Position → Prop) (node : Node) : Prop where
  holds : p node
  places : ∀ q ∈ node.places, P q

/-- A node of a tree that is read, with all that is known of it. -/
structure Read (node : Node) : Prop where
  regular : node.Regular
  formed : node.Formed

/-- A node of a tree whose names are looked up, with all that is known of it. -/
structure Known (node : Node) : Prop where
  regular : node.Regular
  settled : node.Settled

mutual

/-- Every `continue` in a statement is in a loop, if the statement itself is not, and every `break`
is in something that can be left. -/
def Enclosed : Node → (inLoop inside : Bool) → Prop
  | block _ body, inLoop, inside => EnclosedOf body inLoop inside
  | ifElse _ _ thenBody elseBody, inLoop, inside =>
    thenBody.Enclosed inLoop inside ∧
      match elseBody with
      | some elseBody => elseBody.Enclosed inLoop inside
      | none => True
  | whileDo _ _ body, _, _ | doUntil _ body _, _, _ | repeatTimes _ _ body, _, _
  | withEach _ _ body, _, _ => body.Enclosed true true
  | forLoop _ init _ step body, inLoop, inside =>
    EnclosedOf init inLoop inside ∧ EnclosedOf step inLoop inside ∧ body.Enclosed true true
  | switch _ _ cases, inLoop, _ => EnclosedCases cases inLoop
  | breaking _, _, inside => inside = true
  | continuing _, inLoop, _ => inLoop = true
  | _, _, _ => True
termination_by structural node => node

/-- So it is with several statements. -/
def EnclosedOf : List Node → (inLoop inside : Bool) → Prop
  | [], _, _ => True
  | node :: rest, inLoop, inside => node.Enclosed inLoop inside ∧ EnclosedOf rest inLoop inside
termination_by structural nodes => nodes

/-- So it is with the arms of a switch, which can be left. -/
def EnclosedCases : List (Case Node) → (inLoop : Bool) → Prop
  | [], _ => True
  | ⟨_, body, _⟩ :: rest, inLoop => EnclosedOf body inLoop true ∧ EnclosedCases rest inLoop
termination_by structural cases => cases

end

/-- A node is an expression with a property of all nodes. -/
structure ValueOf (p : Node → Prop) (node : Node) : Prop where
  expression : node.isExpression = true
  every : node.Every p

/-- A node is a statement with a property of all nodes, and stands where it may stand. -/
structure ActionOf (p : Node → Prop) (inLoop inside : Bool) (node : Node) : Prop where
  statement : node.isExpression = false
  every : node.Every p
  enclosed : node.Enclosed inLoop inside

/-- A node is an expression all of whose names are looked up, in places of some kind. -/
abbrev IsValue (P : Position → Prop) : Node → Prop :=
  ValueOf (In Settled P)

/-- A node is a statement all of whose names are looked up, in places of some kind, and stands where
it may stand. -/
abbrev IsAction (P : Position → Prop) : (inLoop inside : Bool) → Node → Prop :=
  ActionOf (In Settled P)

/-! ### Parts

The parts of a settled expression are settled expressions, and so on for statements.
-/

variable {inLoop inside : Bool}

/-- Several statements. -/
theorem enclosedOf_iff (nodes : List Node) :
    EnclosedOf nodes inLoop inside ↔ ∀ node ∈ nodes, node.Enclosed inLoop inside := by
  induction nodes with
  | nil => simp [EnclosedOf]
  | cons node rest ih => simp [EnclosedOf, ih]

/-- Several arms. -/
theorem enclosedCases_iff (cases : List (Case Node)) :
    EnclosedCases cases inLoop ↔ ∀ arm ∈ cases, EnclosedOf arm.body inLoop true := by
  induction cases with
  | nil => simp [EnclosedCases]
  | cons arm rest ih => simp [EnclosedCases, ih]

/-- A target is an expression. -/
theorem isExpression_of_isAssignable {node : Node} (h : node.isAssignable = true) :
    node.isExpression = true := by
  cases node with
  | ident | member | index => rfl
  | _ => cases h

/-- There is no `break` in an expression. -/
theorem enclosed_of_isExpression {node : Node} (h : node.isExpression = true) :
    node.Enclosed inLoop inside := by
  cases node with
  | int | real | string | ident | binary | logical | unary | conditional | call | index | member
  | update | struct | array => exact trivial
  | _ => cases h

section

variable {p : Node → Prop} {nodes : List Node} {inLoop inside : Bool}

/-- Several expressions. -/
theorem everyOf_values (h : ∀ node ∈ nodes, node.ValueOf p) : EveryOf p nodes :=
  (everyOf_iff p nodes).2 fun node hmem => (h node hmem).every

/-- One that may be missing. -/
theorem everyOption_values {node : Option Node} (h : ∀ value ∈ node, value.ValueOf p) :
    EveryOption p node :=
  (everyOption_iff p node).2 fun value hmem => (h value hmem).every

/-- Several statements. -/
theorem everyOf_actions (h : ∀ node ∈ nodes, node.ActionOf p inLoop inside) : EveryOf p nodes :=
  (everyOf_iff p nodes).2 fun node hmem => (h node hmem).every

/-- They are enclosed. -/
theorem enclosedOf_actions (h : ∀ node ∈ nodes, node.ActionOf p inLoop inside) :
    EnclosedOf nodes inLoop inside :=
  (enclosedOf_iff nodes).2 fun node hmem => (h node hmem).enclosed

end

variable {P : Position → Prop} {p : Position}

/-- Several settled expressions. -/
theorem isValue_all {nodes : List Node} (hexpression : ∀ node ∈ nodes, node.isExpression = true)
    (hevery : EveryOf (In Settled P) nodes) : ∀ node ∈ nodes, node.IsValue P :=
  fun node hmem => ⟨hexpression node hmem, (everyOf_iff _ nodes).1 hevery node hmem⟩

/-- One that may be missing. -/
theorem isValue_option {node : Option Node} (hexpression : ∀ value ∈ node, value.isExpression = true)
    (hevery : EveryOption (In Settled P) node) : ∀ value ∈ node, value.IsValue P := by
  rintro value rfl
  exact ⟨hexpression value rfl, hevery⟩

/-- Several settled statements. -/
theorem isAction_all {nodes : List Node} (hstatement : ∀ node ∈ nodes, node.isExpression = false)
    (hevery : EveryOf (In Settled P) nodes) (henclosed : EnclosedOf nodes inLoop inside) :
    ∀ node ∈ nodes, node.IsAction P inLoop inside :=
  fun node hmem => ⟨hstatement node hmem, (everyOf_iff _ nodes).1 hevery node hmem,
    (enclosedOf_iff nodes).1 henclosed node hmem⟩

/-- An expression has a place. -/
theorem IsValue.position {node : Node} (h : node.IsValue P) : P node.position :=
  h.every.self.places _ node.position_mem_places

/-- So has a statement. -/
theorem IsAction.position {node : Node} (h : node.IsAction P inLoop inside) : P node.position :=
  h.every.self.places _ node.position_mem_places

namespace IsValue

/-- The operands. -/
theorem binary {operator : BinaryOp} {lhs rhs : Node} (h : (Node.binary p operator lhs rhs).IsValue P) :
    lhs.IsValue P ∧ rhs.IsValue P :=
  ⟨⟨h.every.1.1.1, h.every.2.1⟩, h.every.1.1.2, h.every.2.2⟩

/-- Both sides. -/
theorem logical {operator : LogicalOp} {lhs rhs : Node}
    (h : (Node.logical p operator lhs rhs).IsValue P) : lhs.IsValue P ∧ rhs.IsValue P :=
  ⟨⟨h.every.1.1.1, h.every.2.1⟩, h.every.1.1.2, h.every.2.2⟩

/-- The operand. -/
theorem unary {operator : UnaryOp} {operand : Node} (h : (Node.unary p operator operand).IsValue P) :
    operand.IsValue P :=
  ⟨h.every.1.1, h.every.2⟩

/-- Its three parts. -/
theorem conditional {condition thenValue elseValue : Node}
    (h : (Node.conditional p condition thenValue elseValue).IsValue P) :
    condition.IsValue P ∧ thenValue.IsValue P ∧ elseValue.IsValue P :=
  ⟨⟨h.every.1.1.1, h.every.2.1⟩, ⟨h.every.1.1.2.1, h.every.2.2.1⟩, h.every.1.1.2.2, h.every.2.2.2⟩

/-- The callee and the arguments. -/
theorem call {callee : Node} {arguments : List Node} (h : (Node.call p callee arguments).IsValue P) :
    callee.IsValue P ∧ ∀ argument ∈ arguments, argument.IsValue P :=
  ⟨⟨h.every.1.1.1, h.every.2.1⟩, isValue_all h.every.1.1.2 h.every.2.2⟩

/-- The array and the indices. -/
theorem index {container : Node} {accessor : Accessor} {indices : List Node}
    (h : (Node.index p container accessor indices).IsValue P) :
    container.IsValue P ∧ ∀ index ∈ indices, index.IsValue P :=
  ⟨⟨h.every.1.1.1, h.every.2.1⟩, isValue_all h.every.1.1.2 h.every.2.2⟩

/-- The instance. -/
theorem member {instanceOf : Node} {field : String}
    (h : (Node.member p instanceOf field).IsValue P) : instanceOf.IsValue P :=
  ⟨h.every.1.1, h.every.2⟩

/-- The target. -/
theorem update {target : Node} {step : Step} {inFront : Bool}
    (h : (Node.update p target step inFront).IsValue P) :
    target.isStorable = true ∧ target.Every (In Settled P) :=
  ⟨h.every.1.1, h.every.2⟩

/-- The fields. -/
theorem struct {fields : List (String × Node)} (h : (Node.struct p fields).IsValue P) :
    ∀ field ∈ fields, field.2.IsValue P :=
  fun field hmem => ⟨h.every.1.1 field hmem, (everyField_iff _ fields).1 h.every.2 field hmem⟩

/-- The elements. -/
theorem array {elements : List Node} (h : (Node.array p elements).IsValue P) :
    ∀ element ∈ elements, element.IsValue P :=
  isValue_all h.every.1.1 h.every.2

end IsValue

namespace IsAction

variable {inLoop inside : Bool}

/-- The statements. -/
theorem block {body : List Node} (h : (Node.block p body).IsAction P inLoop inside) :
    ∀ statement ∈ body, statement.IsAction P inLoop inside :=
  isAction_all h.every.1.1 h.every.2 h.enclosed

/-- The target and the value. -/
theorem assign {target value : Node} {operator : AssignOp}
    (h : (Node.assign p target operator value).IsAction P inLoop inside) :
    (target.isStorable = true ∧ target.Every (In Settled P)) ∧ value.IsValue P :=
  ⟨⟨h.every.1.1.1, h.every.2.1⟩, h.every.1.1.2, h.every.2.2⟩

/-- The expression. -/
theorem discard {expression : Node} (h : (Node.discard p expression).IsAction P inLoop inside) :
    expression.IsValue P :=
  ⟨h.every.1.1, h.every.2⟩

variable {body condition : Node}

/-- The test and the body. -/
theorem ifThen {thenBody : Node}
    (h : (Node.ifElse p condition thenBody none).IsAction P inLoop inside) :
    condition.IsValue P ∧ thenBody.IsAction P inLoop inside :=
  ⟨⟨h.every.1.1.1, h.every.2.1⟩, h.every.1.1.2.1, h.every.2.2.1, h.enclosed.1⟩

/-- The test and both bodies. -/
theorem ifElse {thenBody elseBody : Node}
    (h : (Node.ifElse p condition thenBody (some elseBody)).IsAction P inLoop inside) :
    condition.IsValue P ∧ thenBody.IsAction P inLoop inside ∧ elseBody.IsAction P inLoop inside :=
  ⟨⟨h.every.1.1.1, h.every.2.1⟩, ⟨h.every.1.1.2.1, h.every.2.2.1, h.enclosed.1⟩,
    h.every.1.1.2.2 elseBody rfl, h.every.2.2.2, h.enclosed.2⟩

/-- The test and the body. -/
theorem whileDo (h : (Node.whileDo p condition body).IsAction P inLoop inside) :
    condition.IsValue P ∧ body.IsAction P true true :=
  ⟨⟨h.every.1.1.1, h.every.2.1⟩, h.every.1.1.2, h.every.2.2, h.enclosed⟩

/-- The body and the test. -/
theorem doUntil (h : (Node.doUntil p body condition).IsAction P inLoop inside) :
    condition.IsValue P ∧ body.IsAction P true true :=
  ⟨⟨h.every.1.1.1, h.every.2.2⟩, h.every.1.1.2, h.every.2.1, h.enclosed⟩

/-- The count and the body. -/
theorem repeatTimes {count : Node} (h : (Node.repeatTimes p count body).IsAction P inLoop inside) :
    count.IsValue P ∧ body.IsAction P true true :=
  ⟨⟨h.every.1.1.1, h.every.2.1⟩, h.every.1.1.2, h.every.2.2, h.enclosed⟩

/-- The clauses and the body. -/
theorem forLoop {init step : List Node} {condition : Option Node}
    (h : (Node.forLoop p init condition step body).IsAction P inLoop inside) :
    (∀ statement ∈ init, statement.IsAction P inLoop inside) ∧ (∀ test ∈ condition, test.IsValue P) ∧
      (∀ statement ∈ step, statement.IsAction P inLoop inside) ∧ body.IsAction P true true :=
  ⟨isAction_all h.every.1.1.1 h.every.2.1 h.enclosed.1,
    isValue_option h.every.1.1.2.1 h.every.2.2.1,
    isAction_all h.every.1.1.2.2.1 h.every.2.2.2.1 h.enclosed.2.1,
    h.every.1.1.2.2.2, h.every.2.2.2.2, h.enclosed.2.2⟩

/-- The subject and the arms. -/
theorem switch {subject : Node} {cases : List (Case Node)}
    (h : (Node.switch p subject cases).IsAction P inLoop inside) :
    subject.IsValue P ∧ ∀ arm ∈ cases, (∀ label ∈ arm.label, label.IsValue P) ∧ P arm.position ∧
      ∀ statement ∈ arm.body, statement.IsAction P inLoop true := by
  refine ⟨⟨h.every.1.1.1, h.every.2.1⟩, fun arm hmem => ?_⟩
  obtain ⟨hlabel, hbody⟩ := (everyCase_iff _ cases).1 h.every.2.2 arm hmem
  exact ⟨isValue_option (h.every.1.1.2 arm hmem).1 hlabel,
    h.every.1.2 _ (List.mem_cons_of_mem _ (List.mem_map_of_mem hmem)),
    isAction_all (h.every.1.1.2 arm hmem).2 hbody ((enclosedCases_iff cases).1 h.enclosed arm hmem)⟩

/-- The targets and the body. -/
theorem withEach {targets : List Node}
    (h : (Node.withEach p targets body).IsAction P inLoop inside) :
    (∀ target ∈ targets, target.IsValue P) ∧ body.IsAction P true true :=
  ⟨isValue_all h.every.1.1.1 h.every.2.1, h.every.1.1.2, h.every.2.2, h.enclosed⟩

/-- The values. -/
theorem declare {bindings : List (Binding Node)}
    (h : (Node.declare p bindings).IsAction P inLoop inside) :
    ∀ binding ∈ bindings, ∀ value ∈ binding.value, value.IsValue P :=
  fun binding hmem => isValue_option (h.every.1.1 binding hmem)
    ((everyBinding_iff _ bindings).1 h.every.2 binding hmem)

/-- The result. -/
theorem returning {value : Option Node} (h : (Node.returning p value).IsAction P inLoop inside) :
    ∀ result ∈ value, result.IsValue P :=
  isValue_option h.every.1.1 h.every.2

end IsAction

end Node

end Gml
