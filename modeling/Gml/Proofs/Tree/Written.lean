import Gml.Proofs.Tree.Read

/-!
# Expressions written with as few parentheses as possible

An expression has a level, from the conditional at the loosest to literals and brackets at the
tightest (`Node.level`). A part that stands where a level is wanted is put in parentheses if its own
level is lower, and not otherwise; the tokens that this gives are `Node.Written`. A literal may be
written by any token that stands for it, so that this is a relation and not a function.

Parentheses and signs nest, and only so deep. `Node.depth` counts how deep the written form of an
expression nests, and `Node.Fits` says that it has one that does not nest too deep.
-/

namespace Gml

/-! ### Places -/

mutual

/-- The node with all places in it forgotten. -/
def Node.unplaced : Node → Node
  | .int _ value => .int default value
  | .real _ value => .real default value
  | .string _ value verbatim => .string default value verbatim
  | .ident _ name resolution => .ident default name resolution
  | .binary _ operator lhs rhs => .binary default operator lhs.unplaced rhs.unplaced
  | .logical _ operator lhs rhs => .logical default operator lhs.unplaced rhs.unplaced
  | .unary _ operator operand => .unary default operator operand.unplaced
  | .conditional _ condition thenValue elseValue =>
    .conditional default condition.unplaced thenValue.unplaced elseValue.unplaced
  | .call _ callee arguments => .call default callee.unplaced (unplacedAll arguments)
  | .index _ container accessor indices =>
    .index default container.unplaced accessor (unplacedAll indices)
  | .member _ instanceOf field => .member default instanceOf.unplaced field
  | .update _ target step inFront => .update default target.unplaced step inFront
  | .struct _ fields => .struct default (unplacedFields fields)
  | .array _ elements => .array default (unplacedAll elements)
  | .assign _ target operator value => .assign default target.unplaced operator value.unplaced
  | .block _ body => .block default (unplacedAll body)
  | .ifElse _ condition thenBody elseBody =>
    .ifElse default condition.unplaced thenBody.unplaced (unplacedOption elseBody)
  | .whileDo _ condition body => .whileDo default condition.unplaced body.unplaced
  | .doUntil _ body condition => .doUntil default body.unplaced condition.unplaced
  | .repeatTimes _ count body => .repeatTimes default count.unplaced body.unplaced
  | .forLoop _ init condition step body =>
    .forLoop default (unplacedAll init) (unplacedOption condition) (unplacedAll step) body.unplaced
  | .switch _ subject cases => .switch default subject.unplaced (unplacedCases cases)
  | .withEach _ targets body => .withEach default (unplacedAll targets) body.unplaced
  | .declare _ bindings => .declare default (unplacedBindings bindings)
  | .declareGlobal _ names => .declareGlobal default names
  | .declareEnum _ name members => .declareEnum default name (unplacedBindings members)
  | .returning _ value => .returning default (unplacedOption value)
  | .exit _ => .exit default
  | .breaking _ => .breaking default
  | .continuing _ => .continuing default
  | .discard _ expression => .discard default expression.unplaced
termination_by structural node => node

/-- Several nodes with all places in them forgotten. -/
def Node.unplacedAll : List Node → List Node
  | [] => []
  | node :: rest => node.unplaced :: unplacedAll rest
termination_by structural nodes => nodes

/-- A node that may be missing, with all places in it forgotten. -/
def Node.unplacedOption : Option Node → Option Node
  | none => none
  | some node => some node.unplaced
termination_by structural node => node

/-- Named nodes with all places in them forgotten. -/
def Node.unplacedFields : List (String × Node) → List (String × Node)
  | [] => []
  | (name, node) :: rest => (name, node.unplaced) :: unplacedFields rest
termination_by structural fields => fields

/-- Names with values, with all places in them forgotten. -/
def Node.unplacedBindings : List (Binding Node) → List (Binding Node)
  | [] => []
  | ⟨name, value, _⟩ :: rest => ⟨name, unplacedOption value, default⟩ :: unplacedBindings rest
termination_by structural bindings => bindings

/-- Arms of a switch with all places in them forgotten. -/
def Node.unplacedCases : List (Case Node) → List (Case Node)
  | [] => []
  | ⟨label, body, _⟩ :: rest =>
    ⟨unplacedOption label, unplacedAll body, default⟩ :: unplacedCases rest
termination_by structural cases => cases

end

namespace Node

/-- Several expressions without places. -/
theorem unplacedAll_eq_map (nodes : List Node) : unplacedAll nodes = nodes.map unplaced := by
  induction nodes with
  | nil => rfl
  | cons node rest ih => exact congrArg (node.unplaced :: ·) ih

/-- Fields without places. -/
theorem unplacedFields_eq_map (fields : List (String × Node)) :
    unplacedFields fields = fields.map fun field => (field.1, field.2.unplaced) := by
  induction fields with
  | nil => rfl
  | cons field rest ih => exact congrArg ((field.1, field.2.unplaced) :: ·) ih

/-- Places do not matter to a target. -/
@[simp] theorem isAssignable_unplaced (node : Node) :
    node.unplaced.isAssignable = node.isAssignable := by
  cases node <;> rfl

end Node

/-! ### Levels -/

/-- The level of an operator between two operands, the loosest first. -/
def Operator.level : Operator → Nat
  | logical .or => 1
  | logical .xor => 2
  | logical .and => 3
  | binary .bitOr => 4
  | binary .bitXor => 5
  | binary .bitAnd => 6
  | binary .equal | binary .notEqual => 7
  | binary .less | binary .lessEqual | binary .greater | binary .greaterEqual => 8
  | binary .shiftLeft | binary .shiftRight => 9
  | binary .add | binary .subtract => 10
  | binary .multiply | binary .divide | binary .intDivide | binary .modulo => 11

/-- The level of what stands after a sign. -/
def unaryLevel : Nat := 12

/-- The level of what stands before a bracket, a dot or a step. -/
def postfixLevel : Nat := 13

/-- The level of an expression: how tightly its outermost construct binds. -/
def Node.level : Node → Nat
  | .conditional .. => 0
  | .logical _ operator .. => (Operator.logical operator).level
  | .binary _ operator .. => (Operator.binary operator).level
  | .unary .. | .update .. => unaryLevel
  | .call .. | .index .. | .member .. => postfixLevel
  | _ => postfixLevel + 1

/-- The tokens that an operator is written by. -/
def Operator.kinds : Operator → List Kind
  | logical .or => [.logicalOr]
  | logical .xor => [.logicalXor]
  | logical .and => [.logicalAnd]
  | binary .bitOr => [.bitOr]
  | binary .bitXor => [.bitXor]
  | binary .bitAnd => [.bitAnd]
  | binary .equal => [.equal, .assign]
  | binary .notEqual => [.notEqual]
  | binary .less => [.less]
  | binary .lessEqual => [.lessEqual]
  | binary .greater => [.greater]
  | binary .greaterEqual => [.greaterEqual]
  | binary .shiftLeft => [.shiftLeft]
  | binary .shiftRight => [.shiftRight]
  | binary .add => [.plus]
  | binary .subtract => [.minus]
  | binary .multiply => [.star]
  | binary .divide => [.slash]
  | binary .modulo => [.percent]
  | binary .intDivide => [.intDiv]

/-- The token of a sign. -/
def UnaryOp.kind : UnaryOp → Kind
  | not => .bang
  | negate => .minus
  | bitNot => .bitNot

/-- The token of a step by one. -/
def Step.kind : Step → Kind
  | increment => .increment
  | decrement => .decrement

/-- The opening bracket of an accessor. -/
def Accessor.opening : Accessor → Kind
  | array => .leftBracket
  | map => .mapIndex
  | arrayRef => .arrayRefIndex
  | grid => .gridIndex
  | list => .listIndex

/-! ### Written forms -/

/-- Tokens of several items, with commas between them. -/
inductive Listed : List (List Token) → List Token → Prop
  | none : Listed [] []
  | one (item : List Token) : Listed [item] item
  | more {item next : List Token} {items : List (List Token)} {comma : Token} {tokens : List Token}
      (hcomma : comma.kind = .comma) (hrest : Listed (next :: items) tokens) :
      Listed (item :: next :: items) (item ++ comma :: tokens)

/-- A field of a struct literal as it is written. -/
structure WrittenField where
  /-- The token of the name. -/
  key : Token
  /-- The token after it. -/
  colon : Token
  /-- The value. -/
  value : Node
  /-- The tokens of the value. -/
  tokens : List Token

/-- All tokens of a field. -/
def WrittenField.all (field : WrittenField) : List Token :=
  field.key :: field.colon :: field.tokens

/-- The field itself. -/
def WrittenField.entry (field : WrittenField) : String × Node :=
  (field.key.value, field.value)

/-- The tokens of an expression that stands where a level is wanted, with the parentheses that are
needed and no others. -/
inductive Node.Written : Nat → Node → List Token → Prop
  | number {k : Nat} {position : Position} {token : Token} {literal : Literal}
      (htoken : token.kind = .number) (hvalue : Literal.ofText token.value = .ok literal) :
      Written k (literal.node position) [token]
  | text {k : Nat} {position : Position} {token : Token} (htoken : token.kind = .string) :
      Written k (.string position token.value false) [token]
  | verbatim {k : Nat} {position : Position} {token : Token} (htoken : token.kind = .rawString) :
      Written k (.string position token.value true) [token]
  | name {k : Nat} {position : Position} {token : Token} (htoken : token.kind = .identifier) :
      Written k (.ident position token.value .unresolved) [token]
  | operation {k : Nat} {position : Position} {operator : Operator} {lhs rhs : Node}
      {left right : List Token} {token : Token} (hk : k ≤ operator.level)
      (htoken : token.kind ∈ operator.kinds) (hlhs : Written operator.level lhs left)
      (hrhs : Written (operator.level + 1) rhs right) :
      Written k (operator.node position lhs rhs) (left ++ token :: right)
  | sign {k : Nat} {position : Position} {operator : UnaryOp} {operand : Node}
      {tokens : List Token} {token : Token} (hk : k ≤ unaryLevel)
      (htoken : token.kind = operator.kind) (hoperand : Written unaryLevel operand tokens) :
      Written k (.unary position operator operand) (token :: tokens)
  | choice {position : Position} {condition thenValue elseValue : Node}
      {first second third : List Token} {question colon : Token}
      (hquestion : question.kind = .question) (hcolon : colon.kind = .colon)
      (hcondition : Written 1 condition first) (hthen : Written 0 thenValue second)
      (helse : Written 0 elseValue third) :
      Written 0 (.conditional position condition thenValue elseValue)
        (first ++ question :: (second ++ colon :: third))
  | call {k : Nat} {position : Position} {callee : Node} {parts : List (Node × List Token)}
      {front inside : List Token} {opening closing : Token} (hk : k ≤ postfixLevel)
      (hopening : opening.kind = .leftParen) (hclosing : closing.kind = .rightParen)
      (hcallee : Written postfixLevel callee front)
      (hparts : ∀ part ∈ parts, Written 0 part.1 part.2)
      (hinside : Listed (parts.map Prod.snd) inside) :
      Written k (.call position callee (parts.map Prod.fst))
        (front ++ opening :: (inside ++ [closing]))
  | index {k : Nat} {position : Position} {container : Node} {accessor : Accessor}
      {parts : List (Node × List Token)} {front inside : List Token} {opening closing : Token}
      (hk : k ≤ postfixLevel) (hopening : opening.kind = accessor.opening)
      (hclosing : closing.kind = .rightBracket) (hsome : parts ≠ [])
      (htakes : accessor.takes parts.length = true)
      (hcontainer : Written postfixLevel container front)
      (hparts : ∀ part ∈ parts, Written 0 part.1 part.2)
      (hinside : Listed (parts.map Prod.snd) inside) :
      Written k (.index position container accessor (parts.map Prod.fst))
        (front ++ opening :: (inside ++ [closing]))
  | member {k : Nat} {position : Position} {instanceOf : Node} {front : List Token}
      {dot field : Token} (hk : k ≤ postfixLevel) (hdot : dot.kind = .dot)
      (hfield : field.kind = .identifier) (hinstance : Written postfixLevel instanceOf front) :
      Written k (.member position instanceOf field.value) (front ++ [dot, field])
  | stepBefore {k : Nat} {position : Position} {target : Node} {step : Step}
      {tokens : List Token} {token : Token} (hk : k ≤ unaryLevel) (htoken : token.kind = step.kind)
      (hassignable : target.isAssignable = true) (htarget : Written postfixLevel target tokens) :
      Written k (.update position target step true) (token :: tokens)
  | stepAfter {k : Nat} {position : Position} {target : Node} {step : Step}
      {tokens : List Token} {token : Token} (hk : k ≤ unaryLevel) (htoken : token.kind = step.kind)
      (hassignable : target.isAssignable = true) (htarget : Written postfixLevel target tokens) :
      Written k (.update position target step false) (tokens ++ [token])
  | struct {k : Nat} {position : Position} {fields : List WrittenField} {inside : List Token}
      {opening closing : Token} (hopening : opening.kind = .leftBrace)
      (hclosing : closing.kind = .rightBrace)
      (hkeys : ∀ field ∈ fields, field.key.kind = .identifier ∨ field.key.kind = .string)
      (hcolons : ∀ field ∈ fields, field.colon.kind = .colon)
      (hvalues : ∀ field ∈ fields, Written 0 field.value field.tokens)
      (hinside : Listed (fields.map WrittenField.all) inside) :
      Written k (.struct position (fields.map WrittenField.entry))
        (opening :: (inside ++ [closing]))
  | array {k : Nat} {position : Position} {parts : List (Node × List Token)}
      {inside : List Token} {opening closing : Token} (hopening : opening.kind = .leftBracket)
      (hclosing : closing.kind = .rightBracket) (hparts : ∀ part ∈ parts, Written 0 part.1 part.2)
      (hinside : Listed (parts.map Prod.snd) inside) :
      Written k (.array position (parts.map Prod.fst)) (opening :: (inside ++ [closing]))
  | parens {k : Nat} {node : Node} {tokens : List Token} {opening closing : Token}
      (hk : node.level < k) (hopening : opening.kind = .leftParen)
      (hclosing : closing.kind = .rightParen) (hnode : Written 0 node tokens) :
      Written k node (opening :: (tokens ++ [closing]))

/-! ### Depth -/

/-- The depth of something, with the parentheses around it if it stands where a level is wanted. -/
def enclosedDepth (wanted level depth : Nat) : Nat :=
  if level < wanted then depth + 1 else depth

mutual

/-- How deep the written form of an expression nests. Parentheses, brackets, signs and the values of
a conditional each are one level of nesting further in. -/
def Node.depth : Node → Nat
  | .binary _ operator lhs rhs =>
    max (enclosedDepth (Operator.binary operator).level lhs.level lhs.depth)
      (enclosedDepth ((Operator.binary operator).level + 1) rhs.level rhs.depth)
  | .logical _ operator lhs rhs =>
    max (enclosedDepth (Operator.logical operator).level lhs.level lhs.depth)
      (enclosedDepth ((Operator.logical operator).level + 1) rhs.level rhs.depth)
  | .unary _ _ operand => enclosedDepth unaryLevel operand.level operand.depth + 1
  | .conditional _ condition thenValue elseValue =>
    max (enclosedDepth 1 condition.level condition.depth)
      (max (thenValue.depth + 1) (elseValue.depth + 1))
  | .call _ callee arguments =>
    max (enclosedDepth postfixLevel callee.level callee.depth) (depthAll arguments)
  | .index _ container _ indices =>
    max (enclosedDepth postfixLevel container.level container.depth) (depthAll indices)
  | .member _ instanceOf _ => enclosedDepth postfixLevel instanceOf.level instanceOf.depth
  | .update _ target _ _ => enclosedDepth postfixLevel target.level target.depth
  | .struct _ fields => depthFields fields
  | .array _ elements => depthAll elements
  | _ => 0
termination_by structural node => node

/-- How deep the written forms of several expressions in brackets nest. -/
def Node.depthAll : List Node → Nat
  | [] => 0
  | node :: rest => max (node.depth + 1) (depthAll rest)
termination_by structural nodes => nodes

/-- How deep the written forms of the fields of a struct literal nest. -/
def Node.depthFields : List (String × Node) → Nat
  | [] => 0
  | (_, node) :: rest => max (node.depth + 1) (depthFields rest)
termination_by structural fields => fields

end

/-- A token of a kind, whose text does not matter. -/
def Token.ofKind (kind : Kind) : Token :=
  { (default : Token) with kind }

/-- There is a way to write a list. -/
theorem Listed.exists_of : ∀ items, ∃ tokens, Listed items tokens
  | [] => ⟨[], .none⟩
  | [item] => ⟨item, .one item⟩
  | item :: next :: items => by
    obtain ⟨tokens, htokens⟩ := exists_of (next :: items)
    exact ⟨item ++ .ofKind .comma :: tokens, .more rfl htokens⟩

namespace Node

/-- How deep an expression nests that stands where a level is wanted. -/
def depthAt (wanted : Nat) (node : Node) : Nat :=
  enclosedDepth wanted node.level node.depth

/-- An expression of a high level. -/
theorem depthAt_of_le {wanted : Nat} {node : Node} (h : wanted ≤ node.level) :
    node.depthAt wanted = node.depth :=
  if_neg (Nat.not_lt.2 h)

/-- One of a low level needs brackets. -/
theorem depthAt_of_lt {wanted : Nat} {node : Node} (h : node.level < wanted) :
    node.depthAt wanted = node.depth + 1 :=
  if_pos h

/-- Every level is high enough for none. -/
theorem depthAt_zero (node : Node) : node.depthAt 0 = node.depth :=
  depthAt_of_le (Nat.zero_le _)

/-- Brackets are one level. -/
theorem depthAt_le_succ (wanted : Nat) (node : Node) : node.depthAt wanted ≤ node.depth + 1 := by
  unfold depthAt enclosedDepth
  split <;> omega

/-- A higher level needs no less. -/
theorem depthAt_mono {wanted wanted' : Nat} (h : wanted ≤ wanted') (node : Node) :
    node.depthAt wanted ≤ node.depthAt wanted' := by
  unfold depthAt enclosedDepth
  split <;> split <;> omega

/-- An operator has its own level. -/
theorem level_operator (position : Position) (lhs rhs : Node) (operator : Operator) :
    (operator.node position lhs rhs).level = operator.level := by
  cases operator <;> rfl

/-- The depth of an operator. -/
theorem depth_operator (position : Position) (lhs rhs : Node) (operator : Operator) :
    (operator.node position lhs rhs).depth =
      max (lhs.depthAt operator.level) (rhs.depthAt (operator.level + 1)) := by
  cases operator <;> rfl

section

variable (position : Position)

/-- The depth of a sign. -/
theorem depth_unary (operator : UnaryOp) (operand : Node) :
    (unary position operator operand).depth = operand.depthAt unaryLevel + 1 := rfl

/-- The depth of a conditional. -/
theorem depth_conditional (condition thenValue elseValue : Node) :
    (conditional position condition thenValue elseValue).depth =
      max (condition.depthAt 1) (max (thenValue.depth + 1) (elseValue.depth + 1)) := rfl

/-- The depth of a call. -/
theorem depth_call (callee : Node) (arguments : List Node) :
    (call position callee arguments).depth =
      max (callee.depthAt postfixLevel) (depthAll arguments) := rfl

/-- The depth of an element. -/
theorem depth_index (container : Node) (accessor : Accessor) (indices : List Node) :
    (index position container accessor indices).depth =
      max (container.depthAt postfixLevel) (depthAll indices) := rfl

/-- The depth of a field. -/
theorem depth_member (instanceOf : Node) (field : String) :
    (member position instanceOf field).depth = instanceOf.depthAt postfixLevel := rfl

/-- The depth of a step. -/
theorem depth_update (target : Node) (step : Step) (inFront : Bool) :
    (update position target step inFront).depth = target.depthAt postfixLevel := rfl

end

/-- A bound for several expressions. -/
theorem depthAll_le_iff {bound : Nat} (nodes : List Node) :
    depthAll nodes ≤ bound ↔ ∀ node ∈ nodes, node.depth + 1 ≤ bound := by
  induction nodes with
  | nil => simp [depthAll]
  | cons node rest ih => simp only [depthAll, Nat.max_le, ih, List.forall_mem_cons]

/-- A bound for fields. -/
theorem depthFields_le_iff {bound : Nat} (fields : List (String × Node)) :
    depthFields fields ≤ bound ↔ ∀ field ∈ fields, field.2.depth + 1 ≤ bound := by
  induction fields with
  | nil => simp [depthFields]
  | cons field rest ih => simp only [depthFields, Nat.max_le, ih, List.forall_mem_cons]

/-! ### What can be written -/

/-- Without parentheses around it, an expression is written the same wherever it stands. -/
theorem Written.of_le {j k : Nat} {node : Node} {tokens : List Token} (h : node.Written j tokens)
    (hj : j ≤ node.level) (hk : k ≤ node.level) : node.Written k tokens := by
  cases h with
  | number htoken hvalue => exact .number htoken hvalue
  | text htoken => exact .text htoken
  | verbatim htoken => exact .verbatim htoken
  | name htoken => exact .name htoken
  | operation _ htoken hlhs hrhs =>
    rw [level_operator] at hk
    exact .operation hk htoken hlhs hrhs
  | sign _ htoken hoperand => exact .sign hk htoken hoperand
  | choice hquestion hcolon hcondition hthen helse =>
    obtain rfl := Nat.le_zero.1 hk
    exact .choice hquestion hcolon hcondition hthen helse
  | call _ hopening hclosing hcallee hparts hinside =>
    exact .call hk hopening hclosing hcallee hparts hinside
  | index _ hopening hclosing hsome htakes hcontainer hparts hinside =>
    exact .index hk hopening hclosing hsome htakes hcontainer hparts hinside
  | member _ hdot hfield hinstance => exact .member hk hdot hfield hinstance
  | stepBefore _ htoken hassignable htarget => exact .stepBefore hk htoken hassignable htarget
  | stepAfter _ htoken hassignable htarget => exact .stepAfter hk htoken hassignable htarget
  | struct hopening hclosing hkeys hcolons hvalues hinside =>
    exact .struct hopening hclosing hkeys hcolons hvalues hinside
  | array hopening hclosing hparts hinside => exact .array hopening hclosing hparts hinside
  | parens hlt => exact absurd hlt (Nat.not_lt.2 hj)

/-- Something that has a written form has one wherever it stands. -/
theorem Written.exists_at {node : Node} {tokens : List Token} (h : node.Written 0 tokens)
    (wanted : Nat) : ∃ tokens, node.Written wanted tokens := by
  by_cases hlt : node.level < wanted
  · exact ⟨_, @parens wanted node tokens (.ofKind .leftParen) (.ofKind .rightParen) hlt rfl rfl h⟩
  · exact ⟨tokens, h.of_le (Nat.zero_le _) (Nat.not_lt.1 hlt)⟩

/-- An expression has a written form that, so deep in nested code, can stand where a level is
wanted. -/
structure Fits (nesting wanted : Nat) (node : Node) : Prop where
  written : ∃ tokens, node.Written 0 tokens
  depth : nesting + node.depthAt wanted ≤ maxNesting

section

variable {n k : Nat} {node : Node} {nodes : List Node}

/-- What can stand where a level is wanted can stand where a looser one is. -/
theorem Fits.loosen {k' : Nat} (h : node.Fits n k) (hk : k' ≤ k) : node.Fits n k' :=
  ⟨h.written, Nat.le_trans (Nat.add_le_add_left (depthAt_mono hk node) n) h.depth⟩

/-- What can stand one level further in can stand anywhere, in parentheses if need be. -/
theorem Fits.enclose (h : node.Fits (n + 1) 0) (k : Nat) : node.Fits n k := by
  refine ⟨h.written, ?_⟩
  have hdepth := h.depth
  rw [depthAt_zero] at hdepth
  have hk := depthAt_le_succ k node
  omega

/-- An expression that is not too deep fits. -/
theorem Fits.of_depth_eq {depth : Nat} (hwritten : ∃ tokens, node.Written 0 tokens)
    (hk : k ≤ node.level) (hdepth : node.depth = depth) (h : n + depth ≤ maxNesting) :
    node.Fits n k :=
  ⟨hwritten, by rwa [depthAt_of_le hk, hdepth]⟩

/-- Several that fit are written. -/
theorem Fits.exists_parts (h : ∀ node ∈ nodes, node.Fits n k) :
    ∃ parts : List (Node × List Token), parts.map Prod.fst = nodes ∧
      ∀ part ∈ parts, part.1.Written 0 part.2 := by
  induction nodes with
  | nil => exact ⟨[], rfl, by simp⟩
  | cons node rest ih =>
    rw [List.forall_mem_cons] at h
    obtain ⟨parts, rfl, hparts⟩ := ih h.2
    obtain ⟨tokens, htokens⟩ := h.1.written
    exact ⟨(node, tokens) :: parts, rfl, List.forall_mem_cons.2 ⟨htokens, hparts⟩⟩

/-- So are fields. -/
theorem Fits.exists_fields {fields : List (String × Node)}
    (h : ∀ field ∈ fields, field.2.Fits n k) :
    ∃ written : List WrittenField, written.map WrittenField.entry = fields ∧
      (∀ field ∈ written, field.key.kind = .string) ∧
      (∀ field ∈ written, field.colon.kind = .colon) ∧
      ∀ field ∈ written, field.value.Written 0 field.tokens := by
  induction fields with
  | nil => exact ⟨[], rfl, by simp⟩
  | cons field rest ih =>
    rw [List.forall_mem_cons] at h
    obtain ⟨written, rfl, hkeys, hcolons, hvalues⟩ := ih h.2
    obtain ⟨tokens, htokens⟩ := h.1.written
    refine ⟨⟨{ Token.ofKind .string with value := field.1 }, .ofKind .colon, field.2, tokens⟩ ::
      written, rfl, ?_, ?_, ?_⟩
    · exact List.forall_mem_cons.2 ⟨rfl, hkeys⟩
    · exact List.forall_mem_cons.2 ⟨rfl, hcolons⟩
    · exact List.forall_mem_cons.2 ⟨htokens, hvalues⟩

/-- They are not too deep. -/
theorem depthAll_le_of_fits (h : ∀ node ∈ nodes, node.Fits (n + 1) 0) (hn : n ≤ maxNesting) :
    n + depthAll nodes ≤ maxNesting := by
  have hall : depthAll nodes ≤ maxNesting - n := by
    refine (depthAll_le_iff nodes).2 fun node hmem => ?_
    have hdepth := (h node hmem).depth
    rw [depthAt_zero] at hdepth
    omega
  omega

/-- Nor are fields. -/
theorem depthFields_le_of_fits {fields : List (String × Node)}
    (h : ∀ field ∈ fields, field.2.Fits (n + 1) 0) (hn : n ≤ maxNesting) :
    n + depthFields fields ≤ maxNesting := by
  have hall : depthFields fields ≤ maxNesting - n := by
    refine (depthFields_le_iff fields).2 fun field hmem => ?_
    have hdepth := (h field hmem).depth
    rw [depthAt_zero] at hdepth
    omega
  omega

end

end Node

end Gml
