import Gml.Proofs.Code.Complete

/-!
# How fast code grows

How many instructions there are for a tree, measured by the number of its nodes (`Node.weight`).
Each node has a few instructions of its own (`Node.expressionSize_le`), and the end of a round or of
the script has up to one more for each construct around it (`Node.bounded_of_isPlain`). So the code
is linear in the tree, if constructs nest only so deep, with one exception: the body of a `with`
statement is written once for each target. It is linear if such a body counts once for each target
(`Node.boundedAll_spread`), or if it has no room for more than so many instructions
(`Node.bounded_withEach`).
-/

namespace Gml

/-- Instances are some of the constructs. -/
theorem FrameKind.enteredCount_le (kinds : List FrameKind) : enteredCount kinds ≤ kinds.length :=
  List.count_le_length

/-- Switches on the way are some of the constructs. -/
theorem FrameKind.crossedCount_le (kinds : List FrameKind) : crossedCount kinds ≤ kinds.length :=
  (List.takeWhile_sublist _).length_le

/-- A `break` takes two instructions at most. -/
theorem FrameKind.breakSize_le (kinds : List FrameKind) : breakSize kinds ≤ 2 := by
  unfold breakSize
  split <;> simp

namespace Node

/-! ### Numbers of nodes -/

section

variable (copies : Nat → Nat)

mutual

/-- The number of nodes in a tree, where the body of a `with` statement counts so often as `copies`
says for its number of targets. -/
def weight : Node → Nat
  | int .. | real .. | string .. | ident .. | declareGlobal .. | exit .. | breaking ..
  | continuing .. => 1
  | binary _ _ lhs rhs | logical _ _ lhs rhs => lhs.weight + rhs.weight + 1
  | unary _ _ operand => operand.weight + 1
  | conditional _ condition thenValue elseValue =>
    condition.weight + thenValue.weight + elseValue.weight + 1
  | call _ callee arguments => callee.weight + weightAll arguments + 1
  | index _ container _ indices => container.weight + weightAll indices + 1
  | member _ instanceOf _ => instanceOf.weight + 1
  | update _ target _ _ => target.weight + 1
  | struct _ fields => weightFields fields + 1
  | array _ elements => weightAll elements + 1
  | assign _ target _ value => target.weight + value.weight + 1
  | block _ body => weightAll body + 1
  | ifElse _ condition thenBody elseBody =>
    condition.weight + thenBody.weight + weightOption elseBody + 1
  | whileDo _ condition body => condition.weight + body.weight + 1
  | doUntil _ body condition => body.weight + condition.weight + 1
  | repeatTimes _ count body => count.weight + body.weight + 1
  | forLoop _ init condition step body =>
    weightAll init + weightOption condition + weightAll step + body.weight + 1
  | switch _ subject cases => subject.weight + weightCases cases + 1
  | withEach _ targets body => weightAll targets + copies targets.length * body.weight + 1
  | declare _ bindings | declareEnum _ _ bindings => weightBindings bindings + 1
  | returning _ value => weightOption value + 1
  | discard _ expression => expression.weight + 1
termination_by structural node => node

/-- The number of nodes in several trees. -/
def weightAll : List Node → Nat
  | [] => 0
  | node :: rest => node.weight + weightAll rest
termination_by structural nodes => nodes

/-- The number of nodes in a tree that may be missing. -/
def weightOption : Option Node → Nat
  | none => 0
  | some node => node.weight
termination_by structural node => node

/-- The number of nodes in the fields of a struct. -/
def weightFields : List (String × Node) → Nat
  | [] => 0
  | (_, value) :: rest => value.weight + weightFields rest
termination_by structural fields => fields

/-- The number of nodes in the values of names. -/
def weightBindings : List (Binding Node) → Nat
  | [] => 0
  | ⟨_, value, _⟩ :: rest => weightOption value + weightBindings rest
termination_by structural bindings => bindings

/-- The number of nodes in the arms of a switch. -/
def weightCases : List (Case Node) → Nat
  | [] => 0
  | ⟨label, body, _⟩ :: rest => weightOption label + weightAll body + weightCases rest
termination_by structural cases => cases

end

end

mutual

/-- How deep statements nest in a statement, itself included. -/
def statementDepth : Node → Nat
  | block _ body => statementsDepth body + 1
  | ifElse _ _ thenBody elseBody =>
    max thenBody.statementDepth (alternativeDepth elseBody) + 1
  | whileDo _ _ body | doUntil _ body _ | repeatTimes _ _ body | withEach _ _ body =>
    body.statementDepth + 1
  | forLoop _ init _ step body =>
    max (max (statementsDepth init) (statementsDepth step)) body.statementDepth + 1
  | switch _ _ cases => armsDepth cases + 1
  | _ => 1
termination_by structural node => node

/-- How deep statements nest in a statement that may be missing. -/
def alternativeDepth : Option Node → Nat
  | none => 0
  | some node => node.statementDepth
termination_by structural node => node

/-- How deep statements nest in several statements. -/
def statementsDepth : List Node → Nat
  | [] => 0
  | node :: rest => max node.statementDepth (statementsDepth rest)
termination_by structural nodes => nodes

/-- How deep statements nest in the arms of a switch. -/
def armsDepth : List (Case Node) → Nat
  | [] => 0
  | ⟨_, body, _⟩ :: rest => max (statementsDepth body) (armsDepth rest)
termination_by structural cases => cases

end

variable (copies : Nat → Nat)

/-- Every node counts. -/
theorem weight_pos (node : Node) : 0 < node.weight copies := by
  cases node <;> simp [weight]

/-- A list has no more entries than nodes. -/
theorem length_le_weightAll (nodes : List Node) : nodes.length ≤ weightAll copies nodes := by
  induction nodes with
  | nil => simp
  | cons node rest ih =>
    have hpos := weight_pos copies node
    simp only [List.length_cons, weightAll]
    omega

/-! ### Expressions -/

/-- To load and keep takes two instructions at most. -/
theorem keepingSize_le (target : Node) : target.keepingSize ≤ 2 := by
  unfold keepingSize
  split <;> simp

/-- A step takes eight instructions at most. -/
theorem steppingSize_le (target : Node) : target.steppingSize ≤ 8 := by
  have hkeeping := target.keepingSize_le
  unfold steppingSize
  split <;> omega

mutual

/-- An expression has eight instructions of its own at most. Up to three more belong to what stands
around it: the key of a field, the comparison with a label. -/
theorem expressionSize_le : ∀ node : Node, node.expressionSize + 3 ≤ 11 * node.weight copies
  | .int .. | .real .. | .string .. | .ident .. => by simp [expressionSize, weight]
  | .binary _ _ lhs rhs => by
    have hlhs := expressionSize_le lhs
    have hrhs := expressionSize_le rhs
    simp only [expressionSize, weight]
    omega
  | .logical _ operator lhs rhs => by
    have hlhs := expressionSize_le lhs
    have hrhs := expressionSize_le rhs
    cases operator <;> simp only [expressionSize, weight] <;> omega
  | .unary _ _ operand => by
    have hoperand := expressionSize_le operand
    simp only [expressionSize, weight]
    omega
  | .conditional _ condition thenValue elseValue => by
    have hcondition := expressionSize_le condition
    have hthen := expressionSize_le thenValue
    have helse := expressionSize_le elseValue
    simp only [expressionSize, weight]
    omega
  | .call _ callee arguments => by
    have hcallee := expressionSize_le callee
    have harguments := expressionsSize_le arguments
    simp only [expressionSize, weight]
    split <;> omega
  | .index _ container _ indices => by
    have hcontainer := expressionSize_le container
    have hindices := expressionsSize_le indices
    simp only [expressionSize, weight]
    split <;> omega
  | .member _ instanceOf _ => by
    have hinstance := expressionSize_le instanceOf
    simp only [expressionSize, weight]
    omega
  | .update _ target _ _ => by
    have htarget := addressSize_le target
    have hstepping := target.steppingSize_le
    simp only [expressionSize, weight]
    omega
  | .struct _ fields => by
    have hfields := fieldsSize_le fields
    simp only [expressionSize, weight]
    omega
  | .array _ elements => by
    have helements := expressionsSize_le elements
    simp only [expressionSize, weight]
    omega
  | .assign .. | .block .. | .ifElse .. | .whileDo .. | .doUntil .. | .repeatTimes ..
  | .forLoop .. | .switch .. | .withEach .. | .declare .. | .declareGlobal .. | .declareEnum ..
  | .returning .. | .exit .. | .breaking .. | .continuing .. | .discard .. => by
    simp only [expressionSize, weight]
    omega
termination_by structural node => node

/-- An address takes eleven instructions for each node. -/
theorem addressSize_le : ∀ node : Node, node.addressSize ≤ 11 * node.weight copies
  | .member _ instanceOf _ => by
    have hinstance := expressionSize_le instanceOf
    simp only [addressSize, weight]
    omega
  | .index _ container _ indices => by
    have hcontainer := expressionSize_le container
    have hindices := expressionsSize_le indices
    simp only [addressSize, weight]
    split <;> omega
  | .int .. | .real .. | .string .. | .ident .. | .binary .. | .logical .. | .unary ..
  | .conditional .. | .call .. | .update .. | .struct .. | .array .. | .assign .. | .block ..
  | .ifElse .. | .whileDo .. | .doUntil .. | .repeatTimes .. | .forLoop .. | .switch ..
  | .withEach .. | .declare .. | .declareGlobal .. | .declareEnum .. | .returning .. | .exit ..
  | .breaking .. | .continuing .. | .discard .. => by simp [addressSize]
termination_by structural node => node

/-- So do several expressions, with some to spare. -/
theorem expressionsSize_le : ∀ nodes : List Node,
    expressionsSize nodes + 3 * nodes.length ≤ 11 * weightAll copies nodes
  | [] => by simp [expressionsSize, weightAll]
  | node :: rest => by
    have hnode := expressionSize_le node
    have hrest := expressionsSize_le rest
    simp only [expressionsSize, weightAll, List.length_cons]
    omega
termination_by structural nodes => nodes

/-- So do the fields of a struct. -/
theorem fieldsSize_le : ∀ fields : List (String × Node),
    fieldsSize fields ≤ 11 * weightFields copies fields
  | [] => by simp [fieldsSize, weightFields]
  | (_, value) :: rest => by
    have hvalue := expressionSize_le value
    have hrest := fieldsSize_le rest
    simp only [fieldsSize, weightFields]
    omega
termination_by structural fields => fields

end

/-- So does an expression that may be missing. -/
theorem clauseSize_le (node : Option Node) : clauseSize node ≤ 11 * weightOption copies node := by
  cases node with
  | none => simp [clauseSize, weightOption]
  | some node =>
    have hnode := expressionSize_le copies node
    simp only [clauseSize, weightOption]
    omega

/-- So do declarations. -/
theorem declarationsSize_le (bindings : List (Binding Node)) :
    declarationsSize bindings ≤ 11 * weightBindings copies bindings := by
  induction bindings with
  | nil => simp [declarationsSize, weightBindings]
  | cons binding rest ih =>
    have hvalue := clauseSize_le copies binding.value
    simp only [declarationsSize, weightBindings]
    omega

section

variable {factor : Nat} (hfactor : 11 ≤ factor)

include hfactor

/-- A larger factor is enough for an expression. -/
theorem expressionSize_le_mul (node : Node) :
    node.expressionSize + 3 ≤ factor * node.weight copies :=
  Nat.le_trans (expressionSize_le copies node) (Nat.mul_le_mul_right _ hfactor)

/-- It is enough for an address. -/
theorem addressSize_le_mul (node : Node) : node.addressSize ≤ factor * node.weight copies :=
  Nat.le_trans (addressSize_le copies node) (Nat.mul_le_mul_right _ hfactor)

/-- It is enough for an expression that may be missing. -/
theorem clauseSize_le_mul (node : Option Node) :
    clauseSize node ≤ factor * weightOption copies node :=
  Nat.le_trans (clauseSize_le copies node) (Nat.mul_le_mul_right _ hfactor)

end

/-! ### Statements from their parts -/

/-- Whether there are no statements in the node. -/
def isPlain : Node → Bool
  | block .. | ifElse .. | whileDo .. | doUntil .. | repeatTimes .. | forLoop .. | switch ..
  | withEach .. => false
  | _ => true

/-- The code of a statement inside of some constructs is no larger than so many times its nodes. -/
def Bounded (factor : Nat) (copies : Nat → Nat) (kinds : List FrameKind) (node : Node) : Prop :=
  node.statementSize kinds ≤ factor * node.weight copies

/-- The code of several statements is. -/
def BoundedAll (factor : Nat) (copies : Nat → Nat) (kinds : List FrameKind)
    (nodes : List Node) : Prop :=
  statementsSize nodes kinds ≤ factor * weightAll copies nodes

section

variable {copies : Nat → Nat} {factor : Nat} (hfactor : 11 ≤ factor) {kinds : List FrameKind}
  {p : Position} {condition body : Node}

/-- A statement may come in front. -/
theorem BoundedAll.cons {node : Node} {rest : List Node} (hnode : node.Bounded factor copies kinds)
    (hrest : BoundedAll factor copies kinds rest) :
    BoundedAll factor copies kinds (node :: rest) := by
  simp only [BoundedAll, Bounded, statementsSize, weightAll, Nat.mul_add] at *
  omega

/-- A block is bounded if its statements are. -/
theorem Bounded.block {nodes : List Node} (hbody : BoundedAll factor copies kinds nodes) :
    (Node.block p nodes).Bounded factor copies kinds := by
  simp only [BoundedAll, Bounded, statementSize, weight, Nat.mul_add] at *
  omega

include hfactor

/-- An assignment is bounded. -/
theorem bounded_assign (target : Node) (operator : AssignOp) (value : Node) :
    (Node.assign p target operator value).Bounded factor copies kinds := by
  have htarget := addressSize_le_mul copies hfactor target
  have hkeeping := target.keepingSize_le
  have hvalue := expressionSize_le_mul copies hfactor value
  simp only [Bounded, statementSize, weight, Nat.mul_add]
  split <;> omega

/-- An expression for its effects is bounded. -/
theorem bounded_discard (expression : Node) :
    (Node.discard p expression).Bounded factor copies kinds := by
  have hexpression := expressionSize_le_mul copies hfactor expression
  unfold Bounded
  cases expression with
  | update q target step inFront =>
    have htarget := addressSize_le_mul copies hfactor target
    have hkeeping := target.keepingSize_le
    simp only [statementSize, weight, Nat.mul_add]
    omega
  | _ =>
    simp only [statementSize, weight, Nat.mul_add] at *
    omega

/-- A condition is bounded if its body is. -/
theorem Bounded.ifThen (hbody : body.Bounded factor copies kinds) :
    (Node.ifElse p condition body none).Bounded factor copies kinds := by
  have hcondition := expressionSize_le_mul copies hfactor condition
  simp only [Bounded, statementSize, weight, weightOption, Nat.mul_add] at *
  omega

/-- So is one with an alternative. -/
theorem Bounded.ifElse {elseBody : Node} (hbody : body.Bounded factor copies kinds)
    (helse : elseBody.Bounded factor copies kinds) :
    (Node.ifElse p condition body (some elseBody)).Bounded factor copies kinds := by
  have hcondition := expressionSize_le_mul copies hfactor condition
  simp only [Bounded, statementSize, weight, weightOption, Nat.mul_add] at *
  omega

/-- A loop is bounded if its body is. -/
theorem Bounded.whileDo (hbody : body.Bounded factor copies (.loop :: kinds)) :
    (Node.whileDo p condition body).Bounded factor copies kinds := by
  have hcondition := expressionSize_le_mul copies hfactor condition
  simp only [Bounded, statementSize, weight, Nat.mul_add] at *
  omega

/-- So is one with its test at the end. -/
theorem Bounded.doUntil (hbody : body.Bounded factor copies (.loop :: kinds)) :
    (Node.doUntil p body condition).Bounded factor copies kinds := by
  have hcondition := expressionSize_le_mul copies hfactor condition
  simp only [Bounded, statementSize, weight, Nat.mul_add] at *
  omega

/-- So is one with a count. -/
theorem Bounded.repeatTimes (hbody : body.Bounded factor copies (.counter :: kinds)) :
    (Node.repeatTimes p condition body).Bounded factor copies kinds := by
  have hcondition := expressionSize_le_mul copies hfactor condition
  simp only [Bounded, statementSize, weight, Nat.mul_add] at *
  omega

/-- So is one with clauses, if they are. -/
theorem Bounded.forLoop {init step : List Node} {condition : Option Node}
    (hinit : BoundedAll factor copies kinds init) (hstep : BoundedAll factor copies kinds step)
    (hbody : body.Bounded factor copies (.loop :: kinds)) :
    (Node.forLoop p init condition step body).Bounded factor copies kinds := by
  have hcondition := clauseSize_le_mul copies hfactor condition
  simp only [Bounded, BoundedAll, statementSize, weight, Nat.mul_add] at *
  omega

/-- The comparison with a label belongs to the label. -/
theorem labels_arms_le {cases : List (Case Node)}
    (harms : ∀ arm ∈ cases, BoundedAll factor copies kinds arm.body) :
    labelsSize cases + armsSize cases kinds ≤ factor * weightCases copies cases := by
  induction cases with
  | nil => simp [labelsSize, armsSize, weightCases]
  | cons arm rest ih =>
    rw [List.forall_mem_cons] at harms
    have hrest := ih harms.2
    have hbody := harms.1
    rcases arm with ⟨_ | label, body, q⟩
    · simp only [BoundedAll, labelsSize, armsSize, weightCases, weightOption, Nat.mul_add] at *
      omega
    · have hlabel := expressionSize_le_mul copies hfactor label
      simp only [BoundedAll, labelsSize, armsSize, weightCases, weightOption, Nat.mul_add] at *
      omega

/-- A switch is bounded if its arms are. -/
theorem Bounded.switch {subject : Node} {cases : List (Case Node)}
    (harms : ∀ arm ∈ cases, BoundedAll factor copies (.switch :: kinds) arm.body) :
    (Node.switch p subject cases).Bounded factor copies kinds := by
  have hsubject := expressionSize_le_mul copies hfactor subject
  have hcases := labels_arms_le hfactor harms
  simp only [Bounded, statementSize, weight, Nat.mul_add] at *
  omega

/-- Declarations are bounded. -/
theorem bounded_declare (bindings : List (Binding Node)) :
    (Node.declare p bindings).Bounded factor copies kinds := by
  have hbindings := Nat.le_trans (declarationsSize_le copies bindings)
    (Nat.mul_le_mul_right _ hfactor)
  simp only [Bounded, statementSize, weight, Nat.mul_add]
  omega

omit hfactor

/-- The end of a script leaves the instances around it. -/
theorem bounded_returning (hkinds : kinds.length + 11 ≤ factor) (value : Option Node) :
    (Node.returning p value).Bounded factor copies kinds := by
  have hfactor : 11 ≤ factor := by omega
  have hentered := FrameKind.enteredCount_le kinds
  unfold Bounded
  cases value with
  | none =>
    simp only [statementSize, weight, weightOption]
    omega
  | some value =>
    have hvalue := expressionSize_le_mul copies hfactor value
    simp only [statementSize, weight, weightOption, Nat.mul_add]
    omega

/-- What has no statements in it has a few instructions and one for each construct around it. -/
theorem bounded_of_isPlain (hkinds : kinds.length + 11 ≤ factor) {node : Node}
    (h : node.isPlain = true) : node.Bounded factor copies kinds := by
  have hfactor : 11 ≤ factor := by omega
  -- For statements that only leave constructs.
  have hshort {node : Node} (hsize : node.statementSize kinds ≤ kinds.length + 2) :
      node.Bounded factor copies kinds := by
    calc
      node.statementSize kinds ≤ factor * 1 := by omega
      _ ≤ factor * node.weight copies := Nat.mul_le_mul_left _ (weight_pos copies node)
  cases node with
  | assign _ target operator value => exact bounded_assign hfactor target operator value
  | discard _ expression => exact bounded_discard hfactor expression
  | declare _ bindings => exact bounded_declare hfactor bindings
  | returning _ value => exact bounded_returning hkinds value
  | exit =>
    have hentered := FrameKind.enteredCount_le kinds
    exact hshort (by simp only [statementSize]; omega)
  | breaking =>
    have hbreak := FrameKind.breakSize_le kinds
    exact hshort (by simp only [statementSize]; omega)
  | continuing =>
    have hcrossed := FrameKind.crossedCount_le kinds
    exact hshort (by simp only [statementSize]; omega)
  | block | ifElse | whileDo | doUntil | repeatTimes | forLoop | switch | withEach => cases h
  | _ => exact hshort (Nat.zero_le _)

/-- A body that is written again for each target and counts again for each target. -/
theorem Bounded.withEach {targets : List Node} (hfactor : 11 ≤ factor)
    (hbody : body.Bounded factor id (.within :: kinds)) :
    (Node.withEach p targets body).Bounded factor id kinds := by
  have htargets := Nat.le_trans (expressionsSize_le id targets)
    (Nat.mul_le_mul_right _ hfactor)
  have hcopies := Nat.mul_le_mul_left targets.length hbody
  rw [Nat.mul_left_comm] at hcopies
  simp only [Bounded, statementSize, weight, Nat.mul_add, id_eq] at *
  omega

/-- A body that is written again for each target and has no room for more than so many
instructions. -/
theorem bounded_withEach {targets : List Node} (hfactor : maxCodeSize + 11 ≤ factor)
    (hbody : targets ≠ [] → body.statementSize (.within :: kinds) + 2 ≤ maxCodeSize) :
    (Node.withEach p targets body).Bounded factor copies kinds := by
  have htargets := expressionsSize_le copies targets
  have hlength := length_le_weightAll copies targets
  have hcopies : targets.length * (body.statementSize (.within :: kinds) + 2) ≤
      maxCodeSize * weightAll copies targets := by
    rw [Nat.mul_comm maxCodeSize]
    by_cases hnil : targets = []
    · simp [hnil]
    · exact Nat.mul_le_mul hlength (hbody hnil)
  have hall := Nat.mul_le_mul_right (weightAll copies targets) hfactor
  simp only [Bounded, statementSize, weight, Nat.mul_add, Nat.add_mul] at *
  omega

end

/-! ### Bodies that count for each target -/

mutual

/-- If a body counts once for each target, the code of a statement is linear in its nodes. The
constructs around it count for its depth. -/
theorem bounded_spread {factor limit : Nat} (hfactor : limit + 10 ≤ factor) :
    ∀ (node : Node) (kinds : List FrameKind), kinds.length + node.statementDepth ≤ limit →
      node.Bounded factor id kinds
  | .block _ body, kinds, h => .block (boundedAll_spread hfactor body kinds (by
      simp only [statementDepth] at h
      omega))
  | .ifElse _ _ thenBody none, kinds, h => by
    simp only [statementDepth, alternativeDepth] at h
    exact .ifThen (by omega) (bounded_spread hfactor thenBody kinds (by omega))
  | .ifElse _ _ thenBody (some elseBody), kinds, h => by
    simp only [statementDepth, alternativeDepth] at h
    exact .ifElse (by omega) (bounded_spread hfactor thenBody kinds (by omega))
      (bounded_spread hfactor elseBody kinds (by omega))
  | .whileDo _ _ body, kinds, h => by
    simp only [statementDepth] at h
    exact .whileDo (by omega) (bounded_spread hfactor body _ (by rw [List.length_cons]; omega))
  | .doUntil _ body _, kinds, h => by
    simp only [statementDepth] at h
    exact .doUntil (by omega) (bounded_spread hfactor body _ (by rw [List.length_cons]; omega))
  | .repeatTimes _ _ body, kinds, h => by
    simp only [statementDepth] at h
    exact .repeatTimes (by omega) (bounded_spread hfactor body _ (by rw [List.length_cons]; omega))
  | .forLoop _ init _ step body, kinds, h => by
    simp only [statementDepth] at h
    exact .forLoop (by omega) (boundedAll_spread hfactor init kinds (by omega))
      (boundedAll_spread hfactor step kinds (by omega))
      (bounded_spread hfactor body _ (by rw [List.length_cons]; omega))
  | .switch _ _ cases, kinds, h => by
    simp only [statementDepth] at h
    exact .switch (by omega) (boundedArms_spread hfactor cases _ (by rw [List.length_cons]; omega))
  | .withEach _ _ body, kinds, h => by
    simp only [statementDepth] at h
    exact .withEach (by omega) (bounded_spread hfactor body _ (by rw [List.length_cons]; omega))
  | .assign .., _, h | .discard .., _, h | .declare .., _, h | .returning .., _, h | .exit .., _, h
  | .breaking .., _, h | .continuing .., _, h | .declareGlobal .., _, h | .declareEnum .., _, h
  | .int .., _, h | .real .., _, h | .string .., _, h | .ident .., _, h | .binary .., _, h
  | .logical .., _, h | .unary .., _, h | .conditional .., _, h | .call .., _, h | .index .., _, h
  | .member .., _, h | .update .., _, h | .struct .., _, h | .array .., _, h => by
    simp only [statementDepth] at h
    exact bounded_of_isPlain (by omega) rfl
termination_by structural node => node

/-- So it is with several statements. -/
theorem boundedAll_spread {factor limit : Nat} (hfactor : limit + 10 ≤ factor) :
    ∀ (nodes : List Node) (kinds : List FrameKind), kinds.length + statementsDepth nodes ≤ limit →
      BoundedAll factor id kinds nodes
  | [], _, _ => by simp [BoundedAll, statementsSize]
  | node :: rest, kinds, h => by
    simp only [statementsDepth] at h
    exact .cons (bounded_spread hfactor node kinds (by omega))
      (boundedAll_spread hfactor rest kinds (by omega))
termination_by structural nodes => nodes

/-- So it is with the arms of a switch. -/
theorem boundedArms_spread {factor limit : Nat} (hfactor : limit + 10 ≤ factor) :
    ∀ (cases : List (Case Node)) (kinds : List FrameKind), kinds.length + armsDepth cases ≤ limit →
      ∀ arm ∈ cases, BoundedAll factor id kinds arm.body
  | [], _, _ => by simp
  | ⟨label, body, q⟩ :: rest, kinds, h => by
    simp only [armsDepth] at h
    exact List.forall_mem_cons.2 ⟨boundedAll_spread hfactor body kinds (by omega),
      boundedArms_spread hfactor rest kinds (by omega)⟩
termination_by structural cases => cases

end

end Node

end Gml
