import Gml.Proofs.Tree.Parts
import Gml.Tree.Scope

/-!
# Trees all of whose nodes have a property

`Node.Every p` says that a node and all nodes in it satisfy `p`. The property that code needs is
`Node.Regular`: an index has one or two indices, and no name is one that the code uses for itself
(`IsTemporary`).
-/

namespace Gml

/-- The name of a temporary variable. -/
def temporaryName (n : Nat) : String :=
  s!"$tmp{n}"

/-- A name that code uses for itself. -/
def IsTemporary (name : String) : Prop :=
  ∃ n, name = temporaryName n

/-- A node whose own parts are as code needs them: an index has one or two indices, and names are
not those of temporary variables. -/
def Node.Regular : Node → Prop
  | ident _ name _ => ¬ IsTemporary name
  | member _ _ field => ¬ IsTemporary field
  | index _ _ _ indices => 0 < indices.length ∧ indices.length ≤ 2
  | declare _ bindings => ∀ binding ∈ bindings, ¬ IsTemporary binding.name
  | _ => True

namespace Node

variable (p : Node → Prop)

mutual

/-- The node and all nodes in it have a property. -/
def Every : Node → Prop
  | int q value => p (.int q value)
  | real q value => p (.real q value)
  | string q value verbatim => p (.string q value verbatim)
  | ident q name resolution => p (.ident q name resolution)
  | binary q operator lhs rhs => p (.binary q operator lhs rhs) ∧ lhs.Every ∧ rhs.Every
  | logical q operator lhs rhs => p (.logical q operator lhs rhs) ∧ lhs.Every ∧ rhs.Every
  | unary q operator operand => p (.unary q operator operand) ∧ operand.Every
  | conditional q condition thenValue elseValue =>
    p (.conditional q condition thenValue elseValue) ∧ condition.Every ∧ thenValue.Every ∧
      elseValue.Every
  | call q callee arguments => p (.call q callee arguments) ∧ callee.Every ∧ EveryOf arguments
  | index q container accessor indices =>
    p (.index q container accessor indices) ∧ container.Every ∧ EveryOf indices
  | member q instanceOf field => p (.member q instanceOf field) ∧ instanceOf.Every
  | update q target step inFront => p (.update q target step inFront) ∧ target.Every
  | struct q fields => p (.struct q fields) ∧ EveryField fields
  | array q elements => p (.array q elements) ∧ EveryOf elements
  | assign q target operator value =>
    p (.assign q target operator value) ∧ target.Every ∧ value.Every
  | block q body => p (.block q body) ∧ EveryOf body
  | ifElse q condition thenBody elseBody =>
    p (.ifElse q condition thenBody elseBody) ∧ condition.Every ∧ thenBody.Every ∧
      EveryOption elseBody
  | whileDo q condition body => p (.whileDo q condition body) ∧ condition.Every ∧ body.Every
  | doUntil q body condition => p (.doUntil q body condition) ∧ body.Every ∧ condition.Every
  | repeatTimes q count body => p (.repeatTimes q count body) ∧ count.Every ∧ body.Every
  | forLoop q init condition step body =>
    p (.forLoop q init condition step body) ∧ EveryOf init ∧ EveryOption condition ∧
      EveryOf step ∧ body.Every
  | switch q subject cases => p (.switch q subject cases) ∧ subject.Every ∧ EveryCase cases
  | withEach q targets body => p (.withEach q targets body) ∧ EveryOf targets ∧ body.Every
  | declare q bindings => p (.declare q bindings) ∧ EveryBinding bindings
  | declareGlobal q names => p (.declareGlobal q names)
  | declareEnum q name members => p (.declareEnum q name members) ∧ EveryBinding members
  | returning q value => p (.returning q value) ∧ EveryOption value
  | exit q => p (.exit q)
  | breaking q => p (.breaking q)
  | continuing q => p (.continuing q)
  | discard q expression => p (.discard q expression) ∧ expression.Every
termination_by structural node => node

/-- All nodes in several nodes have the property. -/
def EveryOf : List Node → Prop
  | [] => True
  | node :: rest => node.Every ∧ EveryOf rest
termination_by structural nodes => nodes

/-- All nodes in a node that may be missing have the property. -/
def EveryOption : Option Node → Prop
  | none => True
  | some node => node.Every
termination_by structural node => node

/-- All nodes in the fields of a struct have the property. -/
def EveryField : List (String × Node) → Prop
  | [] => True
  | (_, value) :: rest => value.Every ∧ EveryField rest
termination_by structural fields => fields

/-- All nodes in the values of names have the property. -/
def EveryBinding : List (Binding Node) → Prop
  | [] => True
  | ⟨_, value, _⟩ :: rest => EveryOption value ∧ EveryBinding rest
termination_by structural bindings => bindings

/-- All nodes in the arms of a switch have the property. -/
def EveryCase : List (Case Node) → Prop
  | [] => True
  | ⟨label, body, _⟩ :: rest => EveryOption label ∧ EveryOf body ∧ EveryCase rest
termination_by structural cases => cases

end

/-- It holds of several expressions. -/
theorem everyOf_iff (nodes : List Node) : EveryOf p nodes ↔ ∀ node ∈ nodes, node.Every p := by
  induction nodes with
  | nil => simp [EveryOf]
  | cons node rest ih => simp [EveryOf, ih]

/-- It holds of fields. -/
theorem everyField_iff (fields : List (String × Node)) :
    EveryField p fields ↔ ∀ field ∈ fields, field.2.Every p := by
  induction fields with
  | nil => simp [EveryField]
  | cons field rest ih => simp [EveryField, ih]

/-- It holds of declarations. -/
theorem everyBinding_iff (bindings : List (Binding Node)) :
    EveryBinding p bindings ↔ ∀ binding ∈ bindings, EveryOption p binding.value := by
  induction bindings with
  | nil => simp [EveryBinding]
  | cons binding rest ih => simp [EveryBinding, ih]

/-- It holds of arms. -/
theorem everyCase_iff (cases : List (Case Node)) :
    EveryCase p cases ↔ ∀ arm ∈ cases, EveryOption p arm.label ∧ EveryOf p arm.body := by
  induction cases with
  | nil => simp [EveryCase]
  | cons arm rest ih => simp [EveryCase, ih, and_assoc]

/-- It holds of an expression that may be missing. -/
theorem everyOption_iff (node : Option Node) :
    EveryOption p node ↔ ∀ inside ∈ node, inside.Every p := by
  cases node with
  | none => simp [EveryOption]
  | some node => simp [EveryOption]

/-- All nodes in a tree have a property if the tree has it and all nodes in its parts have it. -/
theorem every_iff_parts (p : Node → Prop) (node : Node) :
    node.Every p ↔ p node ∧ ∀ part ∈ node.parts, part.Every p := by
  cases node <;>
    simp [Every, parts, everyOf_iff, everyField_iff, everyBinding_iff, everyCase_iff,
      everyOption_iff, or_imp, forall_and]
  all_goals grind

variable {p} {q r : Node → Prop} {node : Node}

/-- A property of all nodes of a tree is one of the tree. -/
theorem Every.self (h : node.Every p) : p node :=
  ((every_iff_parts p node).1 h).1

/-- What follows from two properties of a node follows for all nodes. -/
theorem Every.imp₂ (h : ∀ node, p node → q node → r node) (hp : node.Every p)
    (hq : node.Every q) : node.Every r := by
  induction node using induction_parts with
  | step node ih =>
    rw [every_iff_parts] at hp hq ⊢
    exact ⟨h node hp.1 hq.1, fun part hpart => ih part hpart (hp.2 part hpart) (hq.2 part hpart)⟩

/-- A property of all nodes may be weakened. -/
theorem Every.imp (h : ∀ node, p node → q node) (hn : node.Every p) : node.Every q :=
  hn.imp₂ (fun node hp _ => h node hp) hn

end Node

end Gml
