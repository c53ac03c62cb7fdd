import Gml.Tree

/-!
# Trees by their parts

`Node.parts` are the nodes right inside of a node, of whatever kind it is. With it a statement about
all nodes of a tree does not have to tell the kinds apart: `Node.Within` says that a node is
somewhere in a tree, and `Node.induction_parts` goes from the parts of a node to the node.
-/

namespace Gml

namespace Node

/-- The nodes right inside of a node. -/
def parts : Node → List Node
  | int .. | real .. | string .. | ident .. | declareGlobal .. | exit .. | breaking ..
  | continuing .. => []
  | binary _ _ lhs rhs | logical _ _ lhs rhs => [lhs, rhs]
  | unary _ _ operand => [operand]
  | conditional _ condition thenValue elseValue => [condition, thenValue, elseValue]
  | call _ callee arguments => callee :: arguments
  | index _ container _ indices => container :: indices
  | member _ instanceOf _ => [instanceOf]
  | update _ target _ _ => [target]
  | struct _ fields => fields.map (·.2)
  | array _ elements => elements
  | assign _ target _ value => [target, value]
  | block _ body => body
  | ifElse _ condition thenBody elseBody => condition :: thenBody :: elseBody.toList
  | whileDo _ condition body => [condition, body]
  | doUntil _ body condition => [body, condition]
  | repeatTimes _ count body => [count, body]
  | forLoop _ init condition step body => init ++ condition.toList ++ step ++ [body]
  | switch _ subject cases =>
    subject :: cases.flatMap fun arm => arm.label.toList ++ arm.body
  | withEach _ targets body => targets ++ [body]
  | declare _ bindings | declareEnum _ _ bindings => bindings.flatMap (·.value.toList)
  | returning _ value => value.toList
  | discard _ expression => [expression]

/-- A node is somewhere in a tree. -/
inductive Within (inner : Node) : Node → Prop where
  /-- The tree is the node. -/
  | self : Within inner inner
  /-- It is in one of the parts. -/
  | part {outer part : Node} : part ∈ outer.parts → Within inner part → Within inner outer

/-- Parts are smaller. -/
theorem sizeOf_lt_of_mem_parts {node part : Node} (h : part ∈ node.parts) :
    sizeOf part < sizeOf node := by
  have hbinding {bindings : List (Binding Node)}
      (hmem : part ∈ bindings.flatMap (·.value.toList)) : sizeOf part < sizeOf bindings := by
    obtain ⟨⟨_, value, _⟩, hbinding, hvalue⟩ := List.mem_flatMap.1 hmem
    obtain rfl := Option.mem_toList.1 hvalue
    have := List.sizeOf_lt_of_mem hbinding
    simp at this
    omega
  have hlist {nodes : List Node} (hmem : part ∈ nodes) : sizeOf part < sizeOf nodes :=
    List.sizeOf_lt_of_mem hmem
  have hoption {other : Option Node} (hmem : part ∈ other) : sizeOf part < sizeOf other := by
    obtain rfl := hmem
    simp
  cases node
  all_goals simp only [parts, List.mem_cons, List.mem_append, List.not_mem_nil, or_false,
    Option.mem_toList] at h
  case struct fields =>
    obtain ⟨⟨key, value⟩, hfield, rfl⟩ := List.mem_map.1 h
    have := List.sizeOf_lt_of_mem hfield
    simp at this ⊢
    omega
  case switch cases =>
    rcases h with rfl | h
    · simp
      omega
    · obtain ⟨⟨label, body, _⟩, harm, hmem⟩ := List.mem_flatMap.1 h
      have := List.sizeOf_lt_of_mem harm
      rcases List.mem_append.1 hmem with hmem | hmem
      · have := hoption (Option.mem_toList.1 hmem)
        simp at *
        omega
      · have := hlist hmem
        simp at *
        omega
  all_goals
    simp
    grind

/-- What follows for a node from its parts holds for all nodes. -/
theorem induction_parts {motive : Node → Prop}
    (step : ∀ node, (∀ part ∈ node.parts, motive part) → motive node) (node : Node) : motive node :=
  step node fun part _ => induction_parts step part
termination_by sizeOf node
decreasing_by exact sizeOf_lt_of_mem_parts ‹_›

end Node

/-- A node is somewhere in a script. -/
def Script.Contains (script : Script) (node : Node) : Prop :=
  ∃ statement ∈ script.body, node.Within statement

end Gml
