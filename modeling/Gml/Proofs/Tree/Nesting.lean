import Gml.Proofs.Tree.Parts
import Gml.Proofs.Tree.Rereading

/-!
# How deep the trees of a script are

A way down into a tree goes from a node to one of its parts, step by step. Most steps are turns: what
they lead to was read further in, or at a tighter level. The others go along a chain, from an
operator to its left operand or from a call, an index or a field to what stands before it. Chains are
read in loops.

The limit on nesting is a limit on turns (`Script.turns_le_of_ofTokens`): there are at most fifteen
for each level of nesting. Chains are not limited, and so neither are the trees
(`Script.steps_unbounded`).
-/

namespace Gml

namespace Node

/-! ### Ways down -/

/-- The part that a chain of operators, calls, indices and fields goes on with. -/
def leading? : Node → Option Node
  | binary _ _ lhs _ | logical _ _ lhs _ => some lhs
  | call _ callee _ => some callee
  | index _ container _ _ => some container
  | member _ instanceOf _ => some instanceOf
  | _ => none

/-- The other parts. -/
def turning : Node → List Node
  | binary _ _ _ rhs | logical _ _ _ rhs => [rhs]
  | call _ _ arguments => arguments
  | index _ _ _ indices => indices
  | member .. => []
  | node => node.parts

/-- A way down from a node, with the number of its turns and of all its steps. -/
inductive Descent : Node → Nat → Nat → Prop where
  /-- The way ends. -/
  | stay {node : Node} : Descent node 0 0
  /-- It goes along a chain. -/
  | along {node part : Node} {turns steps : Nat} (hpart : part ∈ node.leading?)
      (hrest : Descent part turns steps) : Descent node turns (steps + 1)
  /-- It turns. -/
  | turn {node part : Node} {turns steps : Nat} (hpart : part ∈ node.turning)
      (hrest : Descent part turns steps) : Descent node (turns + 1) (steps + 1)

/-- Each step leads to a part, and each part is a step away. -/
theorem mem_parts_iff (node part : Node) :
    part ∈ node.parts ↔ part ∈ node.leading? ∨ part ∈ node.turning := by
  cases node <;> simp [parts, leading?, turning, eq_comm]

/-- A node that leads nowhere. -/
theorem turning_eq_parts {node : Node} (h : node.leading? = none) : node.turning = node.parts := by
  cases node <;> first | rfl | cases h

/-- No way down from a node has more turns. -/
def Shallow (limit : Nat) (node : Node) : Prop :=
  ∀ turns steps, node.Descent turns steps → turns ≤ limit

variable {limit inside : Nat} {node : Node}

/-- A limit may be raised. -/
theorem Shallow.mono (h : node.Shallow limit) {wider : Nat} (hle : limit ≤ wider) :
    node.Shallow wider :=
  fun turns steps hway => Nat.le_trans (h turns steps hway) hle

/-- A node and its parts. -/
theorem shallow_of_turning (hlead : ∀ part ∈ node.leading?, part.Shallow limit)
    (hturn : ∀ part ∈ node.turning, part.Shallow inside) (hlt : inside < limit) :
    node.Shallow limit := by
  intro turns steps hway
  cases hway with
  | stay => exact Nat.zero_le _
  | along hpart hrest => exact hlead _ hpart _ _ hrest
  | turn hpart hrest => exact Nat.le_trans (Nat.succ_le_succ (hturn _ hpart _ _ hrest)) hlt

/-- A node that is not in the middle of a chain is one turn above its parts. -/
theorem shallow_of_parts (hnone : node.leading? = none)
    (hparts : ∀ part ∈ node.parts, part.Shallow inside) (hlt : inside < limit) :
    node.Shallow limit := by
  refine shallow_of_turning ?_ ?_ hlt
  · rw [hnone]
    simp
  · rwa [turning_eq_parts hnone]

/-- A node without parts. -/
theorem shallow_leaf (h : node.parts = []) (hnone : node.leading? = none) :
    node.Shallow limit := by
  intro turns steps hway
  cases hway with
  | stay => exact Nat.zero_le _
  | along hpart => simp [hnone] at hpart
  | turn hpart => simp [turning_eq_parts hnone, h] at hpart

/-- An operator. -/
theorem shallow_operator {operator : Operator} {position : Position} {lhs rhs : Node}
    (hl : lhs.Shallow limit) (hr : rhs.Shallow inside) (hlt : inside < limit) :
    (operator.node position lhs rhs).Shallow limit := by
  cases operator <;> refine shallow_of_turning ?_ ?_ hlt <;> simpa [Operator.node, leading?, turning]

end Node

namespace Parse

open Node (Shallow shallow_of_turning shallow_of_parts shallow_leaf shallow_operator)

variable {α : Type} {P : α → Prop} {n k : Nat}

/-- The body of a loop is no deeper in nested code than the loop. -/
theorem gives_inLoop {body : Parse α} (hbody : Gives n body P) : Gives n (inLoop body) P :=
  keeps_around (fun _ hp => hp) (fun _ hp => hp) hbody

/-! ### Turns in expressions

Each form of an expression adds so many turns at most to those further in.
-/

/-- What is read further in has so many turns at most. -/
structure ShallowInner (n k : Nat) (inner : Inner) : Prop where
  statement : Gives n inner.statement (Shallow k)
  expression : Gives n inner.expression (Shallow k)
  operand : Gives n inner.operand (Shallow k)

variable {inner : Inner} (hi : ShallowInner n k inner)

include hi

/-- A primary expression. -/
theorem turns_primary : Gives n (primary inner) (Shallow (k + 1)) := by
  refine leads_then passes_position fun start => leads_then passes_kind fun _ => ?_
  split
  · refine leads_then passes_next fun token => ?_
    split
    next literal _ => cases literal <;> exact keeps_pure (shallow_leaf rfl rfl)
    next hfault => exact leads_throw (Literal.stage_of_ofText hfault)
  iterate 3 exact leads_then passes_next fun _ => keeps_pure (shallow_leaf rfl rfl)
  · exact leads_then passes_next fun _ => leads_bind hi.expression fun _ hv =>
      leads_then (passes_eat _) fun _ => keeps_pure (hv.mono (Nat.le_succ k))
  · refine leads_then passes_next fun _ => leads_bind
      (keeps_listUntil (keeps_structField hi.expression)) fun fields hf =>
        leads_then (passes_eat _) fun _ => keeps_pure ?_
    refine shallow_of_parts rfl ?_ (Nat.lt_succ_self k)
    exact List.forall_mem_map.2 hf
  · refine leads_then passes_next fun _ => leads_bind (keeps_listUntil hi.expression)
      fun elements he => leads_then (passes_eat _) fun _ => keeps_pure ?_
    exact shallow_of_parts rfl he (Nat.lt_succ_self k)
  · exact leads_unexpected

/-- A call or an index goes on with a chain, and turns into what is in its brackets. -/
theorem turns_callOf {callee : Node} (hc : callee.Shallow (k + 1)) :
    Gives n (callOf inner callee) (Shallow (k + 1)) := by
  refine leads_then passes_next fun _ => leads_bind (keeps_arguments hi.expression)
    fun items hitems => leads_then (passes_eat _) fun _ => keeps_pure ?_
  refine shallow_of_turning ?_ hitems (Nat.lt_succ_self k)
  simpa [Node.leading?] using hc

/-- An element. -/
theorem turns_indexOf {container : Node} (hc : container.Shallow (k + 1)) :
    Gives n (indexOf inner container) (Shallow (k + 1)) := by
  refine leads_then passes_next fun bracket => ?_
  refine leads_bind (keeps_separated hi.expression) fun items hitems => ?_
  split
  · refine leads_then (passes_eat _) fun _ => keeps_pure ?_
    refine shallow_of_turning ?_ hitems.2 (Nat.lt_succ_self k)
    simpa [Node.leading?] using hc
  · exact leads_throw rfl

omit hi in
/-- A field. -/
theorem turns_memberOf {instanceOf : Node} (hf : instanceOf.Shallow (k + 1)) :
    Gives n (memberOf instanceOf) (Shallow (k + 1)) := by
  refine leads_then passes_next fun _ => leads_bind keeps_eatName fun _ _ => keeps_pure ?_
  refine shallow_of_turning ?_ (List.forall_mem_nil _) (Nat.lt_succ_self k)
  simpa [Node.leading?] using hf

omit hi in
/-- A step. -/
theorem shallow_update {target : Node} (h : target.Shallow k) (position : Position)
    (step : Step) (inFront : Bool) : (Node.update position target step inFront).Shallow (k + 1) := by
  refine shallow_of_parts rfl ?_ (Nat.lt_succ_self k)
  simpa [Node.parts] using h

omit hi in
/-- A step behind. -/
theorem turns_steppedAfter {target : Node} (h : target.Shallow k) :
    Gives n (steppedAfter target) (Shallow (k + 1)) := by
  unfold steppedAfter
  split
  · exact leads_then passes_next fun _ => keeps_pure (shallow_update h _ _ _)
  · exact leads_fail_bind rfl

/-- The accesses of an operand, without a step, have one turn more than what is in their brackets. -/
theorem turns_postfixed : Gives n (postfixed inner) (Shallow (k + 2)) := by
  refine leads_bind (turns_primary hi) fun first hfirst => ?_
  refine keeps_loop (P := Shallow (k + 1)) (fun operand ho => ?_) hfirst
  refine leads_then passes_kind fun _ => ?_
  split
  · exact leads_bind (turns_callOf hi ho) fun _ hv => keeps_pure hv
  iterate 5 exact leads_bind (turns_indexOf hi ho) fun _ hv => keeps_pure hv
  · exact leads_bind (turns_memberOf ho) fun _ hv => keeps_pure hv
  iterate 2 exact leads_bind (turns_steppedAfter ho) fun _ hv => keeps_pure hv
  · exact keeps_pure (ho.mono (Nat.le_succ _))

/-- A step in front. -/
theorem turns_steppedBefore : Gives n (steppedBefore inner) (Shallow (k + 3)) := by
  refine leads_then passes_next fun token => leads_bind (turns_postfixed hi) fun target ht => ?_
  split
  · exact keeps_pure (shallow_update ht _ _ _)
  · exact leads_throw rfl

/-- A sign. -/
theorem turns_signed (operator : UnaryOp) : Gives n (signed inner operator) (Shallow (k + 1)) := by
  refine leads_then passes_next fun _ => leads_bind hi.operand fun operand ho => keeps_pure ?_
  refine shallow_of_parts rfl ?_ (Nat.lt_succ_self k)
  simpa [Node.parts] using ho

/-- What stands in front. -/
theorem turns_unary : Gives n (unary inner) (Shallow (k + 3)) := by
  have hsigned : ∀ operator, Gives n (signed inner operator) (Shallow (k + 3)) := fun operator =>
    (turns_signed hi operator).imp fun _ hv => hv.mono (by omega)
  refine leads_then passes_kind fun _ => ?_
  split
  iterate 3 exact hsigned _
  · exact leads_then passes_next fun _ =>
      hi.operand.imp fun _ hv => hv.mono (Nat.le_add_right k 3)
  iterate 2 exact turns_steppedBefore hi
  · exact (turns_postfixed hi).imp (fun _ hv => hv.mono (Nat.le_succ _))

omit hi in
/-- However long a chain is, it has one turn more than its operands. -/
theorem turns_chain {operators : List (Kind × Operator)} {operand : Parse Node}
    (ho : Gives n operand (Shallow k)) : Gives n (chain operators operand) (Shallow (k + 1)) := by
  refine leads_bind ho fun first hfirst => ?_
  refine keeps_loop (P := Shallow (k + 1)) (fun lhs hl => ?_) (hfirst.mono (Nat.le_succ k))
  refine leads_then passes_kind fun _ => ?_
  split
  · exact keeps_pure hl
  · refine leads_then passes_next fun _ => leads_bind ho fun rhs hr => keeps_pure ?_
    exact shallow_operator hl hr (Nat.lt_succ_self k)

omit hi in
/-- All levels of operators. -/
theorem turns_ladder {operand : Parse Node} (ho : Gives n operand (Shallow k)) :
    ∀ levels, Gives n (ladder operand levels) (Shallow (k + levels.length))
  | [] => ho
  | _ :: tighter => turns_chain (turns_ladder ho tighter)

/-- A conditional. -/
theorem turns_conditional : Gives n (conditional inner) (Shallow (k + 15)) := by
  refine leads_bind (turns_ladder (turns_unary hi) Operator.levels) fun condition hc => ?_
  refine leads_then (passes_check _) fun found => ?_
  split
  · refine leads_then passes_next fun _ => leads_bind hi.expression fun thenValue ht =>
      leads_then (passes_eat _) fun _ => leads_bind hi.expression fun elseValue he =>
        keeps_pure ?_
    refine shallow_of_parts rfl ?_ (Nat.lt_succ_self (k + 14))
    have hcondition : condition.Shallow (k + 14) := hc
    have hk : k ≤ k + 14 := Nat.le_add_right k 14
    simpa [Node.parts] using And.intro hcondition ⟨ht.mono hk, he.mono hk⟩
  · exact keeps_pure (hc.mono (Nat.le_succ _))

/-! ### Turns in statements

So does each form of a statement.
-/

/-- An assignment or a call. -/
theorem turns_simple : Gives n (simple inner) (Shallow (k + 4)) := by
  refine leads_then passes_position fun start => leads_bind (turns_unary hi) fun target ht => ?_
  have hdiscard : (Node.discard start target).Shallow (k + 4) :=
    shallow_of_parts rfl (by simpa [Node.parts] using ht) (Nat.lt_succ_self (k + 3))
  refine leads_then passes_kind fun _ => ?_
  split
  · split
    · refine leads_then passes_next fun _ => leads_bind hi.expression fun value hv =>
        keeps_pure ?_
      refine shallow_of_parts rfl ?_ (Nat.lt_succ_self (k + 3))
      simpa [Node.parts] using And.intro ht (hv.mono (Nat.le_add_right k 3))
    · exact leads_fail_bind rfl
  · split
    iterate 2 exact keeps_pure hdiscard
    · exact leads_unexpected

/-- A name with its value. -/
theorem turns_binding :
    Gives n (binding inner) fun binding => ∀ value ∈ binding.value, value.Shallow k := by
  refine leads_bind keeps_eatName fun token _ => leads_then (passes_skip _) fun found => ?_
  exact keeps_optional hi.expression fun value hv => keeps_pure hv

omit hi in
/-- Values of names. -/
theorem shallow_values {bindings : List (Binding Node)}
    (h : ∀ binding ∈ bindings, ∀ value ∈ binding.value, value.Shallow k) :
    ∀ part ∈ bindings.flatMap (·.value.toList), part.Shallow k := by
  simpa using fun part binding hmem hpart => h binding hmem part hpart

/-- A declaration. -/
theorem turns_declaration : Gives n (declaration inner) (Shallow (k + 1)) := by
  refine leads_then (passes_eat _) fun _ => ?_
  refine leads_bind (keeps_separated (turns_binding hi)) fun bindings hb => keeps_pure ?_
  exact shallow_of_parts rfl (shallow_values hb.2) (Nat.lt_succ_self k)

/-- A block. -/
theorem turns_block : Gives n (block inner) (Shallow (k + 1)) :=
  leads_then (passes_eat _) fun _ => leads_bind (keeps_manyUntil hi.statement) fun _ hb =>
    leads_then (passes_eat _) fun _ => keeps_pure (shallow_of_parts rfl hb (Nat.lt_succ_self k))

/-- A condition. -/
theorem turns_ifElse : Gives n (ifElse inner) (Shallow (k + 1)) := by
  refine leads_then (passes_eat _) fun _ => leads_bind hi.expression fun condition hc => ?_
  refine leads_then (passes_skip _) fun _ => leads_bind hi.statement fun thenBody ht => ?_
  refine leads_then (passes_skip _) fun found => ?_
  refine keeps_optional hi.statement fun elseBody he => keeps_pure ?_
  refine shallow_of_parts rfl ?_ (Nat.lt_succ_self k)
  simpa [Node.parts] using And.intro hc ⟨ht, he⟩

/-- A loop with a test. -/
theorem turns_whileDo : Gives n (whileDo inner) (Shallow (k + 1)) := by
  refine leads_then (passes_eat _) fun _ => leads_bind hi.expression fun condition hc => ?_
  refine leads_then (passes_skip _) fun _ => leads_bind (gives_inLoop hi.statement) fun body hb => ?_
  refine keeps_pure (shallow_of_parts rfl ?_ (Nat.lt_succ_self k))
  simpa [Node.parts] using And.intro hc hb

/-- A loop with its test last. -/
theorem turns_doUntil : Gives n (doUntil inner) (Shallow (k + 1)) := by
  refine leads_then (passes_eat _) fun _ => leads_bind (gives_inLoop hi.statement) fun body hb => ?_
  refine leads_then (passes_eat _) fun _ => leads_bind hi.expression fun condition hc => ?_
  refine leads_then (passes_skip _) fun _ => ?_
  refine keeps_pure (shallow_of_parts rfl ?_ (Nat.lt_succ_self k))
  simpa [Node.parts] using And.intro hb hc

/-- A loop with a count. -/
theorem turns_repeatTimes : Gives n (repeatTimes inner) (Shallow (k + 1)) := by
  refine leads_then (passes_eat _) fun _ => leads_bind hi.expression fun count hc => ?_
  refine leads_bind (gives_inLoop hi.statement) fun body hb => ?_
  refine keeps_pure (shallow_of_parts rfl ?_ (Nat.lt_succ_self k))
  simpa [Node.parts] using And.intro hc hb

/-- The clauses of a loop are read at the level of nesting of the loop. -/
theorem turns_forLoop : Gives n (forLoop inner) (Shallow (k + 5)) := by
  refine leads_then (passes_eat _) fun token => leads_then (passes_eat _) fun _ => ?_
  have hclause : Gives n (do if ← check .kwVar then declaration inner else simple inner)
      (Shallow (k + 4)) := by
    refine leads_then (passes_check _) fun found => ?_
    split
    · exact (turns_declaration hi).imp (fun _ hv => hv.mono (by omega))
    · exact turns_simple hi
  refine leads_bind (keeps_listUntil hclause) fun init hinit => leads_then (passes_eat _) fun _ => ?_
  have hrest : ∀ condition : Option Node, (∀ test ∈ condition, test.Shallow k) → Gives n (do
      let _ ← eat .semicolon
      let step ← listUntil .rightParen (simple inner)
      let _ ← eat .rightParen
      return .forLoop token.position init condition step (← inLoop inner.statement))
      (Shallow (k + 5)) := by
    intro condition hc
    refine leads_then (passes_eat _) fun _ => ?_
    refine leads_bind (keeps_listUntil (turns_simple hi)) fun step hs => ?_
    refine leads_then (passes_eat _) fun _ => leads_bind (gives_inLoop hi.statement) fun body hb => ?_
    refine keeps_pure (shallow_of_parts rfl ?_ (Nat.lt_succ_self (k + 4)))
    have hk : k ≤ k + 4 := Nat.le_add_right k 4
    simp only [Node.parts, List.forall_mem_append, Option.mem_toList, List.forall_mem_singleton]
    exact ⟨⟨⟨hinit, fun test hmem => (hc test hmem).mono hk⟩, hs⟩, hb.mono hk⟩
  refine leads_then (passes_check _) fun found => ?_
  split
  · exact leads_bind keeps_none hrest
  · exact leads_bind (keeps_some hi.expression) hrest

/-- A switch. -/
theorem turns_switch : Gives n (switch inner) (Shallow (k + 1)) := by
  refine leads_then (passes_eat _) fun _ => leads_bind hi.expression fun subject hs => ?_
  have hcount {f : Parser → Parser} (hf : ∀ parser, (f parser).nesting = parser.nesting) :
      Gives n (modify f : Parse Unit) fun _ => True := leads_modify fun parser => (hf parser).trans
  refine leads_then (passes_eat _) fun _ => leads_then (hcount fun _ => rfl) fun _ => ?_
  refine leads_bind (keeps_manyUntil (keeps_switchCase hi.expression hi.statement)) fun cases hc => ?_
  refine leads_then (hcount fun _ => rfl) fun _ => leads_then (passes_eat _) fun _ => ?_
  refine keeps_pure (shallow_of_parts rfl ?_ (Nat.lt_succ_self k))
  refine List.forall_mem_cons.2 ⟨hs, List.forall_mem_flatMap.2 fun arm harm => ?_⟩
  exact List.forall_mem_append.2 ⟨by simpa using (hc arm harm).1, (hc arm harm).2⟩

/-- A loop over instances. -/
theorem turns_withEach : Gives n (withEach inner) (Shallow (k + 1)) := by
  refine leads_then (passes_eat _) fun token => leads_then (passes_skip _) fun found => ?_
  have hrest : ∀ targets : List Node, (∀ node ∈ targets, node.Shallow k) → Gives n (do
      return .withEach token.position targets (← inLoop inner.statement)) (Shallow (k + 1)) := by
    intro targets ht
    refine leads_bind (gives_inLoop hi.statement) fun body hb => keeps_pure ?_
    refine shallow_of_parts rfl ?_ (Nat.lt_succ_self k)
    exact List.forall_mem_append.2 ⟨ht, List.forall_mem_singleton.2 hb⟩
  split
  · exact leads_bind (keeps_separated hi.expression) fun targets ht =>
      leads_then (passes_eat _) fun _ => leads_bind (keeps_pure ht.2) hrest
  · exact leads_bind hi.expression fun target ht =>
      leads_bind (keeps_pure (List.forall_mem_singleton.2 ht)) hrest

omit hi in
/-- Global variables. -/
theorem turns_globals : Gives n globals (Shallow k) :=
  leads_then (passes_eat _) fun _ => leads_bind (keeps_separated keeps_eatName) fun _ _ =>
    leads_then (passes_skip _) fun _ => keeps_pure (shallow_leaf rfl rfl)

/-- An enumeration. -/
theorem turns_enumeration : Gives n (enumeration inner) (Shallow (k + 1)) := by
  refine leads_then (passes_eat _) fun _ => leads_bind keeps_eatName fun name _ => ?_
  refine leads_then (passes_eat _) fun _ => ?_
  refine leads_bind (keeps_listUntil (turns_binding hi)) fun members hm => ?_
  refine leads_then (passes_eat _) fun _ => leads_then (passes_skip _) fun _ => keeps_pure ?_
  exact shallow_of_parts rfl (shallow_values hm) (Nat.lt_succ_self k)

/-- A return. -/
theorem turns_returning : Gives n (returning inner) (Shallow (k + 1)) := by
  have hrest : ∀ (start : Position) (value : Option Node), (∀ node ∈ value, node.Shallow k) →
      Gives n (do
        let _ ← skip .semicolon
        return .returning start value) (Shallow (k + 1)) := by
    intro start value hv
    refine leads_then (passes_skip _) fun _ => keeps_pure ?_
    exact shallow_of_parts rfl (by simpa [Node.parts] using hv) (Nat.lt_succ_self k)
  refine leads_then (passes_eat _) fun token => leads_then passes_kind fun _ => ?_
  split
  iterate 3 exact leads_bind keeps_none (hrest _)
  · exact leads_bind (keeps_some hi.expression) (hrest _)

/-- A statement. -/
theorem turns_statement : Gives n (statement inner) (Shallow (k + 15)) := by
  have hwiden : ∀ {x : Parse Node} {j : Nat}, Gives n x (Shallow j) → j ≤ k + 15 →
      Gives n x (Shallow (k + 15)) := fun hx hj => hx.imp fun _ hv => hv.mono hj
  have hleaf : ∀ {x : Parse Token} {node : Node}, Gives n x (fun _ => True) → node.parts = [] →
      node.leading? = none → Gives n (do
        let _ ← x
        let _ ← skip .semicolon
        return node) (Shallow (k + 15)) := fun hx hparts hnone =>
    leads_then hx fun _ => leads_then (passes_skip _) fun _ => keeps_pure (shallow_leaf hparts hnone)
  have hended : ∀ {x : Parse Node} {j : Nat}, Gives n x (Shallow j) → j ≤ k + 15 → Gives n (do
      let result ← x
      let _ ← skip .semicolon
      return result) (Shallow (k + 15)) := fun hx hj =>
    leads_bind (hwiden hx hj) fun _ hv => leads_then (passes_skip _) fun _ => keeps_pure hv
  refine leads_then passes_position fun start => leads_then passes_kind fun _ => ?_
  split
  · exact leads_then passes_next fun _ => keeps_pure (shallow_leaf rfl rfl)
  · exact hwiden (turns_block hi) (by omega)
  · exact hwiden (turns_ifElse hi) (by omega)
  · exact hwiden (turns_whileDo hi) (by omega)
  · exact hwiden (turns_doUntil hi) (by omega)
  · exact hwiden (turns_repeatTimes hi) (by omega)
  · exact hwiden (turns_forLoop hi) (by omega)
  · exact hwiden (turns_switch hi) (by omega)
  · exact hwiden (turns_withEach hi) (by omega)
  · exact hended (turns_declaration hi) (by omega)
  · exact turns_globals
  · exact hwiden (turns_enumeration hi) (by omega)
  · exact hwiden (turns_returning hi) (by omega)
  · exact hleaf passes_next rfl rfl
  iterate 2
    refine leads_get_bind fun parser hp => ?_
    dsimp only
    split
    · exact leads_fail_bind rfl parser hp
    · exact hleaf passes_next rfl rfl parser hp
  · exact leads_fail rfl
  · exact hended (turns_simple hi) (by omega)

omit hi in
/-- What is read so deep in nested code has fifteen turns at most for each level that is left. -/
theorem shallowInner_grammar : ∀ levels n, ShallowInner n (15 * (maxNesting - n)) (grammar levels)
  | 0, _ => ⟨leads_fail rfl, leads_fail rfl, leads_fail rfl⟩
  | levels + 1, n => by
    have hi := shallowInner_grammar levels (n + 1)
    -- Only if there is a level left is anything read.
    have hlimit : n < maxNesting → 15 * (maxNesting - (n + 1)) + 15 = 15 * (maxNesting - n) := by
      omega
    refine ⟨gives_nested fun hn => ?_, gives_nested fun hn => ?_, gives_nested fun hn => ?_⟩
    · rw [← hlimit hn]
      exact turns_statement hi
    · rw [← hlimit hn]
      exact turns_conditional hi
    · exact (turns_unary hi).imp fun _ hv => hv.mono (by omega)

end Parse

/-! ### Chains -/

/-- A sum with so many signs. -/
def Node.sum : Nat → Node
  | 0 => .ident default "a" .unresolved
  | count + 1 => Operator.node default (sum count) (.ident default "a" .unresolved) (.binary .add)

/-- The tokens of a sum. -/
def sumTokens : Nat → List Token
  | 0 => [.name "a"]
  | count + 1 => sumTokens count ++ [.ofKind .plus, .name "a"]

namespace Node

/-- A long sum is written. -/
theorem written_sum {level : Nat} (hlevel : level ≤ (Operator.binary .add).level) :
    ∀ count, (sum count).Written level (sumTokens count)
  | 0 => @Written.name _ default (.name "a") rfl
  | count + 1 => by
    refine .operation hlevel ?_ (written_sum (Nat.le_refl _) count)
      (@Written.name _ default (.name "a") rfl)
    exact List.mem_singleton.2 rfl

/-- It is a sum. -/
theorem level_sum (count : Nat) : (Operator.binary .add).level ≤ (sum count).level := by
  cases count with
  | zero => decide
  | succ count => exact Nat.le_refl _

/-- It is not deep. -/
theorem depth_sum (count : Nat) : (sum count).depth = 0 := by
  induction count with
  | zero => rfl
  | succ count ih =>
    rw [sum, depth_operator, depthAt_of_le (level_sum count), ih]
    rfl

/-- There is a way down to the left end of a sum. -/
theorem descent_of_sum {count : Nat} {node : Node} (h : node.unplaced = (sum count).unplaced) :
    node.Descent 0 count := by
  induction count generalizing node with
  | zero => exact .stay
  | succ count ih =>
    cases node with
    | binary position operator lhs rhs =>
      simp only [sum, Operator.node, unplaced, binary.injEq] at h
      exact .along rfl (ih h.2.2.1)
    | _ => simp [sum, Operator.node, unplaced] at h

end Node

namespace Script

/-- It starts with a name. -/
theorem head_sum {count : Nat} {p : Parser} {rest : List Token}
    (h : p.ahead = sumTokens count ++ rest) : ∃ others, p.ahead = .name "a" :: others := by
  induction count generalizing rest with
  | zero => exact ⟨rest, h⟩
  | succ count ih =>
    rw [sumTokens, List.append_assoc] at h
    exact ih h

/-- A script that ends with a sum is read, however long the sum is. -/
theorem ofTokens_sum (count : Nat) : ∃ node, node.unplaced = (Node.sum count).unplaced ∧
    Script.ofTokens (.ofKind .kwReturn :: (sumTokens count ++ [.ofKind .endOfFile])) =
      .ok ⟨[.returning default (some node)]⟩ := by
  let p : Parser := .ofTokens (.ofKind .kwReturn :: (sumTokens count ++ [.ofKind .endOfFile]))
  let entered : Parser := { p with nesting := 1 }
  have hahead : entered.ahead = .ofKind .kwReturn :: (sumTokens count ++ [.ofKind .endOfFile]) := rfl
  have hinside := Parser.ahead_advance_one hahead
  obtain ⟨node, hnode, hreads⟩ := (Node.written_sum (Nat.zero_le _) count).rereads.item
    (n := 1) (g := 127) (by rw [Node.depth_sum]; decide) rfl (entered.advance 1)
    (.ofKind .endOfFile) [] rfl hinside rfl
  have hreturning : Parse.Reads entered (Parse.returning (Parse.grammar maxNesting))
      (1 + (sumTokens count).length) (.returning default (some node)) := by
    obtain ⟨others, hothers⟩ := head_sum hinside
    refine (Parse.reads_eat hahead rfl (by decide)).bind (Parse.reads_kind_bind.2 ?_)
    rw [Parser.head_of_ahead hothers]
    refine Parse.Reads.bind (n := 0) (Parse.reads_some hreads) ?_
    exact Parse.Reads.bind (n := 0) (Parse.reads_skip_none (Parser.ahead_advance hinside)
      (by decide)) Parse.reads_pure
  have hstatement : Parse.Reads entered (Parse.statement (Parse.grammar maxNesting))
      (1 + (sumTokens count).length) (.returning default (some node)) := by
    refine Parse.reads_position_bind.2 (Parse.reads_kind_bind.2 ?_)
    rw [Parser.head_of_ahead hahead]
    exact hreturning
  refine ⟨node, hnode, ofTokens_of_reads (by decide) rfl ?_⟩
  rw [List.length_cons, Nat.add_comm]
  exact Parse.reads_nested (by decide : 0 < maxNesting) hstatement

/-- The way to the left end of a sum that is returned. -/
theorem descent_returning_sum {count : Nat} {node : Node}
    (h : node.unplaced = (Node.sum count).unplaced) :
    (Node.returning default (some node)).Descent 1 (count + 1) :=
  .turn (List.mem_singleton.2 rfl) (Node.descent_of_sum h)

/-- However long the chains in a script are, its trees have at most so many turns. -/
theorem turns_le_of_ofTokens {tokens : List Token} {script : Script}
    (h : Script.ofTokens tokens = .ok script) {statement : Node} (hmem : statement ∈ script.body)
    {turns steps : Nat} (hway : statement.Descent turns steps) : turns ≤ 15 * maxNesting := by
  have hscript : Parse.Gives 0 Parser.script fun script =>
      ∀ statement ∈ script.body, statement.Shallow (15 * maxNesting) :=
    Parse.leads_bind (Parse.keeps_manyUntil (Parse.shallowInner_grammar _ 0).statement)
      fun _ hb => Parse.keeps_pure hb
  rcases hrun : Parser.script.run.run (.ofTokens tokens) with ⟨result, parser⟩
  change (Parser.script.run.run (.ofTokens tokens)).1 = .ok script at h
  rw [hrun] at h
  obtain rfl : result = .ok script := h
  exact ((hscript (.ofTokens tokens) rfl).gives _ _ hrun).1 statement hmem turns steps hway

/-- A sum with two thousand signs is one turn away. -/
theorem turns_le_of_ofTokens_sum : ∃ script statement,
    Script.ofTokens (.ofKind .kwReturn :: (sumTokens 2000 ++ [.ofKind .endOfFile])) = .ok script ∧
      statement ∈ script.body ∧ statement.Descent 1 2001 ∧ 1 ≤ 15 * maxNesting := by
  obtain ⟨node, hnode, hscript⟩ := ofTokens_sum 2000
  have hmem : Node.returning default (some node) ∈ [Node.returning default (some node)] :=
    List.mem_singleton.2 rfl
  have hway := descent_returning_sum hnode
  exact ⟨_, _, hscript, hmem, hway, turns_le_of_ofTokens hscript hmem hway⟩

/-- No number of steps is enough for all trees that are read. -/
theorem steps_unbounded : ¬ ∃ limit, ∀ tokens script, Script.ofTokens tokens = .ok script →
    ∀ statement ∈ script.body, ∀ turns steps, statement.Descent turns steps → steps ≤ limit := by
  rintro ⟨limit, hlimit⟩
  obtain ⟨node, hnode, hscript⟩ := ofTokens_sum limit
  have hle := hlimit _ _ hscript _ (List.mem_singleton.2 rfl) _ _ (descent_returning_sum hnode)
  omega

end Script

end Gml
