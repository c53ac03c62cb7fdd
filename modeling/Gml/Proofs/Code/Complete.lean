import Gml.Proofs.Code.Patching
import Gml.Proofs.Tree.Shape

/-!
# Every branch gets its target

Code for any tree whatsoever is written with all branches under control: this is `adds_expression`
for expressions and `adds_statement` for statements, each by one induction over the tree. The numbers
of instructions are those of `Node.expressionSize` and `Node.statementSize`.

Where writing code fails, a part of the tree is out of place or something is too large. The first
cannot be if the tree is settled and enclosed; so much is carried along as the condition `ok`.
-/

namespace Gml

/-- A place is as the node says that lives there. -/
structure Place.Suits (place : Place) (node : Node) : Prop where
  /-- To load is no branch. -/
  load : place.load.jump? = none
  /-- Neither is to store. -/
  store : place.store.jump? = none
  /-- The address is as wide as that of the node. -/
  width : place.width = node.addressWidth
  /-- Only a name needs no address. -/
  named : place.isNamed = node.isName

namespace Promise

variable {ok : Promise} {node : Node} {inLoop inside : Bool}

/-- So much is promised of an expression. -/
abbrev Value (ok : Promise) (node : Node) : Prop :=
  ok.holds → node.IsValue ok.place

/-- So much is promised of a statement. -/
abbrev Action (ok : Promise) (inLoop inside : Bool) (node : Node) : Prop :=
  ok.holds → node.IsAction ok.place inLoop inside

/-- A promise about an expression is one about its place. -/
theorem Value.position (h : ok.Value node) : ok.At node.position :=
  fun hyes => (h hyes).position

/-- So is one about a statement. -/
theorem Action.position (h : ok.Action inLoop inside node) : ok.At node.position :=
  fun hyes => (h hyes).position

end Promise

namespace Generate

open Generator

variable {ok : Promise} {kinds : List FrameKind} {R : List Nat} {g : Generator} {n m : Nat}

/-! ### Places -/

/-- The place of a name. -/
theorem runs_namedPlace {name : String} {resolution : Resolution} {p : Position}
    (hok : ok.holds → resolution.isVariable = true) (h : g.InOrder kinds R) :
    Runs ok 0 (namedPlace name resolution p) g fun place g' =>
      g'.InOrder kinds R ∧ place.Suits (.ident p name resolution) := by
  cases resolution with
  | localVar =>
    exact Runs.bind (adds_slot name g R h) fun id g₁ _ h₁ => runs_pure ⟨h₁, rfl, rfl, rfl, rfl⟩
  | globalVar | builtinVariable | argumentArray | dynamic =>
    exact Runs.bind (adds_string name g R h) fun id g₁ _ h₁ => runs_pure ⟨h₁, rfl, rfl, rfl, rfl⟩
  | argument index => exact runs_pure ⟨h, rfl, rfl, rfl, rfl⟩
  | unresolved | builtinFunction | userSymbol | intrinsic =>
    exact runs_fail rfl fun hyes => nomatch hok hyes

/-- The place of an element. -/
theorem runs_elementPlace {p q : Position} {container : Node} {accessor : Accessor}
    {indices : List Node} {pushContainer pushIndices : Generate Unit}
    (hp : ok.At p)
    (hcontainer : Adds ok kinds n pushContainer) (hindices : Adds ok kinds m pushIndices)
    (h : g.InOrder kinds R) :
    Runs ok ((if isArgument container accessor indices then 0 else n) + m)
      (elementPlace p container accessor indices pushContainer pushIndices) g fun place g' =>
        g'.InOrder kinds R ∧ place.Suits (.index q container accessor indices) := by
  unfold elementPlace
  by_cases hargument : isArgument container accessor indices = true
  · rw [if_pos hargument, if_pos hargument]
    refine Runs.of_eq (Runs.bind (hindices g R h) fun _ g₁ _ h₁ => runs_pure ⟨h₁, rfl, rfl, ?_, rfl⟩)
      (by omega)
    rw [Node.addressWidth, if_pos hargument]
    rfl
  · rw [if_neg hargument, if_neg hargument]
    refine Runs.of_eq (Runs.bind (hcontainer g R h) fun _ g₁ _ h₁ =>
      Runs.bind (hindices g₁ R h₁) fun _ g₂ _ h₂ =>
        Runs.bind (runs_byteCount hp h₂) fun dims g₃ _ h₃ =>
          runs_pure ⟨h₃.2, rfl, rfl, ?_, rfl⟩) (by omega)
    rw [h₃.1, Node.addressWidth, if_neg hargument]
    rfl

/-- A value is loaded, and its address kept. -/
theorem adds_loadKeeping {place : Place} {node : Node} (hplace : place.Suits node) :
    Adds ok kinds node.keepingSize (loadKeeping place) := by
  intro g R h
  unfold loadKeeping Node.keepingSize
  rw [hplace.width]
  by_cases hwidth : node.addressWidth ≠ 0
  · rw [if_pos hwidth, if_pos hwidth]
    exact Runs.bind (adds_write _ rfl g R h) fun _ g₁ _ h₁ => adds_write _ hplace.load g₁ R h₁
  · rw [if_neg hwidth, if_neg hwidth]
    exact adds_write _ hplace.load g R h

/-- One is added or taken. -/
theorem adds_stepByOne (step : Step) : Adds ok kinds 2 (stepByOne step) := by
  intro g R h
  have hstep : step.instruction.jump? = none := by cases step <;> rfl
  exact Runs.bind (adds_write _ rfl g R h) fun _ g₁ _ h₁ => adds_write _ hstep g₁ R h₁

/-- A place is stepped. -/
theorem adds_stepped {place : Place} {node : Node} (hplace : place.Suits node) (step : Step)
    (inFront : Bool) : Adds ok kinds node.steppingSize (stepped place step inFront) := by
  intro g R h
  have hnamed := hplace.named
  have hstore := hplace.store
  refine Runs.bind (adds_loadKeeping hplace g R h) fun _ g₁ _ h₁ => ?_
  rcases place with ⟨load, store⟩ | name | ⟨accessor, dims⟩ | _
  case named =>
    rw [← hnamed]
    cases inFront with
    | true =>
      exact Runs.bind (adds_stepByOne step g₁ R h₁) fun _ g₂ _ h₂ =>
        Runs.bind (adds_write _ rfl g₂ R h₂) fun _ g₃ _ h₃ => adds_write _ hstore g₃ R h₃
    | false =>
      exact Runs.bind (adds_write _ rfl g₁ R h₁) fun _ g₂ _ h₂ =>
        Runs.bind (adds_stepByOne step g₂ R h₂) fun _ g₃ _ h₃ => adds_write _ hstore g₃ R h₃
  case field | element | argument =>
    rw [← hnamed]
    cases inFront with
    | true =>
      exact Runs.bind (adds_temporary g₁ R h₁) fun _ g₂ _ h₂ =>
        Runs.bind (adds_stepByOne step g₂ R h₂) fun _ g₃ _ h₃ =>
          Runs.bind (adds_write _ rfl g₃ R h₃) fun _ g₄ _ h₄ =>
            Runs.bind (adds_write _ rfl g₄ R h₄) fun _ g₅ _ h₅ =>
              Runs.bind (adds_write _ hstore g₅ R h₅) fun _ g₆ _ h₆ => adds_write _ rfl g₆ R h₆
    | false =>
      exact Runs.bind (adds_temporary g₁ R h₁) fun _ g₂ _ h₂ =>
        Runs.bind (adds_write _ rfl g₂ R h₂) fun _ g₃ _ h₃ =>
          Runs.bind (adds_write _ rfl g₃ R h₃) fun _ g₄ _ h₄ =>
            Runs.bind (adds_stepByOne step g₄ R h₄) fun _ g₅ _ h₅ =>
              Runs.bind (adds_write _ hstore g₅ R h₅) fun _ g₆ _ h₆ => adds_write _ rfl g₆ R h₆

/-! ### Branches inside of expressions -/

/-- The right side of a connective may be passed. -/
theorem adds_shortCircuit {test : Instruction} {decided : Int32} {p : Position}
    {lhs rhs : Generate Unit} (hp : ok.At p) (htest : test.jump? = some .pending)
    (hlhs : Adds ok kinds n lhs) (hrhs : Adds ok kinds m rhs) :
    Adds ok kinds (n + m + 5) (shortCircuit test decided p lhs rhs) := by
  intro g R h
  refine Runs.of_eq (Runs.bind (hlhs g R h) fun _ g₁ _ h₁ =>
    Runs.bind (runs_emit _ htest h₁) fun short g₂ _ h₂ =>
    Runs.bind (hrhs g₂ _ h₂.2) fun _ g₃ _ h₃ =>
    Runs.bind (adds_write _ rfl g₃ _ h₃) fun _ g₄ _ h₄ =>
    Runs.bind (adds_write _ rfl g₄ _ h₄) fun _ g₅ _ h₅ =>
    Runs.bind (runs_emit _ rfl h₅) fun done g₆ _ h₆ =>
    Runs.bind (runs_patchHere hp (h₆.2.perm (.swap _ _ _))) fun _ g₇ _ h₇ =>
    Runs.bind (adds_write _ rfl g₇ _ h₇) fun _ g₈ _ h₈ => runs_patchHere hp h₈) (by omega)

end Generate

namespace Node

open Generate Generator

/-! ### Expressions -/

variable {ok : Promise} {kinds : List FrameKind}

/-- A name as a value. -/
theorem adds_ident {p : Position} {name : String} {resolution : Resolution}
    (hok : ok.holds → resolution ≠ .unresolved) :
    Adds ok kinds 1 (Node.ident p name resolution).expression := by
  intro g R h
  cases resolution
  case intrinsic value => exact adds_write _ rfl g R h
  case userSymbol reference => exact adds_write _ rfl g R h
  case builtinFunction =>
    exact Runs.bind (adds_string name g R h) fun id g₁ _ h₁ => adds_write _ rfl g₁ R h₁
  case unresolved => exact runs_fail rfl fun hyes => absurd rfl (hok hyes)
  all_goals
    exact Runs.bind (runs_namedPlace (fun _ => rfl) h) fun place g₁ _ h₁ =>
      adds_write _ h₁.2.load g₁ R h₁.1

/-- A statement in place of an expression. -/
theorem adds_misplaced {node : Node} {p : Position} (hok : ok.Value node)
    (hstatement : node.isExpression = false) :
    Adds ok kinds 0 (fail (.statementAsExpression node) p : Generate Unit) := by
  refine fun g R h => runs_fail rfl fun hyes => ?_
  have := (hok hyes).expression
  rw [hstatement] at this
  cases this

mutual

/-- Code for an expression keeps the branches in order. -/
theorem adds_expression : ∀ node : Node,
    ok.Value node → Adds ok kinds node.expressionSize node.expression
  | .int p value, _ => by
    intro g R h
    rw [expression_int]
    split
    · exact adds_write _ rfl g R h
    · exact Runs.bind (adds_constant _ g R h) fun id g₁ _ h₁ => adds_write _ rfl g₁ R h₁
  | .real p value, _ => fun g R h =>
    Runs.bind (adds_constant _ g R h) fun id g₁ _ h₁ => adds_write _ rfl g₁ R h₁
  | .string p value verbatim, _ => fun g R h =>
    Runs.bind (adds_string _ g R h) fun id g₁ _ h₁ => adds_write _ rfl g₁ R h₁
  | .ident p name resolution, hok => adds_ident fun hyes => of_decide_eq_true (hok hyes).every.1
  | .binary p operator lhs rhs, hok => fun g R h => Runs.of_eq
    (Runs.bind (adds_expression lhs (fun hyes => (hok hyes).binary.1) g R h) fun _ g₁ _ h₁ =>
    Runs.bind (adds_expression rhs (fun hyes => (hok hyes).binary.2) g₁ R h₁) fun _ g₂ _ h₂ =>
    adds_write _ (jump?_binary operator) g₂ R h₂) (Nat.add_assoc _ _ _).symm
  | .logical p .and lhs rhs, hok | .logical p .or lhs rhs, hok =>
    adds_shortCircuit hok.position rfl (adds_expression lhs fun hyes => (hok hyes).logical.1)
      (adds_expression rhs fun hyes => (hok hyes).logical.2)
  | .logical p .xor lhs rhs, hok => fun g R h => Runs.of_eq
    (Runs.bind (adds_expression lhs (fun hyes => (hok hyes).logical.1) g R h) fun _ g₁ _ h₁ =>
    Runs.bind (adds_write _ rfl g₁ R h₁) fun _ g₂ _ h₂ =>
    Runs.bind (adds_expression rhs (fun hyes => (hok hyes).logical.2) g₂ R h₂) fun _ g₃ _ h₃ =>
    Runs.bind (adds_write _ rfl g₃ R h₃) fun _ g₄ _ h₄ => adds_write _ rfl g₄ R h₄)
    (by simp only [expressionSize]; omega)
  | .unary p operator operand, hok => fun g R h =>
    Runs.bind (adds_expression operand (fun hyes => (hok hyes).unary) g R h) fun _ g₁ _ h₁ =>
    adds_write _ (jump?_unary operator) g₁ R h₁
  | .conditional p condition thenValue elseValue, hok => fun g R h => Runs.of_eq
    (Runs.bind (adds_expression condition (fun hyes => (hok hyes).conditional.1) g R h)
      fun _ g₁ _ h₁ =>
    Runs.bind (runs_emit _ rfl h₁) fun skipThen g₂ _ h₂ =>
    Runs.bind (adds_expression thenValue (fun hyes => (hok hyes).conditional.2.1) g₂ _ h₂.2)
      fun _ g₃ _ h₃ =>
    Runs.bind (runs_emit _ rfl h₃) fun skipElse g₄ _ h₄ =>
    Runs.bind (runs_patchHere hok.position (h₄.2.perm (.swap _ _ _))) fun _ g₅ _ h₅ =>
    Runs.bind (adds_expression elseValue (fun hyes => (hok hyes).conditional.2.2) g₅ _ h₅)
      fun _ g₆ _ h₆ => runs_patchHere hok.position h₆)
    (by simp only [expressionSize]; omega)
  | .call p callee arguments, hok => by
    intro g R h
    refine Runs.of_eq (Runs.bind (runs_byteCount hok.position h) fun argc g₁ _ h₁ =>
      Runs.bind (m := (if callee.isCalledByName then 0 else callee.expressionSize) + 1)
        (adds_expressionsLastFirst arguments (fun hyes => (hok hyes).call.2) g₁ R h₁.2)
        fun _ g₂ _ h₂ => ?_) (by simp only [expressionSize]; omega)
    -- The number is kept apart, as the callee decides on it in another way than on the code.
    generalize hn : (if callee.isCalledByName then 0 else callee.expressionSize) = n
    split
    · subst hn
      exact Runs.bind (adds_string _ g₂ R h₂) fun id g₃ _ h₃ => adds_write _ rfl g₃ R h₃
    · subst hn
      exact Runs.of_eq (adds_write _ rfl g₂ R h₂) (Nat.zero_add 1).symm
    next hne hne' =>
      have hvalue : callee.isCalledByName = false := by
        unfold isCalledByName
        split
        · exact (hne _ _ rfl).elim
        · exact (hne' _ _ _ rfl).elim
        · rfl
      rw [hvalue] at hn
      subst hn
      exact Runs.bind (adds_expression callee (fun hyes => (hok hyes).call.1) g₂ R h₂)
        fun _ g₃ _ h₃ => adds_write _ rfl g₃ R h₃
  | .index p container accessor indices, hok => fun g R h =>
    Runs.bind (runs_elementPlace (q := p) hok.position
      (adds_expression container fun hyes => (hok hyes).index.1)
      (adds_expressions indices fun hyes => (hok hyes).index.2) h)
      fun place g₁ _ h₁ => adds_write _ h₁.2.load g₁ R h₁.1
  | .member p instanceOf field, hok => fun g R h =>
    Runs.bind (adds_expression instanceOf (fun hyes => (hok hyes).member) g R h) fun _ g₁ _ h₁ =>
    Runs.bind (adds_string field g₁ R h₁) fun id g₂ _ h₂ => adds_write _ rfl g₂ R h₂
  | .update p target step inFront, hok => fun g R h =>
    Runs.bind (runs_address target (fun hyes => (hok hyes).update) h) fun place g₁ _ h₁ =>
    adds_stepped h₁.2 step inFront g₁ R h₁.1
  | .struct p fields, hok => fun g R h =>
    Runs.bind (adds_fields fields (fun hyes => (hok hyes).struct) g R h) fun _ g₁ _ h₁ =>
    Runs.bind (adds_wordCount hok.position g₁ R h₁) fun count g₂ _ h₂ => adds_write _ rfl g₂ R h₂
  | .array p elements, hok => fun g R h =>
    Runs.bind (adds_expressions elements (fun hyes => (hok hyes).array) g R h) fun _ g₁ _ h₁ =>
    Runs.bind (adds_wordCount hok.position g₁ R h₁) fun count g₂ _ h₂ => adds_write _ rfl g₂ R h₂
  | .assign .., hok | .block .., hok | .ifElse .., hok | .whileDo .., hok | .doUntil .., hok
  | .repeatTimes .., hok | .forLoop .., hok | .switch .., hok | .withEach .., hok
  | .declare .., hok | .declareGlobal .., hok | .declareEnum .., hok | .returning .., hok
  | .exit .., hok | .breaking .., hok | .continuing .., hok | .discard .., hok =>
    adds_misplaced hok rfl
termination_by structural node => node

/-- So does code for an address. -/
theorem runs_address {g : Generator} {R : List Nat} :
    ∀ node : Node, (ok.holds → node.isStorable = true ∧ node.Every (In Settled ok.place)) →
    g.InOrder kinds R → Runs ok node.addressSize node.address g fun place g' =>
      g'.InOrder kinds R ∧ place.Suits node
  | .ident .., hok, h => runs_namedPlace (fun hyes => (hok hyes).1) h
  | .member _ instanceOf field, hok, h =>
    Runs.bind (adds_expression instanceOf (fun hyes => ⟨(hok hyes).2.1.1, (hok hyes).2.2⟩) g R h)
      fun _ g₁ _ h₁ =>
    Runs.bind (adds_string field g₁ R h₁) fun _ _ _ h₂ => runs_pure ⟨h₂, rfl, rfl, rfl, rfl⟩
  | .index _ container _ indices, hok, h =>
    runs_elementPlace (fun hyes => (hok hyes).2.1.2 _ List.mem_cons_self)
      (adds_expression container fun hyes => ⟨(hok hyes).2.1.1.1, (hok hyes).2.2.1⟩)
      (adds_expressions indices fun hyes => isValue_all (hok hyes).2.1.1.2 (hok hyes).2.2.2) h
  | .int .., hok, _ | .real .., hok, _ | .string .., hok, _ | .binary .., hok, _
  | .logical .., hok, _ | .unary .., hok, _ | .conditional .., hok, _ | .call .., hok, _
  | .update .., hok, _ | .struct .., hok, _ | .array .., hok, _ | .assign .., hok, _
  | .block .., hok, _ | .ifElse .., hok, _ | .whileDo .., hok, _ | .doUntil .., hok, _
  | .repeatTimes .., hok, _ | .forLoop .., hok, _ | .switch .., hok, _ | .withEach .., hok, _
  | .declare .., hok, _ | .declareGlobal .., hok, _ | .declareEnum .., hok, _
  | .returning .., hok, _ | .exit .., hok, _ | .breaking .., hok, _ | .continuing .., hok, _
  | .discard .., hok, _ => runs_fail rfl fun hyes => absurd (hok hyes).1 Bool.false_ne_true
termination_by structural node => node

/-- So does code for several expressions. -/
theorem adds_expressions : ∀ nodes : List Node,
    (ok.holds → ∀ node ∈ nodes, node.IsValue ok.place) →
    Adds ok kinds (expressionsSize nodes) (expressions nodes)
  | [], _ => fun _ _ h => runs_pure h
  | node :: rest, hok => fun g R h =>
    Runs.bind (adds_expression node (fun hyes => hok hyes node List.mem_cons_self) g R h)
      fun _ g₁ _ h₁ =>
    adds_expressions rest (fun hyes other hmem => hok hyes other (List.mem_cons_of_mem _ hmem))
      g₁ R h₁
termination_by structural nodes => nodes

/-- So it does if the last comes first. -/
theorem adds_expressionsLastFirst : ∀ nodes : List Node,
    (ok.holds → ∀ node ∈ nodes, node.IsValue ok.place) →
    Adds ok kinds (expressionsSize nodes) (expressionsLastFirst nodes)
  | [], _ => fun _ _ h => runs_pure h
  | node :: rest, hok => fun g R h => Runs.of_eq
    (Runs.bind (adds_expressionsLastFirst rest
      (fun hyes other hmem => hok hyes other (List.mem_cons_of_mem _ hmem)) g R h) fun _ g₁ _ h₁ =>
    adds_expression node (fun hyes => hok hyes node List.mem_cons_self) g₁ R h₁)
    (Nat.add_comm _ _)
termination_by structural nodes => nodes

/-- So does code for the fields of a struct. -/
theorem adds_fields : ∀ fields : List (String × Node),
    (ok.holds → ∀ field ∈ fields, field.2.IsValue ok.place) →
    Adds ok kinds (fieldsSize fields) (fieldExpressions fields)
  | [], _ => fun _ _ h => runs_pure h
  | (key, value) :: rest, hok => fun g R h => Runs.of_eq
    (Runs.bind (adds_string key g R h) fun id g₁ _ h₁ =>
    Runs.bind (adds_write _ rfl g₁ R h₁) fun _ g₂ _ h₂ =>
    Runs.bind (adds_expression value (fun hyes => hok hyes (key, value) List.mem_cons_self) g₂ R h₂)
      fun _ g₃ _ h₃ =>
    adds_fields rest (fun hyes other hmem => hok hyes other (List.mem_cons_of_mem _ hmem)) g₃ R h₃)
    (by simp only [fieldsSize]; omega)
termination_by structural fields => fields

end

end Node

/-! ### Parts of statements -/

namespace Generate

open Generator Node

variable {ok : Promise} {kinds : List FrameKind} {R : List Nat} {g : Generator} {n m : Nat}
  {p : Position}

/-- A statement is marked in front. -/
theorem adds_started {body : Generate Unit} (hp : ok.At p) (h : Adds ok kinds n body) :
    Adds ok kinds n (started p body) := fun g R hg => Runs.of_eq
  (Runs.bind (adds_mark hp g R hg) fun _ g₁ _ h₁ => h g₁ R h₁) (Nat.zero_add n)

/-- Variables get their values. -/
theorem adds_declarations (bindings : List (Binding Node))
    (hok : ok.holds → ∀ binding ∈ bindings, ∀ value ∈ binding.value, value.IsValue ok.place) :
    Adds ok kinds (declarationsSize bindings) (declarations bindings) := by
  induction bindings with
  | nil => exact fun g R h => runs_pure h
  | cons binding rest ih =>
    intro g R h
    have hrest : Adds ok kinds (declarationsSize rest) (declarations rest) :=
      ih fun hyes other hmem => hok hyes other (List.mem_cons_of_mem _ hmem)
    rcases binding with ⟨name, _ | value, q⟩
    · exact Runs.bind (adds_slot name g R h) fun id g₁ _ h₁ => hrest g₁ R h₁
    · have hvalue : ok.Value value := fun hyes => hok hyes _ List.mem_cons_self value rfl
      exact Runs.of_eq (Runs.bind (adds_slot name g R h) fun id g₁ _ h₁ =>
        Runs.bind (adds_expression value hvalue g₁ R h₁) fun _ g₂ _ h₂ =>
        Runs.bind (adds_write _ rfl g₂ R h₂) fun _ g₃ _ h₃ => hrest g₃ R h₃)
        (by simp only [declarationsSize, clauseSize]; omega)

/-- After the labels are compared, a branch waits for each arm that has one. -/
theorem runs_labels (cases : List (Case Node))
    (hok : ok.holds → ∀ arm ∈ cases, ∀ label ∈ arm.label, label.IsValue ok.place)
    (h : g.InOrder kinds R) :
    Runs ok (labelsSize cases) (labels cases) g fun entries g' =>
      entries.map Option.isSome = cases.map (·.label.isSome) ∧
        g'.InOrder kinds (entries.filterMap id ++ R) := by
  induction cases generalizing g R with
  | nil => exact runs_pure ⟨rfl, h⟩
  | cons arm rest ih =>
    have hok' : ok.holds → ∀ arm ∈ rest, ∀ label ∈ arm.label, label.IsValue ok.place :=
      fun hyes other hmem => hok hyes other (List.mem_cons_of_mem _ hmem)
    rcases arm with ⟨_ | label, body, q⟩
    · exact Runs.of_eq (Runs.bind (ih hok' h) fun entries g₁ _ h₁ =>
        runs_pure ⟨congrArg (false :: ·) h₁.1, h₁.2⟩) (by simp only [labelsSize]; omega)
    · have hlabel : ok.Value label := fun hyes => hok hyes _ List.mem_cons_self label rfl
      exact Runs.of_eq (Runs.bind (adds_write _ rfl g R h) fun _ g₁ _ h₁ =>
        Runs.bind (adds_expression label hlabel g₁ R h₁) fun _ g₂ _ h₂ =>
        Runs.bind (adds_write _ rfl g₂ R h₂) fun _ g₃ _ h₃ =>
        Runs.bind (runs_emit _ rfl h₃) fun site g₄ _ h₄ =>
        Runs.bind (ih hok' h₄.2) fun entries g₅ _ h₅ =>
        runs_pure ⟨congrArg (true :: ·) h₅.1, h₅.2.perm List.perm_middle⟩)
        (by simp only [labelsSize]; omega)

/-- The body is written once for each target. -/
theorem adds_eachInstance {body : Generate Frame} (hp : ok.At p)
    (hbody : ∀ (g : Generator) (R : List Nat), g.InOrder kinds R →
      Runs ok n body g fun frame g' => g'.InOrder kinds (frame.sites ++ R))
    (targets : List Node) (hok : ok.holds → ∀ target ∈ targets, target.IsValue ok.place) :
    Adds ok kinds (expressionsSize targets + targets.length * (n + 2))
      (eachInstance p body targets) := by
  induction targets with
  | nil => exact fun g R h => Runs.of_eq (runs_pure h) (by simp [expressionsSize])
  | cons target rest ih =>
    intro g R h
    have hrest : Adds ok kinds _ (eachInstance p body rest) :=
      ih fun hyes other hmem => hok hyes other (List.mem_cons_of_mem _ hmem)
    exact Runs.of_eq
      (Runs.bind (adds_expression target (fun hyes => hok hyes _ List.mem_cons_self) g R h)
        fun _ g₁ _ h₁ =>
      Runs.bind (runs_emit _ rfl h₁) fun enter g₂ _ h₂ =>
      runs_here_bind <| Runs.bind (hbody g₂ _ h₂.2) fun frame g₃ e₃ h₃ =>
      runs_here_bind <| Runs.bind (runs_patchAll hp (Nat.le_refl _) (h₃.perm (frame.sites_perm _)))
        fun _ g₄ e₄ h₄ =>
      Runs.bind (runs_branchBack hp rfl (by omega) h₄) fun _ g₅ _ h₅ =>
      Runs.bind (runs_patchHere hp (h₅.perm List.perm_middle)) fun _ g₆ _ h₆ =>
      runs_here_bind <| Runs.bind (runs_patchAll hp (Nat.le_refl _) h₆) fun _ g₇ _ h₇ =>
      hrest g₇ R h₇)
      (by simp only [expressionsSize, List.length_cons, Nat.add_mul]; omega)

/-! ### Statements from their parts -/

variable {condition body : Node}

/-- An assignment. -/
theorem adds_assign {target value : Node} {operator : AssignOp}
    (hp : ok.At p) (hvalue : ok.Value value)
    (htarget : ok.holds → target.isStorable = true ∧ target.Every (In Settled ok.place)) :
    Adds ok kinds ((Node.assign p target operator value).statementSize kinds)
      (Node.assign p target operator value).statement := by
  refine adds_started hp fun g R h => ?_
  have hplain (g : Generator) (hg : g.InOrder kinds R) : Runs ok value.expressionSize
      value.expression g fun _ g' => g'.InOrder kinds R := adds_expression value hvalue g R hg
  unfold statementSize
  cases hop : operator.binary? with
  | none =>
    exact Runs.of_eq (Runs.bind (runs_address target htarget h) fun place g₁ _ h₁ =>
      Runs.bind (hplain g₁ h₁.1) fun _ g₂ _ h₂ => adds_write _ h₁.2.store g₂ R h₂)
      (by simp only [Option.isSome_none, Bool.false_eq_true, if_false]; omega)
  | some operator =>
    exact Runs.of_eq (Runs.bind (runs_address target htarget h) fun place g₁ _ h₁ =>
      Runs.bind (adds_loadKeeping h₁.2 g₁ R h₁.1) fun _ g₂ _ h₂ =>
      Runs.bind (hplain g₂ h₂) fun _ g₃ _ h₃ =>
      Runs.bind (adds_write _ (jump?_binary operator) g₃ R h₃) fun _ g₄ _ h₄ =>
      adds_write _ h₁.2.store g₄ R h₄) (by simp only [Option.isSome_some, if_pos]; omega)

/-- An expression for its effects. -/
theorem adds_discard {expression : Node} (hp : ok.At p) (hok : ok.Value expression) :
    Adds ok kinds ((Node.discard p expression).statementSize kinds)
      (Node.discard p expression).statement := by
  cases expression with
  | update q target step inFront =>
    exact adds_started hp fun g R h => Runs.of_eq
      (Runs.bind (runs_address target (fun hyes => (hok hyes).update) h) fun place g₁ _ h₁ =>
      Runs.bind (adds_loadKeeping h₁.2 g₁ R h₁.1) fun _ g₂ _ h₂ =>
      Runs.bind (adds_stepByOne step g₂ R h₂) fun _ g₃ _ h₃ => adds_write _ h₁.2.store g₃ R h₃)
      (by simp only [statementSize]; omega)
  | _ =>
    exact adds_started hp fun g R h => Runs.bind (adds_expression _ hok g R h) fun _ g₁ _ h₁ =>
      adds_write _ rfl g₁ R h₁

/-- A condition without an alternative. -/
theorem adds_ifThen (hp : ok.At p) (hcondition : ok.Value condition)
    (hbody : Adds ok kinds (body.statementSize kinds) body.statement) :
    Adds ok kinds ((Node.ifElse p condition body none).statementSize kinds)
      (Node.ifElse p condition body none).statement :=
  adds_started hp fun g R h => Runs.of_eq
    (Runs.bind (adds_expression condition hcondition g R h) fun _ g₁ _ h₁ =>
    Runs.bind (runs_emit _ rfl h₁) fun skipThen g₂ _ h₂ =>
    Runs.bind (hbody g₂ _ h₂.2) fun _ g₃ _ h₃ => runs_patchHere hp h₃)
    (by simp only [statementSize]; omega)

/-- A condition with an alternative. -/
theorem adds_ifElse {elseBody : Node} (hp : ok.At p) (hcondition : ok.Value condition)
    (hbody : Adds ok kinds (body.statementSize kinds) body.statement)
    (helse : Adds ok kinds (elseBody.statementSize kinds) elseBody.statement) :
    Adds ok kinds ((Node.ifElse p condition body (some elseBody)).statementSize kinds)
      (Node.ifElse p condition body (some elseBody)).statement :=
  adds_started hp fun g R h => Runs.of_eq
    (Runs.bind (adds_expression condition hcondition g R h) fun _ g₁ _ h₁ =>
    Runs.bind (runs_emit _ rfl h₁) fun skipThen g₂ _ h₂ =>
    Runs.bind (hbody g₂ _ h₂.2) fun _ g₃ _ h₃ =>
    Runs.bind (runs_emit _ rfl h₃) fun skipElse g₄ _ h₄ =>
    Runs.bind (runs_patchHere hp (h₄.2.perm (.swap _ _ _))) fun _ g₅ _ h₅ =>
    Runs.bind (helse g₅ _ h₅) fun _ g₆ _ h₆ => runs_patchHere hp h₆)
    (by simp only [statementSize]; omega)

/-- A loop with its test in front. -/
theorem adds_whileDo (hp : ok.At p) (hcondition : ok.Value condition)
    (hbody : Adds ok (.loop :: kinds) (body.statementSize (.loop :: kinds)) body.statement) :
    Adds ok kinds ((Node.whileDo p condition body).statementSize kinds)
      (Node.whileDo p condition body).statement :=
  adds_started hp fun g R h => runs_here_bind <| Runs.of_eq
    (Runs.bind (adds_expression condition hcondition g R h) fun _ g₁ e₁ h₁ =>
    Runs.bind (runs_emit _ rfl h₁) fun leave g₂ e₂ h₂ =>
    Runs.bind (runs_inFrame (fun g hg => hbody g _ hg) h₂.2) fun frame g₃ e₃ h₃ =>
    -- A `continue` goes back to the test, and a `break` waits for the end of the loop.
    Runs.bind (runs_patchAll hp (by omega) (h₃.1.perm (frame.sites_perm _))) fun _ g₄ e₄ h₄ =>
    Runs.bind (runs_branchBack hp rfl (by omega) h₄) fun _ g₅ _ h₅ =>
    Runs.bind (runs_patchHere hp (h₅.perm List.perm_middle)) fun _ g₆ _ h₆ =>
    runs_here_bind (runs_patchAll hp (Nat.le_refl _) h₆))
    (by simp only [statementSize]; omega)

/-- A loop with its test at the end. -/
theorem adds_doUntil (hp : ok.At p) (hcondition : ok.Value condition)
    (hbody : Adds ok (.loop :: kinds) (body.statementSize (.loop :: kinds)) body.statement) :
    Adds ok kinds ((Node.doUntil p body condition).statementSize kinds)
      (Node.doUntil p body condition).statement :=
  adds_started hp fun g R h => runs_here_bind <| Runs.of_eq
    (Runs.bind (runs_inFrame (fun g hg => hbody g _ hg) h) fun frame g₁ e₁ h₁ =>
    runs_here_bind <| Runs.bind (runs_patchAll hp (Nat.le_refl _) (h₁.1.perm (frame.sites_perm _)))
      fun _ g₂ e₂ h₂ =>
    Runs.bind (adds_expression condition hcondition g₂ _ h₂) fun _ g₃ e₃ h₃ =>
    Runs.bind (runs_branchBack hp rfl (by omega) h₃) fun _ g₄ _ h₄ =>
    runs_here_bind (runs_patchAll hp (Nat.le_refl _) h₄))
    (by simp only [statementSize]; omega)

/-- A loop with a count. -/
theorem adds_repeatTimes {count : Node} (hp : ok.At p) (hcount : ok.Value count)
    (hbody : Adds ok (.counter :: kinds) (body.statementSize (.counter :: kinds)) body.statement) :
    Adds ok kinds ((Node.repeatTimes p count body).statementSize kinds)
      (Node.repeatTimes p count body).statement :=
  adds_started hp fun g R h => Runs.of_eq
    (Runs.bind (adds_expression count hcount g R h) fun _ g₁ e₁ h₁ =>
    runs_here_bind <| Runs.bind (adds_write _ rfl g₁ R h₁) fun _ g₂ e₂ h₂ =>
    Runs.bind (adds_write _ rfl g₂ R h₂) fun _ g₃ e₃ h₃ =>
    Runs.bind (adds_write _ rfl g₃ R h₃) fun _ g₄ e₄ h₄ =>
    Runs.bind (runs_emit _ rfl h₄) fun leave g₅ e₅ h₅ =>
    Runs.bind (runs_inFrame (fun g hg => hbody g _ hg) h₅.2) fun frame g₆ e₆ h₆ =>
    runs_here_bind <| Runs.bind (runs_patchAll hp (Nat.le_refl _) (h₆.1.perm (frame.sites_perm _)))
      fun _ g₇ e₇ h₇ =>
    Runs.bind (adds_stepByOne _ g₇ _ h₇) fun _ g₈ e₈ h₈ =>
    Runs.bind (runs_branchBack hp rfl (by omega) h₈) fun _ g₉ _ h₉ =>
    Runs.bind (runs_patchHere hp (h₉.perm List.perm_middle)) fun _ g₁₀ _ h₁₀ =>
    runs_here_bind <| Runs.bind (runs_patchAll hp (Nat.le_refl _) h₁₀) fun _ g₁₁ _ h₁₁ =>
    adds_write _ rfl g₁₁ R h₁₁)
    (by simp only [statementSize]; omega)

/-- A `for` loop after its test, with the branches that leave it from there. -/
theorem runs_rounds {step : List Node} {start : Nat} {leave : List Nat}
    (hp : ok.At p)
    (hstep : Adds ok kinds (statementsSize step kinds) (statements step))
    (hbody : Adds ok (.loop :: kinds) (body.statementSize (.loop :: kinds)) body.statement)
    (hstart : start ≤ g.code.size) (h : g.InOrder kinds (leave ++ R)) :
    Runs ok (body.statementSize (.loop :: kinds) + statementsSize step kinds + 1)
      (do
        let frame ← inFrame .loop body.position body.statement
        patchAll frame.continues (← here) p
        statements step
        branchBack (.branch .pending) start p
        patchAll leave (← here) p
        patchAll frame.breaks (← here) p) g
      fun _ g' => g'.InOrder kinds R := Runs.of_eq
  (Runs.bind (runs_inFrame (fun g hg => hbody g _ hg) h) fun frame g₁ e₁ h₁ =>
  runs_here_bind <| Runs.bind (runs_patchAll hp (Nat.le_refl _) (h₁.1.perm (frame.sites_perm _)))
    fun _ g₂ e₂ h₂ =>
  Runs.bind (hstep g₂ _ h₂) fun _ g₃ e₃ h₃ =>
  Runs.bind (runs_branchBack hp rfl (by omega) h₃) fun _ g₄ _ h₄ =>
  runs_here_bind <| Runs.bind (runs_patchAll hp (Nat.le_refl _)
    (h₄.perm (List.perm_append_comm_assoc _ _ _))) fun _ g₅ _ h₅ =>
  runs_here_bind (runs_patchAll hp (Nat.le_refl _) h₅))
  (by omega)

/-- A loop with clauses. -/
theorem adds_forLoop {init step : List Node} {condition : Option Node}
    (hp : ok.At p)
    (hinit : Adds ok kinds (statementsSize init kinds) (statements init))
    (hcondition : ok.holds → ∀ test ∈ condition, test.IsValue ok.place)
    (hstep : Adds ok kinds (statementsSize step kinds) (statements step))
    (hbody : Adds ok (.loop :: kinds) (body.statementSize (.loop :: kinds)) body.statement) :
    Adds ok kinds ((Node.forLoop p init condition step body).statementSize kinds)
      (Node.forLoop p init condition step body).statement := by
  refine adds_started hp fun g R h => ?_
  cases condition with
  | none =>
    exact Runs.of_eq (Runs.bind (hinit g R h) fun _ g₁ e₁ h₁ =>
      runs_here_bind <| runs_pure_bind <| runs_rounds hp hstep hbody (Nat.le_refl _) h₁)
      (by simp only [statementSize, clauseSize]; omega)
  | some condition =>
    exact Runs.of_eq (Runs.bind (hinit g R h) fun _ g₁ e₁ h₁ =>
      runs_here_bind <| Runs.bind
        (adds_expression condition (fun hyes => hcondition hyes condition rfl) g₁ R h₁)
        fun _ g₂ e₂ h₂ =>
      Runs.bind (runs_emit _ rfl h₂) fun site g₃ e₃ h₃ =>
      runs_pure_bind <| runs_rounds hp hstep hbody (by omega) h₃.2)
      (by simp only [statementSize, clauseSize]; omega)

/-- The branch to the arms for a subject that no label equals, if it still waits after them. -/
def unanswered (cases : List (Case Node)) (otherwise : Option Nat) : List Nat :=
  if cases.any fun arm => arm.label.isNone then [] else otherwise.toList

/-- No branch is left if there is none. -/
theorem unanswered_none (cases : List (Case Node)) : unanswered cases none = [] := by
  unfold unanswered
  split <;> rfl

/-- A switch with its arms. -/
theorem adds_switch {subject : Node} {cases : List (Case Node)} (hp : ok.At p)
    (hsubject : ok.Value subject)
    (hlabels : ok.holds → ∀ arm ∈ cases, ∀ label ∈ arm.label, label.IsValue ok.place)
    (harms : ∀ (entries : List (Option Nat)) (otherwise : Option Nat) (g : Generator)
      (R : List Nat), entries.map Option.isSome = cases.map (·.label.isSome) →
      g.InOrder (.switch :: kinds) (entries.filterMap id ++ (otherwise.toList ++ R)) →
      Runs ok (armsSize cases (.switch :: kinds)) (arms cases entries otherwise) g
        fun _ g' => g'.InOrder (.switch :: kinds) (unanswered cases otherwise ++ R)) :
    Adds ok kinds ((Node.switch p subject cases).statementSize kinds)
      (Node.switch p subject cases).statement := by
  refine adds_started hp fun g R h => Runs.of_eq
    (Runs.bind (adds_expression subject hsubject g R h) fun _ g₁ _ h₁ =>
    Runs.bind (runs_labels cases hlabels h₁) fun entries g₂ _ h₂ =>
    Runs.bind (runs_emit _ rfl h₂.2) fun otherwise g₃ _ h₃ =>
    Runs.bind (m := 1) (runs_inFrame (fun g hg => harms entries (some otherwise) g R h₂.1
      (hg.perm List.perm_middle.symm)) h₃.2) fun frame g₄ _ h₄ => ?_)
    (by simp only [statementSize]; omega)
  -- A switch has no next round, so only its breaks are left.
  have hleft : g₄.InOrder kinds (unanswered cases (some otherwise) ++ (frame.breaks ++ R)) := by
    refine h₄.1.perm ?_
    rw [Frame.sites, h₄.2 rfl, List.append_nil]
    exact List.perm_append_comm_assoc _ _ _
  have hlast (g : Generator) (hg : g.InOrder kinds (frame.breaks ++ R)) :
      Runs ok 1 (do patchAll frame.breaks (← here) p; write .popz) g
        fun _ g' => g'.InOrder kinds R :=
    runs_here_bind <| Runs.bind (runs_patchAll hp (Nat.le_refl _) hg) fun _ g₁ _ h₁ =>
    adds_write _ rfl g₁ R h₁
  unfold unanswered at hleft
  dsimp only
  by_cases hany : (cases.any fun arm => arm.label.isNone) = true
  · rw [if_pos hany] at hleft ⊢
    exact hlast g₄ hleft
  · rw [if_neg hany] at hleft ⊢
    exact Runs.bind (runs_patchHere hp hleft) fun _ g₅ _ h₅ => hlast g₅ h₅

/-- The end of the script. -/
theorem adds_ending : Adds ok kinds (FrameKind.enteredCount kinds + 1)
    (do leaveInstances; write .exit) :=
  fun g R h => Runs.bind (adds_leaveInstances g R h) fun _ g₁ _ h₁ => adds_write _ rfl g₁ R h₁

/-- A script returns a value. -/
theorem adds_returning {value : Option Node} (hp : ok.At p)
    (hok : ok.holds → ∀ result ∈ value, result.IsValue ok.place) :
    Adds ok kinds ((Node.returning p value).statementSize kinds)
      (Node.returning p value).statement := by
  refine adds_started hp fun g R h => ?_
  cases value with
  | none => exact Runs.of_eq (adds_ending g R h) (by simp only [statementSize]; omega)
  | some value =>
    exact Runs.of_eq
      (Runs.bind (adds_expression value (fun hyes => hok hyes value rfl) g R h) fun _ g₁ _ h₁ =>
      Runs.bind (adds_leaveInstances g₁ R h₁) fun _ g₂ _ h₂ => adds_write _ rfl g₂ R h₂)
      (by simp only [statementSize]; omega)

end Generate

/-! ### All statements -/

/-- The constructs around a statement are as it needs them to stand there. -/
structure FrameKind.Serve (kinds : List FrameKind) (inLoop inside : Bool) : Prop where
  /-- A `continue` goes on with a loop. -/
  round : inLoop = true → ∃ kind ∈ kinds, kind ≠ .switch
  /-- A `break` leaves some construct. -/
  left : inside = true → kinds ≠ []

/-- A loop may be left and gone on with. -/
theorem FrameKind.serve_loop (kind : FrameKind) {kinds : List FrameKind} (h : kind ≠ .switch) :
    Serve (kind :: kinds) true true :=
  ⟨fun _ => ⟨kind, List.mem_cons_self, h⟩, fun _ => List.cons_ne_nil _ _⟩

/-- A switch may be left. -/
theorem FrameKind.Serve.switch {kinds : List FrameKind} {inLoop inside : Bool}
    (h : Serve kinds inLoop inside) : Serve (.switch :: kinds) inLoop true := by
  refine ⟨fun hloop => ?_, fun _ => List.cons_ne_nil _ _⟩
  obtain ⟨kind, hmem, hne⟩ := h.round hloop
  exact ⟨kind, List.mem_cons_of_mem _ hmem, hne⟩

namespace Node

open Generate Generator

mutual

/-- Code for a statement keeps the branches in order. -/
theorem adds_statement {ok : Promise} {kinds : List FrameKind} {inLoop inside : Bool}
    (hserve : FrameKind.Serve kinds inLoop inside) : ∀ node : Node,
    ok.Action inLoop inside node → Adds ok kinds (node.statementSize kinds) node.statement
  | .block _ body, hok =>
    adds_started hok.position (adds_statements hserve body fun hyes => (hok hyes).block)
  | .assign .., hok =>
    adds_assign hok.position (fun hyes => (hok hyes).assign.2) fun hyes => (hok hyes).assign.1
  | .discard .., hok => adds_discard hok.position fun hyes => (hok hyes).discard
  | .ifElse _ _ thenBody none, hok =>
    adds_ifThen hok.position (fun hyes => (hok hyes).ifThen.1)
      (adds_statement hserve thenBody fun hyes => (hok hyes).ifThen.2)
  | .ifElse _ _ thenBody (some elseBody), hok =>
    adds_ifElse hok.position (fun hyes => (hok hyes).ifElse.1)
      (adds_statement hserve thenBody fun hyes => (hok hyes).ifElse.2.1)
      (adds_statement hserve elseBody fun hyes => (hok hyes).ifElse.2.2)
  | .whileDo _ _ body, hok =>
    adds_whileDo hok.position (fun hyes => (hok hyes).whileDo.1)
      (adds_statement (FrameKind.serve_loop .loop nofun) body fun hyes => (hok hyes).whileDo.2)
  | .doUntil _ body _, hok =>
    adds_doUntil hok.position (fun hyes => (hok hyes).doUntil.1)
      (adds_statement (FrameKind.serve_loop .loop nofun) body fun hyes => (hok hyes).doUntil.2)
  | .repeatTimes _ _ body, hok =>
    adds_repeatTimes hok.position (fun hyes => (hok hyes).repeatTimes.1)
      (adds_statement (FrameKind.serve_loop .counter nofun) body fun hyes => (hok hyes).repeatTimes.2)
  | .forLoop _ init _ step body, hok =>
    adds_forLoop hok.position (adds_statements hserve init fun hyes => (hok hyes).forLoop.1)
      (fun hyes => (hok hyes).forLoop.2.1)
      (adds_statements hserve step fun hyes => (hok hyes).forLoop.2.2.1)
      (adds_statement (FrameKind.serve_loop .loop nofun) body fun hyes => (hok hyes).forLoop.2.2.2)
  | .switch _ _ cases, hok =>
    adds_switch hok.position (fun hyes => (hok hyes).switch.1)
      (fun hyes arm hmem => ((hok hyes).switch.2 arm hmem).1)
      (runs_arms hserve.switch cases fun hyes arm hmem => ((hok hyes).switch.2 arm hmem).2)
  | .withEach _ targets body, hok =>
    have hbody : Adds ok (.within :: kinds) _ body.statement :=
      adds_statement (FrameKind.serve_loop .within nofun) body fun hyes => (hok hyes).withEach.2
    adds_started hok.position (adds_eachInstance hok.position
      (fun _ _ h => (runs_inFrame (fun g hg => hbody g _ hg) h).imp fun _ _ h => h.1) targets
      fun hyes => (hok hyes).withEach.1)
  | .declare _ bindings, hok =>
    adds_started hok.position (adds_declarations bindings fun hyes => (hok hyes).declare)
  | .declareGlobal .., hok | .declareEnum .., hok => adds_started hok.position fun _ _ h => runs_pure h
  | .returning .., hok => adds_returning hok.position fun hyes => (hok hyes).returning
  | .exit _, hok => adds_started hok.position adds_ending
  | .breaking _, hok =>
    adds_started hok.position (adds_breakOut fun hyes => hserve.left (hok hyes).enclosed)
  | .continuing _, hok =>
    adds_started hok.position (adds_continueOn fun hyes => hserve.round (hok hyes).enclosed)
  | .int .., hok | .real .., hok | .string .., hok | .ident .., hok | .binary .., hok
  | .logical .., hok | .unary .., hok | .conditional .., hok | .call .., hok | .index .., hok
  | .member .., hok | .update .., hok | .struct .., hok | .array .., hok =>
    adds_started hok.position fun _ _ _ => runs_fail rfl fun hyes => nomatch (hok hyes).statement
termination_by structural node => node

/-- So does code for statements in sequence. -/
theorem adds_statements {ok : Promise} {kinds : List FrameKind} {inLoop inside : Bool}
    (hserve : FrameKind.Serve kinds inLoop inside) : ∀ nodes : List Node,
    (ok.holds → ∀ node ∈ nodes, node.IsAction ok.place inLoop inside) →
    Adds ok kinds (statementsSize nodes kinds) (statements nodes)
  | [], _ => fun _ _ h => runs_pure h
  | node :: rest, hok => fun g R h =>
    Runs.bind (adds_statement hserve node (fun hyes => hok hyes node List.mem_cons_self) g R h)
      fun _ g₁ _ h₁ =>
    adds_statements hserve rest
      (fun hyes other hmem => hok hyes other (List.mem_cons_of_mem _ hmem)) g₁ R h₁
termination_by structural nodes => nodes

/-- The branches to the arms of a switch get their targets, up to the one for a subject that no label
equals if all arms have a label. -/
theorem runs_arms {ok : Promise} {kinds : List FrameKind} {inLoop inside : Bool}
    (hserve : FrameKind.Serve kinds inLoop inside) : ∀ cases : List (Case Node),
    (ok.holds → ∀ arm ∈ cases, ok.place arm.position ∧
      ∀ statement ∈ arm.body, statement.IsAction ok.place inLoop inside) →
    ∀ (entries : List (Option Nat)) (otherwise : Option Nat) (g : Generator) (R : List Nat),
      entries.map Option.isSome = cases.map (·.label.isSome) →
      g.InOrder kinds (entries.filterMap id ++ (otherwise.toList ++ R)) →
      Runs ok (armsSize cases kinds) (arms cases entries otherwise) g
        fun _ g' => g'.InOrder kinds (unanswered cases otherwise ++ R)
  | [], _, entries, otherwise, g, R, hentries, h => by
    obtain rfl : entries = [] := List.map_eq_nil_iff.1 hentries
    exact runs_pure h
  | ⟨label, body, q⟩ :: rest, hok, entries, otherwise, g, R, hentries, h => by
    obtain ⟨entry, entries, rfl, hentry, hrest⟩ := List.map_eq_cons_iff.1 hentries
    have hq : ok.At q := fun hyes => (hok hyes _ List.mem_cons_self).1
    -- What follows is the same for all arms; they differ in which branch leads to them.
    have hgo (otherwise : Option Nat) (g : Generator)
        (hg : g.InOrder kinds (entries.filterMap id ++ (otherwise.toList ++ R))) :
        Runs ok (armsSize (⟨label, body, q⟩ :: rest) kinds)
          (do statements body; arms rest entries otherwise) g
          fun _ g' => g'.InOrder kinds (unanswered rest otherwise ++ R) :=
      Runs.bind (adds_statements hserve body
        (fun hyes => (hok hyes _ List.mem_cons_self).2) g _ hg) fun _ g₁ _ h₁ =>
      runs_arms hserve rest (fun hyes other hmem => hok hyes other (List.mem_cons_of_mem _ hmem))
        entries otherwise g₁ R hrest h₁
    rcases entry with _ | site
    · -- The first arm without a label gets the branch for all other subjects, later ones get none.
      obtain rfl : label = none := by simpa using hentry.symm
      have hgo := hgo none
      rw [unanswered_none] at hgo
      rcases otherwise with _ | site
      · exact runs_pure_bind (hgo g h)
      · exact Runs.of_eq (Runs.bind (runs_patchHere hq (h.perm List.perm_middle)) fun _ g₁ _ h₁ =>
          runs_pure_bind (hgo g₁ h₁)) (Nat.zero_add _)
    · obtain ⟨label, rfl⟩ := Option.isSome_iff_exists.1 hentry.symm
      exact Runs.of_eq (Runs.bind (runs_patchHere hq h) fun _ g₁ _ h₁ =>
        runs_pure_bind (hgo otherwise g₁ h₁)) (Nat.zero_add _)
termination_by structural cases => cases

end

/-- A statement can be written wherever it stands, if nothing is asked about the faults. -/
theorem adds_any (kinds : List FrameKind) (node : Node) :
    Adds .none kinds (node.statementSize kinds) node.statement := by
  have hserve : FrameKind.Serve kinds false false := ⟨nofun, nofun⟩
  exact adds_statement hserve node nofun

/-- So can several statements. -/
theorem adds_all (kinds : List FrameKind) (nodes : List Node) :
    Adds .none kinds (statementsSize nodes kinds) (statements nodes) := by
  have hserve : FrameKind.Serve kinds false false := ⟨nofun, nofun⟩
  exact adds_statements hserve nodes nofun

end Node

end Gml
