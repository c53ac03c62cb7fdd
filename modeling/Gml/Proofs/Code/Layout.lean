import Gml.Code.Generate.Statement
import Gml.Proofs.Tree.Every

/-!
# How code is laid out

What stands where in finished code. `Code.Pushes` says it for expressions: the instructions from one
index up to another push the value of a node, the address of a place, or several values. `Code.Acts`
says it for statements that do not branch, and `Code.Performs` for all statements, given where the
constructs around them end and go on: a `Level` is such a construct. All branches are complete here,
so that a reader of these relations need not know about patching.

`Code.EmitsFor` says that instructions of finished code are the ones that were written for a node.
-/

namespace Gml

/-! ### Instructions and tables -/

/-- The instruction at an index. -/
def Code.Has (code : Code) (index : Nat) (instruction : Instruction) : Prop :=
  code.instructions[index]? = some instruction

/-- The instructions from an index on. -/
def Code.Segment (code : Code) : Nat → List Instruction → Prop
  | _, [] => True
  | index, instruction :: rest => code.Has index instruction ∧ code.Segment (index + 1) rest

namespace Code

variable {code : Code} {a : Nat}

/-- No instruction is everywhere. -/
@[simp] theorem segment_nil : code.Segment a [] ↔ True := Iff.rfl

/-- Instructions follow each other. -/
@[simp] theorem segment_cons {I : Instruction} {rest : List Instruction} :
    code.Segment a (I :: rest) ↔ code.Has a I ∧ code.Segment (a + 1) rest := Iff.rfl

/-- So do stretches of them. -/
theorem segment_append {xs ys : List Instruction} :
    code.Segment a (xs ++ ys) ↔ code.Segment a xs ∧ code.Segment (a + xs.length) ys := by
  induction xs generalizing a with
  | nil => simp
  | cons I xs ih =>
    rw [List.cons_append, segment_cons, segment_cons, ih, and_assoc, List.length_cons,
      Nat.add_assoc, Nat.add_comm 1]

/-- An instruction is in the code. -/
theorem Has.lt {I : Instruction} (h : code.Has a I) : a < code.size :=
  (Array.getElem?_eq_some_iff.1 h).1

/-- What is in code with an instruction more. -/
theorem has_push {I J : Instruction} :
    (code.push I).Has a J ↔ (a < code.size ∧ code.Has a J) ∨ (a = code.size ∧ I = J) := by
  unfold Has push size
  rw [Array.getElem?_push]
  split
  · simp_all
  · constructor
    · intro h
      exact .inl ⟨(Array.getElem?_eq_some_iff.1 h).1, h⟩
    · rintro (⟨-, h⟩ | ⟨h, -⟩)
      · exact h
      · contradiction

end Code

/-- The number that stands for an entry of a table. Numbers have 32 bits. -/
def Entry {α : Type} (table : Array α) (id : UInt32) (entry : α) : Prop :=
  ∃ index, table[index]? = some entry ∧ id = UInt32.ofNat index

/-- The jump of a branch at a site goes to a target. -/
def Jump.Leads (site target : Nat) (jump : Jump) : Prop :=
  ∃ distance : Int32, jump = .relative distance ∧ (site : Int) + distance.toInt = target

/-! ### Code that is being written -/

/-- The finished code holds all that has been written so far, apart from branches that wait for their
target. -/
structure Code.PartOf (code whole : Code) : Prop where
  /-- The instructions that are final. -/
  has : ∀ {i : Nat} {I : Instruction}, code.Has i I → I.jump? ≠ some .pending → whole.Has i I
  /-- The strings. -/
  strings : ∀ {i : Nat} {s : String}, code.strings[i]? = some s → whole.strings[i]? = some s
  /-- The constants. -/
  constants : ∀ {i : Nat} {c : Double}, code.constants[i]? = some c → whole.constants[i]? = some c
  /-- The local variables. -/
  locals : ∀ {i : Nat} {s : String}, code.locals[i]? = some s → whole.locals[i]? = some s

/-- An action gives a result and changes the state of writing to another. -/
def Generate.Gives {α : Type} (x : Generate α) (g : Generator) (a : α) (g' : Generator) : Prop :=
  x.run g = .ok (a, g')

/-- The instructions from one index up to another are those that an action with a result wrote, at
some point of writing the code. -/
def Code.EmitsFor {α : Type} (code : Code) (x : Generate α) (result : α) (a b : Nat) : Prop :=
  ∃ g g' : Generator,
    x.Gives g result g' ∧ g.code.size = a ∧ g'.code.size = b ∧ g'.code.PartOf code

/-- The instructions from one index up to another are those that an action wrote. -/
abbrev Code.Emits (code : Code) (x : Generate Unit) (a b : Nat) : Prop :=
  code.EmitsFor x () a b

/-! ### Places -/

/-- The instructions that load and store a variable. -/
inductive Code.Variable (code : Code) : String → Resolution → Instruction → Instruction → Prop
  | localVar {name : String} {id : UInt32} : ¬ IsTemporary name → Entry code.locals id name →
      Variable code name .localVar (.pushLocal id) (.popLocal id)
  | globalVar {name : String} {id : UInt32} : Entry code.strings id name →
      Variable code name .globalVar (.pushGlobal id) (.popGlobal id)
  | builtinVariable {name : String} {id : UInt32} : Entry code.strings id name →
      Variable code name .builtinVariable (.pushBuiltin id) (.popBuiltin id)
  | argumentArray {name : String} {id : UInt32} : Entry code.strings id name →
      Variable code name .argumentArray (.pushBuiltin id) (.popBuiltin id)
  | dynamic {name : String} {id : UInt32} : Entry code.strings id name →
      Variable code name .dynamic (.pushInstance id) (.popInstance id)
  | argument {name : String} (index : UInt8) :
      Variable code name (.argument index) (.pushArgument index) (.popArgument index)

namespace Place

/-- Whether the place needs no address. -/
def isNamed : Place → Bool
  | named .. => true
  | _ => false

/-- Loads the value and keeps the address. -/
def keeping (place : Place) : List Instruction :=
  if place.width ≠ 0 then [.dup place.width, place.load] else [place.load]

/-- Steps the value by one and leaves the new value or the old one. Below an address it is kept in a
local variable. -/
def stepping (place : Place) (step : Step) (inFront : Bool) (kept : UInt32) : List Instruction :=
  place.keeping ++
    match place, inFront with
    | .named .., true => [.pushInt 1, step.instruction, .dup 1, place.store]
    | .named .., false => [.dup 1, .pushInt 1, step.instruction, place.store]
    | _, true =>
      [.pushInt 1, step.instruction, .dup 1, .popLocal kept, place.store, .pushLocal kept]
    | _, false =>
      [.dup 1, .popLocal kept, .pushInt 1, step.instruction, place.store, .pushLocal kept]

end Place

/-- Whether a callee is called by its name and not by a value. -/
def Node.isCalledByName : Node → Bool
  | ident _ _ .builtinFunction | ident _ _ (.userSymbol _) => true
  | _ => false

/-! ### Expressions -/

/-- What the code of an expression or of a part of it pushes. -/
inductive Operand where
  /-- The value of a node. -/
  | value (node : Node)
  /-- The address of a node, which lives at a place. -/
  | address (node : Node) (place : Place)
  /-- The values of several nodes, the first one first. -/
  | values (nodes : List Node)
  /-- The values of several nodes, the last one first. -/
  | lastFirst (nodes : List Node)
  /-- The keys and values of a struct. -/
  | fields (fields : List (String × Node))

/-- The instructions from one index up to another push an operand. -/
inductive Code.Pushes (code : Code) : Operand → Nat → Nat → Prop
  | int {a : Nat} {p : Position} {value : Int64} :
      Int32.minValue.toInt ≤ value.toInt ∧ value.toInt ≤ Int32.maxValue.toInt →
      code.Has a (.pushInt value.toInt32) → Pushes code (.value (.int p value)) a (a + 1)
  | largeInt {a : Nat} {p : Position} {value : Int64} {id : UInt32} :
      ¬ (Int32.minValue.toInt ≤ value.toInt ∧ value.toInt ≤ Int32.maxValue.toInt) →
      Entry code.constants id (.ofFloat (Float.ofInt value.toInt)) → code.Has a (.pushReal id) →
      Pushes code (.value (.int p value)) a (a + 1)
  | real {a : Nat} {p : Position} {value : Double} {id : UInt32} :
      Entry code.constants id value → code.Has a (.pushReal id) →
      Pushes code (.value (.real p value)) a (a + 1)
  | string {a : Nat} {p : Position} {value : String} {verbatim : Bool} {id : UInt32} :
      Entry code.strings id value → code.Has a (.pushString id) →
      Pushes code (.value (.string p value verbatim)) a (a + 1)
  | intrinsic {a : Nat} {p : Position} {name : String} {value : Int32} :
      code.Has a (.pushInt value) → Pushes code (.value (.ident p name (.intrinsic value))) a (a + 1)
  | userSymbol {a : Nat} {p : Position} {name : String} {reference : Int32} :
      code.Has a (.pushInt reference) →
      Pushes code (.value (.ident p name (.userSymbol reference))) a (a + 1)
  | function {a : Nat} {p : Position} {name : String} {id : UInt32} :
      Entry code.strings id name → code.Has a (.pushFunction id) →
      Pushes code (.value (.ident p name .builtinFunction)) a (a + 1)
  | load {a b : Nat} {node : Node} {place : Place} :
      Pushes code (.address node place) a b → code.Has b place.load →
      Pushes code (.value node) a (b + 1)
  | binary {a k b : Nat} {p : Position} {operator : BinaryOp} {lhs rhs : Node} :
      Pushes code (.value lhs) a k → Pushes code (.value rhs) k b →
      code.Has b operator.instruction → Pushes code (.value (.binary p operator lhs rhs)) a (b + 1)
  | and {a k b : Nat} {p : Position} {lhs rhs : Node} {short done : Jump} :
      Pushes code (.value lhs) a k → code.Has k (.branchFalse short) → short.Leads k (b + 3) →
      Pushes code (.value rhs) (k + 1) b →
      code.Segment b [.not, .not, .branch done, .pushInt 0] → done.Leads (b + 2) (b + 4) →
      Pushes code (.value (.logical p .and lhs rhs)) a (b + 4)
  | or {a k b : Nat} {p : Position} {lhs rhs : Node} {short done : Jump} :
      Pushes code (.value lhs) a k → code.Has k (.branchTrue short) → short.Leads k (b + 3) →
      Pushes code (.value rhs) (k + 1) b →
      code.Segment b [.not, .not, .branch done, .pushInt 1] → done.Leads (b + 2) (b + 4) →
      Pushes code (.value (.logical p .or lhs rhs)) a (b + 4)
  | xor {a k b : Nat} {p : Position} {lhs rhs : Node} :
      Pushes code (.value lhs) a k → code.Has k .not → Pushes code (.value rhs) (k + 1) b →
      code.Segment b [.not, .cmp .notEqual] → Pushes code (.value (.logical p .xor lhs rhs)) a (b + 2)
  | unary {a b : Nat} {p : Position} {operator : UnaryOp} {operand : Node} :
      Pushes code (.value operand) a b → code.Has b operator.instruction →
      Pushes code (.value (.unary p operator operand)) a (b + 1)
  | conditional {a k l b : Nat} {p : Position} {condition thenValue elseValue : Node}
      {skipThen skipElse : Jump} :
      Pushes code (.value condition) a k → code.Has k (.branchFalse skipThen) →
      skipThen.Leads k (l + 1) → Pushes code (.value thenValue) (k + 1) l →
      code.Has l (.branch skipElse) → skipElse.Leads l b → Pushes code (.value elseValue) (l + 1) b →
      Pushes code (.value (.conditional p condition thenValue elseValue)) a b
  | callFunction {a b : Nat} {p q : Position} {name : String} {arguments : List Node}
      {id : UInt32} :
      Pushes code (.lastFirst arguments) a b → arguments.length < UInt8.size →
      Entry code.strings id name → code.Has b (.call id (.ofNat arguments.length)) →
      Pushes code (.value (.call p (.ident q name .builtinFunction) arguments)) a (b + 1)
  | callScript {a b : Nat} {p q : Position} {name : String} {reference : Int32}
      {arguments : List Node} :
      Pushes code (.lastFirst arguments) a b → arguments.length < UInt8.size →
      code.Has b (.callScript reference (.ofNat arguments.length)) →
      Pushes code (.value (.call p (.ident q name (.userSymbol reference)) arguments)) a (b + 1)
  | callValue {a k b : Nat} {p : Position} {callee : Node} {arguments : List Node} :
      callee.isCalledByName = false → Pushes code (.lastFirst arguments) a k →
      arguments.length < UInt8.size → Pushes code (.value callee) k b →
      code.Has b (.callValue (.ofNat arguments.length)) →
      Pushes code (.value (.call p callee arguments)) a (b + 1)
  | update {a b : Nat} {p : Position} {target : Node} {place : Place} {step : Step}
      {inFront : Bool} {kept : UInt32} :
      Pushes code (.address target place) a b →
      (place.isNamed = false → ∃ n, Entry code.locals kept (temporaryName n)) →
      code.Segment b (place.stepping step inFront kept) →
      Pushes code (.value (.update p target step inFront)) a
        (b + (place.stepping step inFront kept).length)
  | struct {a b : Nat} {p : Position} {fields : List (String × Node)} :
      Pushes code (.fields fields) a b → fields.length < UInt32.size →
      code.Has b (.newStruct (.ofNat fields.length)) → Pushes code (.value (.struct p fields)) a (b + 1)
  | array {a b : Nat} {p : Position} {elements : List Node} :
      Pushes code (.values elements) a b → elements.length < UInt32.size →
      code.Has b (.newArray (.ofNat elements.length)) →
      Pushes code (.value (.array p elements)) a (b + 1)
  | name {a : Nat} {p : Position} {name : String} {resolution : Resolution}
      {load store : Instruction} :
      code.Variable name resolution load store →
      Pushes code (.address (.ident p name resolution) (.named load store)) a a
  | member {a b : Nat} {p : Position} {instanceOf : Node} {field : String} {id : UInt32} :
      Pushes code (.value instanceOf) a b → Entry code.strings id field →
      Pushes code (.address (.member p instanceOf field) (.field id)) a b
  | argument {a b : Nat} {p q : Position} {name : String} {index : Node} :
      Pushes code (.value index) a b →
      Pushes code (.address (.index p (.ident q name .argumentArray) .array [index]) .argument) a b
  | element {a k b : Nat} {p : Position} {container : Node} {accessor : Accessor}
      {indices : List Node} :
      Generate.isArgument container accessor indices = false →
      0 < indices.length ∧ indices.length ≤ 2 →
      Pushes code (.value container) a k → Pushes code (.values indices) k b →
      Pushes code (.address (.index p container accessor indices)
        (.element accessor (.ofNat indices.length))) a b
  | noValues {a : Nat} : Pushes code (.values []) a a
  | moreValues {a k b : Nat} {node : Node} {rest : List Node} :
      Pushes code (.value node) a k → Pushes code (.values rest) k b →
      Pushes code (.values (node :: rest)) a b
  | noLastFirst {a : Nat} : Pushes code (.lastFirst []) a a
  | moreLastFirst {a k b : Nat} {node : Node} {rest : List Node} :
      Pushes code (.lastFirst rest) a k → Pushes code (.value node) k b →
      Pushes code (.lastFirst (node :: rest)) a b
  | noFields {a : Nat} : Pushes code (.fields []) a a
  | moreFields {a k b : Nat} {key : String} {value : Node} {rest : List (String × Node)}
      {id : UInt32} :
      Entry code.strings id key → code.Has a (.pushString id) →
      Pushes code (.value value) (a + 1) k → Pushes code (.fields rest) k b →
      Pushes code (.fields ((key, value) :: rest)) a b

/-- The instructions from one index up to another were written for an expression, and push its
value. -/
structure Code.Evaluates (code : Code) (node : Node) (a b : Nat) : Prop where
  /-- They push its value. -/
  pushes : code.Pushes (.value node) a b
  /-- They were written for it. -/
  emits : code.Emits node.expression a b

/-- The instructions from one index up to another were written for the address of a node, which lives
at a place, and push the address. -/
structure Code.Addresses (code : Code) (node : Node) (place : Place) (a b : Nat) : Prop where
  /-- They push its address. -/
  pushes : code.Pushes (.address node place) a b
  /-- They were written for it. -/
  emits : code.EmitsFor node.address place a b

/-! ### Statements without branches -/

/-- Whether a node is a step by one. -/
def Node.isUpdate : Node → Bool
  | update .. => true
  | _ => false

/-- The instructions from one index up to another give local variables their values. -/
inductive Code.Declares (code : Code) : List (Binding Node) → Nat → Nat → Prop
  | done {a : Nat} : Declares code [] a a
  | plain {a b : Nat} {name : String} {p : Position} {rest : List (Binding Node)} :
      Declares code rest a b → Declares code (⟨name, none, p⟩ :: rest) a b
  | valued {a k b : Nat} {name : String} {value : Node} {p : Position}
      {rest : List (Binding Node)} {id : UInt32} :
      ¬ IsTemporary name → Entry code.locals id name → code.Evaluates value a k →
      code.Has k (.popLocal id) → Declares code rest (k + 1) b →
      Declares code (⟨name, some value, p⟩ :: rest) a b

/-- The instructions from one index up to another do what a statement without branches says. -/
inductive Code.Acts (code : Code) : Node → Nat → Nat → Prop
  | assign {a k b : Nat} {p : Position} {target value : Node} {operator : AssignOp}
      {place : Place} :
      operator.binary? = none → code.Addresses target place a k → code.Evaluates value k b →
      code.Has b place.store →
      Acts code (.assign p target operator value) a (b + 1)
  | compound {a k b : Nat} {p : Position} {target value : Node} {operator : AssignOp}
      {operation : BinaryOp} {place : Place} :
      operator.binary? = some operation → code.Addresses target place a k →
      code.Segment k place.keeping → code.Evaluates value (k + place.keeping.length) b →
      code.Segment b [operation.instruction, place.store] →
      Acts code (.assign p target operator value) a (b + 2)
  | step {a k : Nat} {p q : Position} {target : Node} {step : Step} {inFront : Bool}
      {place : Place} :
      code.Addresses target place a k →
      code.Segment k (place.keeping ++ [.pushInt 1, step.instruction, place.store]) →
      Acts code (.discard p (.update q target step inFront)) a (k + place.keeping.length + 3)
  | discard {a b : Nat} {p : Position} {expression : Node} :
      expression.isUpdate = false → code.Evaluates expression a b → code.Has b .popz →
      Acts code (.discard p expression) a (b + 1)
  | declare {a b : Nat} {p : Position} {bindings : List (Binding Node)} :
      code.Declares bindings a b → Acts code (.declare p bindings) a b
  | declareGlobal {a : Nat} {p : Position} {names : List String} :
      Acts code (.declareGlobal p names) a a
  | declareEnum {a : Nat} {p : Position} {name : String} {members : List (Binding Node)} :
      Acts code (.declareEnum p name members) a a

/-! ### Statements -/

/-- A construct around a statement, with the places that leaving it and going on with it lead to. -/
structure Level where
  /-- What it is. -/
  kind : FrameKind
  /-- Where a `break` goes. -/
  onBreak : Nat
  /-- Where a `continue` goes. -/
  onContinue : Nat

namespace Level

/-- Whether the construct keeps a value on the stack. -/
def keeps (level : Level) : Bool :=
  level.kind = .counter || level.kind = .switch

/-- Whether the construct runs its body as another instance. -/
def enters (level : Level) : Bool :=
  level.kind = .within

/-- The number of values that constructs keep on the stack. -/
def held (levels : List Level) : Nat :=
  levels.countP keeps

/-- The number of instances that constructs have to go back to. -/
def entered (levels : List Level) : Nat :=
  levels.countP enters

end Level

/-- The arm for a subject that no label equals: the first one without a label, or none, and then the
switch is over. -/
def Case.otherwise (stop : Nat) : List (Case Node) → List Nat → Nat
  | arm :: cases, start :: starts =>
    if arm.label.isNone then start else otherwise stop cases starts
  | _, _ => stop

/-- The instructions from one index up to another compare the subject of a switch with the labels in
turn, and go to the start of the first arm whose label equals it. -/
inductive Code.Tests (code : Code) : List (Case Node) → List Nat → Nat → Nat → Prop
  | done {a : Nat} : Tests code [] [] a a
  | label {a k b start : Nat} {label : Node} {body : List Node} {p : Position}
      {rest : List (Case Node)} {starts : List Nat} {jump : Jump} :
      code.Has a (.dup 1) → code.Evaluates label (a + 1) k →
      code.Segment k [.cmp .equal, .branchTrue jump] → jump.Leads (k + 1) start →
      Tests code rest starts (k + 2) b →
      Tests code (⟨some label, body, p⟩ :: rest) (start :: starts) a b
  | unlabelled {a b start : Nat} {body : List Node} {p : Position} {rest : List (Case Node)}
      {starts : List Nat} :
      Tests code rest starts a b → Tests code (⟨none, body, p⟩ :: rest) (start :: starts) a b

/-- What the code of a statement or of a part of it does. -/
inductive Clause where
  /-- One statement. -/
  | one (node : Node)
  /-- Statements in sequence. -/
  | all (nodes : List Node)
  /-- The arms of a switch, which start at given indices. -/
  | arms (cases : List (Case Node)) (starts : List Nat)
  /-- A body run as each of several instances. -/
  | targets (nodes : List Node) (body : Node)

/-- The instructions from one index up to another do what a clause says, inside of some constructs,
the innermost first. -/
inductive Code.Performs (code : Code) : List Level → Clause → Nat → Nat → Prop
  | block {L : List Level} {a b : Nat} {p : Position} {body : List Node} :
      Performs code L (.all body) a b → Performs code L (.one (.block p body)) a b
  | basic {L : List Level} {a b : Nat} {node : Node} :
      code.Acts node a b → Performs code L (.one node) a b
  | ifThen {L : List Level} {a k b : Nat} {p : Position} {condition thenBody : Node}
      {skip : Jump} :
      code.Evaluates condition a k → code.Has k (.branchFalse skip) → skip.Leads k b →
      Performs code L (.one thenBody) (k + 1) b →
      Performs code L (.one (.ifElse p condition thenBody none)) a b
  | ifElse {L : List Level} {a k l b : Nat} {p : Position} {condition thenBody elseBody : Node}
      {skipThen skipElse : Jump} :
      code.Evaluates condition a k → code.Has k (.branchFalse skipThen) →
      skipThen.Leads k (l + 1) → Performs code L (.one thenBody) (k + 1) l →
      code.Has l (.branch skipElse) → skipElse.Leads l b →
      Performs code L (.one elseBody) (l + 1) b →
      Performs code L (.one (.ifElse p condition thenBody (some elseBody))) a b
  | whileDo {L : List Level} {a k l : Nat} {p : Position} {condition body : Node}
      {leave back : Jump} :
      code.Evaluates condition a k → code.Has k (.branchFalse leave) →
      leave.Leads k (l + 1) → Performs code (⟨.loop, l + 1, a⟩ :: L) (.one body) (k + 1) l →
      code.Has l (.branch back) → back.Leads l a →
      Performs code L (.one (.whileDo p condition body)) a (l + 1)
  | doUntil {L : List Level} {a k l : Nat} {p : Position} {body condition : Node} {back : Jump} :
      Performs code (⟨.loop, l + 1, k⟩ :: L) (.one body) a k →
      code.Evaluates condition k l → code.Has l (.branchFalse back) → back.Leads l a →
      Performs code L (.one (.doUntil p body condition)) a (l + 1)
  | repeatTimes {L : List Level} {a k l : Nat} {p : Position} {count body : Node}
      {leave back : Jump} :
      code.Evaluates count a k →
      code.Segment k [.dup 1, .pushInt 0, .cmp .greater, .branchFalse leave] →
      leave.Leads (k + 3) (l + 3) →
      Performs code (⟨.counter, l + 3, l⟩ :: L) (.one body) (k + 4) l →
      code.Segment l [.pushInt 1, .sub, .branch back, .popz] → back.Leads (l + 2) k →
      Performs code L (.one (.repeatTimes p count body)) a (l + 4)
  | forLoop {L : List Level} {a k l n e : Nat} {p : Position} {init step : List Node}
      {condition body : Node} {leave back : Jump} :
      Performs code L (.all init) a k → code.Evaluates condition k l →
      code.Has l (.branchFalse leave) → leave.Leads l (e + 1) →
      Performs code (⟨.loop, e + 1, n⟩ :: L) (.one body) (l + 1) n →
      Performs code L (.all step) n e → code.Has e (.branch back) → back.Leads e k →
      Performs code L (.one (.forLoop p init (some condition) step body)) a (e + 1)
  | forEver {L : List Level} {a k n e : Nat} {p : Position} {init step : List Node}
      {body : Node} {back : Jump} :
      Performs code L (.all init) a k →
      Performs code (⟨.loop, e + 1, n⟩ :: L) (.one body) k n →
      Performs code L (.all step) n e → code.Has e (.branch back) → back.Leads e k →
      Performs code L (.one (.forLoop p init none step body)) a (e + 1)
  | switch {L : List Level} {a k t e : Nat} {p : Position} {subject : Node}
      {cases : List (Case Node)} {starts : List Nat} {otherwise : Jump} :
      code.Evaluates subject a k → code.Tests cases starts k t →
      code.Has t (.branch otherwise) → otherwise.Leads t (Case.otherwise e cases starts) →
      Performs code (⟨.switch, e, e⟩ :: L) (.arms cases starts) (t + 1) e → code.Has e .popz →
      Performs code L (.one (.switch p subject cases)) a (e + 1)
  | withEach {L : List Level} {a b : Nat} {p : Position} {targets : List Node} {body : Node} :
      Performs code L (.targets targets body) a b →
      Performs code L (.one (.withEach p targets body)) a b
  | returnValue {L : List Level} {a k : Nat} {p : Position} {value : Node} :
      code.Evaluates value a k →
      code.Segment k (.replicate (Level.entered L) .popEnvExit ++ [.ret]) →
      Performs code L (.one (.returning p (some value))) a (k + Level.entered L + 1)
  | returnNothing {L : List Level} {a : Nat} {p : Position} :
      code.Segment a (.replicate (Level.entered L) .popEnvExit ++ [.exit]) →
      Performs code L (.one (.returning p none)) a (a + Level.entered L + 1)
  | exit {L : List Level} {a : Nat} {p : Position} :
      code.Segment a (.replicate (Level.entered L) .popEnvExit ++ [.exit]) →
      Performs code L (.one (.exit p)) a (a + Level.entered L + 1)
  | breakOut {L : List Level} {level : Level} {a : Nat} {p : Position} {jump : Jump} :
      level.enters = false → code.Has a (.branch jump) → jump.Leads a level.onBreak →
      Performs code (level :: L) (.one (.breaking p)) a (a + 1)
  | breakBack {L : List Level} {level : Level} {a : Nat} {p : Position} {jump : Jump} :
      level.enters = true → code.Segment a [.popEnvExit, .branch jump] →
      jump.Leads (a + 1) level.onBreak →
      Performs code (level :: L) (.one (.breaking p)) a (a + 2)
  | continueOn {L crossed : List Level} {level : Level} {a : Nat} {p : Position} {jump : Jump} :
      (∀ inner ∈ crossed, inner.kind = .switch) → level.kind ≠ .switch →
      code.Segment a (.replicate crossed.length .popz ++ [.branch jump]) →
      jump.Leads (a + crossed.length) level.onContinue →
      Performs code (crossed ++ level :: L) (.one (.continuing p)) a (a + crossed.length + 1)
  | nothing {L : List Level} {a : Nat} : Performs code L (.all []) a a
  | sequence {L : List Level} {a k b : Nat} {node : Node} {rest : List Node} :
      Performs code L (.one node) a k → Performs code L (.all rest) k b →
      Performs code L (.all (node :: rest)) a b
  | noArms {L : List Level} {a : Nat} : Performs code L (.arms [] []) a a
  | moreArms {L : List Level} {a k b : Nat} {label : Option Node} {body : List Node}
      {p : Position} {rest : List (Case Node)} {starts : List Nat} :
      Performs code L (.all body) a k → Performs code L (.arms rest starts) k b →
      Performs code L (.arms (⟨label, body, p⟩ :: rest) (a :: starts)) a b
  | noTargets {L : List Level} {a : Nat} {body : Node} :
      Performs code L (.targets [] body) a a
  | moreTargets {L : List Level} {a k l b : Nat} {target body : Node} {rest : List Node}
      {skip back : Jump} :
      code.Evaluates target a k → code.Has k (.pushEnv skip) → skip.Leads k (l + 1) →
      Performs code (⟨.within, l + 1, l⟩ :: L) (.one body) (k + 1) l →
      code.Has l (.popEnv back) → Performs code L (.targets rest body) (l + 1) b →
      Performs code L (.targets (target :: rest) body) a b

/-- Finished code does what the statements of a script say and has an instruction that ends the
script after them, unless the last of them is one. -/
structure Code.Realizes (code : Code) (body : List Node) (stop : Nat) : Prop where
  /-- The statements come first. -/
  performs : code.Performs [] (.all body) 0 stop
  /-- Then the script ends. -/
  ending : (code.size = stop + 1 ∧ code.Has stop .exit) ∨
    (code.size = stop ∧ code.Has (stop - 1) .exit)
  /-- No local variable has two places. -/
  nodup : code.locals.toList.Nodup

end Gml
