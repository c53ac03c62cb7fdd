import Gml.Proofs.Code.Layout
import Gml.Proofs.Machine.Step

/-!
# Structured execution

What a statement means, said by recursion over the statement and without jumps. A `Flow` is the
control flow of a statement tree: the statements with the stretches of code that were written for
their expressions and targets in place of these (`Node.HasFlow`). To evaluate an expression is to run
its own instructions, from their first to the one after their last and with nothing on the stack. To
store to a target is to run the instructions of its address, and after the value those that store,
with the address and the value on the stack.

`Flow.exec` executes a flow. A statement ends in one of the ways of `Ending`, and the construct around
it goes by that. No loop takes more than a given number of rounds; an execution that needs more has no
result.
-/

namespace Gml

/-- A stretch of code, from one index up to another. -/
structure Extent where
  /-- The first index. -/
  start : Nat
  /-- The index after the last. -/
  stop : Nat

/-- The control flow of a statement. -/
inductive Flow where
  /-- A store of a value at an address. -/
  | assign (address value store : Extent)
  /-- A store of what an operation makes of the value at an address and another one. -/
  | compound (address load value store : Extent)
  /-- A step of the value at an address by one. -/
  | update (address change : Extent)
  /-- A value that is dropped. -/
  | discard (value : Extent)
  /-- Values of local variables, with the stores to these. -/
  | declare (bindings : List (Extent × Extent))
  /-- Statements in sequence. -/
  | block (body : List Flow)
  /-- A choice. -/
  | ifElse (condition : Extent) (thenBody elseBody : Flow)
  /-- A loop that tests first. -/
  | whileDo (condition : Extent) (body : Flow)
  /-- A loop that tests last. -/
  | doUntil (body : Flow) (condition : Extent)
  /-- A loop that counts down. -/
  | repeatTimes (count : Extent) (body : Flow)
  /-- A loop with a first and a last part. -/
  | forLoop (init : List Flow) (condition : Option Extent) (step : List Flow) (body : Flow)
  /-- A choice between arms by their labels. -/
  | switch (subject : Extent) (labels : List (Option Extent)) (bodies : List (List Flow))
  /-- Bodies that each run as an instance. -/
  | withEach (rounds : List (Extent × Flow))
  /-- The end of the script. -/
  | returning (value : Option Extent)
  /-- The end of the construct around. -/
  | breaking
  /-- The end of the round. -/
  | continuing

/-! ### The flow of a statement -/

/-- The stretch of code was written for an expression. -/
def Extent.IsOf (code : Code) (extent : Extent) (node : Node) : Prop :=
  code.Emits node.expression extent.start extent.stop

/-- The stretch of code was written for the address of a target, which lives at a place. -/
def Extent.IsAddressOf (code : Code) (extent : Extent) (node : Node) (place : Place) : Prop :=
  code.EmitsFor node.address place extent.start extent.stop

/-- The stretch of code consists of some instructions. -/
def Extent.Holds (code : Code) (extent : Extent) (instructions : List Instruction) : Prop :=
  code.Segment extent.start instructions ∧ extent.stop = extent.start + instructions.length

/-- The stretches of code of the values of local variables and of the stores to these. -/
inductive Node.HaveValues (code : Code) : List (Binding Node) → List (Extent × Extent) → Prop
  | nil : HaveValues code [] []
  | plain {name : String} {p : Position} {rest : List (Binding Node)}
      {values : List (Extent × Extent)} :
      HaveValues code rest values → HaveValues code (⟨name, none, p⟩ :: rest) values
  | valued {name : String} {value : Node} {p : Position} {rest : List (Binding Node)} {id : UInt32}
      {extent store : Extent} {values : List (Extent × Extent)} :
      extent.IsOf code value → Entry code.locals id name → store.Holds code [.popLocal id] →
      HaveValues code rest values →
      HaveValues code (⟨name, some value, p⟩ :: rest) ((extent, store) :: values)

/-- The stretches of code of the labels of a switch. -/
inductive Node.HaveLabels (code : Code) : List (Case Node) → List (Option Extent) → Prop
  | nil : HaveLabels code [] []
  | label {p : Position} {label : Node} {body : List Node} {cases : List (Case Node)}
      {extent : Extent} {labels : List (Option Extent)} :
      extent.IsOf code label → HaveLabels code cases labels →
      HaveLabels code (⟨some label, body, p⟩ :: cases) (some extent :: labels)
  | unlabelled {p : Position} {body : List Node} {cases : List (Case Node)}
      {labels : List (Option Extent)} :
      HaveLabels code cases labels → HaveLabels code (⟨none, body, p⟩ :: cases) (none :: labels)

mutual

/-- The flow has the shape of a statement, and its stretches of code were written for the parts of
the statement. -/
inductive Node.HasFlow (code : Code) : Node → Flow → Prop
  | assign {p : Position} {target value : Node} {operator : AssignOp} {place : Place}
      {address extent store : Extent} :
      operator.binary? = none → address.IsAddressOf code target place → extent.IsOf code value →
      store.Holds code [place.store] →
      HasFlow code (.assign p target operator value) (.assign address extent store)
  | compound {p : Position} {target value : Node} {operator : AssignOp} {operation : BinaryOp}
      {place : Place} {address load extent store : Extent} :
      operator.binary? = some operation → address.IsAddressOf code target place →
      load.Holds code place.keeping → extent.IsOf code value →
      store.Holds code [operation.instruction, place.store] →
      HasFlow code (.assign p target operator value) (.compound address load extent store)
  | update {p q : Position} {target : Node} {step : Step} {inFront : Bool} {place : Place}
      {address change : Extent} :
      address.IsAddressOf code target place →
      change.Holds code (place.keeping ++ [.pushInt 1, step.instruction, place.store]) →
      HasFlow code (.discard p (.update q target step inFront)) (.update address change)
  | discard {p : Position} {expression : Node} {extent : Extent} :
      expression.isUpdate = false → extent.IsOf code expression →
      HasFlow code (.discard p expression) (.discard extent)
  | declare {p : Position} {bindings : List (Binding Node)} {values : List (Extent × Extent)} :
      Node.HaveValues code bindings values →
      HasFlow code (.declare p bindings) (.declare values)
  | declareGlobal {p : Position} {names : List String} :
      HasFlow code (.declareGlobal p names) (.block [])
  | declareEnum {p : Position} {name : String} {members : List (Binding Node)} :
      HasFlow code (.declareEnum p name members) (.block [])
  | block {p : Position} {body : List Node} {flows : List Flow} :
      HaveFlows code body flows → HasFlow code (.block p body) (.block flows)
  | ifThen {p : Position} {condition thenBody : Node} {test : Extent} {flow : Flow} :
      test.IsOf code condition → HasFlow code thenBody flow →
      HasFlow code (.ifElse p condition thenBody none) (.ifElse test flow (.block []))
  | ifElse {p : Position} {condition thenBody elseBody : Node} {test : Extent}
      {thenFlow elseFlow : Flow} :
      test.IsOf code condition → HasFlow code thenBody thenFlow → HasFlow code elseBody elseFlow →
      HasFlow code (.ifElse p condition thenBody (some elseBody)) (.ifElse test thenFlow elseFlow)
  | whileDo {p : Position} {condition body : Node} {test : Extent} {flow : Flow} :
      test.IsOf code condition → HasFlow code body flow →
      HasFlow code (.whileDo p condition body) (.whileDo test flow)
  | doUntil {p : Position} {condition body : Node} {test : Extent} {flow : Flow} :
      HasFlow code body flow → test.IsOf code condition →
      HasFlow code (.doUntil p body condition) (.doUntil flow test)
  | repeatTimes {p : Position} {count body : Node} {times : Extent} {flow : Flow} :
      times.IsOf code count → HasFlow code body flow →
      HasFlow code (.repeatTimes p count body) (.repeatTimes times flow)
  | forLoop {p : Position} {init step : List Node} {condition body : Node}
      {initFlows stepFlows : List Flow} {test : Extent} {flow : Flow} :
      HaveFlows code init initFlows → test.IsOf code condition → HaveFlows code step stepFlows →
      HasFlow code body flow → HasFlow code (.forLoop p init (some condition) step body)
        (.forLoop initFlows (some test) stepFlows flow)
  | forEver {p : Position} {init step : List Node} {body : Node}
      {initFlows stepFlows : List Flow} {flow : Flow} :
      HaveFlows code init initFlows → HaveFlows code step stepFlows → HasFlow code body flow →
      HasFlow code (.forLoop p init none step body) (.forLoop initFlows none stepFlows flow)
  | switch {p : Position} {subject : Node} {cases : List (Case Node)} {extent : Extent}
      {labels : List (Option Extent)} {bodies : List (List Flow)} :
      extent.IsOf code subject → Node.HaveLabels code cases labels → HaveBodies code cases bodies →
      HasFlow code (.switch p subject cases) (.switch extent labels bodies)
  | withEach {p : Position} {targets : List Node} {body : Node} {rounds : List (Extent × Flow)} :
      HaveRounds code body targets rounds →
      HasFlow code (.withEach p targets body) (.withEach rounds)
  | returnValue {p : Position} {value : Node} {extent : Extent} :
      extent.IsOf code value → HasFlow code (.returning p (some value)) (.returning (some extent))
  | returnNothing {p : Position} : HasFlow code (.returning p none) (.returning none)
  | exit {p : Position} : HasFlow code (.exit p) (.returning none)
  | breaking {p : Position} : HasFlow code (.breaking p) .breaking
  | continuing {p : Position} : HasFlow code (.continuing p) .continuing

/-- The flows of statements in sequence. -/
inductive Node.HaveFlows (code : Code) : List Node → List Flow → Prop
  | nil : HaveFlows code [] []
  | cons {node : Node} {nodes : List Node} {flow : Flow} {flows : List Flow} :
      HasFlow code node flow → HaveFlows code nodes flows →
      HaveFlows code (node :: nodes) (flow :: flows)

/-- The flows of the arms of a switch. -/
inductive Node.HaveBodies (code : Code) : List (Case Node) → List (List Flow) → Prop
  | nil : HaveBodies code [] []
  | cons {p : Position} {label : Option Node} {body : List Node} {cases : List (Case Node)}
      {flows : List Flow} {bodies : List (List Flow)} :
      HaveFlows code body flows → HaveBodies code cases bodies →
      HaveBodies code (⟨label, body, p⟩ :: cases) (flows :: bodies)

/-- The flows of a body that runs as each of several instances, which has code for each of them. -/
inductive Node.HaveRounds (code : Code) : Node → List Node → List (Extent × Flow) → Prop
  | nil {body : Node} : HaveRounds code body [] []
  | cons {body target : Node} {targets : List Node} {extent : Extent} {flow : Flow}
      {rounds : List (Extent × Flow)} :
      extent.IsOf code target → HasFlow code body flow → HaveRounds code body targets rounds →
      HaveRounds code body (target :: targets) ((extent, flow) :: rounds)

end

/-! ### Executions -/

/-- A structured execution: it has a result or traps, unless a loop takes too many rounds. -/
abbrev Structured := ExceptT Trap (StateT Machine Option)

/-- The machine elsewhere in the code, with another stack and other instances to go back to. -/
def Machine.placed (m : Machine) (next : Nat) (stack : List Value) (outer : List Int) : Machine :=
  { m with next, stack, outer }

/-- Takes instructions, at most so many, until the machine stands at an index. -/
def Machine.through (code : Code) (stop : Nat) : Nat → Machine → Outcome
  | 0, m => .running m
  | count + 1, m =>
    if m.next = stop then .running m
    else
      match m.step code with
      | .running m => m.through code stop count
      | outcome => outcome

/-- Runs a stretch of code by itself, with some values on the stack. Its branches only go forward. -/
def Extent.run (code : Code) (extent : Extent) (stack : List Value) (m : Machine) : Outcome :=
  (m.placed extent.start stack []).through code extent.stop (extent.stop - extent.start)

/-- What a stretch of code leaves on the stack. No script ends inside of an expression. -/
def Outcome.values : Outcome → Option (Except Trap (List Value) × Machine)
  | running m => some (.ok m.stack, m)
  | trapped trap m => some (.error trap, m)
  | ended _ _ => none

namespace Structured

variable {α : Type}

/-- What an execution comes to on a machine. -/
def on (x : Structured α) (m : Machine) : Option (Except Trap α × Machine) :=
  x.run.run m

/-- A part of a step of the machine. -/
def ofExec (x : Exec α) : Structured α :=
  ExceptT.mk fun m => some (x.on m)

/-- Too many rounds. -/
def exhausted : Structured α :=
  ExceptT.mk fun _ => none

/-- Runs a stretch of code that takes some values and leaves others. -/
def runs (code : Code) (extent : Extent) (stack : List Value) : Structured (List Value) :=
  ExceptT.mk fun m => (extent.run code stack m).values

/-- Evaluates an expression. -/
def evaluate (code : Code) (extent : Extent) : Structured Value := do
  match ← runs code extent [] with
  | [value] => return value
  | _ => exhausted

/-- Stores a value at an address. -/
def store (code : Code) (extent : Extent) (address : List Value) (value : Value) :
    Structured Unit := do
  let _ ← runs code extent (value :: address)

/-- Gives local variables their values. -/
def declareAll (code : Code) : List (Extent × Extent) → Structured Unit
  | [] => return
  | (value, target) :: rest => do
    store code target [] (← evaluate code value)
    declareAll code rest

end Structured

/-- How a statement ends. -/
inductive Ending where
  /-- The next statement follows. -/
  | done
  /-- The construct around is left. -/
  | broke
  /-- The next round of the loop around follows. -/
  | continued
  /-- The script ends with a result, after so many bodies of `repeat` and `switch` were left. -/
  | returned (result : Value) (left : Nat)

namespace Ending

/-- What a round of a loop comes to by the ending of its body: the loop goes on or ends, too. -/
def round : Ending → Option Ending
  | done | continued => none
  | broke => some done
  | returned result left => some (returned result left)

/-- The result of a script that ends so. -/
def result : Ending → Value
  | returned result _ => result
  | _ => .undefined

/-- The number of bodies of `repeat` and `switch` that were left by the end of the script. -/
def left : Ending → Nat
  | returned _ left => left
  | _ => 0

/-- The ending of a `repeat` or a `switch` around a body that ended so. -/
def leaving : Ending → Ending
  | returned result left => returned result (left + 1)
  | ending => ending

end Ending

namespace Structured

/-- Takes rounds until one of them ends the loop. -/
def loop (round : Structured (Option Ending)) : Nat → Structured Ending
  | 0 => exhausted
  | count + 1 => do
    match ← round with
    | some ending => return ending
    | none => loop round count

/-- Takes rounds while a counter is positive, which loses one in each. -/
def countdown (body : Structured Ending) : Nat → Value → Structured Ending
  | 0, _ => exhausted
  | count + 1, counter => do
    if ← ofExec (Exec.compares .greater counter (.real 0)) then
      match (← body).round with
      | some ending => return ending.leaving
      | none => countdown body count (← ofExec (Exec.operate .sub counter (.real 1)))
    else return .done

/-- The first arm whose label equals the subject of a switch. -/
def choose (code : Code) (subject : Value) : List (Option Extent) → Structured (Option Nat)
  | [] => return none
  | none :: labels => return (← choose code subject labels).map (· + 1)
  | some label :: labels => do
    if ← ofExec (Exec.compares .equal subject (← evaluate code label)) then return some 0
    else return (← choose code subject labels).map (· + 1)

/-- Whether a loop goes on. Without a condition it does. -/
def test (code : Code) : Option Extent → Structured Bool
  | some condition => return (← evaluate code condition).isTrue
  | none => return true

end Structured

namespace Flow

open Structured

mutual

/-- Executes a statement, with so many rounds for each loop. -/
def exec (code : Code) (rounds : Nat) : Flow → Structured Ending
  | assign address value target => do
    let place ← runs code address []
    store code target place (← evaluate code value)
    return .done
  | compound address load value target => do
    let place ← runs code address []
    -- The value that was there lies on top of the address.
    let loaded ← runs code load place
    store code target loaded (← evaluate code value)
    return .done
  | update address change => do
    let place ← runs code address []
    let _ ← runs code change place
    return .done
  | discard value => do
    let _ ← evaluate code value
    return .done
  | declare bindings => do
    declareAll code bindings
    return .done
  | block body => execAll code rounds body
  | ifElse condition thenBody elseBody => do
    if (← evaluate code condition).isTrue then exec code rounds thenBody
    else exec code rounds elseBody
  | whileDo condition body =>
    loop (do
      if (← evaluate code condition).isTrue then return (← exec code rounds body).round
      else return some .done) rounds
  | doUntil body condition =>
    loop (do
      match (← exec code rounds body).round with
      | some ending => return some ending
      | none => return if (← evaluate code condition).isTrue then some .done else none) rounds
  | repeatTimes count body => do
    countdown (exec code rounds body) rounds (← evaluate code count)
  | forLoop init condition step body => do
    match ← execAll code rounds init with
    | .done =>
      loop (do
        if ← test code condition then
          match (← exec code rounds body).round with
          | some ending => return some ending
          | none =>
            match ← execAll code rounds step with
            | .done => return none
            | ending => return some ending
        else return some .done) rounds
    | ending => return ending
  | switch subject labels bodies => do
    let chosen ← choose code (← evaluate code subject) labels
    -- The first arm without a label is for the subjects that no label equals.
    let first := chosen.getD (labels.findIdx Option.isNone)
    match ← execArms code rounds first bodies with
    | .broke => return .done
    | ending => return ending.leaving
  | withEach targets => execRounds code rounds targets
  | returning none => return .returned .undefined 0
  | returning (some value) => return .returned (← evaluate code value) 0
  | breaking => return .broke
  | continuing => return .continued
termination_by structural flow => flow

/-- Executes statements in sequence. -/
def execAll (code : Code) (rounds : Nat) : List Flow → Structured Ending
  | [] => return .done
  | flow :: flows => do
    match ← exec code rounds flow with
    | .done => execAll code rounds flows
    | ending => return ending
termination_by structural flows => flows

/-- Executes the arms of a switch in sequence, from one of them on. -/
def execArms (code : Code) (rounds : Nat) : Nat → List (List Flow) → Structured Ending
  | _, [] => return .done
  | skipped + 1, _ :: bodies => execArms code rounds skipped bodies
  | 0, body :: bodies => do
    match ← execAll code rounds body with
    | .done => execArms code rounds 0 bodies
    | ending => return ending
termination_by structural _ bodies => bodies

/-- Executes bodies in sequence, each as the instance that its target tells, if it exists. -/
def execRounds (code : Code) (rounds : Nat) : List (Extent × Flow) → Structured Ending
  | [] => return .done
  | (target, body) :: rest => do
    let number ← ofExec (Exec.number (← evaluate code target))
    let id := Exec.instanceId number
    let before ← get
    if before.instances.contains id then
      modify fun m => { m with current := id }
      let ending ← exec code rounds body
      modify fun m => { m with current := before.current }
      match ending with
      | .returned result left => return .returned result left
      | _ => execRounds code rounds rest
    else execRounds code rounds rest
termination_by structural rest => rest

end

end Flow

end Gml
