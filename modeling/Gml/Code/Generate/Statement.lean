import Gml.Code.Generate.Expression

/-!
# Writing code for statements

Code for a script is written in one walk over its tree. A statement leaves the stack as it was,
apart from what the constructs around it keep there: a `repeat` keeps its counter and a `switch`
its subject.
-/

namespace Gml

namespace Node

open Generate

/-- Gives local variables a slot, and their value if they have one. -/
def declarations : List (Binding Node) → Generate Unit
  | [] => return
  | binding :: rest => do
    let id ← slot binding.name
    if let some value := binding.value then
      value.expression
      write (.popLocal id)
    declarations rest

/-- Compares the subject of a switch with each label in turn, and gives the branches to the arms
that have one. -/
def labels : List (Case Node) → Generate (List (Option Nat))
  | [] => return []
  | arm :: rest => do
    match arm.label with
    | some label =>
      write (.dup 1)
      label.expression
      write (.cmp .equal)
      let site ← emit (.branchTrue .pending)
      return some site :: (← labels rest)
    | none => return none :: (← labels rest)

/-- Writes a statement that starts at a place. -/
def started (position : Position) (body : Generate Unit) : Generate Unit := do
  mark position
  body

/-- Runs a body as each of several instances in turn. -/
def eachInstance (position : Position) (body : Generate Frame) : List Node → Generate Unit
  | [] => return
  | target :: rest => do
    target.expression
    let enter ← emit (.pushEnv .pending)
    let start ← here
    let frame ← body
    patchAll frame.continues (← here) position
    branchBack (.popEnv .pending) start position
    patchHere enter position
    patchAll frame.breaks (← here) position
    eachInstance position body rest

mutual

/-- Writes code for a statement. -/
def statement : Node → Generate Unit
  | block p body => started p do
    statements body
  | assign p target operator value => started p do
    let place ← target.address
    match operator.binary? with
    | none => value.expression
    | some operator =>
      loadKeeping place
      value.expression
      write operator.instruction
    write place.store
  | discard p (update _ target step _) => started p do
    let place ← target.address
    loadKeeping place
    stepByOne step
    write place.store
  | discard p expression => started p do
    expression.expression
    write .popz
  | ifElse p condition thenBody elseBody => started p do
    condition.expression
    let skipThen ← emit (.branchFalse .pending)
    thenBody.statement
    match elseBody with
    | some elseBody =>
      let skipElse ← emit (.branch .pending)
      patchHere skipThen p
      elseBody.statement
      patchHere skipElse p
    | none => patchHere skipThen p
  | whileDo p condition body => started p do
    let start ← here
    condition.expression
    let leave ← emit (.branchFalse .pending)
    let frame ← inFrame .loop body.position body.statement
    patchAll frame.continues start p
    branchBack (.branch .pending) start p
    patchHere leave p
    patchAll frame.breaks (← here) p
  | doUntil p body condition => started p do
    let start ← here
    let frame ← inFrame .loop body.position body.statement
    patchAll frame.continues (← here) p
    condition.expression
    branchBack (.branchFalse .pending) start p
    patchAll frame.breaks (← here) p
  | repeatTimes p count body => started p do
    count.expression
    let start ← here
    write (.dup 1)
    write (.pushInt 0)
    write (.cmp .greater)
    let leave ← emit (.branchFalse .pending)
    let frame ← inFrame .counter body.position body.statement
    patchAll frame.continues (← here) p
    stepByOne .decrement
    branchBack (.branch .pending) start p
    patchHere leave p
    patchAll frame.breaks (← here) p
    write .popz
  | forLoop p init condition step body => started p do
    statements init
    let start ← here
    let leave ←
      match condition with
      | some condition =>
        condition.expression
        let site ← emit (.branchFalse .pending)
        pure [site]
      | none => pure []
    let frame ← inFrame .loop body.position body.statement
    patchAll frame.continues (← here) p
    statements step
    branchBack (.branch .pending) start p
    patchAll leave (← here) p
    patchAll frame.breaks (← here) p
  | switch p subject cases => started p do
    subject.expression
    let entries ← labels cases
    let otherwise ← emit (.branch .pending)
    let frame ← inFrame .switch p (arms cases entries (some otherwise))
    unless cases.any fun arm => arm.label.isNone do
      patchHere otherwise p
    patchAll frame.breaks (← here) p
    write .popz
  | withEach p targets body => started p do
    eachInstance p (inFrame .within body.position body.statement) targets
  | declare p bindings => started p do
    declarations bindings
  | declareGlobal p _ | declareEnum p _ _ => started p do
    return
  | returning p value => started p do
    match value with
    | some value =>
      value.expression
      leaveInstances
      write .ret
    | none =>
      leaveInstances
      write .exit
  | exit p => started p do
    leaveInstances
    write .exit
  | breaking p => started p do
    breakOut p
  | continuing p => started p do
    continueOn p
  | node => started node.position do
    fail .expressionAsStatement node.position
termination_by structural node => node

/-- Writes code for statements in sequence. -/
def statements : List Node → Generate Unit
  | [] => return
  | node :: rest => do
    node.statement
    statements rest
termination_by structural nodes => nodes

/-- Writes the arms of a switch in sequence, so that they fall through. The branches to the labelled
arms are given, and the one for a subject that no label equals; it goes to the first arm without a
label. -/
def arms : List (Case Node) → List (Option Nat) → Option Nat → Generate Unit
  | [], _, _ => return
  | ⟨_, body, position⟩ :: rest, entries, otherwise => do
    let otherwise ←
      match entries.head?.join, otherwise with
      | some site, otherwise => do
        patchHere site position
        pure otherwise
      | none, some site => do
        patchHere site position
        pure none
      | none, none => pure none
    statements body
    arms rest entries.tail otherwise
termination_by structural cases => cases

end

end Node

namespace Script

/-- The code of a script that is written from a state on. It ends in an instruction that ends the
script, for branches to its end to land on. -/
def generateFrom (start : Generator) (script : Script) : Except Diagnostic Code := do
  let (_, generator) ← (Node.statements script.body).run start
  let code := generator.code
  let code := if code.instructions.back? = some .exit then code else code.push .exit
  match code.firstPending? with
  | some site => throw ⟨.neverPatched site, code.positionOf site⟩
  | none => return code

/-- The code of a script. -/
def generate (script : Script) : Except Diagnostic Code :=
  script.generateFrom {}

end Script

end Gml
