import Gml.Machine.Exec

/-!
# Running code

One step takes one instruction. A run goes on until the script ends, until an instruction traps, or
until the script has taken more instructions than a run may take.
-/

namespace Gml

namespace Exec

/-- Does what the instruction at a site says. The result is that of the script, if it ends. -/
def execute (code : Code) (site : Int) : Instruction → Exec (Option Value)
  | .pushInt value => do
    push (.real (Float.ofInt value.toInt))
    return none
  | .pushReal id => do
    match code.constants[id.toNat]? with
    | some constant => push (.real constant.toFloat)
    | none => throw (.noConstant id.toNat)
    return none
  | .pushString id | .pushFunction id => do
    push (.string (← string code id))
    return none
  | .pushLocal slot => do
    match (← get).locals[slot.toNat]? with
    | some value => push value
    | none => throw (.noLocal slot.toNat)
    return none
  | .popLocal slot => do
    let value ← pop
    if slot.toNat < (← get).locals.size then
      modify fun machine => { machine with locals := machine.locals.setIfInBounds slot.toNat value }
    else throw (.noLocal slot.toNat)
    return none
  | .pushInstance id => do
    let name ← string code id
    loadVariable (← get).current name
    return none
  | .popInstance id => do
    let name ← string code id
    let value ← pop
    storeVariable (← get).current name value
    return none
  | .pushGlobal id => do
    let name ← string code id
    push (((← get).globals.get? name).getD .undefined)
    return none
  | .popGlobal id => do
    let name ← string code id
    let value ← pop
    modify fun machine => { machine with globals := machine.globals.insert name value }
    return none
  | .pushBuiltin id => do
    let name ← string code id
    push (((← get).builtins.get? name).getD (.real 0))
    return none
  | .popBuiltin id => do
    let name ← string code id
    let value ← pop
    modify fun machine => { machine with builtins := machine.builtins.insert name value }
    return none
  | .pushArgument argument => do
    loadArgument argument.toNat
    return none
  | .popArgument argument => do
    storeArgument argument.toNat (← pop)
    return none
  | .pushArgumentIndexed => do
    loadArgument (index (← popNumber))
    return none
  | .popArgumentIndexed => do
    let value ← pop
    storeArgument (index (← popNumber)) value
    return none
  | .pushField id => do
    let name ← string code id
    loadVariable (instanceId (← popNumber)) name
    return none
  | .popField id => do
    let name ← string code id
    let value ← pop
    storeVariable (instanceId (← popNumber)) name value
    return none
  | .loadIndex accessor dims => do
    let indices ← popMany dims.toNat
    let container ← pop
    push (← element accessor indices container)
    return none
  | .storeIndex accessor dims => do
    let value ← pop
    let indices ← popMany dims.toNat
    let container ← pop
    setElement accessor value indices container
    return none
  | .newArray count => do
    newArray (← popMany count.toNat)
    return none
  | .newStruct count => do
    newStruct (← popMany (2 * count.toNat))
    return none
  | .dup count => do
    duplicate count.toNat
    return none
  | .popz => do
    let _ ← pop
    return none
  | .neg => do
    push (.real (-(← popNumber)))
    return none
  | .not => do
    push (.ofBool !(← pop).isTrue)
    return none
  | .bitNot => do
    push (.real (ofBits (~~~ bits (← popNumber))))
    return none
  | .cmp comparison => do
    let rhs ← pop
    let lhs ← pop
    push (.ofBool (← compares comparison lhs rhs))
    return none
  | .branch target => do
    jump site target
    return none
  | .branchTrue target => do
    if (← pop).isTrue then
      jump site target
    return none
  | .branchFalse target => do
    unless (← pop).isTrue do
      jump site target
    return none
  | .pushEnv target => do
    unless ← enter (instanceId (← popNumber)) do
      jump site target
    return none
  | .popEnv _ | .popEnvExit => do
    leave
    return none
  | .call function argc => do
    let name ← string code function
    let arguments ← popMany argc.toNat
    log name
    push (arguments.getLast?.getD (.real 0))
    return none
  | .callScript reference argc => do
    let _ ← popMany argc.toNat
    log s!"script {reference}"
    push .undefined
    return none
  | .callValue argc => do
    let _ ← pop
    let _ ← popMany argc.toNat
    push .undefined
    return none
  | .ret => return some (← pop)
  | .exit => return some .undefined
  | instruction => do
    let rhs ← pop
    let lhs ← pop
    push (← operate instruction lhs rhs)
    return none

/-- The instruction at an index, if the index is within the code. -/
def fetch? (code : Code) (index : Int) : Option Instruction :=
  if 0 ≤ index then code.instructions[index.toNat]? else none

/-- Runs until the script ends, for at most so many instructions of a limit. -/
def runWithin (code : Code) (limit : Nat) : Nat → Exec Value
  | 0 => do
    if (fetch? code (← get).next).isSome then throw (.outOfTime limit)
    return .undefined
  | budget + 1 => do
    let site := (← get).next
    match fetch? code site with
    | none => return .undefined
    | some instruction =>
      modify fun machine => { machine with next := site + 1 }
      match ← execute code site instruction with
      | some result => return result
      | none => runWithin code limit budget

end Exec

namespace Machine

/-- How many instructions a run may take. -/
def limit : Nat := 100000

/-- Runs until the script ends or traps. A machine can be run again, and goes on where it
stopped. -/
def run (machine : Machine) (code : Code) : Except Trap Value × Machine :=
  (Exec.runWithin code limit limit).run.run machine

end Machine

end Gml
