import Gml.Code
import Gml.Machine.Trap

/-!
# The machine

A stack machine that runs code. It holds a stack of values, the local variables and arguments of the
script, the variables of instances, of the game and of the target, and a stack of the instances that
it acted as before the current one.
-/

namespace Gml

/-- The state of a machine. -/
structure Machine where
  /-- The index of the next instruction. -/
  next : Int := 0
  /-- The stack, its top first. -/
  stack : List Value := []
  /-- The local variables. -/
  locals : Array Value := #[]
  /-- The variables of each instance. -/
  instances : Table Int (Table String Value) := {}
  /-- The instance that the machine acts as. -/
  current : Int := 0
  /-- The instances that it acted as before, the last one first. -/
  outer : List Int := []
  /-- The global variables. -/
  globals : Table String Value := {}
  /-- The variables of the target. -/
  builtins : Table String Value := {}
  /-- The arguments of the script. -/
  arguments : Array Value := #[]
  /-- The arrays and structs. -/
  heap : Heap := {}
  /-- The calls so far: the names of functions, and scripts by number. -/
  calls : Array String := #[]
  deriving Inhabited

namespace Machine

/-- The instance that a script starts as. -/
def selfId : Int := 0

/-- A machine that has not run yet. -/
def start (code : Code) : Machine :=
  { locals := Array.replicate code.locals.size .undefined
    instances := Table.ofList [(selfId, {})] }

/-- Adds an instance, unless it exists. -/
def addInstance (machine : Machine) (id : Int) : Machine :=
  if machine.instances.contains id then machine
  else { machine with instances := machine.instances.insert id {} }

/-- Sets a variable of the instance that the script starts as. -/
def setVariable (machine : Machine) (name : String) (value : Value) : Machine :=
  match machine.instances.get? selfId with
  | some known =>
    { machine with instances := machine.instances.insert selfId (known.insert name value) }
  | none => machine

/-- A variable of an instance. -/
def valueOf? (machine : Machine) (id : Int) (name : String) : Option Value := do
  let known ← machine.instances.get? id
  known.get? name

end Machine

end Gml
