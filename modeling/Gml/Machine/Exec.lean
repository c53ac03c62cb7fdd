import Gml.Machine

/-!
# Parts of a step

What instructions are made of: taking values from the stack and pushing them, loading and storing
variables, elements of arrays and fields of structs, and operations on values. A part that traps
leaves the machine as it was when the trap arose: what was taken from the stack before is gone.
-/

namespace Gml

/-- A part of a step of the machine. -/
abbrev Exec := ExceptT Trap (StateM Machine)

/-- Splits the top values from a stack. -/
def splitTop : Nat → List Value → Option (List Value × List Value)
  | 0, stack => some ([], stack)
  | _ + 1, [] => none
  | count + 1, value :: stack => do
    let (top, rest) ← splitTop count stack
    return (value :: top, rest)

namespace Exec

/-! ### The stack -/

/-- Pushes a value. -/
def push (value : Value) : Exec Unit :=
  modify fun machine => { machine with stack := value :: machine.stack }

/-- Takes the top value. -/
def pop : Exec Value := do
  match (← get).stack with
  | [] => throw .stackUnderflow
  | value :: stack =>
    modify fun machine => { machine with stack }
    return value

/-- Takes several values at once, and gives the top one last. -/
def popMany (count : Nat) : Exec (List Value) := do
  match splitTop count (← get).stack with
  | none => throw .stackUnderflow
  | some (top, stack) =>
    modify fun machine => { machine with stack }
    return top.reverse

/-- Pushes the top values once more. -/
def duplicate (count : Nat) : Exec Unit := do
  match splitTop count (← get).stack with
  | none => throw .stackUnderflow
  | some (top, _) => modify fun machine => { machine with stack := top ++ machine.stack }

/-- The number that a value is. -/
def number : Value → Exec Float
  | .real number => return number
  | value => throw (.notNumber value)

/-- Takes a number. -/
def popNumber : Exec Float := do
  number (← pop)

/-! ### Whole numbers -/

/-- The index that a number is. -/
def index (number : Float) : Nat :=
  ((Double.ofFloat number).toIntWithin 0 (UInt64.size - 1)).toNat

/-- The instance that a number is. -/
def instanceId (number : Float) : Int :=
  (Double.ofFloat number).toIntWithin Int32.minValue.toInt Int32.maxValue.toInt

/-- The 64 bits that a number is. -/
def bits (number : Float) : Int64 :=
  Int64.ofInt ((Double.ofFloat number).toIntWithin Int64.minValue.toInt Int64.maxValue.toInt)

/-- The number that 64 bits are. -/
def ofBits (bits : Int64) : Float :=
  Float.ofInt bits.toInt

/-! ### Variables -/

/-- A string of the tables. -/
def string (code : Code) (id : UInt32) : Exec String :=
  match code.strings[id.toNat]? with
  | some string => return string
  | none => throw (.noString id.toNat)

/-- The variables of an instance. -/
def variablesOf (id : Int) : Exec (Table String Value) := do
  match (← get).instances.get? id with
  | some known => return known
  | none => throw (.noInstance id)

/-- Pushes a variable of an instance. -/
def loadVariable (id : Int) (name : String) : Exec Unit := do
  push (((← variablesOf id).get? name).getD .undefined)

/-- Sets a variable of an instance. -/
def storeVariable (id : Int) (name : String) (value : Value) : Exec Unit := do
  let known ← variablesOf id
  modify fun machine =>
    { machine with instances := machine.instances.insert id (known.insert name value) }

/-- Pushes an argument. -/
def loadArgument (index : Nat) : Exec Unit := do
  push ((← get).arguments[index]?.getD .undefined)

/-- Sets an argument, and those before it that are not there. -/
def storeArgument (index : Nat) (value : Value) : Exec Unit :=
  modify fun machine =>
    let missing := index + 1 - machine.arguments.size
    { machine with
      arguments :=
        (machine.arguments ++ Array.replicate missing Value.undefined).setIfInBounds index value }

/-! ### Arrays and structs -/

/-- Pushes a new array. -/
def newArray (items : List Value) : Exec Unit := do
  let value ← modifyGet fun machine =>
    let (value, heap) := machine.heap.newArray items.toArray
    (value, { machine with heap })
  push value

/-- The fields that keys and values in turn are. -/
def pairs (heap : Heap) : List Value → List (String × Value)
  | key :: value :: rest => (key.key heap, value) :: pairs heap rest
  | _ => []

/-- Pushes a new struct. -/
def newStruct (entries : List Value) : Exec Unit := do
  let value ← modifyGet fun machine =>
    let (value, heap) := machine.heap.newStruct (Table.ofList (pairs machine.heap entries))
    (value, { machine with heap })
  push value

/-- The element of a container at some indices. The elements of an array that are not there are
undefined. -/
def element (accessor : Accessor) : List Value → Value → Exec Value
  | indices, .struct place => do
    if accessor = .map then
      match indices with
      | key :: _ =>
        let heap := (← get).heap
        return ((heap.fields place).get? (key.key heap)).getD .undefined
      | [] => throw .noIndex
    else throw (.notContainer (.struct place))
  | [], .array _ => throw .noIndex
  | first :: rest, .array place => do
    let position ← index <$> number first
    let item := ((← get).heap.items place)[position]?.getD .undefined
    match rest with
    | [] => return item
    | _ => element accessor rest item
  | _, value => throw (.notContainer value)

/-- Sets an item of an array. -/
def setItem (place index : Nat) (value : Value) : Exec Unit :=
  modify fun machine => { machine with heap := machine.heap.setItem place index value }

/-- The row at an index of an array, which is put there if there is none. -/
def row (place index : Nat) : Exec Value := do
  match ((← get).heap.items place)[index]? with
  | some (.array row) => return .array row
  | _ =>
    let row ← modifyGet fun machine =>
      let (row, heap) := machine.heap.newArray #[]
      (row, { machine with heap })
    setItem place index row
    return row

/-- Sets the element of a container at some indices. An array grows as far as it has to. -/
def setElement (accessor : Accessor) (value : Value) : List Value → Value → Exec Unit
  | indices, .struct place => do
    if accessor = .map then
      match indices with
      | key :: _ =>
        modify fun machine =>
          let name := key.key machine.heap (some place)
          { machine with heap := machine.heap.setField place name value }
      | [] => throw .noIndex
    else throw (.notContainer (.struct place))
  | [], .array _ => throw .noIndex
  | first :: rest, .array place => do
    let position ← index <$> number first
    match rest with
    | [] => setItem place position value
    | _ => setElement accessor value rest (← row place position)
  | _, value => throw (.notContainer value)

/-! ### Operations -/

/-- An operation on two values. Strings can be added too. Bits are shifted by an amount modulo 64. -/
def operate (instruction : Instruction) (lhs rhs : Value) : Exec Value := do
  match instruction, lhs, rhs with
  | .add, .string x, .string y => return .string (x ++ y)
  | _, _, _ =>
    let x ← number lhs
    let y ← number rhs
    let result ←
      match instruction with
      | .add => pure (x + y)
      | .sub => pure (x - y)
      | .mul => pure (x * y)
      | .div => pure (x / y)
      | .intDiv => pure (Number.truncate (x / y))
      | .mod => pure (Number.remainder x y)
      | .bitAnd => pure (ofBits (bits x &&& bits y))
      | .bitOr => pure (ofBits (bits x ||| bits y))
      | .bitXor => pure (ofBits (bits x ^^^ bits y))
      | .shl => pure (ofBits (bits x <<< bits y))
      | .shr => pure (ofBits (bits x >>> bits y))
      | instruction => throw (.notOperation instruction)
    return .real result

/-- Whether two values compare so. Values without an order are just different. -/
def compares (comparison : Comparison) (lhs rhs : Value) : Exec Bool :=
  match lhs.order? rhs, comparison with
  | some order, comparison => return comparison.holds order
  | none, .equal => return false
  | none, .notEqual => return true
  | none, _ => throw (.notComparable lhs rhs)

/-- Goes on at the target of the branch at a site. -/
def jump (site : Int) : Jump → Exec Unit
  | .relative distance => modify fun machine => { machine with next := site + distance.toInt }
  | .pending => throw (.unpatched site)

/-- Becomes another instance, if it exists. -/
def enter (id : Int) : Exec Bool :=
  modifyGet fun machine =>
    if machine.instances.contains id then
      (true, { machine with current := id, outer := machine.current :: machine.outer })
    else (false, machine)

/-- Becomes the instance before. -/
def leave : Exec Unit := do
  match (← get).outer with
  | [] => throw .environmentUnderflow
  | id :: outer => modify fun machine => { machine with current := id, outer }

/-- Writes down a call. -/
def log (call : String) : Exec Unit :=
  modify fun machine => { machine with calls := machine.calls.push call }

end Exec

end Gml
