import Gml.Comparison
import Gml.Tree.Text

/-!
# Instructions

The instructions of the stack machine that scripts are compiled to. An instruction names entries of
the tables that come with the code (strings, constants, local variables) by their index, and a
branch tells its target by the distance from itself. Each instruction has an operation code and a
fixed number of operands.
-/

namespace Gml

/-- Where a branch goes. -/
inductive Jump where
  /-- Not known yet. -/
  | pending
  /-- So many instructions further on. -/
  | relative (distance : Int32)
  deriving DecidableEq, Repr, Inhabited

/-- An instruction. -/
inductive Instruction where
  /-- Pushes a number. -/
  | pushInt (value : Int32)
  /-- Pushes a constant. -/
  | pushReal (constant : UInt32)
  /-- Pushes a string. -/
  | pushString (string : UInt32)
  /-- Pushes a local variable. -/
  | pushLocal (slot : UInt32)
  /-- Stores into a local variable. -/
  | popLocal (slot : UInt32)
  /-- Pushes a variable of the current instance. -/
  | pushInstance (name : UInt32)
  /-- Stores into a variable of the current instance. -/
  | popInstance (name : UInt32)
  /-- Pushes a global variable. -/
  | pushGlobal (name : UInt32)
  /-- Stores into a global variable. -/
  | popGlobal (name : UInt32)
  /-- Pushes a variable of the target. -/
  | pushBuiltin (name : UInt32)
  /-- Stores into a variable of the target. -/
  | popBuiltin (name : UInt32)
  /-- Pushes an argument. -/
  | pushArgument (argument : UInt8)
  /-- Stores into an argument. -/
  | popArgument (argument : UInt8)
  /-- Takes an index and pushes that argument. -/
  | pushArgumentIndexed
  /-- Takes an index and a value and stores into that argument. -/
  | popArgumentIndexed
  /-- Pushes a reference to a function of the target. -/
  | pushFunction (name : UInt32)
  /-- Takes an instance and pushes a variable of it. -/
  | pushField (name : UInt32)
  /-- Takes an instance and a value and stores into a variable of it. -/
  | popField (name : UInt32)
  /-- Takes a container and indices and pushes the element. -/
  | loadIndex (accessor : Accessor) (dims : UInt8)
  /-- Takes a container, indices and a value and stores the element. -/
  | storeIndex (accessor : Accessor) (dims : UInt8)
  /-- Takes elements and pushes an array of them. -/
  | newArray (count : UInt32)
  /-- Takes keys and values in turn and pushes a struct of them. -/
  | newStruct (count : UInt32)
  /-- Pushes the top values once more, as a group. -/
  | dup (count : UInt8)
  /-- Drops the top value. -/
  | popz
  /-- Takes two values and pushes their sum; likewise for the operations below. -/
  | add
  | sub
  | mul
  | div
  | intDiv
  | mod
  | bitAnd
  | bitOr
  | bitXor
  | shl
  | shr
  /-- Takes a value and pushes its negative; likewise for the two below. -/
  | neg
  | not
  | bitNot
  /-- Takes two values and pushes whether they compare so. -/
  | cmp (comparison : Comparison)
  /-- Jumps. -/
  | branch (target : Jump)
  /-- Takes a value and jumps if it counts as true. -/
  | branchTrue (target : Jump)
  /-- Takes a value and jumps unless it counts as true. -/
  | branchFalse (target : Jump)
  /-- Takes an instance and becomes it, or jumps if there is none. -/
  | pushEnv (target : Jump)
  /-- Becomes the instance before. -/
  | popEnv (target : Jump)
  /-- Becomes the instance before, on the way out of the body. -/
  | popEnvExit
  /-- Takes arguments and calls a function of the target. -/
  | call (function : UInt32) (argc : UInt8)
  /-- Takes arguments and calls a script. -/
  | callScript (reference : Int32) (argc : UInt8)
  /-- Takes arguments and a callee and calls it. -/
  | callValue (argc : UInt8)
  /-- Ends the script with the top value. -/
  | ret
  /-- Ends the script without a value. -/
  | exit
  deriving DecidableEq, Repr, Inhabited

/-- The number of an accessor within a group of operation codes. -/
def Accessor.code : Accessor → Nat
  | array => 0
  | map => 1
  | arrayRef => 2
  | grid => 3
  | list => 4

namespace Instruction

/-- The operation code. -/
def opcode : Instruction → Nat
  | pushInt .. => 0x01
  | pushReal .. => 0x02
  | pushString .. => 0x03
  | pushLocal .. => 0x04
  | popLocal .. => 0x05
  | pushInstance .. => 0x06
  | popInstance .. => 0x07
  | pushGlobal .. => 0x08
  | popGlobal .. => 0x09
  | pushBuiltin .. => 0x0a
  | popBuiltin .. => 0x0b
  | pushArgument .. => 0x0c
  | popArgument .. => 0x0d
  | pushArgumentIndexed => 0x0e
  | popArgumentIndexed => 0x0f
  | pushFunction .. => 0x10
  | pushField .. => 0x11
  | popField .. => 0x12
  | loadIndex accessor _ => 0x20 + accessor.code
  | storeIndex accessor _ => 0x28 + accessor.code
  | newArray .. => 0x30
  | newStruct .. => 0x31
  | dup .. => 0x32
  | popz => 0x33
  | add => 0x40
  | sub => 0x41
  | mul => 0x42
  | div => 0x43
  | intDiv => 0x44
  | mod => 0x45
  | bitAnd => 0x46
  | bitOr => 0x47
  | bitXor => 0x48
  | shl => 0x49
  | shr => 0x4a
  | neg => 0x4b
  | not => 0x4c
  | bitNot => 0x4d
  | cmp .. => 0x4e
  | branch .. => 0x50
  | branchTrue .. => 0x51
  | branchFalse .. => 0x52
  | pushEnv .. => 0x53
  | popEnv .. => 0x54
  | popEnvExit => 0x55
  | call .. => 0x60
  | callScript .. => 0x61
  | callValue .. => 0x62
  | ret => 0x63
  | exit => 0x64

/-- The number of operands that follow an operation code, if it is one. -/
def operandCount? (opcode : Nat) : Option Nat :=
  if 0x01 ≤ opcode && opcode ≤ 0x0d then some 1
  else if 0x0e ≤ opcode && opcode ≤ 0x0f then some 0
  else if 0x10 ≤ opcode && opcode ≤ 0x12 then some 1
  else if 0x20 ≤ opcode && opcode ≤ 0x24 then some 1
  else if 0x28 ≤ opcode && opcode ≤ 0x2c then some 1
  else if 0x30 ≤ opcode && opcode ≤ 0x32 then some 1
  else if opcode = 0x33 then some 0
  else if 0x40 ≤ opcode && opcode ≤ 0x4d then some 0
  else if opcode = 0x4e then some 1
  else if 0x50 ≤ opcode && opcode ≤ 0x54 then some 1
  else if opcode = 0x55 then some 0
  else if 0x60 ≤ opcode && opcode ≤ 0x61 then some 2
  else if opcode = 0x62 then some 1
  else if 0x63 ≤ opcode && opcode ≤ 0x64 then some 0
  else none

/-- Where the instruction may jump to, if it is a branch. -/
def jump? : Instruction → Option Jump
  | branch target | branchTrue target | branchFalse target | pushEnv target | popEnv target =>
    some target
  | _ => none

/-- The same branch to another target, if it is a branch. -/
def withJump? (target : Jump) : Instruction → Option Instruction
  | branch _ => some (branch target)
  | branchTrue _ => some (branchTrue target)
  | branchFalse _ => some (branchFalse target)
  | pushEnv _ => some (pushEnv target)
  | popEnv _ => some (popEnv target)
  | _ => none

/-- The operands, in order. A branch gives its distance in instructions. -/
def operands : Instruction → List Int
  | pushInt value => [value.toInt]
  | pushReal n => [n.toNat]
  | pushString n => [n.toNat]
  | pushLocal n => [n.toNat]
  | popLocal n => [n.toNat]
  | pushInstance n => [n.toNat]
  | popInstance n => [n.toNat]
  | pushGlobal n => [n.toNat]
  | popGlobal n => [n.toNat]
  | pushBuiltin n => [n.toNat]
  | popBuiltin n => [n.toNat]
  | pushFunction n => [n.toNat]
  | pushField n => [n.toNat]
  | popField n => [n.toNat]
  | newArray n => [n.toNat]
  | newStruct n => [n.toNat]
  | pushArgument n => [n.toNat]
  | popArgument n => [n.toNat]
  | dup n => [n.toNat]
  | loadIndex _ dims | storeIndex _ dims => [dims.toNat]
  | cmp comparison => [comparison.code]
  | branch target | branchTrue target | branchFalse target | pushEnv target | popEnv target =>
    match target with
    | .relative distance => [distance.toInt]
    | .pending => [0]
  | call function argc => [function.toNat, argc.toNat]
  | callScript reference argc => [reference.toInt, argc.toNat]
  | callValue argc => [argc.toNat]
  | pushArgumentIndexed | popArgumentIndexed | popz | add | sub | mul | div | intDiv | mod
  | bitAnd | bitOr | bitXor | shl | shr | neg | not | bitNot | popEnvExit | ret | exit => []

end Instruction

/-! ### Text -/

/-- A jump as text. -/
def Jump.text : Jump → String
  | pending => "Pending"
  | relative distance => Text.tuple "Relative" [toString distance]

/-- An instruction as text. -/
def Instruction.text : Instruction → String
  | pushInt operand => Text.tuple "PushInt" [toString operand]
  | pushReal operand => Text.tuple "PushReal" [toString operand]
  | pushString operand => Text.tuple "PushString" [toString operand]
  | pushLocal operand => Text.tuple "PushLocal" [toString operand]
  | popLocal operand => Text.tuple "PopLocal" [toString operand]
  | pushInstance operand => Text.tuple "PushInstance" [toString operand]
  | popInstance operand => Text.tuple "PopInstance" [toString operand]
  | pushGlobal operand => Text.tuple "PushGlobal" [toString operand]
  | popGlobal operand => Text.tuple "PopGlobal" [toString operand]
  | pushBuiltin operand => Text.tuple "PushBuiltin" [toString operand]
  | popBuiltin operand => Text.tuple "PopBuiltin" [toString operand]
  | pushArgument operand => Text.tuple "PushArgument" [toString operand]
  | popArgument operand => Text.tuple "PopArgument" [toString operand]
  | pushArgumentIndexed => "PushArgumentIndexed"
  | popArgumentIndexed => "PopArgumentIndexed"
  | pushFunction operand => Text.tuple "PushFunction" [toString operand]
  | pushField operand => Text.tuple "PushField" [toString operand]
  | popField operand => Text.tuple "PopField" [toString operand]
  | loadIndex accessor dims =>
    Text.record "LoadIndex" [("accessor", accessor.text), ("dims", toString dims)]
  | storeIndex accessor dims =>
    Text.record "StoreIndex" [("accessor", accessor.text), ("dims", toString dims)]
  | newArray operand => Text.tuple "NewArray" [toString operand]
  | newStruct operand => Text.tuple "NewStruct" [toString operand]
  | dup operand => Text.tuple "Dup" [toString operand]
  | popz => "Popz"
  | add => "Add"
  | sub => "Sub"
  | mul => "Mul"
  | div => "Div"
  | intDiv => "IntDiv"
  | mod => "Mod"
  | bitAnd => "BitAnd"
  | bitOr => "BitOr"
  | bitXor => "BitXor"
  | shl => "Shl"
  | shr => "Shr"
  | neg => "Neg"
  | not => "Not"
  | bitNot => "BitNot"
  | cmp operand => Text.tuple "Cmp" [operand.text]
  | branch operand => Text.tuple "Branch" [operand.text]
  | branchTrue operand => Text.tuple "BranchTrue" [operand.text]
  | branchFalse operand => Text.tuple "BranchFalse" [operand.text]
  | pushEnv operand => Text.tuple "PushEnv" [operand.text]
  | popEnv operand => Text.tuple "PopEnv" [operand.text]
  | popEnvExit => "PopEnvExit"
  | call function argc =>
    Text.record "Call" [("function", toString function), ("argc", toString argc)]
  | callScript reference argc =>
    Text.record "CallScript" [("reference", toString reference), ("argc", toString argc)]
  | callValue argc => Text.record "CallValue" [("argc", toString argc)]
  | ret => "Ret"
  | exit => "Exit"

end Gml
