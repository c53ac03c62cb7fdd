import Gml.Code
import Gml.Context
import Gml.Diagnostic

/-!
# Assembled code

Code as bytes. Each instruction is its operation code followed by its operands, all in the byte
order of the encoding; an operation code and an operand take a fixed number of bytes each. An
operand is written in two's complement. A branch gives the distance in bytes from its own start to
the start of its target.
-/

namespace Gml

/-- Code as bytes, with its tables. -/
structure Assembly where
  /-- The instructions. -/
  bytes : List UInt8
  /-- The strings that instructions refer to. -/
  strings : Array String
  /-- The constants that instructions refer to. -/
  constants : Array Double
  /-- The names of the local variables that instructions refer to. -/
  locals : Array String
  /-- The bytes at which statements start, and where they come from. -/
  marks : Array (Nat × Position)
  deriving Inhabited

/-- The lowest bytes of an integer, the lowest first. -/
def lowBytes : Nat → Int → List UInt8
  | 0, _ => []
  | width + 1, value => UInt8.ofNat (value % 256).toNat :: lowBytes width (value / 256)

/-- As many bytes as asked for. -/
theorem length_lowBytes (width : Nat) (value : Int) : (lowBytes width value).length = width := by
  induction width generalizing value with
  | zero => rfl
  | succ width ih => simp [lowBytes, ih]

/-- Bytes in the given order, of which the lowest is given first. -/
def Endianness.arrange : Endianness → List UInt8 → List UInt8
  | little, bytes => bytes
  | big, bytes => bytes.reverse

namespace Encoding

/-- An integer as bytes. -/
def integer (encoding : Encoding) (width : Nat) (value : Int) : List UInt8 :=
  encoding.endianness.arrange (lowBytes width value)

/-- Whether an operand can be written. -/
def fits (encoding : Encoding) (operand : Int) : Bool :=
  let bound : Int := Nat.pow 2 (8 * encoding.operandWidth - 1)
  operand < bound && -bound ≤ operand

/-- The number of bytes of an instruction. -/
def width (encoding : Encoding) (instruction : Instruction) : Nat :=
  encoding.opcodeWidth + encoding.operandWidth * instruction.operands.length

/-- The bytes at which instructions start, and the end, if the first starts at the given byte. -/
def starts (encoding : Encoding) : Nat → List Instruction → List Nat
  | start, [] => [start]
  | start, instruction :: rest =>
    start :: encoding.starts (start + encoding.width instruction) rest

/-- The operands that are written for an instruction, given its index and the bytes at which the
instructions start. -/
def operands (starts : Array Nat) (index start : Nat) (instruction : Instruction) :
    Except Fault (List Int) :=
  match instruction.jump? with
  | none => .ok instruction.operands
  | some .pending => .error (.neverPatched index)
  | some (.relative distance) =>
    let target : Int := index + distance.toInt
    match if 0 ≤ target then starts[target.toNat]? else none with
    | some destination => .ok [(destination : Int) - start]
    | none => .error (.leavesScript index)

/-- Writes operands. -/
def operandBytes (encoding : Encoding) (instruction : Instruction) :
    List Int → Except Fault (List UInt8)
  | [] => .ok []
  | operand :: rest => do
    unless encoding.fits operand do
      throw (.operandRange operand instruction encoding.operandWidth)
    return encoding.integer encoding.operandWidth operand
      ++ (← encoding.operandBytes instruction rest)

/-- Writes an instruction, given its index and the bytes at which the instructions start. -/
def instruction (encoding : Encoding) (starts : Array Nat) (index start : Nat)
    (instruction : Instruction) : Except Fault (List UInt8) := do
  let operands ← operands starts index start instruction
  return encoding.integer encoding.opcodeWidth instruction.opcode
    ++ (← encoding.operandBytes instruction operands)

/-- Writes instructions, given the index and the start of the first. A fault comes with the index of
its instruction. -/
def instructions (encoding : Encoding) (starts : Array Nat) :
    Nat → Nat → List Instruction → Except (Fault × Nat) (List UInt8)
  | _, _, [] => .ok []
  | index, start, instruction :: rest => do
    let bytes ← (encoding.instruction starts index start instruction).mapError (·, index)
    return bytes
      ++ (← encoding.instructions starts (index + 1) (start + encoding.width instruction) rest)

end Encoding

namespace Code

/-- Code as bytes. -/
def assemble (code : Code) (encoding : Encoding) : Except Diagnostic Assembly := do
  unless encoding.opcodeWidth ∈ [1, 2] do
    throw ⟨.opcodeWidth encoding.opcodeWidth, .nowhere⟩
  unless encoding.operandWidth ∈ [1, 2, 4, 8] do
    throw ⟨.operandWidth encoding.operandWidth, .nowhere⟩
  let instructions := code.instructions.toList
  let starts := (encoding.starts 0 instructions).toArray
  let bytes ← (encoding.instructions starts 0 0 instructions).mapError
    fun (fault, index) => ⟨fault, code.positionOf index⟩
  let marks := code.marks.map fun (index, position) =>
    ((starts[min index code.size]?).getD 0, position)
  return {
    bytes
    strings := code.strings
    constants := code.constants
    locals := code.locals
    marks }

end Code

end Gml
