import Gml.Instruction

/-!
# Code

Code is a sequence of instructions with the tables that they refer to: strings, constants and local
variables, each without repetitions, and marks that tell which statement the instructions come from.

Code is written front to back. A branch whose target is not known yet is pushed as pending and
patched later, when the target is known.
-/

namespace Gml

/-- Instructions with their tables. -/
structure Code where
  /-- The instructions. -/
  instructions : Array Instruction := #[]
  /-- The strings that instructions refer to. -/
  strings : Array String := #[]
  /-- The constants that instructions refer to. -/
  constants : Array Double := #[]
  /-- The names of the local variables that instructions refer to. -/
  locals : Array String := #[]
  /-- Where statements start, and where they come from. -/
  marks : Array (Nat × Position) := #[]
  deriving Inhabited

/-- The index of an entry of a table, which is added if it is not there. -/
def intern [DecidableEq α] (table : Array α) (entry : α) : Nat × Array α :=
  match table.idxOf? entry with
  | some index => (index, table)
  | none => (table.size, table.push entry)

namespace Code

/-- The number of instructions. -/
def size (code : Code) : Nat :=
  code.instructions.size

/-- Adds an instruction at the end. -/
def push (code : Code) (instruction : Instruction) : Code :=
  { code with instructions := code.instructions.push instruction }

/-- The distance between two instructions, if a branch can hold it. -/
def distance? (site : Nat) (target : Int) : Option Int32 :=
  let distance : Int := target - site
  if Int32.minValue.toInt ≤ distance ∧ distance ≤ Int32.maxValue.toInt then
    some (Int32.ofInt distance)
  else none

/-- Points the branch at a site to a target. It fails if there is no branch at the site or the
target is too far away. -/
def patch? (code : Code) (site : Nat) (target : Int) : Option Code := do
  let instruction ← code.instructions[site]?
  let distance ← distance? site target
  let patched ← instruction.withJump? (.relative distance)
  return { code with instructions := code.instructions.setIfInBounds site patched }

/-- Points a branch to a target where both are told by machine words. The target is read as a signed
number, so that a word of the upper half stands for a place in front of the code. -/
def patchWord? (code : Code) (site target : UInt64) : Option Code :=
  code.patch? site.toNat target.toInt64.toInt

/-- Whether there is a branch at a site that still waits for its target. -/
def waitsAt (code : Code) (site : Nat) : Bool :=
  code.instructions[site]?.bind Instruction.jump? = some .pending

/-- The first branch that still waits for its target. -/
def firstPending? (code : Code) : Option Nat :=
  code.instructions.findIdx? fun instruction => instruction.jump? = some .pending

/-- Marks the next instruction as the start of a statement. Of several statements that start at the
same instruction the last counts. -/
def mark (code : Code) (position : Position) : Code :=
  let entry := (code.size, position)
  match code.marks.back? with
  | some last =>
    if last.1 = code.size then { code with marks := code.marks.pop.push entry }
    else { code with marks := code.marks.push entry }
  | none => { code with marks := code.marks.push entry }

/-- The place of the statement that an instruction belongs to. -/
def positionOf (code : Code) (index : Nat) : Position :=
  match code.marks.toList.reverse.find? fun mark => mark.1 ≤ index with
  | some mark => mark.2
  | none => .nowhere

/-- The number of a string. -/
def addString (code : Code) (string : String) : UInt32 × Code :=
  let (index, strings) := intern code.strings string
  (UInt32.ofNat index, { code with strings })

/-- The number of a constant. -/
def addConstant (code : Code) (constant : Double) : UInt32 × Code :=
  let (index, constants) := intern code.constants constant
  (UInt32.ofNat index, { code with constants })

/-- The number of a local variable. -/
def addLocal (code : Code) (name : String) : UInt32 × Code :=
  let (index, locals) := intern code.locals name
  (UInt32.ofNat index, { code with locals })

end Code

end Gml
