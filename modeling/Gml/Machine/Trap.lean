import Gml.Instruction
import Gml.Machine.Value

/-!
# Traps

What can stop a machine before its script ends.
-/

namespace Gml

/-- Why a machine stopped. -/
inductive Trap where
  /-- Too few values on the stack. -/
  | stackUnderflow
  /-- No instance to go back to. -/
  | environmentUnderflow
  /-- A string that the tables do not have. -/
  | noString (id : Nat)
  /-- A constant that the tables do not have. -/
  | noConstant (id : Nat)
  /-- A local variable that the tables do not have. -/
  | noLocal (slot : Nat)
  /-- An instance that does not exist. -/
  | noInstance (id : Int)
  /-- A branch without a target. -/
  | unpatched (site : Int)
  /-- A value that should be a number. -/
  | notNumber (value : Value)
  /-- A value that should be an array or struct. -/
  | notContainer (value : Value)
  /-- An element without an index. -/
  | noIndex
  /-- Two values that have no order. -/
  | notComparable (lhs rhs : Value)
  /-- An instruction that is not an operation on two values. -/
  | notOperation (instruction : Instruction)
  /-- A script that runs for too long. -/
  | outOfTime (limit : Nat)
  deriving Inhabited

/-- The wording of a trap. -/
def Trap.message (heap : Heap) : Trap → String
  | stackUnderflow => "Stack underflow"
  | environmentUnderflow => "Environment underflow"
  | noString id => s!"No string {id}"
  | noConstant id => s!"No constant {id}"
  | noLocal slot => s!"No local {slot}"
  | noInstance id => s!"No instance {id}"
  | unpatched site => s!"Unpatched branch at {site}"
  | notNumber value => s!"Expected a number, got {value.text heap}"
  | notContainer value => s!"Cannot index {value.text heap}"
  | noIndex => "No index"
  | notComparable lhs rhs => s!"Cannot compare {lhs.text heap} and {rhs.text heap}"
  | notOperation instruction => s!"{instruction.text} is not arithmetic"
  | outOfTime limit => s!"Execution exceeded maximum instruction count ({limit})."

end Gml
