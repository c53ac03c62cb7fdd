/-!
# Comparisons

The six ways to compare two values, each with the number that stands for it in code.
-/

namespace Gml

/-- A way to compare two values. -/
inductive Comparison where
  | less | lessEqual | equal | notEqual | greaterEqual | greater
  deriving DecidableEq, Repr, Inhabited

namespace Comparison

/-- The number of a comparison in code. -/
def code : Comparison → Nat
  | less => 1
  | lessEqual => 2
  | equal => 3
  | notEqual => 4
  | greaterEqual => 5
  | greater => 6

/-- The comparison with a given number. -/
def ofCode? : Nat → Option Comparison
  | 1 => some less
  | 2 => some lessEqual
  | 3 => some equal
  | 4 => some notEqual
  | 5 => some greaterEqual
  | 6 => some greater
  | _ => none

/-- A comparison has its own code. -/
theorem ofCode?_code (c : Comparison) : ofCode? c.code = some c := by
  cases c <;> rfl

/-- Whether two values in the given order compare so. -/
def holds : Comparison → Ordering → Bool
  | less, order => order == .lt
  | lessEqual, order => order != .gt
  | equal, order => order == .eq
  | notEqual, order => order != .eq
  | greaterEqual, order => order != .lt
  | greater, order => order == .gt

/-- The name of a comparison. -/
def text : Comparison → String
  | less => "Less"
  | lessEqual => "LessEqual"
  | equal => "Equal"
  | notEqual => "NotEqual"
  | greaterEqual => "GreaterEqual"
  | greater => "Greater"

end Comparison

end Gml
