/-!
# Language features by version

The language comes in version tiers. Raw strings and the two literals for containers exist from the
second tier on; before it, a text may also stand in single quotes.
-/

namespace Gml

/-- The first tier with raw strings and literals for structs and arrays. -/
def literalTier : Nat := 2

/-- A part of the language that not every tier has. -/
inductive Feature where
  | rawStrings | structLiterals | arrayLiterals
  deriving DecidableEq, Repr, Inhabited

namespace Feature

/-- The first tier with the feature. -/
def minTier : Feature → Nat
  | rawStrings | structLiterals | arrayLiterals => literalTier

/-- The name of a feature in messages. -/
def name : Feature → String
  | rawStrings => "raw string literals"
  | structLiterals => "struct literals"
  | arrayLiterals => "array literals"

end Feature

end Gml
