/-!
# Ranges of characters

A property of characters is kept as a list of closed ranges of code points. `Range.Member` is the
declarative reading of such a list and `Range.contains` the test that runs. A long list is written
by the lengths of the stretches without and with the property, in turn.
-/

namespace Gml.Text

/-- A closed range of code points. -/
abbrev Range := Nat × Nat

namespace Range

/-- The ranges that have a property, from a code point on, by the lengths of the stretches without
and with it. -/
def ofLengths (start : Nat) : List Nat → List Range
  | without :: within :: rest =>
    let first := start + without
    (first, first + within - 1) :: ofLengths (first + within) rest
  | _ => []

/-- Whether a code point lies in one of the ranges. -/
def contains (ranges : List Range) (code : Nat) : Bool :=
  ranges.any fun range => range.1 ≤ code && code ≤ range.2

/-- A code point lies in the ranges when one of them reaches from below it to above it. -/
def Member (ranges : List Range) (code : Nat) : Prop :=
  ∃ range ∈ ranges, range.1 ≤ code ∧ code ≤ range.2

/-- The test that runs decides the declarative reading. -/
theorem contains_iff_member {ranges : List Range} {code : Nat} :
    contains ranges code = true ↔ Member ranges code := by
  simp [contains, Member]

end Range

end Gml.Text
