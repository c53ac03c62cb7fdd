/-!
# Places in a source text

A place is told in two ways at once: by line and column, which are shown to a reader and count from
one, and by the number of characters before it.
-/

namespace Gml

/-- A place in the source. The place `0:0` stands for no place at all. -/
structure Position where
  /-- The line, counted from one. -/
  line : Nat := 0
  /-- The column, counted from one. -/
  column : Nat := 0
  /-- The number of characters before it. -/
  index : Nat := 0
  deriving DecidableEq, Repr, Inhabited

namespace Position

/-- No place at all. -/
def nowhere : Position := {}

/-- The form in which a reader is told of a place. -/
def text (p : Position) : String :=
  s!"{p.line}:{p.column}"

end Position

end Gml
