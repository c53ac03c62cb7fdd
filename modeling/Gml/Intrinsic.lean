/-!
# Names with a fixed meaning

Some names stand for a number that every script agrees on: the two truth values, and the ids by
which the machine knows the instances that a script can speak of without naming them.
-/

namespace Gml

/-- The number that a name stands for, if it has a fixed one. -/
def intrinsic? : String → Option Int32
  | "true" => some 1
  | "false" => some 0
  | "self" => some (-1)
  | "other" => some (-2)
  | "all" => some (-3)
  | "noone" => some (-4)
  | "global" => some (-5)
  | _ => none

/-- The number of arguments that have a name of their own. -/
def maxArguments : Nat := 16

end Gml
