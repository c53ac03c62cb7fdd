import Gml.Code
import Gml.Number.Layout

/-!
# Listings

Code as a reader sees it: one line for each instruction, with its index, and with a comment where an
instruction refers to a table or jumps.
-/

namespace Gml

namespace Instruction

/-- What an instruction refers to, as a comment. A string is quoted unless it names a function that
is called. -/
def comment? (code : Code) (index : Nat) : Instruction → Option String
  | pushString n | pushInstance n | popInstance n | pushGlobal n | popGlobal n | pushBuiltin n
  | popBuiltin n | pushFunction n | pushField n | popField n =>
    some (Text.quoted (code.strings[n.toNat]?.getD "?"))
  | pushLocal n | popLocal n => some (code.locals[n.toNat]?.getD "?")
  | pushReal n =>
    some (match code.constants[n.toNat]? with
      | some constant => Layout.plain.text constant
      | none => "NaN")
  | call function _ => some (code.strings[function.toNat]?.getD "?")
  | branch target | branchTrue target | branchFalse target | pushEnv target | popEnv target =>
    match target with
    | .relative distance => some s!"-> {(index : Int) + distance.toInt}"
    | .pending => none
  | _ => none

/-- The line of an instruction. -/
def line (code : Code) (index : Nat) (instruction : Instruction) : String :=
  let number := toString index
  let comment :=
    match instruction.comment? code index with
    | some comment => "  ; " ++ comment
    | none => ""
  "".pushn ' ' (5 - number.length) ++ number ++ "  " ++ instruction.text ++ comment

end Instruction

namespace Code

/-- The lines from an index on. -/
def linesFrom (code : Code) : Nat → List Instruction → List String
  | _, [] => []
  | index, instruction :: rest => instruction.line code index :: linesFrom code (index + 1) rest

/-- The lines of a listing. -/
def listing (code : Code) : List String :=
  code.linesFrom 0 code.instructions.toList

/-- A listing as text. -/
def text (code : Code) : String :=
  String.join (code.listing.map (· ++ "\n"))

end Code

end Gml
