/-!
# Commands

What the command line can be asked to do, and how its arguments say so.

An option stands anywhere among the arguments and is given at most once. Its value is the next
argument or follows an equals sign. After two dashes nothing is an option.
-/

namespace Gml

/-- What to do. -/
inductive Command where
  /-- Compile scripts. -/
  | compile (files : List String) (context : Option String) (tier : Option Nat)
      (out : Option String) (listing : Bool)
  /-- Print the tokens of a script. -/
  | tokens (file : String) (tier : Nat)
  /-- Scan a project. -/
  | scan (folder : String) (context out : Option String)
  /-- Print the settings. -/
  | showSettings
  /-- Write the settings. -/
  | initSettings
  /-- Print where the settings are. -/
  | locateSettings
  deriving DecidableEq, Repr, Inhabited

namespace Command

/-- Arguments that were told apart. -/
structure Arguments where
  /-- The arguments that are no options. -/
  plain : List String := []
  /-- The options, with their values. -/
  options : List (String × Option String) := []
  deriving Inhabited

/-- Adds a plain argument. It is never empty. -/
def Arguments.addPlain (arguments : Arguments) (argument : String) : Option Arguments :=
  if argument = "" then none
  else some { arguments with plain := arguments.plain ++ [argument] }

/-- Adds an option, unless it was given before. -/
def Arguments.addOption (arguments : Arguments) (name : String) (value : Option String) :
    Option Arguments :=
  if arguments.options.any (·.1 = name) then none
  else some { arguments with options := arguments.options ++ [(name, value)] }

/-- Whether an argument can only be an option. A dash by itself is none. -/
def isOption (argument : String) : Bool :=
  argument.startsWith "-" && argument ≠ "-"

/-- The name of an option, and its value if an equals sign comes after the name. -/
def splitOption (argument : String) : String × Option String :=
  let characters := argument.toList.drop 2
  let name := String.ofList (characters.takeWhile (· ≠ '='))
  match characters.dropWhile (· ≠ '=') with
  | [] => (name, none)
  | _ :: value => (name, some (String.ofList value))

/-- Tells arguments apart, given the options that are known and whether each takes a value. -/
def separate (known : List (String × Bool)) : List String → Arguments → Option Arguments
  | [], arguments => some arguments
  | "--" :: rest, arguments => rest.foldlM Arguments.addPlain arguments
  | argument :: rest, arguments =>
    if argument.startsWith "--" then
      let (name, value) := splitOption argument
      match known.lookup name, value, rest with
      | some false, none, rest => do
        separate known rest (← arguments.addOption name none)
      | some true, some value, rest => do
        separate known rest (← arguments.addOption name (some value))
      | some true, none, value :: rest => do
        if isOption value then none
        else separate known rest (← arguments.addOption name (some value))
      | _, _, _ => none
    else if isOption argument then none
    else do separate known rest (← arguments.addPlain argument)

/-- Whether an option was given. -/
def Arguments.has (arguments : Arguments) (name : String) : Bool :=
  arguments.options.any (·.1 = name)

/-- The value of an option that is a path. -/
def Arguments.path? (arguments : Arguments) (name : String) : Option (Option String) :=
  match (arguments.options.lookup name).join with
  | some "" => none
  | value => some value

/-- A tier. It may have a sign. -/
def tierOf? (text : String) : Option Nat := do
  let digits :=
    match text.toList with
    | '+' :: digits | '-' :: digits => digits
    | digits => digits
  guard (!digits.isEmpty && digits.all Char.isDigit)
  let n := digits.foldl (fun n digit => 10 * n + (digit.toNat - '0'.toNat)) 0
  guard (n < UInt32.size && (n = 0 || !text.startsWith "-"))
  return n

/-- The value of an option that is a tier. -/
def Arguments.tier? (arguments : Arguments) (name : String) : Option (Option Nat) :=
  match (arguments.options.lookup name).join with
  | some text => (tierOf? text).map some
  | none => some none

/-- The command that arguments ask for, if they do. -/
def ofArguments? : List String → Option Command
  | "compile" :: rest => do
    let arguments ← separate [("context", true), ("tier", true), ("out", true), ("listing", false)]
      rest {}
    guard (!arguments.plain.isEmpty)
    return .compile arguments.plain (← arguments.path? "context") (← arguments.tier? "tier")
      (← arguments.path? "out") (arguments.has "listing")
  | "tokens" :: rest => do
    let arguments ← separate [("tier", true)] rest {}
    match arguments.plain with
    | [file] => return .tokens file ((← arguments.tier? "tier").getD 2)
    | _ => none
  | "scan" :: rest => do
    let arguments ← separate [("context", true), ("out", true)] rest {}
    match arguments.plain with
    | [folder] => return .scan folder (← arguments.path? "context") (← arguments.path? "out")
    | _ => none
  | "config" :: name :: rest => do
    let command ←
      [("show", showSettings), ("init", initSettings), ("path", locateSettings)].lookup name
    let arguments ← separate [] rest {}
    guard arguments.plain.isEmpty
    return command
  | _ => none

end Command

end Gml
