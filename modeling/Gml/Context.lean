import Gml.Feature
import Gml.Tree.Constant

/-!
# Resolution contexts

A context is everything that compilation knows about the target: the version tier, the names of its
functions and variables, the scripts, objects and assets of the project, the enumerations, and the
byte layout of the code.
-/

namespace Gml

/-- The order of the bytes of a number. -/
inductive Endianness where
  | little | big
  deriving DecidableEq, Repr, Inhabited

/-- The byte layout of code. -/
structure Encoding where
  /-- The bytes of an operation code. -/
  opcodeWidth : Nat := 1
  /-- The bytes of an operand. -/
  operandWidth : Nat := 4
  /-- The order of bytes. -/
  endianness : Endianness := .little
  deriving DecidableEq, Repr, Inhabited

/-- What a name of the project stands for. -/
inductive SymbolKind where
  | script | object | asset
  deriving DecidableEq, Repr, Inhabited

/-- A name of the project. -/
structure Symbol where
  /-- What it stands for. -/
  kind : SymbolKind
  /-- The number that it is known by. -/
  reference : Int32
  deriving DecidableEq, Repr, Inhabited

/-- Everything that is known about the target. -/
structure Context where
  /-- The version tier of the language. -/
  versionTier : Nat := literalTier
  /-- The functions of the target. -/
  builtinFunctions : List String := []
  /-- The variables of the target. -/
  builtinVariables : List String := []
  /-- The scripts, objects and assets of the project. -/
  symbols : Table String Symbol := {}
  /-- The enumerations. -/
  enums : Enums := {}
  /-- The byte layout of code. -/
  encoding : Encoding := {}
  deriving Inhabited

/-- A list with a name in it, which is added only if it is new. -/
def addName (names : List String) (name : String) : List String :=
  if name ∈ names then names else names ++ [name]

namespace Context

/-- Whether the tier has a feature. -/
def supports (context : Context) (feature : Feature) : Bool :=
  feature.minTier ≤ context.versionTier

/-- Whether a name means anything. -/
def isKnown (context : Context) (name : String) : Bool :=
  name ∈ context.builtinFunctions || name ∈ context.builtinVariables
    || context.symbols.contains name || context.enums.contains name

/-- Adds functions of the target. -/
def withFunctions (context : Context) (names : List String) : Context :=
  { context with builtinFunctions := names.foldl addName context.builtinFunctions }

/-- Adds variables of the target. -/
def withVariables (context : Context) (names : List String) : Context :=
  { context with builtinVariables := names.foldl addName context.builtinVariables }

/-- Sets what a name of the project stands for. -/
def withSymbol (context : Context) (name : String) (symbol : Symbol) : Context :=
  { context with symbols := context.symbols.insert name symbol }

/-- Sets the members of an enumeration. -/
def withEnum (context : Context) (name : String) (members : List (String × Int64)) : Context :=
  { context with enums := context.enums.insert name (.ofList members) }

end Context

end Gml
