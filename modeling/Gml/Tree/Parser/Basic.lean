import Gml.Diagnostic

/-!
# Reading trees: the parser and its loops

A parser stands at a token and counts how deep it is in loops, in constructs that can be left, and
in nested code. `Parse` is the monad of actions on it; an action that fails leaves the parser where
it stopped.

All repetition goes through `loop`. A round of a loop that goes on has read a token, so there are at
most as many rounds as tokens.
-/

namespace Gml

/-- The state of reading a tree from tokens. The last token ends the source. -/
structure Parser where
  /-- All tokens. -/
  tokens : Array Token
  /-- The index of the next token. -/
  current : Nat := 0
  /-- The number of loops and instance bodies around the next statement. -/
  loopDepth : Nat := 0
  /-- The number of loops, switches and instance bodies around the next statement. -/
  breakableDepth : Nat := 0
  /-- The number of nested statements, expressions and operands being read. -/
  nesting : Nat := 0
  deriving Inhabited

/-- The next token; it stays the last one at the end. -/
def Parser.head (parser : Parser) : Token :=
  (parser.tokens[min parser.current (parser.tokens.size - 1)]?).getD default

/-- An action on a parser. -/
abbrev Parse := ExceptT Diagnostic (StateM Parser)

namespace Parse

/-! ### Tokens -/

/-- The next token. -/
def head : Parse Token :=
  return (← get).head

/-- The kind of the next token. -/
def kind : Parse Kind :=
  return (← head).kind

/-- The place of the next token. -/
def position : Parse Position :=
  return (← head).position

/-- Reads a token. The one that ends the source is never passed. -/
def next : Parse Token := do
  let parser ← get
  unless parser.head.kind = .endOfFile do
    set { parser with current := parser.current + 1 }
  return parser.head

/-- Fails at the next token. -/
def fail (fault : Fault) : Parse α := do
  throw ⟨fault, ← position⟩

/-- Fails because of the next token. -/
def unexpected (place : Misplaced) : Parse α := do
  fail (.unexpected (← head) place)

/-- Whether the next token is of a kind. -/
def check (wanted : Kind) : Parse Bool :=
  return (← kind) = wanted

/-- Reads the next token if it is of a kind, and tells whether it was. -/
def skip (wanted : Kind) : Parse Bool := do
  if ← check wanted then
    let _ ← next
    return true
  else
    return false

/-- Reads a token that has to be of a kind. -/
def eat (wanted : Kind) : Parse Token := do
  if ← check wanted then
    next
  else
    fail (.expected wanted (← head))

/-- Reads a token that has to be a name. -/
def eatName : Parse Token := do
  if ← check .identifier then
    next
  else
    fail (.expectedName (← head))

/-! ### Depths -/

/-- Reads something one level further in, if that is not too deep. -/
def nested (inner : Parse α) : Parse α := do
  if maxNesting ≤ (← get).nesting then
    fail .tooDeep
  else
    ExceptT.mk do
      modify fun parser => { parser with nesting := parser.nesting + 1 }
      let result ← inner.run
      modify fun parser => { parser with nesting := parser.nesting - 1 }
      return result

/-- Reads the body of a loop. -/
def inLoop (body : Parse α) : Parse α :=
  ExceptT.mk do
    modify fun parser =>
      { parser with
        loopDepth := parser.loopDepth + 1
        breakableDepth := parser.breakableDepth + 1 }
    let result ← body.run
    modify fun parser =>
      { parser with
        loopDepth := parser.loopDepth - 1
        breakableDepth := parser.breakableDepth - 1 }
    return result

/-! ### Loops -/

/-- Repeats a step until it has a result, for a number of rounds at most. -/
def rounds (step : α → Parse (α ⊕ β)) : Nat → α → Parse β
  | 0, _ => fail .endless
  | n + 1, a => do
    match ← step a with
    | .inl a => rounds step n a
    | .inr b => return b

/-- Repeats a step until it has a result. -/
def loop (step : α → Parse (α ⊕ β)) (a : α) : Parse β := do
  let parser ← get
  rounds step (parser.tokens.size - parser.current + 1) a

/-- Items up to a token of a closing kind. -/
def manyUntil (closes : Kind → Bool) (item : Parse α) : Parse (List α) :=
  loop (β := List α) (fun items => do
    if closes (← kind) then return .inr items.reverse
    return .inl ((← item) :: items)) []

/-- At least one item, with commas between them. -/
def separated (item : Parse α) : Parse (List α) :=
  loop (β := List α) (fun items => do
    let items := (← item) :: items
    if ← skip .comma then return .inl items
    return .inr items.reverse) []

/-- Items up to a closing token, with commas between them. A comma may also come after the last. -/
def listUntil (close : Kind) (item : Parse α) : Parse (List α) :=
  loop (β := List α) (fun items => do
    if ← check close then return .inr items.reverse
    let items := (← item) :: items
    if ← skip .comma then return .inl items
    return .inr items.reverse) []

end Parse

end Gml
