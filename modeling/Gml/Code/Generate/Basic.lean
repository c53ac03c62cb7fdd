import Gml.Code
import Gml.Diagnostic

/-!
# Writing code: frames and places

The constructs that a `break` or `continue` can leave form a stack of frames. A frame collects the
branches that wait for the end of its construct or for its next round, and these are patched when
the place is known.

A place is where an assignable expression lives. Its address is pushed first, and its load and store
instructions take the address from the stack.
-/

namespace Gml

/-- What kind of construct a frame is for. -/
inductive FrameKind where
  /-- A loop that keeps nothing on the stack. -/
  | loop
  /-- A loop that keeps its counter on the stack. -/
  | counter
  /-- A switch, which keeps its subject on the stack. -/
  | switch
  /-- A body that runs as another instance. -/
  | within
  deriving DecidableEq, Repr, Inhabited

/-- A construct that can be left. -/
structure Frame where
  /-- What it is. -/
  kind : FrameKind
  /-- The branches to its end. -/
  breaks : List Nat := []
  /-- The branches to its next round. -/
  continues : List Nat := []
  deriving Inhabited

/-- The state of writing code. -/
structure Generator where
  /-- The code so far. -/
  code : Code := {}
  /-- The constructs around the next statement, the innermost first. -/
  frames : List Frame := []
  /-- The number of temporary variables so far. -/
  temps : Nat := 0
  /-- Whether only a branch that still waits may be pointed to a target. -/
  careful : Bool := false
  deriving Inhabited

/-- The code once the branch at a site points to a target. -/
def Generator.patch? (generator : Generator) (site target : Nat) : Option Code :=
  if generator.careful && !generator.code.waitsAt site then none
  else generator.code.patch? site target

/-- An action that writes code. -/
abbrev Generate := StateT Generator (Except Diagnostic)

/-- Where an assignable expression lives, once its address is on the stack. -/
inductive Place where
  /-- A variable, which needs no address. -/
  | named (load store : Instruction)
  /-- A field; its address is the instance. -/
  | field (name : UInt32)
  /-- An element; its address is the container and the indices. -/
  | element (accessor : Accessor) (dims : UInt8)
  /-- An argument; its address is the index. -/
  | argument
  deriving DecidableEq, Repr, Inhabited

namespace Place

/-- The number of values that the address takes on the stack. -/
def width : Place → UInt8
  | named .. => 0
  | field _ | argument => 1
  | element _ dims => dims + 1

/-- Takes the address and pushes the value. -/
def load : Place → Instruction
  | named load _ => load
  | field name => .pushField name
  | element accessor dims => .loadIndex accessor dims
  | argument => .pushArgumentIndexed

/-- Takes the address and a value, and stores it. -/
def store : Place → Instruction
  | named _ store => store
  | field name => .popField name
  | element accessor dims => .storeIndex accessor dims
  | argument => .popArgumentIndexed

end Place

/-- The instruction of an operator. -/
def BinaryOp.instruction : BinaryOp → Instruction
  | add => .add
  | subtract => .sub
  | multiply => .mul
  | divide => .div
  | intDivide => .intDiv
  | modulo => .mod
  | bitAnd => .bitAnd
  | bitOr => .bitOr
  | bitXor => .bitXor
  | shiftLeft => .shl
  | shiftRight => .shr
  | equal => .cmp .equal
  | notEqual => .cmp .notEqual
  | less => .cmp .less
  | lessEqual => .cmp .lessEqual
  | greater => .cmp .greater
  | greaterEqual => .cmp .greaterEqual

/-- The instruction of an operator. -/
def UnaryOp.instruction : UnaryOp → Instruction
  | not => .not
  | negate => .neg
  | bitNot => .bitNot

/-- The instruction that steps by one. -/
def Step.instruction : Step → Instruction
  | increment => .add
  | decrement => .sub

namespace Generate

/-! ### Basic actions -/

/-- Fails at a place. -/
def fail (fault : Fault) (position : Position) : Generate α :=
  throw ⟨fault, position⟩

/-- Writes an instruction and gives its index. -/
def emit (instruction : Instruction) : Generate Nat := do
  let generator ← get
  set { generator with code := generator.code.push instruction }
  return generator.code.size

/-- Writes an instruction. -/
def write (instruction : Instruction) : Generate Unit := do
  let _ ← emit instruction

/-- The index of the next instruction. -/
def here : Generate Nat :=
  return (← get).code.size

/-- Marks the start of a statement. -/
def mark (position : Position) : Generate Unit :=
  modify fun generator => { generator with code := generator.code.mark position }

/-- Points a branch to a target. -/
def patch (site target : Nat) (position : Position) : Generate Unit := do
  let generator ← get
  match generator.patch? site target with
  | some code => set { generator with code }
  | none => fail (.notBranch site) position

/-- Points branches to a target. -/
def patchAll (sites : List Nat) (target : Nat) (position : Position) : Generate Unit :=
  sites.forM fun site => patch site target position

/-- Points a branch to the next instruction. -/
def patchHere (site : Nat) (position : Position) : Generate Unit := do
  patch site (← here) position

/-- Writes a branch to a target that is known. -/
def branchBack (instruction : Instruction) (target : Nat) (position : Position) :
    Generate Unit := do
  let site ← emit instruction
  patch site target position

/-- The number of a string. -/
def string (string : String) : Generate UInt32 :=
  modifyGet fun generator =>
    let (id, code) := generator.code.addString string
    (id, { generator with code })

/-- The number of a constant. -/
def constant (constant : Double) : Generate UInt32 :=
  modifyGet fun generator =>
    let (id, code) := generator.code.addConstant constant
    (id, { generator with code })

/-- The number of a local variable. -/
def slot (name : String) : Generate UInt32 :=
  modifyGet fun generator =>
    let (id, code) := generator.code.addLocal name
    (id, { generator with code })

/-- A new temporary variable. No script can name it. -/
def temporary : Generate UInt32 := do
  let generator ← get
  set { generator with temps := generator.temps + 1 }
  slot s!"$tmp{generator.temps}"

/-- A count that has to fit in a byte. -/
def byteCount (what : String) (count : Nat) (position : Position) : Generate UInt8 :=
  if count < UInt8.size then return UInt8.ofNat count
  else fail (.tooManyForByte what count) position

/-- A count that has to fit in a word. -/
def wordCount (what : String) (count : Nat) (position : Position) : Generate UInt32 :=
  if count < UInt32.size then return UInt32.ofNat count
  else fail (.tooManyForWord what count) position

/-! ### Frames -/

/-- Writes the inside of a construct and gives the branches that wait for it. -/
def inFrame (kind : FrameKind) (position : Position) (body : Generate Unit) : Generate Frame := do
  modify fun generator => { generator with frames := { kind } :: generator.frames }
  body
  let generator ← get
  match generator.frames with
  | frame :: frames =>
    set { generator with frames }
    return frame
  | [] => fail .frameUnderflow position

/-- Leaves the innermost construct. -/
def breakOut (position : Position) : Generate Unit := do
  match (← get).frames with
  | [] => fail .breakOutside position
  | frame :: _ =>
    if frame.kind = .within then
      write .popEnvExit
    let site ← emit (.branch .pending)
    modify fun generator =>
      match generator.frames with
      | frame :: frames =>
        { generator with frames := { frame with breaks := site :: frame.breaks } :: frames }
      | [] => generator

/-- Goes on with the innermost construct that has rounds, and drops what the switches inside of it
keep on the stack. -/
def continueOn (position : Position) : Generate Unit := do
  let frames := (← get).frames
  let crossed := frames.takeWhile fun frame => frame.kind = .switch
  match frames.drop crossed.length with
  | [] => fail .continueOutside position
  | frame :: outer =>
    crossed.forM fun _ => write .popz
    let site ← emit (.branch .pending)
    modify fun generator =>
      { generator with
        frames := crossed ++ { frame with continues := site :: frame.continues } :: outer }

/-- Becomes the instance again that the script started as. -/
def leaveInstances : Generate Unit := do
  (← get).frames.forM fun frame => do
    if frame.kind = .within then
      write .popEnvExit

/-! ### Variables and places -/

/-- The place of a variable. -/
def namedPlace (name : String) (resolution : Resolution) (position : Position) :
    Generate Place := do
  match resolution with
  | .localVar =>
    let id ← slot name
    return .named (.pushLocal id) (.popLocal id)
  | .globalVar =>
    let id ← string name
    return .named (.pushGlobal id) (.popGlobal id)
  | .builtinVariable | .argumentArray =>
    let id ← string name
    return .named (.pushBuiltin id) (.popBuiltin id)
  | .dynamic =>
    let id ← string name
    return .named (.pushInstance id) (.popInstance id)
  | .argument index => return .named (.pushArgument index) (.popArgument index)
  | _ => fail (.notVariable name resolution) position

/-- Whether an index names one argument of the script. -/
def isArgument (container : Node) (accessor : Accessor) (indices : List Node) : Bool :=
  match container with
  | .ident _ _ .argumentArray => accessor = .array && indices.length = 1
  | _ => false

/-- The place of an element, given the actions that push the container and the indices. -/
def elementPlace (position : Position) (container : Node) (accessor : Accessor)
    (indices : List Node) (pushContainer pushIndices : Generate Unit) : Generate Place := do
  if isArgument container accessor indices then
    pushIndices
    return .argument
  else
    pushContainer
    pushIndices
    return .element accessor (← byteCount "indices" indices.length position)

/-- Pushes the address of a place once more and loads the value. -/
def loadKeeping (place : Place) : Generate Unit := do
  if place.width ≠ 0 then
    write (.dup place.width)
  write place.load

/-- Steps the value on the stack by one. -/
def stepByOne (step : Step) : Generate Unit := do
  write (.pushInt 1)
  write step.instruction

/-- Steps a place by one and leaves its new value, if the step is written in front, or its old one.
Below an address the value is kept in a temporary variable while it is stored. -/
def stepped (place : Place) (step : Step) (inFront : Bool) : Generate Unit := do
  loadKeeping place
  match place, inFront with
  | .named .., true =>
    stepByOne step
    write (.dup 1)
    write place.store
  | .named .., false =>
    write (.dup 1)
    stepByOne step
    write place.store
  | _, true =>
    let kept ← temporary
    stepByOne step
    write (.dup 1)
    write (.popLocal kept)
    write place.store
    write (.pushLocal kept)
  | _, false =>
    let kept ← temporary
    write (.dup 1)
    write (.popLocal kept)
    stepByOne step
    write place.store
    write (.pushLocal kept)

/-- An `and` or `or`, given the actions that push its operands: the first operand may decide, and
the result is zero or one. -/
def shortCircuit (test : Instruction) (decided : Int32) (position : Position)
    (lhs rhs : Generate Unit) : Generate Unit := do
  lhs
  let short ← emit test
  rhs
  write .not
  write .not
  let done ← emit (.branch .pending)
  patchHere short position
  write (.pushInt decided)
  patchHere done position

end Generate

end Gml
