import Gml.Number.Layout
import Gml.Table
import Gml.Text.Quoted
import Gml.Tree.Text

/-!
# Values

The values that scripts compute with. Arrays and structs live on a heap, and a value only refers to
them, so that several values can share one and see each other's changes.
-/

namespace Gml

/-- A value. -/
inductive Value where
  /-- A number. -/
  | real (number : Float)
  /-- A string. -/
  | string (text : String)
  /-- No value. -/
  | undefined
  /-- The array at a place of the heap. -/
  | array (place : Nat)
  /-- The struct at a place of the heap. -/
  | struct (place : Nat)
  deriving Inhabited

/-- The arrays and structs that values refer to. -/
structure Heap where
  /-- The arrays. -/
  arrays : Array (Array Value) := #[]
  /-- The structs. -/
  structs : Array (Table String Value) := #[]
  deriving Inhabited

namespace Heap

/-- Adds an array. -/
def newArray (heap : Heap) (items : Array Value) : Value × Heap :=
  (.array heap.arrays.size, { heap with arrays := heap.arrays.push items })

/-- Adds a struct. -/
def newStruct (heap : Heap) (fields : Table String Value) : Value × Heap :=
  (.struct heap.structs.size, { heap with structs := heap.structs.push fields })

/-- The items of an array. -/
def items (heap : Heap) (place : Nat) : Array Value :=
  heap.arrays[place]?.getD #[]

/-- The fields of a struct. -/
def fields (heap : Heap) (place : Nat) : Table String Value :=
  heap.structs[place]?.getD {}

/-- Sets an item of an array, which grows with zeros as far as it has to. -/
def setItem (heap : Heap) (place index : Nat) (value : Value) : Heap :=
  { heap with
    arrays := heap.arrays.modify place fun items =>
      let missing := index + 1 - items.size
      (items ++ Array.replicate missing (Value.real 0)).setIfInBounds index value }

/-- Sets a field of a struct. -/
def setField (heap : Heap) (place : Nat) (name : String) (value : Value) : Heap :=
  { heap with structs := heap.structs.modify place fun fields => fields.insert name value }

end Heap

namespace Value

/-- One for true and zero for false. -/
def ofBool (truth : Bool) : Value :=
  .real (if truth then 1 else 0)

/-- Whether a value counts as true: a number above one half, a string that is not empty, and every
array and struct do. -/
def isTrue : Value → Bool
  | real number => 0.5 < number
  | string text => text ≠ ""
  | undefined => false
  | array _ | struct _ => true

/-- How two values compare, if they do. -/
def order? : Value → Value → Option Ordering
  | real x, real y =>
    if x < y then some .lt
    else if x == y then some .eq
    else if x > y then some .gt
    else none
  | string x, string y => some (compare x y)
  | undefined, undefined => some .eq
  | _, _ => none

/-- A value as text, with the contents of arrays and structs down to a depth. The contents of a
struct that is being changed are not shown. -/
def textWithin (heap : Heap) (changing : Option Nat) : Nat → Value → String
  | _, real number => Text.tuple "Real" [Layout.value.text (.ofFloat number)]
  | _, string text => Text.tuple "Str" [Text.quoted text]
  | _, undefined => "Undefined"
  | 0, array _ | 0, struct _ => "..."
  | depth + 1, array place =>
    let items := (heap.items place).toList.map (textWithin heap changing depth)
    Text.tuple "Array" [Text.record "RefCell" [("value", Text.sequence items)]]
  | depth + 1, struct place =>
    let fields := (heap.fields place).entries.map fun (name, value) =>
      Text.quoted name ++ ": " ++ textWithin heap changing depth value
    let contents :=
      if changing = some place then "<borrowed>" else "\x7b" ++ ", ".intercalate fields ++ "\x7d"
    Text.tuple "Struct" [Text.record "RefCell" [("value", contents)]]

/-- A value as text. Values that do not contain themselves are at most as deep as the heap has
places. -/
def text (heap : Heap) (value : Value) (changing : Option Nat := none) : String :=
  value.textWithin heap changing (heap.arrays.size + heap.structs.size)

/-- The key that a value is among the fields of a struct, which may be one that is being changed. -/
def key (heap : Heap) (value : Value) (changing : Option Nat := none) : String :=
  match value with
  | real number => Layout.plain.text (.ofFloat number)
  | string text => text
  | value => value.text heap changing

end Value

end Gml
