import Gml.Proofs.Machine.Use

/-!
# What instructions use of the stack

`Code.Effect code instruction p q` says that an instruction which does not jump takes `p` values
from the stack and leaves `q`, and that what it refers to is in the tables of the code. From these
two facts alone its execution is well behaved (`Code.Effect.uses`).
-/

namespace Gml

/-- The instructions that take two values and push what an operation makes of them. -/
def Instruction.isOperation : Instruction → Bool
  | add | sub | mul | div | intDiv | mod | bitAnd | bitOr | bitXor | shl | shr => true
  | _ => false

/-- The instructions that ask for a field of an instance that a value tells. -/
def Instruction.asksField : Instruction → Bool
  | pushField _ | popField _ => true
  | _ => false

/-- The instruction takes `p` values and leaves `q`, and the tables have what it refers to. -/
inductive Code.Effect (code : Code) : Instruction → Nat → Nat → Prop
  | pushInt (value : Int32) : Effect code (.pushInt value) 0 1
  | pushReal {id : UInt32} : id.toNat < code.constants.size → Effect code (.pushReal id) 0 1
  | pushString {id : UInt32} : id.toNat < code.strings.size → Effect code (.pushString id) 0 1
  | pushFunction {id : UInt32} : id.toNat < code.strings.size → Effect code (.pushFunction id) 0 1
  | pushLocal {slot : UInt32} : slot.toNat < code.locals.size → Effect code (.pushLocal slot) 0 1
  | popLocal {slot : UInt32} : slot.toNat < code.locals.size → Effect code (.popLocal slot) 1 0
  | pushInstance {id : UInt32} : id.toNat < code.strings.size → Effect code (.pushInstance id) 0 1
  | popInstance {id : UInt32} : id.toNat < code.strings.size → Effect code (.popInstance id) 1 0
  | pushGlobal {id : UInt32} : id.toNat < code.strings.size → Effect code (.pushGlobal id) 0 1
  | popGlobal {id : UInt32} : id.toNat < code.strings.size → Effect code (.popGlobal id) 1 0
  | pushBuiltin {id : UInt32} : id.toNat < code.strings.size → Effect code (.pushBuiltin id) 0 1
  | popBuiltin {id : UInt32} : id.toNat < code.strings.size → Effect code (.popBuiltin id) 1 0
  | pushArgument (argument : UInt8) : Effect code (.pushArgument argument) 0 1
  | popArgument (argument : UInt8) : Effect code (.popArgument argument) 1 0
  | pushArgumentIndexed : Effect code .pushArgumentIndexed 1 1
  | popArgumentIndexed : Effect code .popArgumentIndexed 2 0
  | pushField {id : UInt32} : id.toNat < code.strings.size → Effect code (.pushField id) 1 1
  | popField {id : UInt32} : id.toNat < code.strings.size → Effect code (.popField id) 2 0
  | loadIndex (accessor : Accessor) {dims : UInt8} :
      0 < dims.toNat → Effect code (.loadIndex accessor dims) (dims.toNat + 1) 1
  | storeIndex (accessor : Accessor) {dims : UInt8} :
      0 < dims.toNat → Effect code (.storeIndex accessor dims) (dims.toNat + 2) 0
  | newArray (count : UInt32) : Effect code (.newArray count) count.toNat 1
  | newStruct (count : UInt32) : Effect code (.newStruct count) (2 * count.toNat) 1
  | dup (count : UInt8) : Effect code (.dup count) count.toNat (count.toNat + count.toNat)
  | popz : Effect code .popz 1 0
  | neg : Effect code .neg 1 1
  | not : Effect code .not 1 1
  | bitNot : Effect code .bitNot 1 1
  | cmp (comparison : Comparison) : Effect code (.cmp comparison) 2 1
  | call {function : UInt32} (argc : UInt8) :
      function.toNat < code.strings.size → Effect code (.call function argc) argc.toNat 1
  | callScript (reference : Int32) (argc : UInt8) :
      Effect code (.callScript reference argc) argc.toNat 1
  | callValue (argc : UInt8) : Effect code (.callValue argc) (argc.toNat + 1) 1
  | operation {instruction : Instruction} :
      instruction.isOperation = true → Effect code instruction 2 1

namespace Exec

open Machine

variable {code : Code} {fields : Bool} {p q : Nat}

/-! ### Operations -/

/-- Operations leave the machine alone. -/
theorem uses_operate {instruction : Instruction} (h : instruction.isOperation = true)
    (lhs rhs : Value) : Uses code fields p p (operate instruction lhs rhs) := by
  -- two strings can be added; all else takes numbers
  have numbers : ∀ f : Float → Float → Float, Uses code fields p p (do
      let x ← number lhs
      let y ← number rhs
      let result ← (pure (f x y) : Exec Float)
      return Value.real result) := fun f =>
    (uses_number lhs).bind fun x => (uses_number rhs).bind fun y =>
      (Uses.pure _).bind fun _ => Uses.pure _
  cases instruction with
  | add =>
    cases lhs with
    | string x =>
      cases rhs with
      | string y => exact Uses.pure _
      | _ => exact numbers (· + ·)
    | _ => exact numbers (· + ·)
  | sub => exact numbers (· - ·)
  | mul => exact numbers (· * ·)
  | div => exact numbers (· / ·)
  | intDiv => exact numbers fun x y => Number.truncate (x / y)
  | mod => exact numbers Number.remainder
  | bitAnd => exact numbers fun x y => ofBits (bits x &&& bits y)
  | bitOr => exact numbers fun x y => ofBits (bits x ||| bits y)
  | bitXor => exact numbers fun x y => ofBits (bits x ^^^ bits y)
  | shl => exact numbers fun x y => ofBits (bits x <<< bits y)
  | shr => exact numbers fun x y => ofBits (bits x >>> bits y)
  | _ => simp [Instruction.isOperation] at h

/-- So do comparisons. -/
theorem uses_compares (comparison : Comparison) (lhs rhs : Value) :
    Uses code fields p p (compares comparison lhs rhs) := by
  unfold compares
  split
  · exact Uses.pure _
  · exact Uses.pure _
  · exact Uses.pure _
  · exact Uses.throw _ trivial

/-! ### Local variables -/

/-- A local variable is loaded. -/
theorem uses_pushLocal {slot : UInt32} (h : slot.toNat < code.locals.size) (site : Int) :
    Uses code fields 0 1 (execute code site (.pushLocal slot)) := by
  refine Uses.of_get fun m hm _ => ?_
  have hslot : slot.toNat < m.locals.size := hm.size_locals ▸ h
  refine ⟨.ok none, { m with stack := m.locals[slot.toNat] :: m.stack }, ?_,
    .of_ok (hm.of_eq rfl rfl rfl rfl) rfl rfl rfl, ?_⟩
  · simp only [Array.getElem?_eq_getElem hslot]
    rfl
  · intro below outside
    simp only [raised, Array.getElem?_eq_getElem hslot]
    rfl

/-- A local variable is stored. -/
theorem uses_popLocal {slot : UInt32} (h : slot.toNat < code.locals.size) (site : Int) :
    Uses code fields 1 0 (execute code site (.popLocal slot)) := by
  refine uses_pop.bind fun v => Uses.of_get fun m hm _ => ?_
  have hslot : slot.toNat < m.locals.size := hm.size_locals ▸ h
  refine ⟨.ok none, { m with locals := m.locals.setIfInBounds slot.toNat v }, ?_,
    .of_ok (hm.of_eq (Array.size_setIfInBounds ..) rfl rfl rfl) rfl rfl rfl, ?_⟩
  · simp only [hslot, if_true]
    rfl
  · intro below outside
    simp only [raised, hslot, if_true]
    rfl

/-! ### All instructions without a jump -/

/-- What comes after taking several values may rely on their number. -/
theorem uses_popMany_bind {α : Type} {n k : Nat} {f : List Value → Exec α}
    (hf : ∀ values, values.length = n → Uses code fields k q (f values)) :
    Uses code fields (n + k) q (popMany n >>= f) := by
  intro m hm hp
  have htake : (m.stack.take n).reverse.length = n := by
    rw [List.length_reverse, List.length_take]
    omega
  have hpop : ∀ m : Machine, n ≤ m.stack.length →
      (popMany n).on m = (.ok (m.stack.take n).reverse, { m with stack := m.stack.drop n }) := by
    intro m h
    simp only [popMany, on_bind, on_get, thenOn_ok, splitTop_eq, h, if_true, on_modify, on_pure]
  have hm' : ({ m with stack := m.stack.drop n } : Machine).Ready code := hm.of_eq rfl rfl rfl rfl
  obtain ⟨result, m', hon, hs, hover⟩ := hf _ htake _ hm' (by simp only [List.length_drop]; omega)
  refine ⟨result, m', ?_, ⟨hs.traps, hs.ready, ?_, hs.next, hs.outer⟩, ?_⟩
  · rw [on_bind, hpop m (by omega), thenOn_ok, hon]
  · intro hr
    have := hs.length hr
    simp only [List.length_drop] at this
    omega
  · intro below outside
    have hle : n ≤ (m.raised below outside).stack.length := by
      simp only [raised, List.length_append]
      omega
    rw [on_bind, hpop _ hle, thenOn_ok, ← hover]
    simp only [raised, List.take_append_of_le_length (by omega : n ≤ m.stack.length),
      List.drop_append_of_le_length (by omega : n ≤ m.stack.length)]

/-- A call is noted. -/
theorem uses_log (call : String) : Uses code fields p p (log call) :=
  Uses.aside _ (fun _ _ _ => rfl) fun _ => ⟨rfl, rfl, rfl, rfl, rfl, rfl⟩

/-- Pushes the result of an action on the values that lie on top. -/
theorem Uses.pushing {α : Type} {x : Exec α} (hx : Uses code fields p 0 x)
    {f : α → Exec Unit} (hf : ∀ a, Uses code fields 0 q (f a)) :
    Uses code fields p q (do f (← x); return (none : Option Value)) :=
  hx.bind fun a => (hf a).bind fun _ => Uses.pure none

end Exec

open Exec

/-- Given enough values, an instruction that does not jump takes and leaves as many as its effect
says, and only the values can make it trap. -/
theorem Code.Effect.uses {code : Code} {instruction : Instruction} {p q : Nat}
    (h : code.Effect instruction p q) (site : Int) :
    Uses code instruction.asksField p q (execute code site instruction) := by
  cases h with
  | pushInt value => exact (uses_push _).bind fun _ => Uses.pure _
  | pushReal hid =>
    unfold execute
    simp only [Array.getElem?_eq_getElem hid]
    exact (uses_push _).bind fun _ => Uses.pure _
  | pushString hid | pushFunction hid => exact (uses_string hid).pushing fun _ => uses_push _
  | pushLocal hslot => exact uses_pushLocal hslot site
  | popLocal hslot => exact uses_popLocal hslot site
  | pushInstance hid =>
    exact (uses_string hid).bind fun name => (uses_loadCurrent name).bind fun _ => Uses.pure _
  | popInstance hid =>
    exact (uses_string hid).bind fun name => uses_pop.bind fun v =>
      (uses_storeCurrent name v).bind fun _ => Uses.pure _
  | pushGlobal hid | pushBuiltin hid =>
    refine (uses_string hid).bind fun name => Uses.of_get fun m hm _ => ?_
    exact ⟨.ok none, _, rfl, .of_ok (hm.of_eq rfl rfl rfl rfl) rfl rfl rfl, fun _ _ => rfl⟩
  | popGlobal hid | popBuiltin hid =>
    refine (uses_string hid).bind fun name => uses_pop.bind fun v =>
      Uses.bind ?_ fun _ => Uses.pure (p := 0) _
    exact Uses.aside _ (fun _ _ _ => rfl) fun _ => ⟨rfl, rfl, rfl, rfl, rfl, rfl⟩
  | pushArgument argument => exact (uses_loadArgument _).bind fun _ => Uses.pure _
  | popArgument argument => exact uses_pop.pushing fun v => uses_storeArgument _ v
  | pushArgumentIndexed => exact uses_popNumber.pushing fun x => uses_loadArgument _
  | popArgumentIndexed =>
    exact (uses_pop_succ 1).bind fun v => uses_popNumber.pushing fun x => uses_storeArgument _ v
  | pushField hid =>
    exact (uses_string hid).bind fun name => uses_popNumber.pushing fun x =>
      uses_loadVariable _ name
  | popField hid =>
    exact (uses_string hid).bind fun name => (uses_pop_succ 1).bind fun v =>
      uses_popNumber.pushing fun x => uses_storeVariable _ name v
  | @loadIndex accessor dims hdims =>
    refine uses_popMany_bind fun indices hlen => uses_pop.bind fun container => ?_
    have hne : indices ≠ [] := List.ne_nil_of_length_pos (hlen ▸ hdims)
    exact (uses_element accessor hne container).pushing fun _ => uses_push _
  | @storeIndex accessor dims hdims =>
    refine (uses_pop_succ (dims.toNat + 1)).bind fun v => uses_popMany_bind fun indices hlen =>
      uses_pop.bind fun container => ?_
    have hne : indices ≠ [] := List.ne_nil_of_length_pos (hlen ▸ hdims)
    exact (uses_setElement accessor v hne container).bind fun _ => Uses.pure _
  | newArray count => exact (uses_popMany _).pushing uses_newArray
  | newStruct count => exact (uses_popMany _).pushing uses_newStruct
  | dup count => exact (uses_duplicate _).bind fun _ => Uses.pure _
  | popz => exact uses_pop.bind fun _ => Uses.pure _
  | neg => exact uses_popNumber.pushing fun _ => uses_push _
  | not => exact uses_pop.pushing fun _ => uses_push _
  | bitNot => exact uses_popNumber.pushing fun _ => uses_push _
  | cmp comparison =>
    exact (uses_pop_succ 1).bind fun rhs => uses_pop.bind fun lhs =>
      (uses_compares comparison lhs rhs).pushing fun _ => uses_push _
  | call argc hid =>
    exact (uses_string hid).bind fun name => (uses_popMany _).bind fun arguments =>
      (uses_log name).bind fun _ => (uses_push _).bind fun _ => Uses.pure _
  | callScript reference argc =>
    exact (uses_popMany _).bind fun _ => (uses_log _).bind fun _ =>
      (uses_push _).bind fun _ => Uses.pure _
  | callValue argc =>
    exact (uses_pop_succ argc.toNat).bind fun _ => (uses_popMany _).bind fun _ =>
      (uses_push _).bind fun _ => Uses.pure _
  | operation hop =>
    cases instruction <;> simp [Instruction.isOperation] at hop <;>
    exact (uses_pop_succ 1).bind fun rhs => uses_pop.bind fun lhs =>
      (uses_operate rfl lhs rhs).pushing fun _ => uses_push _

end Gml
