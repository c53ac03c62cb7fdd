import Gml.Proofs.Evaluation.Mirror

/-!
# What instructions apply

For each instruction that code of expressions is made of, what it does to the values on top of the
stack (`Code.Applies`), in the words of the direct evaluation. `Code.Locates` says it for the places
of assignable expressions: with the address of a spot on the stack, the instructions of its place
load and store the value at the spot.
-/

namespace Gml

open Exec Machine

/-- Each entry of a table has a number of its own. -/
structure Code.Addressable (code : Code) : Prop where
  /-- The strings. -/
  strings : code.strings.size ≤ UInt32.size
  /-- The constants. -/
  constants : code.constants.size ≤ UInt32.size
  /-- The local variables. -/
  locals : code.locals.size ≤ UInt32.size

instance (code : Code) : Decidable code.Addressable :=
  decidable_of_iff (code.strings.size ≤ UInt32.size ∧ code.constants.size ≤ UInt32.size ∧
      code.locals.size ≤ UInt32.size)
    ⟨fun h => ⟨h.1, h.2.1, h.2.2⟩, fun h => ⟨h.strings, h.constants, h.locals⟩⟩

/-- An entry is found in its table. -/
theorem Entry.get {α : Type} {table : Array α} {id : UInt32} {entry : α} (h : Entry table id entry)
    (hsize : table.size ≤ UInt32.size) : table[id.toNat]? = some entry := by
  obtain ⟨index, hentry, rfl⟩ := h
  have hlt : index < table.size := (Array.getElem?_eq_some_iff.1 hentry).1
  rw [UInt32.toNat_ofNat_of_lt' (Nat.lt_of_lt_of_le hlt hsize)]
  exact hentry

/-- A name has one slot. -/
theorem slotOf_eq {names : Array String} {slot : Nat} {name : String} (hn : names.toList.Nodup)
    (h : names[slot]? = some name) : slotOf names name = slot := by
  obtain ⟨hlt, rfl⟩ := Array.getElem?_eq_some_iff.1 h
  exact hn.idxOf_getElem slot hlt

namespace Code

variable {code : Code} {id : UInt32} {name : String}

/-- A string is found by its number. -/
theorem string_eq (h : code.strings[id.toNat]? = some name) : Exec.string code id = pure name := by
  unfold Exec.string
  rw [h]

/-- Several values are popped. -/
theorem on_popMany {values S : List Value} {m : Machine} {n : Nat} (h : values.length = n) :
    (popMany n).on { m with stack := values ++ S } =
      (.ok values.reverse, { m with stack := S }) := by
  unfold popMany
  rw [on_bind, on_get, thenOn_ok, splitTop_eq, if_pos (by simp [← h]), ← h, List.take_left,
    List.drop_left]
  rfl

/-- What is left may be computed from the result. -/
theorem Applies.map {α β : Type} {I : Instruction} {taken : List Value} {x : Exec α} (f : α → β)
    (left : β → List Value) (h : code.Applies I taken x fun a => left (f a)) :
    code.Applies I taken (x >>= fun a => pure (f a)) left := by
  intro site m S hm
  rw [h site m S hm, bind_assoc]
  simp only [pure_bind]

/-! ### Constants

Each instruction takes its values from the stack and leaves what an action gives.
-/

/-- An integer. -/
theorem applies_pushInt (value : Int32) : code.Applies (.pushInt value) []
    (pure (.real (Float.ofInt value.toInt))) fun v => [v] :=
  fun _ _ _ _ => rfl

/-- A constant. -/
theorem applies_pushReal {constant : Double} (h : code.constants[id.toNat]? = some constant) :
    code.Applies (.pushReal id) [] (pure (.real constant.toFloat)) fun v => [v] := by
  intro site m S _
  unfold execute
  dsimp only
  rw [h]
  rfl

/-- A string. -/
theorem applies_pushString (h : code.strings[id.toNat]? = some name) :
    code.Applies (.pushString id) [] (pure (.string name)) fun v => [v] := by
  intro site m S _
  unfold execute
  dsimp only
  rw [string_eq h]
  rfl

/-- A function. -/
theorem applies_pushFunction (h : code.strings[id.toNat]? = some name) :
    code.Applies (.pushFunction id) [] (pure (.string name)) fun v => [v] := by
  intro site m S _
  unfold execute
  dsimp only
  rw [string_eq h]
  rfl

/-- Values are duplicated. -/
theorem applies_dup {values : List Value} {count : UInt8} (h : values.length = count.toNat) :
    code.Applies (.dup count) values (pure ()) fun _ => values ++ values := by
  intro site m S _
  change (duplicate count.toNat >>= fun _ => pure none).on _ = _
  unfold duplicate
  rw [on_bind, on_bind, on_get, thenOn_ok, splitTop_eq, if_pos (by simp [← h]), ← h, List.take_left]
  exact congrArg (fun stack => (Except.ok none, { m with stack }))
    (List.append_assoc values values S).symm

/-! ### Operators -/

/-- A negation. -/
theorem applies_not (v : Value) : code.Applies .not [v] (pure (.ofBool !v.isTrue)) fun v => [v] :=
  fun _ _ _ _ => rfl

/-- A comparison. -/
theorem applies_cmp (comparison : Comparison) (lhs rhs : Value) :
    code.Applies (.cmp comparison) [rhs, lhs] (compares comparison lhs rhs)
      fun truth => [.ofBool truth] :=
  fun _ _ _ _ => rfl

/-- A comparison that gives a value. -/
theorem applies_comparison (comparison : Comparison) (lhs rhs : Value) :
    code.Applies (.cmp comparison) [rhs, lhs]
      (do return Value.ofBool (← compares comparison lhs rhs)) fun v => [v] :=
  Applies.map Value.ofBool (fun v => [v]) (applies_cmp comparison lhs rhs)

/-- A unary operator. -/
theorem applies_unary (operator : UnaryOp) (v : Value) :
    code.Applies operator.instruction [v] (operator.apply v) fun v => [v] := by
  intro site m S _
  cases operator with
  | not => rfl
  | negate => cases v <;> rfl
  | bitNot => cases v <;> rfl

/-- A binary operator. -/
theorem applies_binary (operator : BinaryOp) (lhs rhs : Value) :
    code.Applies operator.instruction [rhs, lhs] (operator.apply lhs rhs) fun v => [v] := by
  cases operator
  case equal => exact applies_comparison .equal lhs rhs
  case notEqual => exact applies_comparison .notEqual lhs rhs
  case less => exact applies_comparison .less lhs rhs
  case lessEqual => exact applies_comparison .lessEqual lhs rhs
  case greater => exact applies_comparison .greater lhs rhs
  case greaterEqual => exact applies_comparison .greaterEqual lhs rhs
  all_goals exact fun _ _ _ _ => rfl

/-- A step. -/
theorem applies_step (step : Step) (v : Value) :
    code.Applies step.instruction [.real 1, v] (step.apply v) fun v => [v] := by
  intro site m S _
  cases step <;> rfl

/-! ### Calls, arrays and structs -/

/-- A call by name. -/
theorem applies_call {values : List Value} {argc : UInt8} (hs : code.strings[id.toNat]? = some name)
    (h : values.length = argc.toNat) : code.Applies (.call id argc) values
      (log name >>= fun _ => pure (values.head?.getD (.real 0))) fun v => [v] := by
  intro site m S _
  unfold execute
  dsimp only
  rw [string_eq hs, pure_bind, on_bind, on_popMany h, thenOn_ok, List.getLast?_reverse]
  rfl

/-- A call of a script. -/
theorem applies_callScript {values : List Value} {argc : UInt8} (reference : Int32)
    (h : values.length = argc.toNat) : code.Applies (.callScript reference argc) values
      (log s!"script {reference}" >>= fun _ => pure .undefined) fun v => [v] := by
  intro site m S _
  unfold execute
  dsimp only
  rw [on_bind, on_popMany h, thenOn_ok]
  rfl

/-- A call of a value. -/
theorem applies_callValue {values : List Value} {argc : UInt8} (callee : Value)
    (h : values.length = argc.toNat) : code.Applies (.callValue argc) (callee :: values)
      (pure .undefined) fun v => [v] := by
  intro site m S _
  change (popMany argc.toNat >>= fun _ => Exec.push .undefined >>= fun _ => pure none).on
    { m with stack := values ++ S } = _
  rw [on_bind, on_popMany h, thenOn_ok]
  rfl

/-- A new array. -/
theorem applies_newArray {items : List Value} {count : UInt32} (h : items.length = count.toNat) :
    code.Applies (.newArray count) items.reverse (arrayOf items) fun v => [v] := by
  intro site m S _
  unfold execute
  dsimp only
  rw [on_bind, on_popMany (by rwa [List.length_reverse]), thenOn_ok, List.reverse_reverse]
  rfl

end Code

/-- The keys and values of a struct in turn. -/
def keysAndValues (entries : List (String × Value)) : List Value :=
  entries.flatMap fun entry => [.string entry.1, entry.2]

/-- Each entry has a key and a value. -/
theorem length_keysAndValues (entries : List (String × Value)) :
    (keysAndValues entries).length = 2 * entries.length := by
  induction entries with
  | nil => rfl
  | cons entry entries ih =>
    rw [List.length_cons, Nat.mul_succ, ← ih]
    rfl

/-- Keys and values are paired again. -/
theorem pairs_keysAndValues (heap : Heap) (entries : List (String × Value)) :
    pairs heap (keysAndValues entries) = entries := by
  induction entries with
  | nil => rfl
  | cons entry entries ih => exact congrArg (entry :: ·) ih

namespace Code

variable {code : Code} {id : UInt32} {name : String}

/-- A new struct. -/
theorem applies_newStruct {entries : List (String × Value)} {count : UInt32}
    (h : entries.length = count.toNat) :
    code.Applies (.newStruct count) (keysAndValues entries).reverse (structOf entries)
      fun v => [v] := by
  intro site m S _
  unfold execute
  dsimp only
  rw [on_bind, on_popMany (by rw [List.length_reverse, length_keysAndValues, h]), thenOn_ok,
    List.reverse_reverse]
  unfold newStruct
  simp only [pairs_keysAndValues]
  rfl

end Code

/-! ### Spots -/

/-- The values of an address, the last one first. -/
def Spot.address : Spot → List Value
  | named .. => []
  | field instanceOf _ => [instanceOf]
  | argument index => [index]
  | element _ container indices => indices.reverse ++ [container]

/-- Code reaches a spot by the instructions of a place. -/
structure Code.Locates (code : Code) (place : Place) (spot : Spot) : Prop where
  /-- The address has as many values as the place asks for. -/
  width : spot.address.length = place.width.toNat
  /-- The value can be loaded. -/
  load : code.Applies place.load spot.address (spot.load code.locals) fun v => [v]
  /-- A value can be stored. -/
  store : ∀ v, code.Applies place.store (v :: spot.address) (spot.store code.locals v) fun _ => []
  /-- Loading comes to the same on mirrored machines. -/
  alike_load : Alike code (spot.load code.locals)
  /-- So does storing. -/
  alike_store : ∀ v, Alike code (spot.store code.locals v)
  /-- Storing below an address leaves local variables alone. -/
  locals : place.isNamed = false → ∀ v (m : Machine),
    ((spot.store code.locals v).on m).2.locals = m.locals

namespace Code

variable {code : Code} {id : UInt32} {name : String}

/-- To leave nothing. -/
theorem leaving_nil : leaving [] = pure none := rfl

/-- A variable that is loaded is left. -/
theorem loadVariable_leaving (index : Int) (name : String) :
    (loadVariable index name >>= fun _ => pure none) =
      variableOf index name >>= fun v => leaving [v] := by
  unfold loadVariable variableOf
  simp only [bind_assoc, pure_bind]
  rfl

/-- So is an argument. -/
theorem loadArgument_leaving (index : Nat) :
    (loadArgument index >>= fun _ => pure none) = argumentAt index >>= fun v => leaving [v] := by
  unfold loadArgument argumentAt
  simp only [bind_assoc, pure_bind]
  rfl

/-- A field. -/
theorem locates_field (v : Value) (h : code.strings[id.toNat]? = some name) :
    code.Locates (.field id) (.field v name) := by
  have hload : (Spot.load code.locals (.field v name)).Blind :=
    (blind_number v).bind fun _ => blind_variableOf _ name
  have hstore (w : Value) : (Spot.store code.locals w (.field v name)).Blind :=
    (blind_number v).bind fun _ => blind_storeVariable _ name w
  refine ⟨rfl, ?_, fun w => ?_, hload.alike, fun w => (hstore w).alike, fun _ w => (hstore w).locals⟩
  · intro site m S _
    change (Exec.string code id >>= fun name => popNumber >>= fun x =>
      loadVariable (instanceId x) name >>= fun _ => pure none).on _ = _
    rw [string_eq h, pure_bind]
    change (number v >>= fun x => loadVariable (instanceId x) name >>= fun _ => pure none).on
      { m with stack := S } = _
    unfold Spot.load
    simp only [loadVariable_leaving, bind_assoc]
  · intro site m S _
    change (Exec.string code id >>= fun name => pop >>= fun w => popNumber >>= fun x =>
      storeVariable (instanceId x) name w >>= fun _ => pure none).on _ = _
    rw [string_eq h, pure_bind]
    change (number v >>= fun x => storeVariable (instanceId x) name w >>= fun _ => pure none).on
      { m with stack := S } = _
    unfold Spot.store
    simp only [leaving_nil, bind_assoc]

/-- An argument. -/
theorem locates_argument (v : Value) : code.Locates .argument (.argument v) := by
  have hload : (Spot.load code.locals (.argument v)).Blind :=
    (blind_number v).bind fun _ => blind_argumentAt _
  have hstore (w : Value) : (Spot.store code.locals w (.argument v)).Blind :=
    (blind_number v).bind fun _ => blind_storeArgument _ w
  refine ⟨rfl, ?_, fun w => ?_, hload.alike, fun w => (hstore w).alike, fun _ w => (hstore w).locals⟩
  · intro site m S _
    change (number v >>= fun x => loadArgument (Exec.index x) >>= fun _ => pure none).on
      { m with stack := S } = _
    unfold Spot.load
    simp only [loadArgument_leaving, bind_assoc]
  · intro site m S _
    change (number v >>= fun x => storeArgument (Exec.index x) w >>= fun _ => pure none).on
      { m with stack := S } = _
    unfold Spot.store
    simp only [leaving_nil, bind_assoc]

/-- An element. -/
theorem locates_element (accessor : Accessor) (container : Value) {indices : List Value}
    {dims : UInt8} (h : indices.length = dims.toNat) (hd : dims.toNat ≤ 2) :
    code.Locates (.element accessor dims) (.element accessor container indices) := by
  have hload : (Spot.load code.locals (.element accessor container indices)).Blind :=
    blind_element accessor indices container
  have hstore (v : Value) : (Spot.store code.locals v (.element accessor container indices)).Blind :=
    blind_setElement accessor v indices container
  have hpop (m : Machine) (S : List Value) :
      (popMany dims.toNat).on { m with stack := indices.reverse ++ container :: S } =
        (.ok indices, { m with stack := container :: S }) := by
    rw [on_popMany (by rwa [List.length_reverse]), List.reverse_reverse]
  refine ⟨?_, ?_, fun v => ?_, hload.alike, fun v => (hstore v).alike, fun _ v => (hstore v).locals⟩
  · change (indices.reverse ++ [container]).length = (dims + 1).toNat
    rw [UInt8.toNat_add, List.length_append, List.length_reverse, h]
    change dims.toNat + 1 = (dims.toNat + 1) % 256
    omega
  · intro site m S _
    change (popMany dims.toNat >>= fun indices => pop >>= fun container =>
      element accessor indices container >>= fun v => leaving [v]).on
        { m with stack := indices.reverse ++ [container] ++ S } = _
    rw [List.append_assoc, on_bind]
    exact congrArg (thenOn _) (hpop m S)
  · intro site m S _
    change (popMany dims.toNat >>= fun indices => pop >>= fun container =>
      setElement accessor v indices container >>= fun _ => leaving []).on
        { m with stack := indices.reverse ++ [container] ++ S } = _
    rw [List.append_assoc, on_bind]
    exact congrArg (thenOn _) (hpop m S)

/-- A variable that is not a local one. -/
theorem locates_blind {load store : Instruction} {resolution : Resolution}
    (hload : code.Applies load [] (Spot.load code.locals (.named name resolution)) fun v => [v])
    (hstore : ∀ v, code.Applies store [v] (Spot.store code.locals v (.named name resolution))
      fun _ => [])
    (hl : (Spot.load code.locals (.named name resolution)).Blind)
    (hs : ∀ v, (Spot.store code.locals v (.named name resolution)).Blind) :
    code.Locates (.named load store) (.named name resolution) :=
  ⟨rfl, hload, hstore, hl.alike, fun v => (hs v).alike, fun h => by cases h⟩

/-- A local variable of the script. -/
theorem locates_local (hn : code.locals.toList.Nodup) (hname : ¬ IsTemporary name)
    (h : code.locals[id.toNat]? = some name) :
    code.Locates (.named (.pushLocal id) (.popLocal id)) (.named name .localVar) := by
  have hslot : slotOf code.locals name = id.toNat := slotOf_eq hn h
  have hlt : id.toNat < code.locals.size := (Array.getElem?_eq_some_iff.1 h).1
  refine ⟨rfl, ?_, fun v => ?_, ?_, fun v => ?_, fun h => by cases h⟩
  · intro site m S hm
    have hget := Array.getElem?_eq_getElem (hm ▸ hlt : id.toNat < m.locals.size)
    change (execute code site (.pushLocal id)).on { m with stack := S } = _
    unfold execute Spot.load
    dsimp only
    rw [hslot, on_bind, on_bind, on_bind, on_get]
    simp only [thenOn_ok, hget]
    rfl
  · intro site m S hm
    unfold execute Spot.store
    dsimp only
    rw [hslot]
    change (if id.toNat < m.locals.size then _ else _ : Exec (Option Value)).on _ = _
    rw [if_pos (hm ▸ hlt)]
    rfl
  · intro F d hm
    unfold Spot.load
    dsimp only
    refine ⟨_, F, d, rfl, ?_, hm, rfl, rfl, .refl d⟩
    rw [hslot, on_bind, on_get, thenOn_ok, on_pure, hm.locals h hname]
  · intro F d hm
    unfold Spot.store
    dsimp only
    refine ⟨_, _, _, rfl, rfl, ⟨?_, ?_, ?_, fun {slot other} hslot' hother => ?_⟩, rfl, rfl, rfl, rfl⟩
    · exact congrArg (fun m : Machine => { m with
        locals := F.locals.setIfInBounds (slotOf code.locals name) v }) hm.dressed
    · exact Array.size_setIfInBounds.trans hm.size
    · exact Array.size_setIfInBounds.trans hm.direct_size
    · change (F.locals.setIfInBounds _ v)[slot]? = (d.locals.setIfInBounds _ v)[slot]?
      rw [Array.getElem?_setIfInBounds, Array.getElem?_setIfInBounds, hm.size, hm.direct_size,
        hm.locals hslot' hother]

/-- A variable. -/
theorem Variable.locates {load store : Instruction} {resolution : Resolution}
    (h : code.Variable name resolution load store) (hA : code.Addressable)
    (hn : code.locals.toList.Nodup) :
    code.Locates (.named load store) (.named name resolution) := by
  cases h with
  | localVar hname he => exact locates_local hn hname (he.get hA.locals)
  | globalVar he | builtinVariable he | argumentArray he =>
    refine locates_blind ?_ (fun v => ?_) (.of_get (fun _ _ _ _ => rfl) fun _ => blind_pure _)
      fun v => blind_modify (fun _ _ _ _ => rfl) fun _ => ⟨rfl, rfl⟩
    all_goals
      intro site m S _
      unfold execute
      dsimp only
      rw [string_eq (he.get hA.strings), pure_bind]
      rfl
  | dynamic he =>
    refine locates_blind ?_ (fun v => ?_)
      (.of_get (fun _ _ _ _ => rfl) fun m => blind_variableOf m.current name)
      fun v => .of_get (fun _ _ _ _ => rfl) fun m => blind_storeVariable m.current name v
    · intro site m S _
      unfold execute
      dsimp only
      rw [string_eq (he.get hA.strings), pure_bind]
      simp only [loadVariable_leaving]
      exact congrArg (fun x : Exec (Option Value) => x.on { m with stack := S })
        (bind_assoc get _ _).symm
    · intro site m S _
      unfold execute
      dsimp only
      rw [string_eq (he.get hA.strings), pure_bind]
      change (get >>= fun m => storeVariable m.current name v >>= fun _ => pure none).on
        { m with stack := S } = _
      exact congrArg (fun x : Exec (Option Value) => x.on { m with stack := S })
        (bind_assoc get _ _).symm
  | argument index =>
    refine locates_blind ?_ (fun v => ?_) (blind_argumentAt _) fun v => blind_storeArgument _ v
    · intro site m S _
      exact congrArg (fun x : Exec (Option Value) => x.on { m with stack := S })
        (loadArgument_leaving index.toNat)
    · exact fun _ _ _ _ => rfl

end Code

end Gml
