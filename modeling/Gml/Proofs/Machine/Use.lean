import Gml.Proofs.Machine.Step

/-!
# What actions use of the stack

An action of the machine takes some values from the stack and leaves others, and does not look at
what lies beneath. `Exec.Uses` says so: given enough values it never finds the stack too short, the
stack changes by the same number of values whatever the values are, and with more beneath the stack
(`Machine.raised`) all goes the same. The only traps are those that the values are to blame for.

The property is closed under sequence (`Uses.bind`), so that it is shown for the parts of an
instruction one by one.
-/

namespace Gml

/-- A trap that the values of a script are to blame for, not its code: a value of the wrong sort or,
where a field of any instance may be asked for, an instance that does not exist. -/
def Trap.FromValues (fields : Bool) : Trap → Prop
  | notNumber _ | notContainer _ | notComparable _ _ => True
  | noInstance _ => fields = true
  | _ => False

namespace Machine

/-- The machine with more beneath its stack, and with more instances to go back to in the end. -/
def raised (m : Machine) (below : List Value) (outside : List Int) : Machine :=
  { m with stack := m.stack ++ below, outer := m.outer ++ outside }

/-- A machine fit for code: it has a place for each local variable, and the instances that it acts
as, now or later, exist. -/
structure Ready (code : Code) (m : Machine) : Prop where
  /-- There is a place for each local variable. -/
  size_locals : m.locals.size = code.locals.size
  /-- The instance that the machine acts as exists. -/
  current_exists : m.instances.contains m.current = true
  /-- So do the instances that it goes back to. -/
  outer_exist : ∀ id ∈ m.outer, m.instances.contains id = true

/-- Values may change, but not how many variables there are. -/
theorem Ready.of_eq {code : Code} {m m' : Machine} (h : m.Ready code)
    (hl : m'.locals.size = m.locals.size) (hi : m'.instances = m.instances)
    (hc : m'.current = m.current) (ho : m'.outer = m.outer) : m'.Ready code :=
  ⟨hl.trans h.size_locals, by rw [hi, hc]; exact h.current_exists,
    by rw [hi, ho]; exact h.outer_exist⟩

end Machine

/-- Values are split off if there are enough. -/
theorem splitTop_eq (count : Nat) (stack : List Value) :
    splitTop count stack =
      if count ≤ stack.length then some (stack.take count, stack.drop count) else none := by
  induction count generalizing stack with
  | zero => simp [splitTop]
  | succ count ih =>
    cases stack with
    | nil => simp [splitTop]
    | cons value stack =>
      simp only [splitTop, ih]
      by_cases h : count ≤ stack.length <;> simp [h]

namespace Exec

open Machine

variable {α β : Type} {code : Code} {fields : Bool} {p q r : Nat}

/-- What an action that takes `p` values and leaves `q` comes to on a machine. -/
structure Settles (code : Code) (fields : Bool) (p q : Nat) (m : Machine)
    (result : Except Trap α) (m' : Machine) : Prop where
  /-- Only the values of the script can make the action trap. -/
  traps : ∀ t, result = .error t → t.FromValues fields
  /-- Without a trap the machine stays fit. -/
  ready : (∃ a, result = .ok a) → m'.Ready code
  /-- Without a trap the stack changes by as many values as the action takes and leaves. -/
  length : (∃ a, result = .ok a) → m'.stack.length + p = m.stack.length + q
  /-- The machine goes on at the same place. -/
  next : m'.next = m.next
  /-- Without a trap the machine goes back to the same instances. -/
  outer : (∃ a, result = .ok a) → m'.outer = m.outer

/-- A trap that comes from values settles an action. -/
theorem Settles.of_error {m m' : Machine} {t : Trap} (ht : t.FromValues fields)
    (hn : m'.next = m.next) : Settles code fields p q m (.error t : Except Trap α) m' where
  traps := by rintro _ ⟨⟩; exact ht
  ready := by rintro ⟨a, ha⟩; cases ha
  length := by rintro ⟨a, ha⟩; cases ha
  next := hn
  outer := by rintro ⟨a, ha⟩; cases ha

/-- So does a result at the right depth. -/
theorem Settles.of_ok {m m' : Machine} {a : α} (hr : m'.Ready code)
    (hl : m'.stack.length + p = m.stack.length + q) (hn : m'.next = m.next)
    (ho : m'.outer = m.outer) : Settles code fields p q m (.ok a) m' where
  traps := by rintro t ⟨⟩
  ready _ := hr
  length _ := hl
  next := hn
  outer _ := ho

/-- The action takes `p` values from the stack and leaves `q`, whatever lies beneath. -/
def Uses (code : Code) (fields : Bool) (p q : Nat) (x : Exec α) : Prop :=
  ∀ m : Machine, m.Ready code → p ≤ m.stack.length →
    ∃ result m', x.on m = (result, m') ∧ Settles code fields p q m result m' ∧
      ∀ below outside, x.on (m.raised below outside) = (result, m'.raised below outside)

namespace Uses

/-! ### Sequence -/

/-- A value may be given. -/
theorem pure (a : α) : Uses code fields p p (Pure.pure a : Exec α) := by
  intro m hm _
  exact ⟨.ok a, m, rfl, .of_ok hm rfl rfl rfl, fun _ _ => rfl⟩

/-- A trap may come from values. -/
theorem throw (t : Trap) (ht : t.FromValues fields) :
    Uses code fields p q (MonadExcept.throw t : Exec α) := by
  intro m _ _
  exact ⟨.error t, m, rfl, .of_error ht rfl, fun _ _ => rfl⟩

/-- What comes after an action may use what it leaves. -/
theorem bind {x : Exec α} {f : α → Exec β} (hx : Uses code fields p q x)
    (hf : ∀ a, Uses code fields q r (f a)) : Uses code fields p r (x >>= f) := by
  intro m hm hp
  obtain ⟨result, m₁, hon, hs, hover⟩ := hx m hm hp
  cases result with
  | error t =>
    refine ⟨.error t, m₁, by rw [on_bind, hon, thenOn_error], .of_error (hs.traps t rfl) hs.next, ?_⟩
    intro below outside
    rw [on_bind, hover, thenOn_error]
  | ok a =>
    have hlen := hs.length ⟨a, rfl⟩
    obtain ⟨result, m₂, hon', hs', hover'⟩ := hf a m₁ (hs.ready ⟨a, rfl⟩) (by omega)
    refine ⟨result, m₂, by rw [on_bind, hon, thenOn_ok, hon'],
      ⟨hs'.traps, hs'.ready, ?_, hs'.next.trans hs.next, ?_⟩, ?_⟩
    · intro hr; have := hs'.length hr; omega
    · intro hr; rw [hs'.outer hr, hs.outer ⟨a, rfl⟩]
    · intro below outside; rw [on_bind, hover, thenOn_ok, hover']

/-- A result may be changed. -/
theorem map {x : Exec α} (f : α → β) (hx : Uses code fields p q x) :
    Uses code fields p q (f <$> x) := by
  rw [← bind_pure_comp]
  exact hx.bind fun a => pure (f a)

/-- An action leaves what lies beneath the values that it takes. -/
theorem beneath {x : Exec α} (hx : Uses code fields p q x) (k : Nat) :
    Uses code fields (p + k) (q + k) x := by
  intro m hm hp
  obtain ⟨result, m', hon, hs, hover⟩ := hx m hm (by omega)
  refine ⟨result, m', hon, ⟨hs.traps, hs.ready, ?_, hs.next, hs.outer⟩, hover⟩
  intro hr
  have := hs.length hr
  omega

/-- An action that looks at the machine first. -/
theorem of_get {f : Machine → Exec α}
    (hf : ∀ m : Machine, m.Ready code → p ≤ m.stack.length →
      ∃ result m', (f m).on m = (result, m') ∧ Settles code fields p q m result m' ∧
        ∀ below outside, (f (m.raised below outside)).on (m.raised below outside) =
          (result, m'.raised below outside)) :
    Uses code fields p q (get >>= f) := by
  intro m hm hp
  obtain ⟨result, m', hon, hs, hover⟩ := hf m hm hp
  exact ⟨result, m', by rw [on_bind, on_get, thenOn_ok, hon], hs, fun below outside => by
    rw [on_bind, on_get, thenOn_ok, hover]⟩

/-- A change of the machine that has nothing to do with the stacks. -/
theorem change (f : Machine → Machine)
    (hover : ∀ m below outside, f (m.raised below outside) = (f m).raised below outside)
    (hready : ∀ m : Machine, m.Ready code → (f m).Ready code)
    (hlen : ∀ m : Machine, p ≤ m.stack.length → (f m).stack.length + p = m.stack.length + q)
    (hnext : ∀ m, (f m).next = m.next) (houter : ∀ m, (f m).outer = m.outer) :
    Uses code fields p q (modify f : Exec Unit) := by
  intro m hm hp
  refine ⟨.ok (), f m, rfl, .of_ok (hready m hm) (hlen m hp) (hnext m) (houter m), ?_⟩
  intro below outside
  rw [on_modify, hover]

/-- A change of the machine that leaves alone all that later instructions rely on. -/
theorem aside (f : Machine → Machine)
    (hover : ∀ m below outside, f (m.raised below outside) = (f m).raised below outside)
    (hf : ∀ m, (f m).locals = m.locals ∧ (f m).instances = m.instances ∧
      (f m).current = m.current ∧ (f m).outer = m.outer ∧ (f m).stack = m.stack ∧
      (f m).next = m.next) :
    Uses code fields p p (modify f : Exec Unit) := by
  refine change f hover ?_ ?_ ?_ ?_
  · intro m hm
    obtain ⟨hl, hi, hc, ho, -, -⟩ := hf m
    exact hm.of_eq (congrArg Array.size hl) hi hc ho
  · intro m _
    rw [(hf m).2.2.2.2.1]
  · intro m
    exact (hf m).2.2.2.2.2
  · intro m
    exact (hf m).2.2.2.1

end Uses

/-! ### The stack -/

/-- A value is pushed. -/
theorem uses_push (v : Value) : Uses code fields 0 1 (push v) := by
  refine Uses.change _ ?_ ?_ ?_ ?_ ?_
  · intro m below outside; rfl
  · intro m hm; exact hm.of_eq rfl rfl rfl rfl
  · intro m _; rfl
  · intro m; rfl
  · intro m; rfl

/-- A value is popped. -/
theorem uses_pop : Uses code fields 1 0 pop := by
  refine Uses.of_get fun m hm hp => ?_
  cases hstack : m.stack with
  | nil => simp [hstack] at hp
  | cons v stack =>
    refine ⟨.ok v, { m with stack }, rfl,
      .of_ok (hm.of_eq rfl rfl rfl rfl) (by rw [hstack]; rfl) rfl rfl, ?_⟩
    intro below outside
    simp only [raised, hstack, List.cons_append, on_bind, on_modify, thenOn_ok, on_pure]

/-- Takes the top value of several. -/
theorem uses_pop_succ (n : Nat) : Uses code fields (n + 1) n pop := by
  simpa [Nat.add_comm] using uses_pop.beneath n

/-- Several values are popped. -/
theorem uses_popMany (n : Nat) : Uses code fields n 0 (popMany n) := by
  refine Uses.of_get fun m hm hp => ?_
  refine ⟨.ok (m.stack.take n).reverse, { m with stack := m.stack.drop n }, ?_,
    .of_ok (hm.of_eq rfl rfl rfl rfl) ?_ rfl rfl, ?_⟩
  · simp only [splitTop_eq, hp, if_true, on_bind, on_modify, thenOn_ok, on_pure]
  · simp only [List.length_drop]; omega
  · intro below outside
    have hle : n ≤ (m.stack ++ below).length := by rw [List.length_append]; omega
    simp only [raised, splitTop_eq, hle, if_true, on_bind, on_modify, thenOn_ok, on_pure,
      List.take_append_of_le_length hp, List.drop_append_of_le_length hp]

/-- Several values are duplicated. -/
theorem uses_duplicate (n : Nat) : Uses code fields n (n + n) (duplicate n) := by
  refine Uses.of_get fun m hm hp => ?_
  refine ⟨.ok (), { m with stack := m.stack.take n ++ m.stack }, ?_,
    .of_ok (hm.of_eq rfl rfl rfl rfl) ?_ rfl rfl, ?_⟩
  · simp only [splitTop_eq, hp, if_true, on_modify]
  · simp only [List.length_append, List.length_take]; omega
  · intro below outside
    have hle : n ≤ (m.stack ++ below).length := by rw [List.length_append]; omega
    simp only [raised, splitTop_eq, hle, if_true, on_modify, List.take_append_of_le_length hp,
      List.append_assoc]

/-- A number is asked for. -/
theorem uses_number (v : Value) : Uses code fields p p (number v) := by
  cases v with
  | real x => exact Uses.pure x
  | _ => exact Uses.throw _ trivial

/-- A number is popped. -/
theorem uses_popNumber : Uses code fields 1 0 popNumber :=
  uses_pop.bind uses_number

/-! ### Variables -/

/-- A string is in the table. -/
theorem uses_string {id : UInt32} (h : id.toNat < code.strings.size) :
    Uses code fields p p (string code id) := by
  unfold string
  rw [Array.getElem?_eq_getElem h]
  exact Uses.pure _

/-- The variables of an instance are looked for. -/
theorem uses_variablesOf (id : Int) : Uses code true p p (variablesOf id) := by
  refine Uses.of_get fun m hm _ => ?_
  cases h : m.instances.get? id with
  | none =>
    refine ⟨.error (.noInstance id), m, rfl, .of_error rfl rfl, ?_⟩
    intro below outside
    simp only [raised, h, on_throw]
  | some known =>
    refine ⟨.ok known, m, rfl, .of_ok hm rfl rfl rfl, ?_⟩
    intro below outside
    simp only [raised, h, on_pure]

/-- A variable of an instance is loaded. -/
theorem uses_loadVariable (id : Int) (name : String) :
    Uses code true 0 1 (loadVariable id name) :=
  (uses_variablesOf id).bind fun _ => uses_push _

/-- No instance gets lost. -/
theorem contains_insert (instances : Table Int (Table String Value)) (id id' : Int)
    (known : Table String Value) (h : instances.contains id' = true) :
    (instances.insert id known).contains id' = true := by
  unfold Table.contains at h ⊢
  rw [Table.get?_insert]
  split
  · rfl
  · exact h

/-- A variable of an instance is stored. -/
theorem uses_storeVariable (id : Int) (name : String) (v : Value) :
    Uses code true p p (storeVariable id name v) := by
  refine (uses_variablesOf id).bind fun known => Uses.change _ ?_ ?_ ?_ ?_ ?_
  · intro m below outside; rfl
  · intro m hm
    exact ⟨hm.size_locals, contains_insert _ _ _ _ hm.current_exists,
      fun id hid => contains_insert _ _ _ _ (hm.outer_exist id hid)⟩
  · intro m _; rfl
  · intro m; rfl
  · intro m; rfl

/-- The variables of the instance that the machine acts as are always there. -/
theorem get?_current {m : Machine} (hm : m.Ready code) :
    ∃ known, m.instances.get? m.current = some known :=
  Option.isSome_iff_exists.mp hm.current_exists

/-- A variable of the current instance is loaded. -/
theorem uses_loadCurrent (name : String) :
    Uses code fields 0 1 (do loadVariable (← get).current name) := by
  refine Uses.of_get fun m hm _ => ?_
  obtain ⟨known, hknown⟩ := get?_current hm
  refine ⟨.ok (), { m with stack := (known.get? name).getD .undefined :: m.stack }, ?_,
    .of_ok (hm.of_eq rfl rfl rfl rfl) rfl rfl rfl, ?_⟩
  · simp only [loadVariable, variablesOf, on_bind, on_get, thenOn_ok, hknown, on_pure, push,
      on_modify]
  · intro below outside
    simp only [loadVariable, variablesOf, on_bind, on_get, thenOn_ok, raised, hknown, on_pure, push,
      on_modify, List.cons_append]

/-- A variable of the current instance is stored. -/
theorem uses_storeCurrent (name : String) (v : Value) :
    Uses code fields p p (do storeVariable (← get).current name v) := by
  refine Uses.of_get fun m hm _ => ?_
  obtain ⟨known, hknown⟩ := get?_current hm
  refine ⟨.ok (), { m with instances := m.instances.insert m.current (known.insert name v) }, ?_,
    .of_ok ⟨hm.size_locals, contains_insert _ _ _ _ hm.current_exists,
      fun id hid => contains_insert _ _ _ _ (hm.outer_exist id hid)⟩ rfl rfl rfl, ?_⟩
  · simp only [storeVariable, variablesOf, on_bind, on_get, thenOn_ok, hknown, on_pure, on_modify]
  · intro below outside
    simp only [storeVariable, variablesOf, on_bind, on_get, thenOn_ok, raised, hknown, on_pure,
      on_modify]

/-- An argument is loaded. -/
theorem uses_loadArgument (index : Nat) : Uses code fields 0 1 (loadArgument index) := by
  refine Uses.of_get fun m hm _ => ?_
  exact ⟨.ok (), _, rfl, .of_ok (hm.of_eq rfl rfl rfl rfl) rfl rfl rfl, fun _ _ => rfl⟩

/-- An argument is stored. -/
theorem uses_storeArgument (index : Nat) (v : Value) :
    Uses code fields p p (storeArgument index v) := by
  exact Uses.aside _ (fun _ _ _ => rfl) fun _ => ⟨rfl, rfl, rfl, rfl, rfl, rfl⟩

/-! ### Arrays and structs -/

/-- An array is made. -/
theorem uses_newArray (items : List Value) : Uses code fields 0 1 (newArray items) := by
  intro m hm _
  exact ⟨.ok (), _, rfl, .of_ok (hm.of_eq rfl rfl rfl rfl) rfl rfl rfl, fun _ _ => rfl⟩

/-- A struct is made. -/
theorem uses_newStruct (entries : List Value) : Uses code fields 0 1 (newStruct entries) := by
  intro m hm _
  exact ⟨.ok (), _, rfl, .of_ok (hm.of_eq rfl rfl rfl rfl) rfl rfl rfl, fun _ _ => rfl⟩

/-- An element is loaded. -/
theorem uses_element (accessor : Accessor) {indices : List Value} (hi : indices ≠ [])
    (container : Value) : Uses code fields p p (element accessor indices container) := by
  induction indices generalizing container with
  | nil => exact absurd rfl hi
  | cons first rest ih =>
    cases container with
    | struct place =>
      unfold element
      by_cases h : accessor = .map
      · simp only [h, if_true]
        refine Uses.of_get fun m hm _ => ?_
        exact ⟨.ok _, m, rfl, .of_ok hm rfl rfl rfl, fun _ _ => rfl⟩
      · simp only [h, if_false]
        exact Uses.throw _ trivial
    | array place =>
      unfold element
      refine ((uses_number first).map index).bind fun position => Uses.of_get fun m hm hp => ?_
      cases rest with
      | nil => exact ⟨.ok _, m, rfl, .of_ok hm rfl rfl rfl, fun _ _ => rfl⟩
      | cons second rest =>
        exact ih (List.cons_ne_nil _ _) _ m hm hp
    | _ =>
      unfold element
      exact Uses.throw _ trivial

/-- An item of an array is stored. -/
theorem uses_setItem (place index : Nat) (v : Value) :
    Uses code fields p p (setItem place index v) := by
  exact Uses.aside _ (fun _ _ _ => rfl) fun _ => ⟨rfl, rfl, rfl, rfl, rfl, rfl⟩

/-- A row of a grid is looked for. -/
theorem uses_row (place index : Nat) : Uses code fields p p (row place index) := by
  refine Uses.of_get fun m hm hp => ?_
  cases h : (m.heap.items place)[index]? with
  | none =>
    refine ⟨.ok _, _, rfl, .of_ok (hm.of_eq rfl rfl rfl rfl) rfl rfl rfl, ?_⟩
    intro below outside
    simp only [raised, h]
    rfl
  | some v =>
    cases v with
    | array row =>
      refine ⟨.ok (.array row), m, rfl, .of_ok hm rfl rfl rfl, ?_⟩
      intro below outside
      simp only [raised, h, on_pure]
    | _ =>
      refine ⟨.ok _, _, rfl, .of_ok (hm.of_eq rfl rfl rfl rfl) rfl rfl rfl, ?_⟩
      intro below outside
      simp only [raised, h]
      rfl

/-- An element is stored. -/
theorem uses_setElement (accessor : Accessor) (v : Value) {indices : List Value} (hi : indices ≠ [])
    (container : Value) : Uses code fields p p (setElement accessor v indices container) := by
  induction indices generalizing container with
  | nil => exact absurd rfl hi
  | cons first rest ih =>
    cases container with
    | struct place =>
      unfold setElement
      by_cases h : accessor = .map
      · simp only [h, if_true]
        exact Uses.aside _ (fun _ _ _ => rfl) fun _ => ⟨rfl, rfl, rfl, rfl, rfl, rfl⟩
      · simp only [h, if_false]
        exact Uses.throw _ trivial
    | array place =>
      unfold setElement
      refine ((uses_number first).map index).bind fun position => ?_
      cases rest with
      | nil => exact uses_setItem place position v
      | cons second rest =>
        exact (uses_row place position).bind fun row => ih (List.cons_ne_nil _ _) row
    | _ =>
      unfold setElement
      exact Uses.throw _ trivial

end Exec

end Gml
