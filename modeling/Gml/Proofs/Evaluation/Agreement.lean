import Gml.Proofs.Code.Statement
import Gml.Proofs.Evaluation.Instructions
import Gml.Proofs.Number.Bits
import Gml.Proofs.Tree.Resolved

/-!
# Code of expressions agrees with their evaluation

The code of an expression does what its direct evaluation does, wherever it stands in a script and
whatever the state of the machine (`evaluation_agrees`). `Code.Pushes.computed` proves it by
induction over the layout of the code, with the addresses of places, lists of operands and the fields
of structs.

Code uses local variables of its own only while a step by one stores below an address: from
`Holds.keep` to `Holds.recall` nothing is evaluated that could use them again, and the script has no
names for them.
-/

namespace Gml

open Exec Machine

namespace Machine

variable {code : Code} {start d : Machine} {a : Nat} {S : List Value} {kept : Array Value → Prop}
  {id : UInt32} {v : Value}

/-- From its start the machine comes to an instruction, whatever is in the local variables that the
code uses for itself. -/
abbrev Reaches (code : Code) (start : Machine) (a : Nat) (S : List Value) (d : Machine) : Prop :=
  start.Holds code a S (fun _ => True) d

/-! ### Temporary variables -/

/-- A value is put into a local variable of the code's own. -/
theorem Holds.keep {name : String} (h : start.Holds code a (v :: S) kept d)
    (hI : code.Has a (.popLocal id)) (hid : code.locals[id.toNat]? = some name)
    (hname : IsTemporary name) :
    start.Holds code (a + 1) S (fun locals => locals[id.toNat]? = some v) d := by
  obtain ⟨n, F, hF, hn, hs, -, hm, hst⟩ := h
  have hlt : id.toNat < F.locals.size := hm.size ▸ (Array.getElem?_eq_some_iff.1 hid).1
  have hstep : F.step code = .running { F with
      next := (a : Int) + 1, stack := S, locals := F.locals.setIfInBounds id.toNat v } := by
    rw [step_of_has hn hI]
    unfold execute
    simp only [pop, on_bind, on_get, thenOn_ok, hs, on_modify, on_pure, if_pos hlt]
    rfl
  refine ⟨n + 1, _, after_next hF hstep, rfl, rfl, ?_, ⟨?_, ?_, hm.direct_size, ?_⟩, hst⟩
  · exact Array.getElem?_setIfInBounds_self_of_lt hlt
  · exact congrArg (fun m : Machine => { m with
      next := (a : Int) + 1, stack := S, locals := F.locals.setIfInBounds id.toNat v }) hm.dressed
  · exact Array.size_setIfInBounds.trans hm.size
  · intro slot other hslot hother
    -- The script has no variable in this place.
    have hne : id.toNat ≠ slot := by
      rintro rfl
      cases hid.symm.trans hslot
      exact hother hname
    exact (Array.getElem?_setIfInBounds_ne hne).trans (hm.locals hslot hother)

/-- The value is taken from there. -/
theorem Holds.recall (h : start.Holds code a S (fun locals => locals[id.toNat]? = some v) d)
    (hI : code.Has a (.pushLocal id)) : start.Reaches code (a + 1) (v :: S) d := by
  obtain ⟨n, F, hF, hn, hs, hkept, hm, hst⟩ := h
  have hstep : F.step code = .running { F with next := (a : Int) + 1, stack := v :: S } := by
    rw [step_of_has hn hI]
    unfold execute
    simp only [on_bind, on_get, thenOn_ok, hkept]
    rw [← hs]
    rfl
  exact ⟨n + 1, _, after_next hF hstep, rfl, rfl, trivial, hm.move _ _, hst⟩

/-- A value on the stack is stepped by one. -/
theorem Holds.stepByOne {step : Step} (h : start.Holds code a (v :: S) kept d)
    (hseg : code.Segment a [.pushInt 1, step.instruction]) :
    start.Agrees code (fun w d' => start.Holds code (a + 2) (w :: S) kept d')
      ((step.apply v).on d) := by
  have hone : start.Holds code (a + 1) ([.real 1, v] ++ S) kept d :=
    Holds.give (S := v :: S) h hseg.1 (Code.applies_pushInt 1)
  exact hone.apply hseg.2.1 (Code.applies_step step v) (blind_step step v).alike
    fun m hk => ((blind_step step v).locals m).symm ▸ hk

end Machine

/-! ### Steps by one -/

namespace Place

variable {place : Place}

/-- A step in front gives the new value. -/
theorem stepping_inFront (h : place.isNamed = false) (step : Step) (kept : UInt32) :
    place.stepping step true kept = place.keeping ++
      [.pushInt 1, step.instruction, .dup 1, .popLocal kept, place.store, .pushLocal kept] := by
  cases place <;> first | rfl | cases h

/-- A step behind gives the old one. -/
theorem stepping_behind (h : place.isNamed = false) (step : Step) (kept : UInt32) :
    place.stepping step false kept = place.keeping ++
      [.dup 1, .popLocal kept, .pushInt 1, step.instruction, place.store, .pushLocal kept] := by
  cases place <;> first | rfl | cases h

end Place

namespace Code.Locates

variable {code : Code} {place : Place} {spot : Spot} {start d : Machine} {a : Nat} {S : List Value}
  {kept : Array Value → Prop}

/-- A value is loaded from its place. -/
theorem loaded (hl : code.Locates place spot) (h : start.Reaches code a (spot.address ++ S) d)
    (hI : code.Has a place.load) :
    start.Agrees code (fun v d' => start.Reaches code (a + 1) (v :: S) d')
      ((spot.load code.locals).on d) :=
  h.apply hI hl.load hl.alike_load fun _ _ => trivial

/-- The value is loaded and the address kept. -/
theorem keeping (hl : code.Locates place spot) (h : start.Reaches code a (spot.address ++ S) d)
    (hseg : code.Segment a place.keeping) :
    start.Agrees code
      (fun v d' => start.Reaches code (a + place.keeping.length) (v :: (spot.address ++ S)) d')
      ((spot.load code.locals).on d) := by
  unfold Place.keeping at hseg ⊢
  split at hseg
  next hw =>
    rw [if_pos hw]
    have hdup : start.Reaches code (a + 1) (spot.address ++ spot.address ++ S) d :=
      h.give hseg.1 (applies_dup hl.width)
    rw [List.append_assoc] at hdup
    exact hl.loaded hdup hseg.2.1
  next hw =>
    rw [if_neg hw]
    have hnil : spot.address = [] := by
      apply List.eq_nil_of_length_eq_zero
      rw [hl.width, Decidable.not_not.1 hw]
      rfl
    have hload := hl.loaded h hseg.1
    rw [hnil]
    exact hload

/-- A value is stored in its place. -/
theorem stored {v : Value} (hl : code.Locates place spot)
    (h : start.Holds code a (v :: (spot.address ++ S)) kept d) (hI : code.Has a place.store)
    (hk : ∀ m : Machine, kept m.locals → kept ((spot.store code.locals v).on m).2.locals) :
    start.Agrees code (fun _ d' => start.Holds code (a + 1) S kept d')
      ((spot.store code.locals v).on d) :=
  h.apply hI (hl.store v) (hl.alike_store v) hk

/-- A step by one on a variable. Its value is on the stack twice while the new one is stored. -/
theorem stepped_named {load store : Instruction} {step : Step} {inFront : Bool} {id : UInt32}
    (hl : code.Locates (.named load store) spot) (h : start.Reaches code a (spot.address ++ S) d)
    (hseg : code.Segment a (Place.stepping (.named load store) step inFront id)) :
    start.Agrees code (fun v d' => start.Reaches code
        (a + (Place.stepping (.named load store) step inFront id).length) (v :: S) d')
      (Exec.on (do
        let old ← spot.load code.locals
        let new ← step.apply old
        spot.store code.locals new
        return if inFront then new else old) d) := by
  have hnil : spot.address = [] := List.eq_nil_of_length_eq_zero hl.width
  have hstore {v : Value} {S : List Value} {d : Machine} {a : Nat}
      (h : start.Reaches code a (v :: S) d) (hI : code.Has a store) :=
    hl.stored (S := S) (by rw [hnil]; exact h) hI fun _ _ => trivial
  refine (hl.loaded h hseg.1).bind fun old d₁ h₁ => ?_
  cases inFront with
  | true =>
    refine (h₁.stepByOne ⟨hseg.2.1, hseg.2.2.1, trivial⟩).bind fun new d₂ h₂ => ?_
    have hdup : start.Reaches code (a + 4) (new :: new :: S) d₂ :=
      Holds.give (T := [new]) h₂ hseg.2.2.2.1 (applies_dup rfl)
    exact (hstore hdup hseg.2.2.2.2.1).bind fun _ d₃ h₃ => .ok h₃
  | false =>
    have hdup : start.Reaches code (a + 2) (old :: old :: S) d₁ :=
      Holds.give (T := [old]) h₁ hseg.2.1 (applies_dup rfl)
    refine (hdup.stepByOne ⟨hseg.2.2.1, hseg.2.2.2.1, trivial⟩).bind fun new d₂ h₂ => ?_
    exact (hstore h₂ hseg.2.2.2.2.1).bind fun _ d₃ h₃ => .ok h₃

/-- A step by one below an address. What is left is kept in a variable of the code's own while the
new value is stored. -/
theorem stepped_below {step : Step} {inFront : Bool} {id : UInt32} {name : String}
    (hl : code.Locates place spot) (hnamed : place.isNamed = false)
    (hid : code.locals[id.toNat]? = some name) (hname : IsTemporary name)
    (h : start.Reaches code a (spot.address ++ S) d)
    (hseg : code.Segment a (place.stepping step inFront id)) :
    start.Agrees code (fun v d' => start.Reaches code
        (a + (place.stepping step inFront id).length) (v :: S) d')
      (Exec.on (do
        let old ← spot.load code.locals
        let new ← step.apply old
        spot.store code.locals new
        return if inFront then new else old) d) := by
  have hstore {v w : Value} {d : Machine} {a : Nat}
      (h : start.Holds code a (v :: (spot.address ++ S))
        (fun locals => locals[id.toNat]? = some w) d) (hI : code.Has a place.store) :=
    hl.stored h hI fun m hk => (hl.locals hnamed v m).symm ▸ hk
  cases inFront with
  | true =>
    rw [Place.stepping_inFront hnamed] at hseg ⊢
    obtain ⟨hkeeping, hrest⟩ := segment_append.1 hseg
    refine (hl.keeping h hkeeping).bind fun old d₁ h₁ => ?_
    refine (h₁.stepByOne ⟨hrest.1, hrest.2.1, trivial⟩).bind fun new d₂ h₂ => ?_
    have hdup := Holds.give (T := [new]) h₂ hrest.2.2.1 (applies_dup rfl)
    have hkept := hdup.keep hrest.2.2.2.1 hid hname
    refine (hstore hkept hrest.2.2.2.2.1).bind fun _ d₃ h₃ => ?_
    rw [List.length_append, ← Nat.add_assoc]
    exact .ok (h₃.recall hrest.2.2.2.2.2.1)
  | false =>
    rw [Place.stepping_behind hnamed] at hseg ⊢
    obtain ⟨hkeeping, hrest⟩ := segment_append.1 hseg
    refine (hl.keeping h hkeeping).bind fun old d₁ h₁ => ?_
    have hdup := Holds.give (T := [old]) h₁ hrest.1 (applies_dup rfl)
    have hkept := hdup.keep hrest.2.1 hid hname
    refine (hkept.stepByOne ⟨hrest.2.2.1, hrest.2.2.2.1, trivial⟩).bind fun new d₂ h₂ => ?_
    refine (hstore h₂ hrest.2.2.2.2.1).bind fun _ d₃ h₃ => ?_
    rw [List.length_append, ← Nat.add_assoc]
    exact .ok (h₃.recall hrest.2.2.2.2.2.1)

end Code.Locates

/-! ### Expressions

Each form of an expression is computed by its code, if its parts are.
-/

/-- The instructions from one index up to another push what the evaluation of an operand gives. -/
def Operand.Computed (code : Code) (a b : Nat) : Operand → Prop
  | value node => ∀ (start d : Machine) (S : List Value), start.Reaches code a S d →
      start.Agrees code (fun v d' => start.Reaches code b (v :: S) d')
        ((node.evaluate code.locals).on d)
  | address node place => ∀ (start d : Machine) (S : List Value), start.Reaches code a S d →
      start.Agrees code
        (fun spot d' => code.Locates place spot ∧ start.Reaches code b (spot.address ++ S) d')
        ((node.locate code.locals).on d)
  | values nodes => ∀ (start d : Machine) (S : List Value), start.Reaches code a S d →
      start.Agrees code
        (fun values d' => values.length = nodes.length ∧
          start.Reaches code b (values.reverse ++ S) d')
        ((Node.evaluateAll code.locals nodes).on d)
  | lastFirst nodes => ∀ (start d : Machine) (S : List Value), start.Reaches code a S d →
      start.Agrees code
        (fun values d' => values.length = nodes.length ∧ start.Reaches code b (values ++ S) d')
        ((Node.evaluateLastFirst code.locals nodes).on d)
  | fields members => ∀ (start d : Machine) (S : List Value), start.Reaches code a S d →
      start.Agrees code
        (fun entries d' => entries.length = members.length ∧
          start.Reaches code b ((keysAndValues entries).reverse ++ S) d')
        ((Node.evaluateFields code.locals members).on d)

namespace Code

variable {code : Code} {a k l b : Nat} {p : Position} {lhs rhs : Node} {short done : Jump}

/-- Two negations make a truth value of a value. -/
theorem reaches_truth {start d : Machine} {v : Value} {S : List Value}
    (h : start.Reaches code a (v :: S) d) (hseg : code.Segment a [.not, .not]) :
    start.Reaches code (a + 2) (.ofBool v.isTrue :: S) d := by
  have h₁ := Holds.give (T := [v]) h hseg.1 (applies_not v)
  have h₂ := Holds.give (T := [.ofBool !v.isTrue]) h₁ hseg.2.1 (applies_not _)
  rw [Value.isTrue_ofBool, Bool.not_not] at h₂
  exact h₂

/-- A conjunction. -/
theorem computed_and (hl : Operand.Computed code a k (.value lhs))
    (hshort : code.Has k (.branchFalse short)) (hs : short.Leads k (b + 3))
    (hr : Operand.Computed code (k + 1) b (.value rhs))
    (hseg : code.Segment b [.not, .not, .branch done, .pushInt 0]) (hd : done.Leads (b + 2) (b + 4)) :
    Operand.Computed code a (b + 4) (.value (.logical p .and lhs rhs)) := by
  intro start d S h
  refine (hl start d S h).bind fun x d₁ h₁ => ?_
  have h₁ := h₁.branchFalse hshort hs
  dsimp only
  split at h₁
  next hx =>
    rw [if_pos hx]
    refine (hr start d₁ S h₁).bind fun y d₂ h₂ => .ok ?_
    exact (reaches_truth h₂ ⟨hseg.1, hseg.2.1, trivial⟩).branch hseg.2.2.1 hd
  next hx =>
    rw [if_neg hx]
    exact .ok (Holds.give (T := []) h₁ hseg.2.2.2.1 (applies_pushInt 0))

/-- A disjunction. -/
theorem computed_or (hl : Operand.Computed code a k (.value lhs))
    (hshort : code.Has k (.branchTrue short)) (hs : short.Leads k (b + 3))
    (hr : Operand.Computed code (k + 1) b (.value rhs))
    (hseg : code.Segment b [.not, .not, .branch done, .pushInt 1]) (hd : done.Leads (b + 2) (b + 4)) :
    Operand.Computed code a (b + 4) (.value (.logical p .or lhs rhs)) := by
  intro start d S h
  refine (hl start d S h).bind fun x d₁ h₁ => ?_
  have h₁ := h₁.branchTrue hshort hs
  dsimp only
  split at h₁
  next hx =>
    rw [if_pos hx]
    exact .ok (Holds.give (T := []) h₁ hseg.2.2.2.1 (applies_pushInt 1))
  next hx =>
    rw [if_neg hx]
    refine (hr start d₁ S h₁).bind fun y d₂ h₂ => .ok ?_
    exact (reaches_truth h₂ ⟨hseg.1, hseg.2.1, trivial⟩).branch hseg.2.2.1 hd

/-- Truth values are ordered. -/
theorem order?_ofBool (x y : Bool) :
    (Value.ofBool x).order? (.ofBool y) = some (compare x.toNat y.toNat) := by
  cases x <;> cases y <;> decide +kernel

/-- Truth values differ if they are not the same. -/
theorem compares_ofBool (x y : Bool) :
    compares .notEqual (.ofBool !x) (.ofBool !y) = pure (x != y) := by
  unfold compares
  rw [order?_ofBool]
  cases x <;> cases y <;> rfl

/-- An exclusive disjunction. -/
theorem computed_xor (hl : Operand.Computed code a k (.value lhs)) (hnot : code.Has k .not)
    (hr : Operand.Computed code (k + 1) b (.value rhs))
    (hseg : code.Segment b [.not, .cmp .notEqual]) :
    Operand.Computed code a (b + 2) (.value (.logical p .xor lhs rhs)) := by
  intro start d S h
  refine (hl start d S h).bind fun x d₁ h₁ => ?_
  have h₁ := Holds.give (T := [x]) h₁ hnot (applies_not x)
  refine (hr start d₁ _ h₁).bind fun y d₂ h₂ => .ok ?_
  have h₂ := Holds.give (T := [y]) h₂ hseg.1 (applies_not y)
  have hcmp : code.Applies (.cmp .notEqual) [.ofBool !y.isTrue, .ofBool !x.isTrue]
      (pure (x.isTrue != y.isTrue)) fun truth => [.ofBool truth] := by
    rw [← compares_ofBool]
    exact applies_cmp _ _ _
  exact Holds.give (T := [.ofBool !y.isTrue, .ofBool !x.isTrue]) h₂ hseg.2.1 hcmp

/-- A conditional. -/
theorem computed_conditional {condition thenValue elseValue : Node} {skipThen skipElse : Jump}
    (hc : Operand.Computed code a k (.value condition)) (hb : code.Has k (.branchFalse skipThen))
    (hskip : skipThen.Leads k (l + 1)) (ht : Operand.Computed code (k + 1) l (.value thenValue))
    (hbranch : code.Has l (.branch skipElse)) (hend : skipElse.Leads l b)
    (he : Operand.Computed code (l + 1) b (.value elseValue)) :
    Operand.Computed code a b (.value (.conditional p condition thenValue elseValue)) := by
  intro start d S h
  refine (hc start d S h).bind fun x d₁ h₁ => ?_
  have h₁ := h₁.branchFalse hb hskip
  split at h₁
  next hx =>
    rw [if_pos hx]
    refine (ht start d₁ S h₁).imp fun v d₂ h₂ => h₂.branch hbranch hend
  next hx =>
    rw [if_neg hx]
    exact he start d₁ S h₁

/-- A node with an address is evaluated by loading the value at its spot. -/
theorem Pushes.evaluate_eq {node : Node} {place : Place} (h : code.Pushes (.address node place) a b)
    (names : Array String) :
    node.evaluate names = node.locate names >>= fun spot => spot.load names := by
  cases h with
  | name hvariable => cases hvariable <;> rfl
  | @member _ _ _ instanceOf field =>
    change (instanceOf.evaluate names >>= fun v => Spot.load names (.field v field)) =
      (instanceOf.evaluate names >>= fun v => pure (Spot.field v field)) >>= Spot.load names
    rw [bind_assoc]
    simp only [pure_bind]
  | argument => rfl
  | element => rfl

/-- A small number fits into 32 bits. -/
theorem toInt_toInt32 {value : Int64}
    (h : Int32.minValue.toInt ≤ value.toInt ∧ value.toInt ≤ Int32.maxValue.toInt) :
    value.toInt32.toInt = value.toInt := by
  rw [Int64.toInt_toInt32]
  change -2147483648 ≤ value.toInt ∧ value.toInt ≤ 2147483647 at h
  change value.toInt.bmod 4294967296 = value.toInt
  exact Int.bmod_eq_of_le (by omega) (by omega)

end Code

namespace Node

/-- A call of a value, by its parts. -/
theorem evaluate_callValue {names : Array String} {p : Position} {callee : Node}
    {arguments : List Node} (h : callee.isCalledByName = false) :
    (Node.call p callee arguments).evaluate names =
      evaluateLastFirst names arguments >>= fun _ =>
        callee.evaluate names >>= fun _ => pure .undefined := by
  cases callee with
  | ident q name resolution => cases resolution <;> first | rfl | cases h
  | _ => rfl

/-- An element, by its parts. -/
theorem locate_element {names : Array String} {p : Position} {container : Node}
    {accessor : Accessor} {indices : List Node}
    (h : Generate.isArgument container accessor indices = false) :
    (Node.index p container accessor indices).locate names =
      container.evaluate names >>= fun c =>
        evaluateAll names indices >>= fun values => pure (.element accessor c values) := by
  change Spot.ofIndex _ _ _ _ _ = _
  unfold Spot.ofIndex
  rw [if_neg (by rw [h]; exact Bool.false_ne_true)]

end Node

namespace Code

variable {code : Code} {a b : Nat}

/-- A constant. -/
theorem computed_constant {node : Node} {I : Instruction} {v : Value} (hI : code.Has a I)
    (hpush : code.Applies I [] (pure v) fun v => [v]) (hv : node.evaluate code.locals = pure v) :
    Operand.Computed code a (a + 1) (.value node) := by
  intro start d S h
  rw [hv]
  exact .ok (Holds.give (T := []) h hI hpush)

/-- A step. -/
theorem computed_update {p : Position} {target : Node} {place : Place} {step : Step}
    {inFront : Bool} {kept : UInt32} (hA : code.Addressable)
    (ht : Operand.Computed code a b (.address target place))
    (hkept : place.isNamed = false → ∃ n, Entry code.locals kept (temporaryName n))
    (hseg : code.Segment b (place.stepping step inFront kept)) :
    Operand.Computed code a (b + (place.stepping step inFront kept).length)
      (.value (.update p target step inFront)) := by
  intro start d S h
  refine (ht start d S h).bind fun spot d₁ h₁ => ?_
  obtain ⟨hlocates, h₁⟩ := h₁
  cases hnamed : place.isNamed with
  | true =>
    cases place with
    | named load store => exact hlocates.stepped_named h₁ hseg
    | _ => cases hnamed
  | false =>
    obtain ⟨n, he⟩ := hkept hnamed
    exact hlocates.stepped_below hnamed (he.get hA.locals) ⟨n, rfl⟩ h₁ hseg

/-- An element. -/
theorem computed_element {k : Nat} {p : Position} {container : Node} {accessor : Accessor}
    {indices : List Node} (harg : Generate.isArgument container accessor indices = false)
    (hlen : indices.length ≤ 2) (hc : Operand.Computed code a k (.value container))
    (hi : Operand.Computed code k b (.values indices)) :
    Operand.Computed code a b (.address (.index p container accessor indices)
      (.element accessor (.ofNat indices.length))) := by
  intro start d S h
  have hdims : (UInt8.ofNat indices.length).toNat = indices.length :=
    UInt8.toNat_ofNat_of_lt' (Nat.lt_of_le_of_lt hlen (by decide))
  rw [Node.locate_element harg]
  refine (hc start d S h).bind fun c d₁ h₁ => (hi start d₁ _ h₁).bind fun values d₂ h₂ => .ok ?_
  obtain ⟨hcount, h₂⟩ := h₂
  refine ⟨locates_element accessor c (hcount.trans hdims.symm)
    (Nat.le_trans (Nat.le_of_eq hdims) hlen), ?_⟩
  change start.Reaches code b (values.reverse ++ [c] ++ S) d₂
  rw [List.append_assoc]
  exact h₂

/-- The code of an operand computes what its direct evaluation gives. -/
theorem Pushes.computed {operand : Operand} (h : code.Pushes operand a b) (hA : code.Addressable)
    (hn : code.locals.toList.Nodup) : operand.Computed code a b := by
  induction h with
  | int hv hI => exact computed_constant hI (toInt_toInt32 hv ▸ applies_pushInt _) rfl
  | @largeInt _ _ value _ _ he hI =>
    have hpush := applies_pushReal (he.get hA.constants)
    rw [Double.toFloat_ofFloat] at hpush
    exact computed_constant hI hpush rfl
  | real he hI => exact computed_constant hI (applies_pushReal (he.get hA.constants)) rfl
  | string he hI => exact computed_constant hI (applies_pushString (he.get hA.strings)) rfl
  | intrinsic hI => exact computed_constant hI (applies_pushInt _) rfl
  | userSymbol hI => exact computed_constant hI (applies_pushInt _) rfl
  | function he hI => exact computed_constant hI (applies_pushFunction (he.get hA.strings)) rfl
  | load hp hI ih =>
    intro start d S h
    rw [hp.evaluate_eq]
    refine (ih start d S h).bind fun spot d₁ h₁ => ?_
    exact h₁.1.loaded h₁.2 hI
  | @binary _ _ _ _ operator _ _ _ _ hI ihl ihr =>
    intro start d S h
    refine (ihl start d S h).bind fun x d₁ h₁ => (ihr start d₁ _ h₁).bind fun y d₂ h₂ => ?_
    exact Holds.apply (T := [y, x]) h₂ hI (applies_binary operator x y)
      (blind_binary operator x y).alike fun _ _ => trivial
  | and _ hshort hs _ hseg hd ihl ihr => exact computed_and ihl hshort hs ihr hseg hd
  | or _ hshort hs _ hseg hd ihl ihr => exact computed_or ihl hshort hs ihr hseg hd
  | xor _ hnot _ hseg ihl ihr => exact computed_xor ihl hnot ihr hseg
  | @unary _ _ _ operator _ _ hI ih =>
    intro start d S h
    refine (ih start d S h).bind fun x d₁ h₁ => ?_
    exact Holds.apply (T := [x]) h₁ hI (applies_unary operator x) (blind_unary operator x).alike
      fun _ _ => trivial
  | conditional _ hb hskip _ hbranch hend _ ihc iht ihe =>
    exact computed_conditional ihc hb hskip iht hbranch hend ihe
  | callFunction _ hlt he hI ih =>
    intro start d S h
    refine (ih start d S h).bind fun values d₁ h₁ => ?_
    have hlen := h₁.1.trans (UInt8.toNat_ofNat_of_lt' hlt).symm
    exact h₁.2.apply hI (applies_call (he.get hA.strings) hlen)
      ((blind_log _).bind fun _ => blind_pure _).alike fun _ _ => trivial
  | @callScript _ _ _ _ _ reference _ _ hlt hI ih =>
    intro start d S h
    refine (ih start d S h).bind fun values d₁ h₁ => ?_
    have hlen := h₁.1.trans (UInt8.toNat_ofNat_of_lt' hlt).symm
    exact h₁.2.apply hI (applies_callScript reference hlen)
      ((blind_log _).bind fun _ => blind_pure _).alike fun _ _ => trivial
  | callValue hc _ hlt _ hI ih ihc =>
    intro start d S h
    rw [Node.evaluate_callValue hc]
    refine (ih start d S h).bind fun values d₁ h₁ => ?_
    refine (ihc start d₁ _ h₁.2).bind fun callee d₂ h₂ => .ok ?_
    have hlen := h₁.1.trans (UInt8.toNat_ofNat_of_lt' hlt).symm
    exact Holds.give (T := callee :: values) h₂ hI (applies_callValue callee hlen)
  | update _ hkept hseg ih => exact computed_update hA ih hkept hseg
  | struct _ hlt hI ih =>
    intro start d S h
    refine (ih start d S h).bind fun entries d₁ h₁ => ?_
    have hlen := h₁.1.trans (UInt32.toNat_ofNat_of_lt' hlt).symm
    exact h₁.2.apply hI (applies_newStruct hlen) (blind_structOf entries).alike fun _ _ => trivial
  | array _ hlt hI ih =>
    intro start d S h
    refine (ih start d S h).bind fun items d₁ h₁ => ?_
    have hlen := h₁.1.trans (UInt32.toNat_ofNat_of_lt' hlt).symm
    exact h₁.2.apply hI (applies_newArray hlen) (blind_arrayOf items).alike fun _ _ => trivial
  | name hv =>
    intro start d S h
    exact .ok ⟨hv.locates hA hn, h⟩
  | member _ he ih =>
    intro start d S h
    exact (ih start d S h).bind fun v d₁ h₁ => .ok ⟨locates_field v (he.get hA.strings), h₁⟩
  | argument _ ih =>
    intro start d S h
    refine Agrees.bind (Q := fun values d' => ∃ v, values = [v] ∧ start.Reaches code _ (v :: S) d')
      ((ih start d S h).bind fun v d₁ h₁ => .ok ⟨v, rfl, h₁⟩) ?_
    rintro _ d₁ ⟨v, rfl, h₁⟩
    exact .ok ⟨locates_argument v, h₁⟩
  | element harg hlen _ _ ihc ihi => exact computed_element harg hlen.2 ihc ihi
  | noValues => exact fun start d S h => .ok ⟨rfl, h⟩
  | moreValues _ _ ih ihs =>
    intro start d S h
    refine (ih start d S h).bind fun v d₁ h₁ => (ihs start d₁ _ h₁).bind fun values d₂ h₂ => .ok ?_
    refine ⟨congrArg Nat.succ h₂.1, ?_⟩
    rw [List.reverse_cons, List.append_assoc]
    exact h₂.2
  | noLastFirst => exact fun start d S h => .ok ⟨rfl, h⟩
  | moreLastFirst _ _ ihs ih =>
    intro start d S h
    refine (ihs start d S h).bind fun values d₁ h₁ => (ih start d₁ _ h₁.2).bind fun v d₂ h₂ => .ok ?_
    exact ⟨congrArg Nat.succ h₁.1, h₂⟩
  | noFields => exact fun start d S h => .ok ⟨rfl, h⟩
  | @moreFields _ _ _ key _ _ _ he hI _ _ ih ihs =>
    intro start d S h
    have hkey := Holds.give (T := []) h hI (applies_pushString (he.get hA.strings))
    refine (ih start d _ hkey).bind fun v d₁ h₁ => (ihs start d₁ _ h₁).bind fun entries d₂ h₂ => .ok ?_
    refine ⟨congrArg Nat.succ h₂.1, ?_⟩
    change start.Reaches code _ ((.string key :: v :: keysAndValues entries).reverse ++ S) d₂
    rw [List.reverse_cons, List.reverse_cons, List.append_assoc, List.append_assoc]
    exact h₂.2

end Code

/-- An expression that reading and resolving a text give, as a part of a script: what holds of all
nodes of the script holds of all nodes of it. -/
def Node.IsRead (node : Node) : Prop :=
  ∃ text context script, Script.ofSource text context = .ok script ∧
    ∀ p, Node.EveryOf p script.body → node.Every p

/-- The code of an expression agrees with its direct evaluation, wherever it stands in a script and
whatever the state of the machine. If the evaluation gives a value, the machine comes to the end of
the code of the expression, with the value on top of the stack. If it traps, the machine traps in the
same way. The machine is then the one that the evaluation leaves, but for its place, its stack and the
local variables that the code uses for itself, and acts as the same instance as before. -/
theorem evaluation_agrees {text : String} {context : Context} {code : Code} {node : Node}
    {m : Machine} {a b : Nat} (h : compileToCode text context = .ok code) (hA : code.Addressable)
    (hnode : node.IsRead) (hemits : code.Emits node.expression a b) (hnext : m.next = a)
    (hlocals : m.locals.size = code.locals.size) :
    (∀ v d, (node.evaluate code.locals).on m = (.ok v, d) →
      ∃ n F, m.after code n = .running F ∧ F.next = b ∧ F.stack = v :: m.stack ∧
        F.Mirrors code d ∧ m.Stays F) ∧
    (∀ t d, (node.evaluate code.locals).on m = (.error t, d) →
      ∃ n F, m.after code n = .trapped t F ∧ F.Mirrors code d ∧ m.Stays F) := by
  obtain ⟨script, hscript, hgenerate⟩ := compileToCode_eq_ok h
  obtain ⟨stop, hrealizes⟩ := script.realizes (Script.regular_of_source hscript) hgenerate
  obtain ⟨_, _, other, hother, hpart⟩ := hnode
  have hregular := hpart _ (Script.regular_of_source hother)
  obtain ⟨g, g', hgives, rfl, rfl, hcode⟩ := hemits
  have hpushes := (Node.lays_expression node hregular hgives).pushes hcode
  have hstart : m.Reaches code g.code.size m.stack m :=
    ⟨0, m, rfl, hnext, rfl, trivial, .refl hlocals, .refl m⟩
  have hagrees := hpushes.computed hA hrealizes.nodup m m m.stack hstart
  refine ⟨fun v d hon => ?_, fun t d hon => ?_⟩
  · rw [hon] at hagrees
    cases hagrees with
    | ok hreaches =>
      obtain ⟨n, F, hF, hn, hs, -, hm, hst⟩ := hreaches
      exact ⟨n, F, hF, hn, hs, hm, hm.stays hst⟩
  · rw [hon] at hagrees
    cases hagrees with
    | trapped hF hm hst => exact ⟨_, _, hF, hm, hm.stays hst⟩

/-- The value that a statement returns. -/
def Node.returned? : Node → Option Node
  | returning _ value => value
  | _ => none

/-- A statement that returns a value. -/
theorem Node.eq_returning {statement node : Node} (h : statement.returned? = some node) :
    ∃ p, statement = .returning p (some node) := by
  cases statement with
  | returning p value => exact ⟨p, congrArg (Node.returning p) h⟩
  | _ => cases h

/-- An expression with many effects. -/
theorem evaluation_agrees_nested : ∃ (code : Code) (node : Node) (b : Nat),
    compileToCode "return a[b[i++]--]++ && !c.d;" {} = .ok code ∧ code.Addressable ∧ node.IsRead ∧
    code.Emits node.expression 0 b ∧
    (∀ v d, (node.evaluate code.locals).on (start code) = (.ok v, d) →
      ∃ n F, (start code).after code n = .running F ∧ F.next = b ∧ F.stack = [v] ∧
        F.Mirrors code d ∧ (start code).Stays F) ∧
    (∀ t d, (node.evaluate code.locals).on (start code) = (.error t, d) →
      ∃ n F, (start code).after code n = .trapped t F ∧ F.Mirrors code d ∧
        (start code).Stays F) := by
  obtain ⟨code, h, hA⟩ := exists_ok_of_any (p := fun code => decide code.Addressable)
    (x := compileToCode "return a[b[i++]--]++ && !c.d;" {}) (by decide +kernel)
  obtain ⟨script, hscript, hgenerate⟩ := compileToCode_eq_ok h
  obtain ⟨_, hsame, hreturned⟩ := exists_ok_of_any
    (p := fun script => (script.body.head?.bind Node.returned?).isSome)
    (x := Script.ofSource "return a[b[i++]--]++ && !c.d;" {}) (by decide +kernel)
  cases hscript.symm.trans hsame
  obtain ⟨node, hnode⟩ := Option.isSome_iff_exists.1 hreturned
  obtain ⟨statement, hhead, hvalue⟩ := Option.bind_eq_some_iff.1 hnode
  obtain ⟨q, rfl⟩ := Node.eq_returning hvalue
  obtain ⟨rest, hbody⟩ := List.head?_eq_some_iff.1 hhead
  obtain ⟨stop, hrealizes⟩ := script.realizes (Script.regular_of_source hscript) hgenerate
  have hperforms := hrealizes.performs
  rw [hbody] at hperforms
  generalize [] = L at hperforms
  have hread : node.IsRead := by
    refine ⟨_, _, script, hscript, fun p hp => ?_⟩
    rw [hbody] at hp
    exact hp.1.2
  cases hperforms with
  | sequence hone =>
    cases hone with
    | basic hacts => cases hacts
    | returnValue hvalue =>
      exact ⟨code, node, _, h, of_decide_eq_true hA, hread, hvalue.emits,
        evaluation_agrees h (of_decide_eq_true hA) hread hvalue.emits rfl Array.size_replicate⟩

end Gml
