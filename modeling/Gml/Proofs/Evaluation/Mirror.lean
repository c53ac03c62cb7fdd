import Gml.Proofs.Evaluation.Direct
import Gml.Proofs.Machine.Block

/-!
# A machine beside a direct evaluation

A machine that runs the code of an expression goes beside another one, on which the expression is
evaluated directly. The two may differ in the place in the code, in the stack and in the local
variables that code uses for itself (`Machine.Mirrors`). What an evaluation is made of cannot tell
such machines apart (`Exec.Alike`), so that an instruction that does the same thing to the values on
the stack keeps them side by side (`Machine.Holds.apply`).
-/

namespace Gml

open Exec

namespace Machine

/-- The machine with another place in the code, another stack and other local variables. -/
def dressed (m : Machine) (next : Int) (stack : List Value) (locals : Array Value) : Machine :=
  { m with next, stack, locals }

/-- A machine is like one on which an expression is evaluated directly. They may differ in the place
in the code, in the stack and in the local variables that the code uses for itself. -/
structure Mirrors (code : Code) (F d : Machine) : Prop where
  /-- All else is the same. -/
  dressed : F = d.dressed F.next F.stack F.locals
  /-- There is a place for each local variable. -/
  size : F.locals.size = code.locals.size
  /-- There is one in the other machine, too. -/
  direct_size : d.locals.size = code.locals.size
  /-- Local variables of the script are the same. -/
  locals : ∀ {slot : Nat} {name : String}, code.locals[slot]? = some name → ¬ IsTemporary name →
    F.locals[slot]? = d.locals[slot]?

/-- A machine still acts as the same instance, and has the same ones to go back to. -/
structure Stays (m m' : Machine) : Prop where
  /-- The instance. -/
  current : m'.current = m.current
  /-- The ones to go back to. -/
  outer : m'.outer = m.outer

/-- A machine stays as it is. -/
theorem Stays.refl (m : Machine) : m.Stays m := ⟨rfl, rfl⟩

/-- Machines that stay do so together. -/
theorem Stays.trans {m m' m'' : Machine} (h : m.Stays m') (h' : m'.Stays m'') : m.Stays m'' :=
  ⟨h'.current.trans h.current, h'.outer.trans h.outer⟩

/-- A machine mirrors itself. -/
theorem Mirrors.refl {code : Code} {m : Machine} (h : m.locals.size = code.locals.size) :
    m.Mirrors code m :=
  ⟨rfl, h, h, fun _ _ => rfl⟩

/-- What stays does so in the mirror. -/
theorem Mirrors.stays {code : Code} {F d m : Machine} (h : F.Mirrors code d) (hd : m.Stays d) :
    m.Stays F := by
  rw [h.dressed]
  exact ⟨hd.current, hd.outer⟩

/-- Neither the place in the code nor the stack matters. -/
theorem Mirrors.move {code : Code} {F d : Machine} (h : F.Mirrors code d) (next : Int)
    (stack : List Value) : Mirrors code { F with next, stack } d :=
  ⟨congrArg (fun m : Machine => { m with next, stack }) h.dressed, h.size, h.direct_size, h.locals⟩

end Machine

/-! ### Actions that cannot tell machines apart -/

namespace Exec

open Machine

variable {α β : Type} {code : Code} {x : Exec α} {f : α → Exec β}

/-- An action does not look at the place in the code, at the stack or at local variables, and leaves
them alone. It stays with the same instance. -/
structure Blind (x : Exec α) : Prop where
  /-- It does the same with others in their place. -/
  on_dressed : ∀ (m : Machine) next stack locals, x.on (m.dressed next stack locals) =
    ((x.on m).1, (x.on m).2.dressed next stack locals)
  /-- It stays with the same instance. -/
  stays : ∀ m : Machine, m.Stays (x.on m).2

/-- To give a value is blind. -/
theorem blind_pure (a : α) : Blind (pure a) :=
  ⟨fun _ _ _ _ => rfl, fun _ => ⟨rfl, rfl⟩⟩

/-- So is a trap. -/
theorem blind_throw (t : Trap) : Blind (throw t : Exec α) :=
  ⟨fun _ _ _ _ => rfl, fun _ => ⟨rfl, rfl⟩⟩

/-- So is a sequence. -/
theorem Blind.bind (hx : x.Blind) (hf : ∀ a, (f a).Blind) : (x >>= f).Blind := by
  constructor
  · intro m next stack locals
    rw [on_bind, on_bind, hx.on_dressed]
    rcases x.on m with ⟨t | a, m'⟩
    · rfl
    · exact (hf a).on_dressed m' next stack locals
  · intro m
    have h := hx.stays m
    rw [on_bind]
    generalize x.on m = r at h ⊢
    rcases r with ⟨t | a, m'⟩
    · exact h
    · exact h.trans ((hf a).stays m')

/-- Looking at the machine. -/
theorem Blind.of_get {f : Machine → Exec α}
    (h : ∀ m next stack locals, f (m.dressed next stack locals) = f m) (hf : ∀ m, (f m).Blind) :
    (get >>= f).Blind := by
  constructor
  · intro m next stack locals
    rw [on_bind, on_bind, on_get, on_get, thenOn_ok, thenOn_ok, h]
    exact (hf m).on_dressed m next stack locals
  · intro m
    rw [on_bind, on_get, thenOn_ok]
    exact (hf m).stays m

/-- Changing the machine. -/
theorem blind_modifyGet {f : Machine → α × Machine}
    (h : ∀ m next stack locals, f (m.dressed next stack locals) =
      ((f m).1, (f m).2.dressed next stack locals)) (hs : ∀ m : Machine, m.Stays (f m).2) :
    (modifyGet f : Exec α).Blind := by
  constructor
  · intro m next stack locals
    rw [on_modifyGet, on_modifyGet, h]
  · intro m
    rw [on_modifyGet]
    exact hs m

/-- So is a change that does not look. -/
theorem blind_modify {f : Machine → Machine}
    (h : ∀ m next stack locals, f (m.dressed next stack locals) =
      (f m).dressed next stack locals) (hs : ∀ m : Machine, m.Stays (f m)) :
    (modify f : Exec Unit).Blind :=
  ⟨fun m next stack locals => by rw [on_modify, on_modify, h], fun m => by rw [on_modify]; exact hs m⟩

/-- So is to ask for a number. -/
theorem blind_number (v : Value) : (number v).Blind := by
  cases v with
  | real x => exact blind_pure x
  | _ => exact blind_throw _

/-- So are comparisons. -/
theorem blind_compares (comparison : Comparison) (lhs rhs : Value) :
    (compares comparison lhs rhs).Blind := by
  unfold compares
  split
  · exact blind_pure _
  · exact blind_pure _
  · exact blind_pure _
  · exact blind_throw _

/-- So are operations. -/
theorem blind_operate (I : Instruction) (lhs rhs : Value) : (operate I lhs rhs).Blind := by
  unfold operate
  split
  · exact blind_pure _
  · refine (blind_number lhs).bind fun x => (blind_number rhs).bind fun y => ?_
    dsimp only
    split
    case h_12 => exact (blind_throw _).bind fun _ => blind_pure _
    all_goals exact (blind_pure _).bind fun _ => blind_pure _

/-- So are steps. -/
theorem blind_step (step : Step) (v : Value) : (step.apply v).Blind := by
  cases step with
  | increment => exact blind_operate .add v (.real 1)
  | decrement => exact blind_operate .sub v (.real 1)

/-- So are unary operators. -/
theorem blind_unary (operator : UnaryOp) (v : Value) : (operator.apply v).Blind := by
  cases operator with
  | not => exact blind_pure _
  | negate => exact (blind_number v).bind fun _ => blind_pure _
  | bitNot => exact (blind_number v).bind fun _ => blind_pure _

/-- So are binary operators. -/
theorem blind_binary (operator : BinaryOp) (lhs rhs : Value) : (operator.apply lhs rhs).Blind := by
  unfold BinaryOp.apply
  cases operator
  case equal | notEqual | less | lessEqual | greater | greaterEqual =>
    exact (blind_compares _ lhs rhs).bind fun _ => blind_pure _
  all_goals exact blind_operate _ lhs rhs

/-- So is to look for an instance. -/
theorem blind_variablesOf (id : Int) : (variablesOf id).Blind := by
  refine .of_get (fun _ _ _ _ => rfl) fun m => ?_
  split
  · exact blind_pure _
  · exact blind_throw _

/-- So is to load a variable of one. -/
theorem blind_variableOf (id : Int) (name : String) : (variableOf id name).Blind :=
  (blind_variablesOf id).bind fun _ => blind_pure _

/-- So is to store it. -/
theorem blind_storeVariable (id : Int) (name : String) (v : Value) :
    (storeVariable id name v).Blind :=
  (blind_variablesOf id).bind fun _ => blind_modify (fun _ _ _ _ => rfl) fun _ => ⟨rfl, rfl⟩

/-- So is to load an argument. -/
theorem blind_argumentAt (index : Nat) : (argumentAt index).Blind :=
  .of_get (fun _ _ _ _ => rfl) fun _ => blind_pure _

/-- So is to store it. -/
theorem blind_storeArgument (index : Nat) (v : Value) : (storeArgument index v).Blind :=
  blind_modify (fun _ _ _ _ => rfl) fun _ => ⟨rfl, rfl⟩

/-- So is to note a call. -/
theorem blind_log (call : String) : (log call).Blind :=
  blind_modify (fun _ _ _ _ => rfl) fun _ => ⟨rfl, rfl⟩

/-- So is to make an array. -/
theorem blind_arrayOf (items : List Value) : (arrayOf items).Blind :=
  blind_modifyGet (fun _ _ _ _ => rfl) fun _ => ⟨rfl, rfl⟩

/-- So is to make a struct. -/
theorem blind_structOf (fields : List (String × Value)) : (structOf fields).Blind :=
  blind_modifyGet (fun _ _ _ _ => rfl) fun _ => ⟨rfl, rfl⟩

/-- So is to ask for an index. -/
theorem blind_position (v : Value) : (Exec.index <$> number v).Blind := by
  rw [← bind_pure_comp]
  exact (blind_number v).bind fun _ => blind_pure _

/-- So is to load an element. -/
theorem blind_element (accessor : Accessor) (indices : List Value) (container : Value) :
    (element accessor indices container).Blind := by
  induction indices generalizing container with
  | nil =>
    cases container with
    | struct place =>
      unfold element
      split
      · exact blind_throw _
      · exact blind_throw _
    | _ => exact blind_throw _
  | cons first rest ih =>
    cases container with
    | struct place =>
      unfold element
      split
      · exact .of_get (fun _ _ _ _ => rfl) fun _ => blind_pure _
      · exact blind_throw _
    | array place =>
      unfold element
      refine (blind_position first).bind fun position => .of_get (fun _ _ _ _ => rfl) fun m => ?_
      split
      · exact blind_pure _
      · exact ih _
    | _ => exact blind_throw _

/-- So is to store an item. -/
theorem blind_setItem (place index : Nat) (v : Value) : (setItem place index v).Blind :=
  blind_modify (fun _ _ _ _ => rfl) fun _ => ⟨rfl, rfl⟩

/-- So is to look for a row. -/
theorem blind_row (place index : Nat) : (row place index).Blind := by
  refine .of_get (fun _ _ _ _ => rfl) fun m => ?_
  split
  · exact blind_pure _
  · refine Blind.bind (blind_modifyGet (fun _ _ _ _ => rfl) fun _ => ⟨rfl, rfl⟩) fun row => ?_
    exact (blind_setItem place index row).bind fun _ => blind_pure _

/-- So is to store an element. -/
theorem blind_setElement (accessor : Accessor) (v : Value) (indices : List Value)
    (container : Value) : (setElement accessor v indices container).Blind := by
  induction indices generalizing container with
  | nil =>
    cases container with
    | struct place =>
      unfold setElement
      split
      · exact blind_throw _
      · exact blind_throw _
    | _ => exact blind_throw _
  | cons first rest ih =>
    cases container with
    | struct place =>
      unfold setElement
      split
      · exact blind_modify (fun _ _ _ _ => rfl) fun _ => ⟨rfl, rfl⟩
      · exact blind_throw _
    | array place =>
      unfold setElement
      refine (blind_position first).bind fun position => ?_
      split
      · exact blind_setItem place position v
      · exact (blind_row place position).bind fun row => ih row
    | _ => exact blind_throw _

/-- A blind action leaves the locals alone. -/
theorem Blind.locals (hx : x.Blind) (m : Machine) : (x.on m).2.locals = m.locals :=
  congrArg (fun r => r.2.locals) (hx.on_dressed m m.next m.stack m.locals)

/-- An action comes to the same on a machine and on one that it mirrors, and leaves the place in the
code and the stack alone. -/
def Alike (code : Code) (x : Exec α) : Prop :=
  ∀ {F d : Machine}, F.Mirrors code d → ∃ r F' d', x.on F = (r, F') ∧ x.on d = (r, d') ∧
    F'.Mirrors code d' ∧ F'.next = F.next ∧ F'.stack = F.stack ∧ d.Stays d'

/-- A blind action is alike on both sides. -/
theorem Blind.alike (hx : x.Blind) : Alike code x := by
  intro F d h
  have hF := hx.on_dressed d F.next F.stack F.locals
  have hlocals := hx.locals d
  have hstays := hx.stays d
  rw [← h.dressed] at hF
  generalize x.on d = r at hF hlocals hstays
  obtain ⟨r, d'⟩ := r
  refine ⟨r, _, d', hF, rfl, ⟨rfl, h.size, ?_, fun hs ht => ?_⟩, rfl, rfl, hstays⟩
  · exact (congrArg Array.size hlocals).trans h.direct_size
  · exact (h.locals hs ht).trans (congrArg (fun locals : Array Value => locals[_]?) hlocals.symm)

end Exec

/-! ### Instructions -/

/-- Pushes values, the first one topmost, and goes on. -/
def Exec.leaving (values : List Value) : Exec (Option Value) := do
  modify fun machine => { machine with stack := values ++ machine.stack }
  return none

/-- An instruction takes values from the stack, does something, and leaves what it comes to. -/
def Code.Applies {α : Type} (code : Code) (I : Instruction) (taken : List Value) (x : Exec α)
    (left : α → List Value) : Prop :=
  ∀ (site : Int) (m : Machine) (S : List Value), m.locals.size = code.locals.size →
    (execute code site I).on { m with stack := taken ++ S } =
      (x >>= fun a => leaving (left a)).on { m with stack := S }

namespace Machine

/-- From its start the machine comes to an instruction, with a stack, with local variables that
satisfy a condition, and beside a machine on which an expression is evaluated. It still acts as the
same instance. -/
def Holds (code : Code) (start : Machine) (a : Nat) (S : List Value) (kept : Array Value → Prop)
    (d : Machine) : Prop :=
  ∃ n F, start.after code n = .running F ∧ F.next = a ∧ F.stack = S ∧ kept F.locals ∧
    F.Mirrors code d ∧ start.Stays d

/-- What an evaluation comes to: a result, or a trap that the machine comes to as well. -/
inductive Agrees {α : Type} (code : Code) (start : Machine) (Q : α → Machine → Prop) :
    Except Trap α × Machine → Prop
  | ok {a : α} {d : Machine} : Q a d → Agrees code start Q (.ok a, d)
  | trapped {t : Trap} {d F : Machine} {n : Nat} : start.after code n = .trapped t F →
      F.Mirrors code d → start.Stays d → Agrees code start Q (.error t, d)

variable {α β : Type} {code : Code} {start d : Machine} {a target : Nat} {S T : List Value}
  {kept : Array Value → Prop} {I : Instruction} {x : Exec α} {left : α → List Value} {v : Value}
  {jump : Jump}

/-- What agrees may be said in a weaker way. -/
theorem Agrees.imp {Q R : α → Machine → Prop} {r : Except Trap α × Machine}
    (h : start.Agrees code Q r) (hR : ∀ a d', Q a d' → R a d') : start.Agrees code R r := by
  cases h with
  | ok hq => exact .ok (hR _ _ hq)
  | trapped ht hm hs => exact .trapped ht hm hs

/-- Actions that agree do so in sequence. -/
theorem Agrees.bind {Q : α → Machine → Prop} {R : β → Machine → Prop} {f : α → Exec β}
    (h : start.Agrees code Q (x.on d))
    (hf : ∀ a d', Q a d' → start.Agrees code R ((f a).on d')) :
    start.Agrees code R ((x >>= f).on d) := by
  rw [on_bind]
  generalize x.on d = r at h
  cases h with
  | ok hq => exact hf _ _ hq
  | trapped ht hm hs => exact .trapped ht hm hs

/-- One more step. -/
theorem after_next {n : Nat} {F : Machine} {o : Outcome} (h : start.after code n = .running F)
    (hstep : F.step code = o) : start.after code (n + 1) = o := by
  rw [after_add h 1]
  subst hstep
  cases hstep : F.step code with
  | running F' => exact after_succ_of_running hstep 0
  | ended v F' => exact after_succ_of_ended hstep 0
  | trapped t F' => exact after_succ_of_trapped hstep 0

/-- An instruction that does what the evaluation does. -/
theorem Holds.apply (h : start.Holds code a (T ++ S) kept d) (hI : code.Has a I)
    (hA : code.Applies I T x left) (hx : Alike code x)
    (hk : ∀ m : Machine, kept m.locals → kept (x.on m).2.locals) :
    start.Agrees code (fun r d' => start.Holds code (a + 1) (left r ++ S) kept d') (x.on d) := by
  obtain ⟨n, F, hF, hn, hs, hkept, hm, hst⟩ := h
  have hm' : Mirrors code { F with next := (a : Int) + 1, stack := S } d := hm.move _ _
  obtain ⟨r, F', d', hon', hd, hmirrors, hnext, hstack, hstays⟩ := hx hm'
  have hkept' := hk { F with next := (a : Int) + 1, stack := S } hkept
  have hon : (execute code a I).on { F with next := (a : Int) + 1 } =
      thenOn (fun r => leaving (left r)) (r, F') := by
    rw [← hon', ← on_bind, ← hA a { F with next := (a : Int) + 1 } S hm.size, ← hs]
  rw [hon'] at hkept'
  rw [hd]
  have hstep := step_of_has hn hI
  rw [hon] at hstep
  cases r with
  | error t => exact .trapped (after_next hF hstep) hmirrors (hst.trans hstays)
  | ok r =>
    refine .ok ⟨n + 1, { F' with stack := left r ++ F'.stack }, after_next hF hstep, hnext, ?_, hkept',
      hmirrors.move _ _, hst.trans hstays⟩
    exact congrArg (left r ++ ·) hstack

/-- An instruction whose result the values on the stack decide. -/
theorem Holds.give {r : α} (h : start.Holds code a (T ++ S) kept d) (hI : code.Has a I)
    (hA : code.Applies I T (pure r) left) :
    start.Holds code (a + 1) (left r ++ S) kept d := by
  have := h.apply hI hA (blind_pure r).alike fun _ hk => hk
  cases this with
  | ok h => exact h

/-- A branch. -/
theorem Holds.branch (h : start.Holds code a S kept d) (hI : code.Has a (.branch jump))
    (hj : jump.Leads a target) : start.Holds code target S kept d := by
  obtain ⟨n, F, hF, hn, hs, hkept, hm, hst⟩ := h
  exact ⟨n + 1, _, after_next hF (step_branch hn hI hj), rfl, hs, hkept, hm.move _ F.stack, hst⟩

/-- A branch on false. -/
theorem Holds.branchFalse (h : start.Holds code a (v :: S) kept d)
    (hI : code.Has a (.branchFalse jump)) (hj : jump.Leads a target) :
    start.Holds code (if v.isTrue then a + 1 else target) S kept d := by
  obtain ⟨n, F, hF, hn, hs, hkept, hm, hst⟩ := h
  exact ⟨n + 1, _, after_next hF (step_branchFalse hn hI hj hs), rfl, rfl, hkept, hm.move _ _, hst⟩

/-- A branch on true. -/
theorem Holds.branchTrue (h : start.Holds code a (v :: S) kept d)
    (hI : code.Has a (.branchTrue jump)) (hj : jump.Leads a target) :
    start.Holds code (if v.isTrue then target else a + 1) S kept d := by
  obtain ⟨n, F, hF, hn, hs, hkept, hm, hst⟩ := h
  exact ⟨n + 1, _, after_next hF (step_branchTrue hn hI hj hs), rfl, rfl, hkept, hm.move _ _, hst⟩

end Machine

end Gml
