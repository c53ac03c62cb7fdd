import Gml.Proofs.Flow.Structured
import Gml.Proofs.Machine.Block

/-!
# Structured executions and machines side by side

`Machine.Tracks` puts a structured execution beside the steps of a machine: while the execution has
taken its course, the machine has taken steps through nothing but steady states, and where the one is
the other is, too. It is a logic of its own, with rules for sequence (`Tracks.bind`), for stretches of
code (`Tracks.runs`, `Tracks.evaluate`) and for loops (`Tracks.loop`, `Tracks.countdown`).

An execution without a result, for want of rounds, is beside a machine that takes at least as many
steps as there were rounds, so that one without a result for any number of rounds is beside a machine
that goes on forever.
-/

namespace Gml

/-! ### Executions on a machine -/

namespace Structured

variable {α β : Type}

/-- Goes on with a result. -/
def thenOn (f : α → Structured β) :
    Option (Except Trap α × Machine) → Option (Except Trap β × Machine)
  | none => none
  | some (.ok a, m) => (f a).on m
  | some (.error t, m) => some (.error t, m)

/-- To give a value changes nothing. -/
@[simp] theorem on_pure (a : α) (m : Machine) :
    (pure a : Structured α).on m = some (.ok a, m) := rfl

/-- An action of the machine is one of execution. -/
@[simp] theorem on_ofExec (x : Exec α) (m : Machine) : (ofExec x).on m = some (x.on m) := rfl

/-- A sequence goes on from where its first action ends. -/
theorem on_bind (x : Structured α) (f : α → Structured β) (m : Machine) :
    (x >>= f).on m = thenOn f (x.on m) := by
  show (x >>= f).run.run m = thenOn f (x.run.run m)
  rw [ExceptT.run_bind]
  simp only [StateT.run_bind]
  rcases x.run.run m with _ | ⟨_ | _, _⟩ <;> rfl

end Structured

namespace Machine

/-- What is left of a machine without its place in the code, its stack and the instances that it goes
back to. -/
def world (m : Machine) : Machine :=
  m.placed 0 [] []

/-- The machine stands at an instruction of the code or at its end. -/
def Inside (code : Code) (m : Machine) : Prop :=
  ∃ site : Nat, m.next = site ∧ site ≤ code.size

/-- The machine is fit for code and can go back to some instances. -/
def Fit (code : Code) (m : Machine) (O : List Int) : Prop :=
  (m.placed 0 [] O).Ready code

variable {code : Code} {m : Machine} {a : Nat} {H : List Value} {O : List Int}

/-- A machine that fits is ready. -/
theorem Fit.ready (h : m.Fit code O) (a : Nat) (H : List Value) : (m.placed a H O).Ready code :=
  Ready.of_eq h rfl rfl rfl rfl

/-- It fits without instances around it. -/
theorem Fit.nil (h : m.Fit code O) : m.Fit code [] :=
  ⟨h.size_locals, h.current_exists, by simp [placed]⟩

/-! ### Tracking -/

/-- The machine that has started at time zero stands somewhere in the code, beside an execution. -/
structure At (code : Code) (start : Machine) (time a : Nat) (H : List Value) (O : List Int)
    (m : Machine) : Prop where
  /-- Steady steps have led there. -/
  passes : start.Passes code time (.running (m.placed a H O))
  /-- The machine is fit for the code. -/
  fit : m.Fit code O

/-- A structured execution, begun at a time, beside a machine that has started at time zero. The
property is about the result, the machine of the execution, and the time at its end. -/
inductive Tracks {α : Type} (code : Code) (start : Machine) (rounds time : Nat)
    (Q : α → Machine → Nat → Prop) : Option (Except Trap α × Machine) → Prop
  | endless {F : Machine} : start.Passes code rounds (.running F) →
      Tracks code start rounds time Q none
  | trapped {n : Nat} {t : Trap} {F m : Machine} : start.Passes code n (.trapped t F) →
      F.world = m.world → Tracks code start rounds time Q (some (.error t, m))
  | ok {n : Nat} {a : α} {m : Machine} : time ≤ n → Q a m n →
      Tracks code start rounds time Q (some (.ok a, m))

namespace Tracks

open Structured

variable {α β : Type} {start : Machine} {rounds time time' : Nat}
  {Q R : α → Machine → Nat → Prop} {Q' : β → Machine → Nat → Prop}

/-- The execution goes on beside the machine. -/
theorem bind {x : Structured α} {f : α → Structured β}
    (hx : start.Tracks code rounds time Q (x.on m))
    (hf : ∀ a m n, time ≤ n → Q a m n → start.Tracks code rounds n Q' ((f a).on m)) :
    start.Tracks code rounds time Q' ((x >>= f).on m) := by
  rw [on_bind]
  generalize x.on m = r at hx
  cases hx with
  | endless hp => exact .endless hp
  | trapped hp hw => exact .trapped hp hw
  | ok ht hq =>
    have hf := hf _ _ _ ht hq
    simp only [thenOn]
    generalize Structured.on _ _ = r at hf
    cases hf with
    | endless hp => exact .endless hp
    | trapped hp hw => exact .trapped hp hw
    | ok ht' hq => exact .ok (Nat.le_trans ht ht') hq

/-- The machine takes more steps after the execution. -/
theorem advance {r : Option (Except Trap α × Machine)} (h : start.Tracks code rounds time Q r)
    (hQ : ∀ a m n, time ≤ n → Q a m n → ∃ n', time' ≤ n' ∧ R a m n') :
    start.Tracks code rounds time' R r := by
  cases h with
  | endless hp => exact .endless hp
  | trapped hp hw => exact .trapped hp hw
  | ok ht hq =>
    obtain ⟨n', ht', hr⟩ := hQ _ _ _ ht hq
    exact .ok ht' hr

/-- The execution has begun before. -/
theorem since {r : Option (Except Trap α × Machine)} (h : start.Tracks code rounds time Q r)
    (hle : time' ≤ time) : start.Tracks code rounds time' Q r :=
  h.advance fun _ _ n ht hq => ⟨n, Nat.le_trans hle ht, hq⟩

end Tracks

/-! ### Stretches of code -/

/-- A walk that has time enough is over. -/
theorem Walk.through_eq {stop : Nat} {outcome : Outcome} (h : m.Walk code stop outcome)
    (count : Nat) (hc : stop ≤ m.next + count) : m.through code stop count = outcome := by
  induction h generalizing count with
  | arrive hm =>
    cases count with
    | zero => rfl
    | succ count => rw [through, if_pos hm]
  | step hs hlt hstep hinc _ ih =>
    cases count with
    | zero => omega
    | succ count =>
      rw [through, if_neg (by omega), hstep]
      exact ih count (by omega)
  | trap hs hlt hstep =>
    cases count with
    | zero => omega
    | succ count => rw [through, if_neg (by omega), hstep]

/-- A walk has one outcome. -/
theorem Walk.unique {stop : Nat} {o o' : Outcome} (h : m.Walk code stop o)
    (h' : m.Walk code stop o') : o = o' := by
  have hc : (stop : Int) ≤ m.next + (stop - m.next).toNat := by omega
  exact (h.through_eq _ hc).symm.trans (h'.through_eq _ hc)

namespace Tracks

open Structured

variable {start : Machine} {rounds n b : Nat}

/-- A block by itself and the same block with more beneath the values that it takes. -/
theorem runs {p q : Nat} {S : List Value} (hmoves : code.Moves a b p q)
    (hlength : S.length = p) (h : start.At code n a (S ++ H) O m) :
    start.Tracks code rounds n
      (fun values m n => values.length = q ∧ start.At code n b (values ++ H) O m)
      ((Structured.runs code ⟨a, b⟩ S).on m) := by
  obtain ⟨hp, hfit⟩ := h
  obtain ⟨outcome, hw, hl, hover⟩ :=
    hmoves.walk (m.placed a S []) (hfit.nil.ready _ _) rfl (Nat.le_of_eq hlength.symm)
  have hroom : p ≤ (S ++ H).length := by
    rw [List.length_append]
    omega
  obtain ⟨outcome', hw', hl', -⟩ := hmoves.walk (m.placed a (S ++ H) O) (hfit.ready _ _) rfl hroom
  have hover : (m.placed a (S ++ H) O).Walk code b (outcome.raised H O) := hover H O
  obtain rfl := hw'.unique hover
  obtain ⟨k, hk⟩ := hover.passes
  have hrun : Extent.run code ⟨a, b⟩ S m = outcome := by
    refine hw.through_eq _ ?_
    have := hmoves.le
    show (b : Int) ≤ a + (b - a : Nat)
    omega
  have hon : (Structured.runs code ⟨a, b⟩ S).on m = outcome.values := by
    rw [← hrun]
    rfl
  rw [hon]
  cases hl with
  | @running m' hready hlen houter =>
    have hout : m'.outer = [] := houter
    have hstop : m'.next = b := hw.next_eq
    have hplaced : m'.raised H O = m'.placed b (m'.stack ++ H) O := by
      simp only [raised, placed, hout, hstop, List.nil_append]
    have hfit' : m'.Fit code O := by
      cases hl' with
      | running hready' =>
        rw [hplaced] at hready'
        exact hready'.of_eq rfl rfl rfl rfl
    have hleft : m'.stack.length = q := by
      have hlen : m'.stack.length + p = S.length + q := hlen
      omega
    refine .ok (Nat.le_add_right n k) ⟨hleft, ?_, hfit'⟩
    rw [← hplaced]
    exact hp.trans hk
  | trapped => exact .trapped (hp.trans hk) rfl

/-- The value of an expression is pushed onto the stack. -/
theorem evaluate (hmoves : code.Moves a b 0 1)
    (h : start.At code n a H O m) :
    start.Tracks code rounds n (fun value m n => start.At code n b (value :: H) O m)
      ((Structured.evaluate code ⟨a, b⟩).on m) := by
  refine (runs hmoves rfl h).bind ?_
  rintro values m n ht ⟨hlen, h⟩
  obtain ⟨v, rfl⟩ := List.length_eq_one_iff.1 hlen
  exact .ok (Nat.le_refl n) h

/-- A value is stored at an address. -/
theorem store {value : Value} {S : List Value} (hmoves : code.Moves a b (S.length + 1) 0)
    (h : start.At code n a (value :: (S ++ H)) O m) :
    start.Tracks code rounds n (fun _ m n => start.At code n b H O m)
      ((Structured.store code ⟨a, b⟩ S value).on m) := by
  refine (runs (S := value :: S) hmoves rfl h).bind ?_
  rintro values m n ht ⟨hlen, h⟩
  obtain rfl := List.length_eq_zero_iff.1 hlen
  exact .ok (Nat.le_refl n) h

/-! ### Loops -/

/-- A loop that has run out of rounds. -/
theorem exhausted {α : Type} {Q : α → Machine → Nat → Prop} (h : start.At code n a H O m)
    (hn : rounds ≤ n) : start.Tracks code rounds n Q ((exhausted : Structured α).on m) := by
  obtain ⟨k, rfl⟩ := Nat.exists_eq_add_of_le hn
  obtain ⟨F, hF⟩ := h.passes.take
  exact .endless hF

/-- After a round a loop is over, or time has passed and it is back where it started. -/
inductive Round (start : Machine) (code : Code) (a : Nat) (H : List Value) (O : List Int)
    (Q : Ending → Machine → Nat → Prop) (n : Nat) : Option Ending → Machine → Nat → Prop
  | last {ending : Ending} {m : Machine} {n' : Nat} : Q ending m n' →
      Round start code a H O Q n (some ending) m n'
  | back {m : Machine} {n' : Nat} : n < n' → start.At code n' a H O m →
      Round start code a H O Q n none m n'

/-- A loop goes on as long as its rounds do. -/
theorem loop {round : Structured (Option Ending)} {Q : Ending → Machine → Nat → Prop}
    (hround : ∀ m n, start.At code n a H O m →
      start.Tracks code rounds n (Round start code a H O Q n) (round.on m))
    (count : Nat) (hc : rounds ≤ n + count) (h : start.At code n a H O m) :
    start.Tracks code rounds n Q ((Structured.loop round count).on m) := by
  induction count generalizing m n with
  | zero => exact exhausted h hc
  | succ count ih =>
    refine (hround m n h).bind ?_
    intro result m n' ht hq
    cases hq with
    | last hq => exact .ok (Nat.le_refl n') hq
    | back hlt hat => exact ih (by omega) hat

end Tracks

/-! ### Single instructions -/

open Exec

variable {start m' : Machine} {n b : Nat} {I : Instruction} {v : Value} {H' : List Value}
  {O' : List Int}

/-- One more step. -/
theorem Passes.next {F : Machine} {o : Outcome} (hp : start.Passes code n (.running F))
    (hs : F.Steady code) (h : F.step code = o) : start.Passes code (n + 1) o := by
  refine hp.trans ?_
  cases o with
  | running F' => exact (Passes.zero code F').succ hs h
  | ended v F' => exact .of_ended hs h
  | trapped t F' => exact .of_trapped hs h

namespace At

/-- An instruction that does not end the script. -/
theorem step (h : start.At code n a H O m) (hI : code.Has a I) (hi : I.Indexed)
    (hstep : (m.placed a H O).step code = .running (m'.placed b H' O')) (hfit : m'.Fit code O') :
    start.At code (n + 1) b H' O' m' :=
  ⟨h.passes.next (.of_step rfl hI hi hstep (by simp)) hstep, hfit⟩

/-- A branch. -/
theorem branch {t : Nat} {jump : Jump} (h : start.At code n a H O m)
    (hI : code.Has a (.branch jump)) (hj : jump.Leads a t) : start.At code (n + 1) t H O m :=
  h.step hI trivial (step_branch rfl hI hj) h.fit

/-- A branch on false. -/
theorem branchFalse {t : Nat} {jump : Jump} (h : start.At code n a (v :: H) O m)
    (hI : code.Has a (.branchFalse jump)) (hj : jump.Leads a t) :
    start.At code (n + 1) (if v.isTrue then a + 1 else t) H O m :=
  h.step hI trivial (step_branchFalse rfl hI hj rfl) h.fit

/-- A branch on true. -/
theorem branchTrue {t : Nat} {jump : Jump} (h : start.At code n a (v :: H) O m)
    (hI : code.Has a (.branchTrue jump)) (hj : jump.Leads a t) :
    start.At code (n + 1) (if v.isTrue then t else a + 1) H O m :=
  h.step hI trivial (step_branchTrue rfl hI hj rfl) h.fit

/-- A value is dropped. -/
theorem popz (h : start.At code n a (v :: H) O m) (hI : code.Has a .popz) :
    start.At code (n + 1) (a + 1) H O m :=
  h.step hI trivial (step_of_has rfl hI) h.fit

/-- A value is doubled. -/
theorem dup (h : start.At code n a (v :: H) O m) (hI : code.Has a (.dup 1)) :
    start.At code (n + 1) (a + 1) (v :: v :: H) O m :=
  h.step hI trivial (step_of_has rfl hI) h.fit

/-- A number is pushed. -/
theorem pushInt {value : Int32} (h : start.At code n a H O m) (hI : code.Has a (.pushInt value)) :
    start.At code (n + 1) (a + 1) (.real (Float.ofInt value.toInt) :: H) O m :=
  h.step hI trivial (step_of_has rfl hI) h.fit

/-- A value is returned. -/
theorem ret (h : start.At code n a (v :: H) O m) (hI : code.Has a .ret) :
    start.Passes code (n + 1) (.ended v (m.placed (a + 1) H O)) := by
  have hstep : (m.placed a (v :: H) O).step code = .ended v (m.placed (a + 1) H O) :=
    step_of_has rfl hI
  exact h.passes.next (.of_step rfl hI trivial hstep (by simp)) hstep

/-- Nothing is returned. -/
theorem exit (h : start.At code n a H O m) (hI : code.Has a .exit) :
    start.Passes code (n + 1) (.ended .undefined (m.placed (a + 1) H O)) := by
  have hstep : (m.placed a H O).step code = .ended .undefined (m.placed (a + 1) H O) :=
    step_of_has rfl hI
  exact h.passes.next (.of_step rfl hI trivial hstep (by simp)) hstep

/-- The instance before is gone back to. -/
theorem leave {id : Int} (h : start.At code n a H (id :: O) m)
    (hI : code.Has a .popEnvExit ∨ ∃ jump, code.Has a (.popEnv jump)) :
    start.At code (n + 1) (a + 1) H O { m with current := id } := by
  have hfit : Fit code { m with current := id } O :=
    ⟨h.fit.size_locals, h.fit.outer_exist id List.mem_cons_self,
      fun i hi => h.fit.outer_exist i (List.mem_cons_of_mem id hi)⟩
  rcases hI with hI | ⟨jump, hI⟩
  · exact h.step hI trivial (step_of_has rfl hI) hfit
  · exact h.step hI trivial (step_of_has rfl hI) hfit

/-- All instances are gone back to, one after the other. -/
theorem leaveAll {rest : List Instruction}
    (hat : start.At code n a H O m)
    (hseg : code.Segment a (.replicate O.length .popEnvExit ++ rest)) :
    start.At code (n + O.length) (a + O.length) H []
        { m with current := O.getLast?.getD m.current } ∧ code.Segment (a + O.length) rest := by
  induction O generalizing m n a with
  | nil => exact ⟨hat, hseg⟩
  | cons id O ih =>
    obtain ⟨hI, hseg⟩ := hseg
    have h := ih (hat.leave (.inl hI)) hseg
    rw [List.getLast?_cons, List.length_cons, Nat.add_comm O.length, ← Nat.add_assoc,
      ← Nat.add_assoc]
    exact h

end At

end Machine

namespace Exec

/-- The action has the same result on all machines and leaves them alone; if it traps, values are to
blame. -/
def Fixed {α : Type} (x : Exec α) (result : Except Trap α) : Prop :=
  (∀ m, x.on m = (result, m)) ∧ ∀ t, result = .error t → t.FromValues false

/-- To give a value is the same everywhere. -/
theorem fixed_pure {α : Type} (a : α) : Fixed (pure a) (.ok a) :=
  ⟨fun _ => rfl, by rintro t ⟨⟩⟩

/-- So is to ask for a number. -/
theorem fixed_number (v : Value) : ∃ result, Fixed (number v) result ∧
    ∀ x, result = .ok x → v = .real x := by
  cases v with
  | real x => exact ⟨.ok x, fixed_pure x, by rintro y ⟨⟩; rfl⟩
  | _ => exact ⟨.error _, ⟨fun _ => rfl, by rintro t ⟨⟩; trivial⟩, by rintro x ⟨⟩⟩

/-- So is to compare. -/
theorem fixed_compares (comparison : Comparison) (lhs rhs : Value) :
    ∃ result, Fixed (compares comparison lhs rhs) result := by
  unfold compares
  split
  · exact ⟨_, fixed_pure _⟩
  · exact ⟨_, fixed_pure _⟩
  · exact ⟨_, fixed_pure _⟩
  · exact ⟨.error _, fun _ => rfl, by rintro t ⟨⟩; trivial⟩

/-- So is to subtract. -/
theorem fixed_sub (lhs rhs : Value) : ∃ result, Fixed (operate .sub lhs rhs) result := by
  obtain ⟨x, hx, -⟩ := fixed_number lhs
  obtain ⟨y, hy, -⟩ := fixed_number rhs
  have hon : ∀ m, (operate .sub lhs rhs).on m =
      thenOn (fun x => number rhs >>= fun y => pure (.real (x - y))) (x, m) := by
    intro m
    rw [← hx.1 m, ← on_bind]
    rfl
  rcases x with t | x
  · exact ⟨.error t, hon, by rintro _ ⟨⟩; exact hx.2 t rfl⟩
  · simp only [thenOn_ok, on_bind, hy.1] at hon
    rcases y with t | y
    · exact ⟨.error t, hon, by rintro _ ⟨⟩; exact hy.2 t rfl⟩
    · exact ⟨.ok _, hon, by rintro _ ⟨⟩⟩

end Exec

namespace Machine

open Exec

variable {code : Code} {start m : Machine} {n a : Nat} {I : Instruction} {v : Value}
  {H : List Value} {O : List Int}

namespace Tracks

variable {rounds : Nat} {w : Value}

/-- An instruction that traps. -/
theorem of_trap {α : Type} {Q : α → Machine → Nat → Prop} {t : Trap} {F : Machine}
    (h : start.At code n a H O m) (hI : code.Has a I) (hi : I.Indexed)
    (hx : (execute code a I).on (m.placed (a + 1) H O) = (.error t, F))
    (ht : t.FromValues I.asksField) (hn : F.next = a + 1) (hw : F.world = m.world) :
    start.Tracks code rounds n Q (some (.error t, m)) := by
  have hstep : (m.placed a H O).step code = .trapped t F := by
    rw [step_of_has rfl hI]
    exact congrArg Outcome.ofResult hx
  refine .trapped (h.passes.next ⟨a, I, rfl, hI, hi, fun t' F' h' => ?_⟩ hstep) hw
  cases hstep.symm.trans h'
  exact ⟨ht, hn⟩

/-- An instruction that puts what an action makes of the two topmost values in their place. -/
theorem of_fixed {α : Type} {x : Exec α} {result : Except Trap α} {value : α → Value}
    (h : start.At code n a (w :: v :: H) O m) (hI : code.Has a I) (hi : I.Indexed)
    (hx : Fixed x result) (hasks : I.asksField = false)
    (hon : (execute code a I).on (m.placed (a + 1) (w :: v :: H) O) =
      (x >>= fun u => push (value u) >>= fun _ => pure none).on (m.placed (a + 1) H O)) :
    start.Tracks code rounds n
      (fun u m n' => n < n' ∧ start.At code n' (a + 1) (value u :: H) O m)
      ((Structured.ofExec x).on m) := by
  rw [on_bind, hx.1] at hon
  rw [Structured.on_ofExec, hx.1]
  cases result with
  | error t => exact of_trap h hI hi hon (hasks ▸ hx.2 t rfl) rfl rfl
  | ok u =>
    refine .ok (Nat.le_succ n) ⟨Nat.lt_succ_self n, h.step hI hi ?_ h.fit⟩
    rw [step_of_has rfl hI]
    exact congrArg Outcome.ofResult hon

/-- A comparison of the two topmost values. -/
theorem compares {comparison : Comparison} (h : start.At code n a (w :: v :: H) O m)
    (hI : code.Has a (.cmp comparison)) :
    start.Tracks code rounds n
      (fun holds m n' => n < n' ∧ start.At code n' (a + 1) (.ofBool holds :: H) O m)
      ((Structured.ofExec (Exec.compares comparison v w)).on m) := by
  obtain ⟨result, hx⟩ := fixed_compares comparison v w
  exact of_fixed h hI trivial hx rfl rfl

/-- The topmost value is taken from the one below it. -/
theorem sub (h : start.At code n a (w :: v :: H) O m) (hI : code.Has a .sub) :
    start.Tracks code rounds n (fun u m n' => n < n' ∧ start.At code n' (a + 1) (u :: H) O m)
      ((Structured.ofExec (Exec.operate .sub v w)).on m) := by
  obtain ⟨result, hx⟩ := fixed_sub v w
  exact of_fixed h hI trivial hx rfl rfl

/-- The instance that the topmost value tells. -/
theorem number {jump : Jump} (h : start.At code n a (v :: H) O m)
    (hI : code.Has a (.pushEnv jump)) :
    start.Tracks code rounds n
      (fun x m n => v = .real x ∧ start.At code n a (v :: H) O m)
      ((Structured.ofExec (Exec.number v)).on m) := by
  obtain ⟨result, ⟨hx, ht⟩, hv⟩ := fixed_number v
  rw [Structured.on_ofExec, hx]
  cases result with
  | error t =>
    have hon : (execute code a (.pushEnv jump)).on (m.placed (a + 1) (v :: H) O) =
        (.error t, m.placed (a + 1) H O) := by
      unfold execute
      simp only [popNumber, pop, on_bind, on_get, thenOn_ok, placed, on_modify, on_pure]
      rw [hx]
      rfl
    exact of_trap h hI trivial hon (ht t rfl) rfl rfl
  | ok x => exact .ok (Nat.le_refl n) ⟨hv x rfl, h⟩

end Tracks

namespace At

variable {t : Nat} {jump : Jump} {x : Float}

/-- The machine becomes another instance. -/
theorem enter (h : start.At code n a (.real x :: H) O m) (hI : code.Has a (.pushEnv jump))
    (hid : m.instances.contains (instanceId x) = true) :
    start.At code (n + 1) (a + 1) H (m.current :: O) { m with current := instanceId x } := by
  have hfit : Fit code { m with current := instanceId x } (m.current :: O) := by
    refine ⟨h.fit.size_locals, hid, fun i hi => ?_⟩
    rcases List.mem_cons.1 hi with rfl | hi
    · exact h.fit.current_exists
    · exact h.fit.outer_exist i hi
  refine h.step hI trivial ?_ hfit
  rw [step_of_has rfl hI]
  unfold execute
  simp only [popNumber, pop, Exec.number, Exec.enter, on_bind, on_get, thenOn_ok, placed,
    on_modify, on_pure, on_modifyGet, hid, if_true]
  rfl

/-- There is no such instance. -/
theorem pass (h : start.At code n a (.real x :: H) O m) (hI : code.Has a (.pushEnv jump))
    (hj : jump.Leads a t) (hid : m.instances.contains (instanceId x) = false) :
    start.At code (n + 1) t H O m := by
  refine h.step hI trivial ?_ h.fit
  rw [step_of_has rfl hI]
  unfold execute
  simp only [popNumber, pop, Exec.number, Exec.enter, on_bind, on_get, thenOn_ok, placed,
    on_modify, on_pure, on_modifyGet, hid, Bool.false_eq_true, if_false, on_jump hj,
    Outcome.ofResult]

end At

end Machine

end Gml
