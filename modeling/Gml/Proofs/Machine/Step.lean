import Gml.Machine.Run

/-!
# Steps of the machine

A run is a sequence of steps. `Machine.step` takes one instruction, and `Machine.after` takes a
number of them, unless the script ends or traps before. The runs with a budget are counted in these
steps: a run that is over after so many steps, or has left the code, is so within every budget of at
least that many (`runWithin_of_over`, `runWithin_of_outside`), and a run that is still in the code by
then has no time left (`runWithin_of_inside`).

`Exec.on` is an action applied to a machine, with one equation for each way to build an action.
-/

namespace Gml

namespace Exec

variable {α β : Type}

/-- What an action comes to on a machine: its result or trap, and the machine after it. -/
def on (x : Exec α) (machine : Machine) : Except Trap α × Machine :=
  x.run.run machine

/-- Goes on with a result; a trap stays. -/
def thenOn (f : α → Exec β) : Except Trap α × Machine → Except Trap β × Machine
  | (.ok a, machine) => (f a).on machine
  | (.error trap, machine) => (.error trap, machine)

/-- After a result the next action follows. -/
@[simp] theorem thenOn_ok (f : α → Exec β) (a : α) (m : Machine) :
    thenOn f (.ok a, m) = (f a).on m := rfl

/-- After a trap nothing follows. -/
@[simp] theorem thenOn_error (f : α → Exec β) (t : Trap) (m : Machine) :
    thenOn f (.error t, m) = (.error t, m) := rfl

/-- To give a value changes nothing. -/
@[simp] theorem on_pure (a : α) (m : Machine) : (pure a : Exec α).on m = (.ok a, m) := rfl

/-- A trap ends an action. -/
@[simp] theorem on_throw (t : Trap) (m : Machine) : (throw t : Exec α).on m = (.error t, m) := rfl

/-- The machine can be looked at. -/
@[simp] theorem on_get (m : Machine) : (get : Exec Machine).on m = (.ok m, m) := rfl

/-- The machine can be changed. -/
@[simp] theorem on_modify (f : Machine → Machine) (m : Machine) :
    (modify f : Exec Unit).on m = (.ok (), f m) := rfl

/-- It can be looked at and changed. -/
@[simp] theorem on_modifyGet (f : Machine → α × Machine) (m : Machine) :
    (modifyGet f : Exec α).on m = (.ok (f m).1, (f m).2) := rfl

/-- A sequence goes on from where its first action ends. -/
theorem on_bind (x : Exec α) (f : α → Exec β) (m : Machine) :
    (x >>= f).on m = thenOn f (x.on m) := by
  show (x >>= f).run.run m = thenOn f (x.run.run m)
  rw [ExceptT.run_bind]
  simp only [StateT.run_bind]
  rcases x.run.run m with ⟨_ | _, _⟩ <;> rfl

end Exec

/-! ### Single steps -/

/-- What one or more steps of a machine come to. -/
inductive Outcome where
  /-- The script goes on. -/
  | running (machine : Machine)
  /-- The script has ended with a result. -/
  | ended (result : Value) (machine : Machine)
  /-- An instruction has trapped. -/
  | trapped (trap : Trap) (machine : Machine)

namespace Outcome

/-- What an executed instruction comes to. -/
def ofResult : Except Trap (Option Value) × Machine → Outcome
  | (.ok none, machine) => running machine
  | (.ok (some result), machine) => ended result machine
  | (.error trap, machine) => trapped trap machine

/-- The result of a run that has come to its end, and the machine after it. A script that goes on is
stopped, and traps for want of time. -/
def result (limit : Nat) : Outcome → Except Trap Value × Machine
  | running machine => (.error (.outOfTime limit), machine)
  | ended result machine => (.ok result, machine)
  | trapped trap machine => (.error trap, machine)

end Outcome

namespace Machine

/-- Takes one instruction. Outside of the code the script has ended. -/
def step (code : Code) (machine : Machine) : Outcome :=
  match Exec.fetch? code machine.next with
  | none => .ended .undefined machine
  | some instruction =>
    .ofResult ((Exec.execute code machine.next instruction).on
      { machine with next := machine.next + 1 })

/-- Takes a number of instructions. -/
def after (code : Code) : Nat → Machine → Outcome
  | 0, machine => .running machine
  | count + 1, machine =>
    match machine.step code with
    | .running machine => machine.after code count
    | outcome => outcome

variable {code : Code} {m m' : Machine}

/-- A step that goes on is the first of a run. -/
theorem after_succ_of_running (h : m.step code = .running m') (n : Nat) :
    m.after code (n + 1) = m'.after code n := by
  simp only [after, h]

/-- A step may end a run. -/
theorem after_succ_of_ended {v : Value} (h : m.step code = .ended v m') (n : Nat) :
    m.after code (n + 1) = .ended v m' := by
  simp only [after, h]

/-- So may a trap. -/
theorem after_succ_of_trapped {t : Trap} (h : m.step code = .trapped t m') (n : Nat) :
    m.after code (n + 1) = .trapped t m' := by
  simp only [after, h]

/-- Steps add up. -/
theorem after_add {k : Nat} (h : m.after code k = .running m') (n : Nat) :
    m.after code (k + n) = m'.after code n := by
  induction k generalizing m with
  | zero =>
    cases h
    rw [Nat.zero_add]
  | succ k ih =>
    rw [Nat.add_right_comm]
    cases hs : m.step code with
    | running m₁ =>
      rw [after_succ_of_running hs] at h ⊢
      exact ih h
    | ended v m₁ => rw [after_succ_of_ended hs] at h; cases h
    | trapped t m₁ => rw [after_succ_of_trapped hs] at h; cases h

/-- A script that is over stays so. -/
theorem after_add_of_over {outcome : Outcome} {k : Nat} (h : m.after code k = outcome)
    (ho : ∀ m', outcome ≠ .running m') (n : Nat) : m.after code (k + n) = outcome := by
  induction k generalizing m with
  | zero => exact absurd h.symm (ho m)
  | succ k ih =>
    rw [Nat.add_right_comm]
    cases hs : m.step code with
    | running m₁ =>
      rw [after_succ_of_running hs] at h ⊢
      exact ih h
    | ended v m₁ => rwa [after_succ_of_ended hs] at h ⊢
    | trapped t m₁ => rwa [after_succ_of_trapped hs] at h ⊢

/-- A script that goes on for some steps has gone on all the time before. -/
theorem running_of_after_add {k n : Nat} (h : m.after code (k + n) = .running m') :
    ∃ m₁, m.after code k = .running m₁ := by
  cases hk : m.after code k with
  | running m₁ => exact ⟨m₁, rfl⟩
  | ended v m₁ | trapped t m₁ => cases (after_add_of_over hk nofun n).symm.trans h

end Machine

/-! ### Runs with a budget -/

namespace Exec

open Machine

variable {code : Code} {m m' : Machine}

/-- A bounded run is a step and the rest. -/
theorem runWithin_succ (limit budget : Nat) (m : Machine) :
    (runWithin code limit (budget + 1)).on m =
      match m.step code with
      | .running m' => (runWithin code limit budget).on m'
      | outcome => outcome.result limit := by
  simp only [runWithin, on_bind, on_get, thenOn_ok, step]
  rcases fetch? code m.next with _ | instruction
  · rfl
  · simp only [on_bind, on_modify, thenOn_ok]
    rcases (execute code m.next instruction).on { m with next := m.next + 1 } with ⟨t | v | v, m₁⟩
      <;> rfl

/-- A run with a budget goes as far as that many steps go, and a run that is not over by then either
stands outside of the code or has no time left. -/
theorem runWithin_eq (limit budget : Nat) (m : Machine) :
    (runWithin code limit budget).on m =
      match m.after code budget with
      | .running m' =>
        if (fetch? code m'.next).isSome then (.error (.outOfTime limit), m') else (.ok .undefined, m')
      | outcome => outcome.result limit := by
  induction budget generalizing m with
  | zero =>
    simp only [runWithin, on_bind, on_get, thenOn_ok, after]
    split <;> simp_all
  | succ budget ih =>
    rw [runWithin_succ]
    cases hs : m.step code with
    | running m₁ => rw [after_succ_of_running hs]; exact ih m₁
    | ended v m₁ => rw [after_succ_of_ended hs]
    | trapped t m₁ => rw [after_succ_of_trapped hs]

/-- A run that is over in time gives its result. -/
theorem runWithin_of_over {outcome : Outcome} {n budget : Nat} (h : m.after code n = outcome)
    (ho : ∀ m', outcome ≠ .running m') (hn : n ≤ budget) (limit : Nat) :
    (runWithin code limit budget).on m = outcome.result limit := by
  obtain ⟨k, rfl⟩ := Nat.exists_eq_add_of_le hn
  rw [runWithin_eq, after_add_of_over h ho]
  cases outcome with
  | running m' => exact absurd rfl (ho m')
  | _ => rfl

/-- A run that leaves the code gives nothing. -/
theorem runWithin_of_outside {n budget : Nat} (h : m.after code n = .running m')
    (hf : fetch? code m'.next = none) (hn : n ≤ budget) (limit : Nat) :
    (runWithin code limit budget).on m = (.ok .undefined, m') := by
  obtain ⟨k, rfl⟩ := Nat.exists_eq_add_of_le hn
  rw [runWithin_eq, after_add h]
  cases k with
  | zero => simp [after, hf]
  | succ k =>
    have hstep : m'.step code = .ended .undefined m' := by simp only [step, hf]
    rw [after_succ_of_ended hstep]
    rfl

/-- A run that is not over is out of time. -/
theorem runWithin_of_inside {I : Instruction} {budget : Nat} (h : m.after code budget = .running m')
    (hf : fetch? code m'.next = some I) (limit : Nat) :
    (runWithin code limit budget).on m = (.error (.outOfTime limit), m') := by
  rw [runWithin_eq, h]
  simp [hf]

end Exec

end Gml
