import Gml.Proofs.Code.Layout
import Gml.Proofs.Machine.Effect

/-!
# Blocks of code

A block is code that is entered at its first instruction and left at its end, with branches that only
go forward. `Machine.Walk` follows a machine through it step by step, and each of its states is
`Machine.Steady`: its instruction is in the code, and only values can make it trap.

`Code.Moves code a b p q` says that the code from `a` up to `b` is a block that takes `p` values from
the stack and leaves `q`, whatever lies beneath. Blocks are put together from instructions and
branches (`Moves.trans`, `Moves.fork`). The main result is `Code.Pushes.moves`: the code of an operand
is a block that pushes as many values as the operand has.
-/

namespace Gml

/-- An instruction for elements has indices. -/
def Instruction.Indexed : Instruction → Prop
  | loadIndex _ dims | storeIndex _ dims => 0 < dims.toNat
  | _ => True

namespace Machine

/-- The machine stands at an instruction of the code, and if that traps, its values are to blame. -/
def Steady (code : Code) (m : Machine) : Prop :=
  ∃ (site : Nat) (I : Instruction), m.next = site ∧ code.Has site I ∧ I.Indexed ∧
    ∀ t m', m.step code = .trapped t m' → t.FromValues I.asksField ∧ m'.next = site + 1

/-- A number of steps leads somewhere, through nothing but steady states. -/
def Passes (code : Code) (n : Nat) (m : Machine) (outcome : Outcome) : Prop :=
  m.after code n = outcome ∧ ∀ k < n, ∀ m', m.after code k = .running m' → m'.Steady code

/-- The machine goes forward through steady states up to an index, or until it traps. -/
inductive Walk (code : Code) (stop : Nat) : Machine → Outcome → Prop
  | arrive {m : Machine} : m.next = stop → Walk code stop m (.running m)
  | step {m m' : Machine} {outcome : Outcome} : m.Steady code → m.next < stop →
      m.step code = .running m' → m.next < m'.next → Walk code stop m' outcome →
      Walk code stop m outcome
  | trap {m m' : Machine} {t : Trap} : m.Steady code → m.next < stop →
      m.step code = .trapped t m' → Walk code stop m (.trapped t m')

variable {code : Code} {m m' : Machine} {outcome : Outcome}

/-! ### Steps through steady states -/

/-- After no steps the machine is where it was. -/
theorem Passes.zero (code : Code) (m : Machine) : m.Passes code 0 (.running m) :=
  ⟨rfl, by simp⟩

/-- A step may come in front. -/
theorem Passes.succ {n : Nat} (hs : m.Steady code) (h : m.step code = .running m')
    (hp : m'.Passes code n outcome) : m.Passes code (n + 1) outcome := by
  refine ⟨(after_succ_of_running h n).trans hp.1, fun k hk m₁ hm₁ => ?_⟩
  cases k with
  | zero => cases hm₁; exact hs
  | succ k =>
    rw [after_succ_of_running h] at hm₁
    exact hp.2 k (by omega) m₁ hm₁

/-- A run may end in a trap. -/
theorem Passes.of_trapped {t : Trap} (hs : m.Steady code) (h : m.step code = .trapped t m') :
    m.Passes code 1 (.trapped t m') := by
  refine ⟨after_succ_of_trapped h 0, fun k hk m₁ hm₁ => ?_⟩
  obtain rfl : k = 0 := by omega
  cases hm₁
  exact hs

/-- A run may end with a value. -/
theorem Passes.of_ended {v : Value} (hs : m.Steady code) (h : m.step code = .ended v m') :
    m.Passes code 1 (.ended v m') := by
  refine ⟨after_succ_of_ended h 0, fun k hk m₁ hm₁ => ?_⟩
  obtain rfl : k = 0 := by omega
  cases hm₁
  exact hs

/-- Runs add up. -/
theorem Passes.trans {n k : Nat} (h : m.Passes code n (.running m'))
    (h' : m'.Passes code k outcome) : m.Passes code (n + k) outcome := by
  refine ⟨(after_add h.1 k).trans h'.1, fun j hj m₁ hm₁ => ?_⟩
  by_cases hlt : j < n
  · exact h.2 j hlt m₁ hm₁
  · obtain ⟨i, rfl⟩ := Nat.exists_eq_add_of_le (Nat.le_of_not_lt hlt)
    rw [after_add h.1] at hm₁
    exact h'.2 i (by omega) m₁ hm₁

/-- Fewer steps also lead through steady states. -/
theorem Passes.take {n k : Nat} (h : m.Passes code (n + k) (.running m')) :
    ∃ m₁, m.Passes code n (.running m₁) := by
  obtain ⟨m₁, hm₁⟩ := running_of_after_add h.1
  exact ⟨m₁, hm₁, fun j hj => h.2 j (by omega)⟩

/-! ### Walks -/

/-- A walk is a run. -/
theorem Walk.passes {stop : Nat} (h : m.Walk code stop outcome) :
    ∃ n, m.Passes code n outcome := by
  induction h with
  | arrive => exact ⟨0, .zero code _⟩
  | step hs _ h _ _ ih =>
    obtain ⟨n, hn⟩ := ih
    exact ⟨n + 1, hn.succ hs h⟩
  | trap hs _ h => exact ⟨1, .of_trapped hs h⟩

/-- A walk that arrives is at its end. -/
theorem Walk.next_eq {stop : Nat} (h : m.Walk code stop (.running m')) : m'.next = stop := by
  generalize ho : Outcome.running m' = outcome at h
  induction h with
  | arrive hm => cases ho; exact hm
  | step _ _ _ _ _ ih => exact ih ho
  | trap => cases ho

/-- A walk that arrives can go on. -/
theorem Walk.trans {k b : Nat} (hkb : k ≤ b) (h : m.Walk code k (.running m'))
    (h' : m'.Walk code b outcome) : m.Walk code b outcome := by
  generalize ho : Outcome.running m' = o at h
  induction h with
  | arrive => cases ho; exact h'
  | step hs hlt h hinc _ ih => exact .step hs (by omega) h hinc (ih ho)
  | trap => cases ho

/-- A walk that traps does so on the way to any later end. -/
theorem Walk.extend {k b : Nat} {t : Trap} (hkb : k ≤ b) (h : m.Walk code k (.trapped t m')) :
    m.Walk code b (.trapped t m') := by
  generalize ho : Outcome.trapped t m' = o at h ⊢
  induction h with
  | arrive => cases ho
  | step hs hlt h hinc _ ih => exact .step hs (by omega) h hinc (ih ho)
  | trap hs hlt h => exact .trap hs (by omega) h

end Machine

/-- More beneath the stack, whatever the steps have come to. -/
def Outcome.raised (below : List Value) (outside : List Int) : Outcome → Outcome
  | running m => running (m.raised below outside)
  | ended v m => ended v (m.raised below outside)
  | trapped t m => trapped t (m.raised below outside)

/-- A machine that started with a stack has taken `p` values and left `q`, or it has trapped. -/
inductive Machine.Lands (code : Code) (p q : Nat) (m : Machine) : Outcome → Prop
  | running {m' : Machine} : m'.Ready code → m'.stack.length + p = m.stack.length + q →
      m'.outer = m.outer → Lands code p q m (.running m')
  | trapped {t : Trap} {m' : Machine} : Lands code p q m (.trapped t m')

/-- The code from `a` up to `b` is a block that takes `p` values and leaves `q`. -/
structure Code.Moves (code : Code) (a b p q : Nat) : Prop where
  /-- A block goes forward. -/
  le : a ≤ b
  /-- Whatever lies beneath, the block goes the same way. -/
  walk : ∀ m : Machine, m.Ready code → m.next = a → p ≤ m.stack.length →
    ∃ outcome, m.Walk code b outcome ∧ m.Lands code p q outcome ∧
      ∀ below outside, (m.raised below outside).Walk code b (outcome.raised below outside)

/-! ### Instructions that do not jump -/

namespace Exec

variable {α : Type}

/-- The action never ends the script. -/
def Silent (x : Exec (Option Value)) : Prop :=
  ∀ m result m', x.on m = (.ok result, m') → result = none

/-- Nothing is returned in the end. -/
theorem silent_none : Silent (pure none) := by
  rintro m result m' ⟨⟩
  rfl

/-- Nothing is returned by a trap. -/
theorem silent_throw (t : Trap) : Silent (throw t) := by
  rintro m result m' ⟨⟩

/-- Nothing is returned if the last action returns nothing. -/
theorem Silent.bind {x : Exec α} {f : α → Exec (Option Value)} (hf : ∀ a, Silent (f a)) :
    Silent (x >>= f) := by
  intro m result m' h
  rw [on_bind] at h
  rcases hx : x.on m with ⟨_ | a, m₁⟩
  · rw [hx] at h
    cases h
  · rw [hx] at h
    exact hf a m₁ result m' h

/-- An instruction with an effect returns nothing. -/
theorem silent_execute {code : Code} {I : Instruction} {p q : Nat} (h : code.Effect I p q)
    (site : Int) : Silent (execute code site I) := by
  cases h
  case operation hop =>
    cases I <;> simp only [Instruction.isOperation, reduceCtorEq] at hop <;>
      exact .bind fun _ => .bind fun _ => .bind fun _ => .bind fun _ => silent_none
  all_goals
    unfold execute
    dsimp only
    repeat' first
      | exact silent_none
      | exact silent_throw _
      | refine Silent.bind fun _ => ?_
      | split

end Exec

/-- A truth value is as true as it says. -/
theorem Value.isTrue_ofBool (b : Bool) : (Value.ofBool b).isTrue = b := by
  cases b <;> decide +kernel

namespace Machine

open Exec

variable {code : Code} {m m' : Machine} {a : Nat} {I : Instruction}

/-- An instruction of the code is fetched. -/
theorem fetch?_of_has (h : code.Has a I) : fetch? code a = some I := by
  unfold fetch?
  rw [if_pos (Int.natCast_nonneg a), Int.toNat_natCast]
  exact h

/-- It is what a step executes. -/
theorem step_of_has (hn : m.next = a) (h : code.Has a I) :
    m.step code = .ofResult ((execute code a I).on { m with next := a + 1 }) := by
  unfold step
  rw [hn, fetch?_of_has h]

/-- A step that does not trap is a step from a steady state. -/
theorem Steady.of_step {outcome : Outcome} (hn : m.next = a) (h : code.Has a I) (hI : I.Indexed)
    (hstep : m.step code = outcome) (ho : ∀ t m', outcome ≠ .trapped t m') : m.Steady code :=
  ⟨a, I, hn, h, hI, fun t m' ht => absurd (hstep.symm.trans ht) (ho t m')⟩

/-! ### Branches -/

/-- A jump leads to its target. -/
theorem on_jump {site target : Nat} {jump : Jump} (h : jump.Leads site target) (m : Machine) :
    (Exec.jump site jump).on m = (.ok (), { m with next := target }) := by
  obtain ⟨distance, rfl, hd⟩ := h
  rw [← hd]
  rfl

/-- A branch goes to its target. -/
theorem step_branch {target : Nat} {jump : Jump} (hn : m.next = a)
    (h : code.Has a (.branch jump)) (hj : jump.Leads a target) :
    m.step code = .running { m with next := target } := by
  rw [step_of_has hn h]
  unfold execute
  simp only [on_bind, on_jump hj, thenOn_ok, on_pure, Outcome.ofResult]

/-- A branch on false goes on if the value is true. -/
theorem step_branchFalse {target : Nat} {jump : Jump} {v : Value} {stack : List Value}
    (hn : m.next = a) (h : code.Has a (.branchFalse jump)) (hj : jump.Leads a target)
    (hs : m.stack = v :: stack) : m.step code =
      .running { m with next := ((if v.isTrue then a + 1 else target : Nat) : Int), stack } := by
  rw [step_of_has hn h]
  unfold execute
  simp only [pop, on_bind, on_get, thenOn_ok, hs, on_modify, on_pure]
  cases v.isTrue with
  | true => rfl
  | false =>
    simp only [Bool.false_eq_true, if_false, on_bind, on_jump hj, thenOn_ok, on_pure,
      Outcome.ofResult]

/-- A branch on true goes to its target if it is. -/
theorem step_branchTrue {target : Nat} {jump : Jump} {v : Value} {stack : List Value}
    (hn : m.next = a) (h : code.Has a (.branchTrue jump)) (hj : jump.Leads a target)
    (hs : m.stack = v :: stack) : m.step code =
      .running { m with next := ((if v.isTrue then target else a + 1 : Nat) : Int), stack } := by
  rw [step_of_has hn h]
  unfold execute
  simp only [pop, on_bind, on_get, thenOn_ok, hs, on_modify, on_pure]
  cases v.isTrue with
  | true => simp only [if_true, on_bind, on_jump hj, thenOn_ok, on_pure, Outcome.ofResult]
  | false => rfl

/-- A step that goes on to the next instruction or traps. -/
theorem Walk.of_on {result : Except Trap (Option Value)} (hn : m.next = a) (h : code.Has a I)
    (hI : I.Indexed) (hon : (execute code a I).on { m with next := a + 1 } = (result, m'))
    (hresult : ∀ r, result = .ok r → r = none)
    (htrap : ∀ t, result = .error t → t.FromValues I.asksField) (hnext : m'.next = a + 1) :
    m.Walk code (a + 1) (.ofResult (result, m')) := by
  have hstep : m.step code = .ofResult (result, m') := by rw [step_of_has hn h, hon]
  have hsteady : m.Steady code := by
    refine ⟨a, I, hn, h, hI, fun t m₁ hm₁ => ?_⟩
    rw [hstep] at hm₁
    rcases result with t' | _ | v
    · cases hm₁
      exact ⟨htrap _ rfl, hnext⟩
    · cases hm₁
    · cases hm₁
  cases result with
  | error t => exact .trap hsteady (by omega) hstep
  | ok r =>
    obtain rfl := hresult r rfl
    exact .step hsteady (by omega) hstep (by omega) (.arrive (by omega))

end Machine

namespace Code

open Exec Machine

variable {code : Code} {a k b p q r : Nat} {I : Instruction}

/-- An instruction with an effect has a place of its own. -/
theorem Effect.indexed (h : code.Effect I p q) : I.Indexed := by
  cases h with
  | loadIndex _ hd => exact hd
  | storeIndex _ hd => exact hd
  | operation hop => cases I <;> simp [Instruction.isOperation] at hop <;> exact trivial
  | _ => exact trivial

namespace Moves

/-- An instruction without a jump is a block. -/
theorem of_effect (h : code.Has a I) (he : code.Effect I p q) : code.Moves a (a + 1) p q := by
  refine ⟨Nat.le_succ a, fun m hm hn hp => ?_⟩
  have hm₁ : ({ m with next := a + 1 } : Machine).Ready code := hm.of_eq rfl rfl rfl rfl
  obtain ⟨result, m', hon, hs, hover⟩ := he.uses a { m with next := a + 1 } hm₁ hp
  have hsilent : ∀ r, result = .ok r → r = none := by
    rintro r rfl
    exact silent_execute he a _ r m' hon
  refine ⟨.ofResult (result, m'), .of_on hn h he.indexed hon hsilent hs.traps hs.next, ?_, ?_⟩
  · cases result with
    | error t => exact .trapped
    | ok r =>
      obtain rfl := hsilent r rfl
      exact .running (hs.ready ⟨_, rfl⟩) (hs.length ⟨_, rfl⟩) (hs.outer ⟨_, rfl⟩)
  · intro below outside
    have hw : (m.raised below outside).Walk code (a + 1)
        (.ofResult (result, m'.raised below outside)) :=
      .of_on hn h he.indexed (hover below outside) hsilent hs.traps hs.next
    rcases result with t | _ | v <;> exact hw

/-- Nothing moves nothing. -/
theorem refl (code : Code) (a p : Nat) : code.Moves a a p p :=
  ⟨Nat.le_refl a, fun m hm hn _ => ⟨.running m, .arrive hn, .running hm rfl rfl,
    fun _ _ => .arrive hn⟩⟩

/-- A block that takes what another leaves comes after it. -/
theorem trans (h : code.Moves a k p q) (h' : code.Moves k b q r) : code.Moves a b p r := by
  refine ⟨Nat.le_trans h.le h'.le, fun m hm hn hp => ?_⟩
  obtain ⟨outcome, hw, hl, hover⟩ := h.walk m hm hn hp
  cases hl with
  | @running m₁ hready hlen houter =>
    obtain ⟨outcome, hw', hl', hover'⟩ := h'.walk m₁ hready hw.next_eq (by omega)
    refine ⟨outcome, hw.trans h'.le hw', ?_, fun below outside =>
      (hover below outside).trans h'.le (hover' below outside)⟩
    cases hl' with
    | running hready' hlen' houter' =>
      exact .running hready' (by omega) (houter'.trans houter)
    | trapped => exact .trapped
  | trapped =>
    exact ⟨_, hw.extend h'.le, .trapped, fun below outside => (hover below outside).extend h'.le⟩

/-- A block leaves what lies beneath the values that it takes. -/
theorem beneath (h : code.Moves a b p q) (n : Nat) : code.Moves a b (p + n) (q + n) := by
  refine ⟨h.le, fun m hm hn hp => ?_⟩
  obtain ⟨outcome, hw, hl, hover⟩ := h.walk m hm hn (by omega)
  refine ⟨outcome, hw, ?_, hover⟩
  cases hl with
  | running hready hlen houter => exact .running hready (by omega) houter
  | trapped => exact .trapped

/-- The depths may be written in another way. -/
theorem resize {p' q' : Nat} (h : code.Moves a b p q) (hp : p = p') (hq : q = q') :
    code.Moves a b p' q' :=
  hp ▸ hq ▸ h

/-- What one block pushes lies beneath what the next one pushes. -/
theorem pushes (h : code.Moves a k 0 q) (h' : code.Moves k b 0 r) : code.Moves a b 0 (q + r) :=
  h.trans ((h'.beneath q).resize (Nat.zero_add q) (Nat.add_comm r q))

/-- A branch ahead is a block. -/
theorem branch {jump : Jump} (h : code.Has a (.branch jump)) (hj : jump.Leads a b) (hab : a < b)
    (p : Nat) : code.Moves a b p p := by
  have hwalk : ∀ m : Machine, m.next = a → m.Walk code b (.running { m with next := b }) := by
    intro m hn
    have hstep := step_branch hn h hj
    exact .step (.of_step hn h trivial hstep (by simp)) (by omega) hstep (by simp; omega)
      (.arrive rfl)
  exact ⟨Nat.le_of_lt hab, fun m hm hn _ => ⟨_, hwalk m hn,
    .running (hm.of_eq rfl rfl rfl rfl) rfl rfl, fun below outside => hwalk _ hn⟩⟩

/-- A branch that depends on the truth of the top value goes on with one of two blocks. -/
theorem fork {yes no : Nat} (h : code.Has a I) (hI : I.Indexed)
    (hstep : ∀ (m : Machine) (v : Value) (stack : List Value), m.next = a → m.stack = v :: stack →
      m.step code = .running { m with next := ((if v.isTrue then yes else no : Nat) : Int), stack })
    (hyes : a < yes) (hno : a < no) (hthen : code.Moves yes b p q) (helse : code.Moves no b p q) :
    code.Moves a b (p + 1) q := by
  refine ⟨Nat.le_trans (Nat.le_of_lt hyes) hthen.le, fun m hm hn hp => ?_⟩
  cases hs : m.stack with
  | nil => simp [hs] at hp
  | cons v stack =>
    obtain ⟨t, htarget, hlt, hmoves⟩ :
        ∃ t, (if v.isTrue then yes else no) = t ∧ a < t ∧ code.Moves t b p q := by
      cases v.isTrue with
      | true => exact ⟨yes, rfl, hyes, hthen⟩
      | false => exact ⟨no, rfl, hno, helse⟩
    have hm₁ : ({ m with next := t, stack } : Machine).Ready code := hm.of_eq rfl rfl rfl rfl
    have hp₁ : p ≤ stack.length := by
      rw [hs, List.length_cons] at hp
      omega
    obtain ⟨outcome, hw, hl, hover⟩ := hmoves.walk { m with next := t, stack } hm₁ rfl hp₁
    have hle := hmoves.le
    have first : ∀ (m₀ : Machine) (stack₀ : List Value) (o : Outcome), m₀.next = a →
        m₀.stack = v :: stack₀ → ({ m₀ with next := t, stack := stack₀ } : Machine).Walk code b o →
        m₀.Walk code b o := by
      intro m₀ stack₀ o hn₀ hs₀ hw₁
      have hstep₀ := hstep m₀ v stack₀ hn₀ hs₀
      rw [htarget] at hstep₀
      exact .step (.of_step hn₀ h hI hstep₀ (by simp)) (by omega) hstep₀ (by dsimp only; omega) hw₁
    refine ⟨outcome, first m stack outcome hn hs hw, ?_, ?_⟩
    · cases hl with
      | running hready hlen houter =>
        refine .running hready ?_ houter
        rw [hs, List.length_cons]
        simp only at hlen
        omega
      | trapped => exact .trapped
    · intro below outside
      have hs' : (m.raised below outside).stack = v :: (stack ++ below) := by
        simp only [raised, hs, List.cons_append]
      exact first _ (stack ++ below) _ hn hs' (hover below outside)

/-- Two ways that part at a branch on false meet again. -/
theorem branchFalse {target : Nat} {jump : Jump} (h : code.Has a (.branchFalse jump))
    (hj : jump.Leads a target) (hat : a < target) (hthen : code.Moves (a + 1) b p q)
    (helse : code.Moves target b p q) : code.Moves a b (p + 1) q :=
  fork h trivial (fun _ _ _ hn hs => step_branchFalse hn h hj hs) (Nat.lt_succ_self a) hat hthen
    helse

/-- So do two that part at a branch on true. -/
theorem branchTrue {target : Nat} {jump : Jump} (h : code.Has a (.branchTrue jump))
    (hj : jump.Leads a target) (hat : a < target) (hthen : code.Moves target b p q)
    (helse : code.Moves (a + 1) b p q) : code.Moves a b (p + 1) q :=
  fork h trivial (fun _ _ _ hn hs => step_branchTrue hn h hj hs) hat (Nat.lt_succ_self a) hthen
    helse

/-- Instructions in a row, of which each takes what lies on top. -/
theorem cons {rest : List Instruction} {p' : Nat} (h : code.Segment a (I :: rest))
    (he : code.Effect I p q) (n : Nat) (hp : p' = p + n)
    (hrest : code.Moves (a + 1) b (q + n) r) : code.Moves a b p' r := by
  subst hp
  exact ((of_effect h.1 he).beneath n).trans hrest

end Moves

end Code

/-! ### The code of operands -/

/-- An entry is in its table. -/
theorem Entry.lt {α : Type} {table : Array α} {id : UInt32} {entry : α}
    (h : Entry table id entry) : id.toNat < table.size := by
  obtain ⟨index, hget, rfl⟩ := h
  have hlt := (Array.getElem?_eq_some_iff.1 hget).1
  exact Nat.lt_of_le_of_lt (by simpa using Nat.mod_le index _) hlt

/-- The number of values that the address of a place has. -/
def Place.addressSize : Place → Nat
  | named .. => 0
  | field _ | argument => 1
  | element _ dims => dims.toNat + 1

/-- The number of values that an operand has. -/
def Operand.size : Operand → Nat
  | value _ => 1
  | address _ place => place.addressSize
  | values nodes | lastFirst nodes => nodes.length
  | fields entries => 2 * entries.length

namespace Code

variable {code : Code} {a b : Nat}

/-- What loads, stores and copies of the address use at a place. -/
structure PlaceEffect (code : Code) (place : Place) : Prop where
  /-- A load takes the address. -/
  load : code.Effect place.load place.addressSize 1
  /-- A store takes the address and a value. -/
  store : code.Effect place.store (place.addressSize + 1) 0
  /-- The address can be copied in one go. -/
  width : place.width.toNat = place.addressSize

/-- A variable has the effect of its place. -/
theorem Variable.placeEffect {name : String} {resolution : Resolution} {load store : Instruction}
    (h : code.Variable name resolution load store) : code.PlaceEffect (.named load store) := by
  cases h with
  | localVar _ hid => exact ⟨.pushLocal hid.lt, .popLocal hid.lt, rfl⟩
  | globalVar hid => exact ⟨.pushGlobal hid.lt, .popGlobal hid.lt, rfl⟩
  | builtinVariable hid => exact ⟨.pushBuiltin hid.lt, .popBuiltin hid.lt, rfl⟩
  | argumentArray hid => exact ⟨.pushBuiltin hid.lt, .popBuiltin hid.lt, rfl⟩
  | dynamic hid => exact ⟨.pushInstance hid.lt, .popInstance hid.lt, rfl⟩
  | argument index => exact ⟨.pushArgument index, .popArgument index, rfl⟩

/-- So has every address. -/
theorem Pushes.placeEffect {node : Node} {place : Place}
    (h : code.Pushes (.address node place) a b) : code.PlaceEffect place := by
  cases h with
  | name hv => exact hv.placeEffect
  | member _ hid => exact ⟨.pushField hid.lt, .popField hid.lt, rfl⟩
  | argument => exact ⟨.pushArgumentIndexed, .popArgumentIndexed, rfl⟩
  | @element _ _ _ _ _ accessor indices _ hn =>
    have hdims : (UInt8.ofNat indices.length).toNat = indices.length := by
      rw [UInt8.toNat_ofNat', Nat.mod_eq_of_lt]
      exact Nat.lt_of_le_of_lt hn.2 (by decide)
    refine ⟨.loadIndex accessor (by omega), .storeIndex accessor (by omega), ?_⟩
    change (UInt8.ofNat indices.length + 1).toNat = (UInt8.ofNat indices.length).toNat + 1
    rw [UInt8.toNat_add, hdims, Nat.mod_eq_of_lt]
    · rfl
    · exact Nat.lt_of_le_of_lt (Nat.succ_le_succ hn.2) (by decide)

/-- A binary operation takes two values and leaves one. -/
theorem effect_binary (operator : BinaryOp) : code.Effect operator.instruction 2 1 := by
  cases operator <;> first | exact .operation rfl | exact .cmp _

/-- A unary one takes one and leaves one. -/
theorem effect_unary (operator : UnaryOp) : code.Effect operator.instruction 1 1 := by
  cases operator
  · exact .not
  · exact .neg
  · exact .bitNot

/-- A step takes two and leaves one. -/
theorem effect_step (step : Step) : code.Effect step.instruction 2 1 := by
  cases step <;> exact .operation rfl

/-- A load that keeps the address. -/
theorem moves_keeping {place : Place} (hp : code.PlaceEffect place)
    (h : code.Segment a place.keeping) :
    code.Moves a (a + place.keeping.length) place.addressSize (place.addressSize + 1) := by
  unfold Place.keeping at h ⊢
  split at h
  · rw [if_pos ‹_›]
    have hdup : code.Effect (.dup place.width) place.addressSize
        (place.addressSize + place.addressSize) := by
      have : code.Effect (.dup place.width) _ _ := .dup place.width
      rwa [hp.width] at this
    refine (Moves.of_effect h.1 hdup).trans ?_
    have := (Moves.of_effect h.2.1 hp.load).beneath place.addressSize
    rwa [Nat.add_comm 1] at this
  next hwidth =>
    rw [if_neg hwidth]
    have hzero : place.addressSize = 0 := by
      rw [← hp.width, Decidable.not_not.1 hwidth]
      rfl
    have := Moves.of_effect h.1 hp.load
    rwa [hzero] at this ⊢

/-- A step by one that leaves a value. The address lies on the stack until the store, and the value
below it is kept in a local variable. -/
theorem moves_stepping {place : Place} {step : Step} {inFront : Bool} {kept : UInt32}
    (hp : code.PlaceEffect place)
    (hk : place.isNamed = false → kept.toNat < code.locals.size)
    (h : code.Segment a (place.stepping step inFront kept)) :
    code.Moves a (a + (place.stepping step inFront kept).length) place.addressSize 1 := by
  have hdup : code.Effect (.dup 1) 1 2 := .dup 1
  have hone : code.Effect step.instruction 2 1 := effect_step step
  have hint : code.Effect (.pushInt 1) 0 1 := .pushInt 1
  have hstore := hp.store
  unfold Place.stepping at h ⊢
  rw [segment_append] at h
  obtain ⟨hkeep, h⟩ := h
  rw [List.length_append, ← Nat.add_assoc]
  refine (moves_keeping hp hkeep).trans ?_
  generalize a + place.keeping.length = k at h ⊢
  obtain ⟨s, hs⟩ : ∃ s, place.addressSize = s := ⟨_, rfl⟩
  rw [hs] at hstore ⊢
  rcases place with ⟨load, store⟩ | name | ⟨accessor, dims⟩ | _ <;> cases inFront
  · cases hs
    exact .cons h hdup 0 rfl <| .cons h.2 hint 2 rfl <| .cons h.2.2 hone 1 rfl <|
      .cons h.2.2.2 hstore 1 rfl <| .refl _ _ _
  · cases hs
    exact .cons h hint 1 rfl <| .cons h.2 hone 0 rfl <| .cons h.2.2 hdup 0 rfl <|
      .cons h.2.2.2 hstore 1 rfl <| .refl _ _ _
  case field.false | element.false | argument.false =>
    have hpop : code.Effect (.popLocal kept) 1 0 := .popLocal (hk rfl)
    have hpush : code.Effect (.pushLocal kept) 0 1 := .pushLocal (hk rfl)
    exact .cons h hdup s (by omega) <| .cons h.2 hpop (s + 1) (by omega) <|
      .cons h.2.2 hint (s + 1) (by omega) <| .cons h.2.2.2 hone s (by omega) <|
      .cons h.2.2.2.2 hstore 0 (by omega) <| .cons h.2.2.2.2.2 hpush 0 rfl <| .refl _ _ _
  case field.true | element.true | argument.true =>
    have hpop : code.Effect (.popLocal kept) 1 0 := .popLocal (hk rfl)
    have hpush : code.Effect (.pushLocal kept) 0 1 := .pushLocal (hk rfl)
    exact .cons h hint (s + 1) (by omega) <| .cons h.2 hone s (by omega) <|
      .cons h.2.2 hdup s (by omega) <| .cons h.2.2.2 hpop (s + 1) (by omega) <|
      .cons h.2.2.2.2 hstore 0 (by omega) <| .cons h.2.2.2.2.2 hpush 0 rfl <| .refl _ _ _

/-- The code of an operand is a block that pushes its values. -/
theorem Pushes.moves {operand : Operand} (h : code.Pushes operand a b) :
    code.Moves a b 0 operand.size := by
  induction h with
  | int _ hI => exact .of_effect hI (.pushInt _)
  | largeInt _ hk hI => exact .of_effect hI (.pushReal hk.lt)
  | real hk hI => exact .of_effect hI (.pushReal hk.lt)
  | string hs hI => exact .of_effect hI (.pushString hs.lt)
  | intrinsic hI => exact .of_effect hI (.pushInt _)
  | userSymbol hI => exact .of_effect hI (.pushInt _)
  | function hs hI => exact .of_effect hI (.pushFunction hs.lt)
  | load hp hI ih => exact ih.trans (.of_effect hI hp.placeEffect.load)
  | binary _ _ hI ihl ihr =>
    exact ihl.trans <| (ihr.beneath 1).trans (.of_effect hI (effect_binary _))
  | and _ hb hshort _ hseg hdone ihl ihr =>
    have hle := ihr.le
    refine ihl.trans (.branchFalse hb hshort (by omega) ?_ (.of_effect hseg.2.2.2.1 (.pushInt 0)))
    exact ihr.trans <| (Moves.of_effect hseg.1 .not).trans <|
      (Moves.of_effect hseg.2.1 .not).trans (.branch hseg.2.2.1 hdone (by omega) 1)
  | or _ hb hshort _ hseg hdone ihl ihr =>
    have hle := ihr.le
    refine ihl.trans (.branchTrue hb hshort (by omega) (.of_effect hseg.2.2.2.1 (.pushInt 1)) ?_)
    exact ihr.trans <| (Moves.of_effect hseg.1 .not).trans <|
      (Moves.of_effect hseg.2.1 .not).trans (.branch hseg.2.2.1 hdone (by omega) 1)
  | xor _ hnot _ hseg ihl ihr =>
    exact ihl.trans <| (Moves.of_effect hnot .not).trans <| (ihr.beneath 1).trans <|
      .cons hseg .not 1 rfl <| .of_effect hseg.2.1 (.cmp _)
  | unary _ hI ih => exact ih.trans (.of_effect hI (effect_unary _))
  | conditional _ hb hthen _ hskip helse _ ihc iht ihe =>
    have hle := iht.le
    have hle' := ihe.le
    exact ihc.trans <| .branchFalse hb hthen (by omega)
      (iht.trans (.branch hskip helse (by omega) 1)) ihe
  | callFunction _ hlt hs hI ih =>
    exact ih.trans ((Moves.of_effect hI (.call _ hs.lt)).resize (UInt8.toNat_ofNat_of_lt' hlt) rfl)
  | callScript _ hlt hI ih =>
    exact ih.trans
      ((Moves.of_effect hI (.callScript _ _)).resize (UInt8.toNat_ofNat_of_lt' hlt) rfl)
  | callValue _ _ hlt _ hI ih ihv =>
    refine (ih.pushes ihv).trans ((Moves.of_effect hI (.callValue _)).resize ?_ rfl)
    rw [UInt8.toNat_ofNat_of_lt' hlt]
    rfl
  | update ha hk hseg ih =>
    refine ih.trans (moves_stepping ha.placeEffect (fun hn => ?_) hseg)
    obtain ⟨n, hkept⟩ := hk hn
    exact hkept.lt
  | struct _ hlt hI ih =>
    refine ih.trans ((Moves.of_effect hI (.newStruct _)).resize ?_ rfl)
    rw [UInt32.toNat_ofNat_of_lt' hlt]
    rfl
  | array _ hlt hI ih =>
    exact ih.trans ((Moves.of_effect hI (.newArray _)).resize (UInt32.toNat_ofNat_of_lt' hlt) rfl)
  | name => exact .refl code _ 0
  | member _ _ ih => exact ih
  | argument _ ih => exact ih
  | element _ hn _ _ ihc ihi =>
    refine (ihc.pushes ihi).resize rfl ?_
    have hdims := UInt8.toNat_ofNat_of_lt' (Nat.lt_of_le_of_lt hn.2 (by decide))
    simp only [Operand.size, Place.addressSize, hdims]
    omega
  | noValues => exact .refl code _ 0
  | moreValues _ _ ih ihs => exact (ih.pushes ihs).resize rfl (Nat.add_comm 1 _)
  | noLastFirst => exact .refl code _ 0
  | moreLastFirst _ _ ihs ih => exact ihs.pushes ih
  | noFields => exact .refl code _ 0
  | moreFields hs hI _ _ ih ihs =>
    refine (((Moves.of_effect hI (.pushString hs.lt)).pushes ih).pushes ihs).resize rfl ?_
    simp only [Operand.size, List.length_cons]
    omega

/-! ### The ends of assignments -/

/-- An operation on the value that was loaded and a new one, and a store of its result. -/
theorem moves_operate {place : Place} {operation : BinaryOp} (hp : code.PlaceEffect place)
    (h : code.Segment a [operation.instruction, place.store]) :
    code.Moves a (a + 2) (place.addressSize + 2) 0 :=
  .cons h (effect_binary operation) place.addressSize (by omega) <|
    .cons h.2 hp.store 0 (by omega) <| .refl code _ 0

/-- A step by one that leaves nothing. -/
theorem moves_step {place : Place} {step : Step} (hp : code.PlaceEffect place)
    (h : code.Segment a (place.keeping ++ [.pushInt 1, step.instruction, place.store])) :
    code.Moves a (a + place.keeping.length + 3) place.addressSize 0 := by
  obtain ⟨hkeep, h⟩ := segment_append.1 h
  refine (moves_keeping hp hkeep).trans ?_
  exact .cons h (.pushInt 1) (place.addressSize + 1) (by omega) <|
    .cons h.2 (effect_step step) place.addressSize (by omega) <|
    .cons h.2.2 hp.store 0 (by omega) <| .refl code _ 0

end Code

end Gml
