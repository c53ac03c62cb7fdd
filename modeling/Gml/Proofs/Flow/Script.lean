import Gml.Proofs.Code.Statement
import Gml.Proofs.Flow.Simulation
import Gml.Proofs.Tree.Resolved

/-!
# Runs of scripts

What the first run of a compiled script comes to, on any machine that has not run yet. The run does
what the structured execution of the script does (`run_agrees_with_execution`), whatever its values
it never goes wrong for want of something that the code should have provided
(`run_never_goes_wrong`), and at its end no instance is left to go back to, while the stack holds one
value for each `repeat` and `switch` around the `return` or `exit` that ended the script
(`depths_after_run`).
-/

namespace Gml

open Exec

namespace Machine

/-- A machine that has not run yet. It may have any instances, with any variables, besides the one
that it acts as. -/
structure Fresh (code : Code) (m : Machine) : Prop where
  /-- It stands at the first instruction. -/
  next : m.next = 0
  /-- Its stack is empty. -/
  stack : m.stack = []
  /-- There is no instance to go back to. -/
  outer : m.outer = []
  /-- There is a place for each local variable. -/
  locals : m.locals.size = code.locals.size
  /-- The instance that it acts as exists. -/
  current : m.instances.contains m.current = true

/-- After a number of steady steps the script is over: it has ended or trapped, or the machine stands
behind the last instruction. -/
inductive Ends (code : Code) (m : Machine) (n : Nat) : Except Trap Value → Machine → Prop
  | ended {v : Value} {F : Machine} : m.Passes code n (.ended v F) → Ends code m n (.ok v) F
  | trapped {t : Trap} {F : Machine} : m.Passes code n (.trapped t F) → Ends code m n (.error t) F
  | outside {F : Machine} : m.Passes code n (.running F) → F.next = code.size →
      Ends code m n (.ok .undefined) F

variable {code : Code} {m : Machine} {n : Nat}

/-- A machine is fresh in the beginning. -/
theorem fresh_start (code : Code) : (start code).Fresh code :=
  ⟨rfl, rfl, rfl, Array.size_replicate, rfl⟩

/-- It stays so with an instance more. -/
theorem Fresh.addInstance (h : m.Fresh code) (id : Int) : (m.addInstance id).Fresh code := by
  unfold Machine.addInstance
  split
  · exact h
  · refine ⟨h.next, h.stack, h.outer, h.locals, ?_⟩
    have hc := h.current
    unfold Table.contains at hc ⊢
    rw [Table.get?_insert]
    split
    · rfl
    · exact hc

/-- It stays so with a variable set. -/
theorem Fresh.setVariable (h : m.Fresh code) (name : String) (value : Value) :
    (m.setVariable name value).Fresh code := by
  unfold Machine.setVariable
  split
  · refine ⟨h.next, h.stack, h.outer, h.locals, ?_⟩
    have hc := h.current
    unfold Table.contains at hc ⊢
    rw [Table.get?_insert]
    split
    · rfl
    · exact hc
  · exact h

/-- It stands at the first instruction. -/
theorem Fresh.at (h : m.Fresh code) : m.At code 0 0 [] [] m := by
  have hplaced : m.placed 0 [] [] = m := by
    rw [← h.stack, ← h.outer, placed, show ((0 : Nat) : Int) = m.next from h.next.symm]
  refine ⟨?_, h.locals, h.current, by simp [placed]⟩
  rw [hplaced]
  exact .zero code m

/-! ### What steady steps tell -/

/-- A steady machine stands at an instruction. -/
theorem Steady.fetch (h : m.Steady code) :
    ∃ (site : Nat) (I : Instruction), m.next = site ∧ site < code.size ∧
      fetch? code m.next = some I ∧ I.Indexed := by
  obtain ⟨site, I, hn, hI, hi, -⟩ := h
  exact ⟨site, I, hn, hI.lt, hn ▸ fetch?_of_has hI, hi⟩

/-- A trap after steady steps is one that values are to blame for, and the machine stands behind the
instruction that trapped. -/
theorem Passes.trap {t : Trap} {F : Machine} (h : m.Passes code n (.trapped t F)) :
    ∃ (site : Nat) (I : Instruction), F.next = site + 1 ∧ code.Has site I ∧
      t.FromValues I.asksField := by
  induction n generalizing m with
  | zero => cases h.1
  | succ n ih =>
    cases hs : m.step code with
    | running m₁ =>
      refine ih ⟨(after_succ_of_running hs n).symm.trans h.1, fun k hk m' hm' => ?_⟩
      exact h.2 (k + 1) (by omega) m' ((after_succ_of_running hs k).trans hm')
    | ended v m₁ =>
      have := (after_succ_of_ended hs n).symm.trans h.1
      cases this
    | trapped u m₁ =>
      have heq := (after_succ_of_trapped hs n).symm.trans h.1
      cases heq
      obtain ⟨site, I, -, hI, -, htrap⟩ := h.2 0 (by omega) m rfl
      obtain ⟨ht, hn⟩ := htrap t F hs
      exact ⟨site, I, hn, hI, ht⟩

/-- Before its last step a script is at a steady state or already over. -/
theorem Passes.before {o : Outcome} (h : m.Passes code n o) {k : Nat} (hk : k < n) :
    (m.after code k = o ∧ ∀ m', o ≠ .running m') ∨
      ∃ F, m.after code k = .running F ∧ F.Steady code := by
  by_cases hr : ∃ F, m.after code k = .running F
  · obtain ⟨F, hF⟩ := hr
    exact .inr ⟨F, hF, h.2 k hk F hF⟩
  · have hover : ∀ m', m.after code k ≠ .running m' := fun m' hm' => hr ⟨m', hm'⟩
    obtain ⟨j, rfl⟩ := Nat.exists_eq_add_of_lt hk
    have hn := (after_add_of_over rfl hover (j + 1)).symm.trans h.1
    exact .inl ⟨hn, hn ▸ hover⟩

/-- A script that goes on has gone through steady states only. -/
theorem Passes.steady_before {F : Machine} (h : m.Passes code n (.running F)) {k : Nat}
    (hk : k < n) : ∃ F', m.after code k = .running F' ∧ F'.Steady code := by
  rcases h.before hk with ⟨-, hover⟩ | h
  · exact absurd rfl (hover F)
  · exact h

/-! ### Runs -/

/-- Nothing is fetched after the code. -/
theorem fetch?_of_size_le (h : (code.size : Int) ≤ m.next) : fetch? code m.next = none := by
  unfold fetch?
  split
  · exact Array.getElem?_eq_none (by unfold Code.size at h; omega)
  · rfl

/-- A run with time enough comes to the end of the script. -/
theorem Ends.run {result : Except Trap Value} {F : Machine} (h : m.Ends code n result F)
    {budget : Nat} (hn : n ≤ budget) (limit : Nat) :
    (runWithin code limit budget).on m = (result, F) := by
  cases h with
  | ended hp => exact runWithin_of_over hp.1 (by simp) hn limit
  | trapped hp => exact runWithin_of_over hp.1 (by simp) hn limit
  | outside hp hF =>
    exact runWithin_of_outside hp.1 (fetch?_of_size_le (Int.le_of_eq hF.symm)) hn limit

/-- A run that is at a steady state has no time left. -/
theorem Steady.run {F : Machine} {budget : Nat} (h : F.Steady code)
    (hF : m.after code budget = .running F) (limit : Nat) :
    (runWithin code limit budget).on m = (.error (.outOfTime limit), F) := by
  obtain ⟨site, I, -, -, hI, -⟩ := h.fetch
  exact runWithin_of_inside hF hI limit

/-- A run with less time than the steps take has come to their outcome before, or there is no time
left at a steady state. -/
theorem Passes.run_or {o : Outcome} {budget : Nat} (hp : m.Passes code n o) (hk : budget < n)
    (limit : Nat) :
    ((runWithin code limit budget).on m = o.result limit ∧ ∀ m', o ≠ .running m') ∨
      ∃ F', (runWithin code limit budget).on m = (.error (.outOfTime limit), F') ∧
        F'.Steady code := by
  rcases hp.before hk with ⟨ho, hover⟩ | ⟨F', hF', hs⟩
  · exact .inl ⟨runWithin_of_over ho hover (Nat.le_refl budget) limit, hover⟩
  · exact .inr ⟨F', hs.run hF' limit, hs⟩

/-- A run comes to the end of the script, or there is no time left at a steady state. -/
theorem Ends.run_or {result : Except Trap Value} {F : Machine} (h : m.Ends code n result F)
    (limit budget : Nat) : (runWithin code limit budget).on m = (result, F) ∨
      ∃ F', (runWithin code limit budget).on m = (.error (.outOfTime limit), F') ∧
        F'.Steady code := by
  by_cases hn : n ≤ budget
  · exact .inl (h.run hn limit)
  have hk : budget < n := Nat.lt_of_not_le hn
  cases h with
  | ended hp => exact (hp.run_or hk limit).imp_left And.left
  | trapped hp => exact (hp.run_or hk limit).imp_left And.left
  | outside hp =>
    rcases hp.run_or hk limit with ⟨-, hover⟩ | hrun
    · exact absurd rfl (hover F)
    · exact .inr hrun

end Machine

/-! ### The execution of a script -/

open Machine

/-- What a machine comes to beside the execution of a script: it takes as many steps as there are
rounds, or it comes to the end that the execution comes to. -/
inductive Code.Follows (code : Code) (m : Machine) (rounds : Nat) :
    Option (Except Trap Ending × Machine) → Prop
  | endless {F : Machine} : m.Passes code rounds (.running F) → Follows code m rounds none
  | finished {n : Nat} {result : Except Trap Ending} {m' F : Machine} :
      m.Ends code n (result.map Ending.result) F → F.world = m'.world → F.Inside code →
      (∀ ending, result = .ok ending → F.outer = [] ∧ F.stack.length = ending.left) →
      Follows code m rounds (some (result, m'))

/-- Every run of code that realizes the statements of a script follows the execution of their
flows. -/
theorem Code.Realizes.follows {code : Code} {body : List Node} {stop : Nat}
    (h : code.Realizes body stop) :
    ∃ flows, Node.HaveFlows code body flows ∧ ∀ m : Machine, m.Fresh code → ∀ rounds,
      code.Follows m rounds ((Flow.execAll code rounds flows).on m) := by
  obtain ⟨flows, hf, hs⟩ := h.performs.simulated
  refine ⟨flows, hf, fun m hm rounds => ?_⟩
  have ht := hs rounds m m 0 [] [] hm.at rfl rfl
  generalize (Flow.execAll code rounds flows).on m = r at ht
  cases ht with
  | endless hp => exact .endless hp
  | trapped hp hw =>
    obtain ⟨site, I, hn, hI, -⟩ := hp.trap
    exact .finished (.trapped hp) hw ⟨site + 1, hn, hI.lt⟩ (by rintro ending ⟨⟩)
  | ok _ harr =>
    cases harr with
    | done hat =>
      rcases h.ending with ⟨hsize, hexit⟩ | ⟨hsize, -⟩
      · exact .finished (.ended (hat.exit hexit)) rfl ⟨stop + 1, rfl, Nat.le_of_eq hsize.symm⟩
          (by rintro ending ⟨⟩; exact ⟨rfl, rfl⟩)
      · exact .finished (.outside hat.passes (congrArg Nat.cast hsize.symm)) rfl
          ⟨stop, rfl, Nat.le_of_eq hsize.symm⟩ (by rintro ending ⟨⟩; exact ⟨rfl, rfl⟩)
    | @returned _ _ K _ _ _ _ _ hp hi hst ho hw =>
      refine .finished (.ended hp) hw hi ?_
      rintro ending ⟨⟩
      exact ⟨ho, by rw [hst, List.append_nil]; rfl⟩

/-- A run comes to where the execution comes to, or there is no time left at a steady state. -/
theorem Code.Follows.run {code : Code} {m : Machine} {budget : Nat}
    {r : Option (Except Trap Ending × Machine)} (h : code.Follows m (budget + 1) r) (limit : Nat) :
    (∃ F, (runWithin code limit budget).on m = (.error (.outOfTime limit), F) ∧ F.Steady code) ∨
      ∃ n result m' F, r = some (result, m') ∧ m.Ends code n (result.map Ending.result) F ∧
        (runWithin code limit budget).on m = (result.map Ending.result, F) ∧ F.Inside code ∧
        ∀ ending, result = .ok ending → F.outer = [] ∧ F.stack.length = ending.left := by
  cases h with
  | endless hp =>
    obtain ⟨F, hF, hs⟩ := hp.steady_before (Nat.lt_succ_self budget)
    exact .inl ⟨F, hs.run hF limit, hs⟩
  | finished hends _ hi hdepths =>
    rcases hends.run_or limit budget with hrun | hrun
    · exact .inr ⟨_, _, _, _, rfl, hends, hrun, hi, hdepths⟩
    · exact .inl hrun

/-- Every run of a compiled script follows the execution of the script. -/
theorem compileToCode_follows {text : String} {context : Context} {code : Code}
    (h : compileToCode text context = .ok code) :
    ∃ script flows, Script.ofSource text context = .ok script ∧
      Node.HaveFlows code script.body flows ∧ ∀ m : Machine, m.Fresh code → ∀ rounds,
        code.Follows m rounds ((Flow.execAll code rounds flows).on m) := by
  obtain ⟨script, hscript, hgenerate⟩ := compileToCode_eq_ok h
  obtain ⟨stop, hrealizes⟩ := script.realizes (Script.regular_of_source hscript) hgenerate
  obtain ⟨flows, hf, hfollows⟩ := hrealizes.follows
  exact ⟨script, flows, hscript, hf, hfollows⟩

/-- The run of a compiled script does what the structured execution of its statements does. If the
execution comes to an end, so does every run with time enough, with the same result or trap, and the
machine is the same but for its place, its stack and the instances to go back to. If the execution
comes to no end, neither does the run. -/
theorem run_agrees_with_execution {text : String} {context : Context} {code : Code}
    (h : compileToCode text context = .ok code) :
    ∃ script flows, Script.ofSource text context = .ok script ∧
      Node.HaveFlows code script.body flows ∧ ∀ m : Machine, m.Fresh code →
        (∀ rounds result m', (Flow.execAll code rounds flows).on m = some (result, m') →
          ∃ n, ∀ limit budget, n ≤ budget → ∃ F,
            (runWithin code limit budget).on m = (result.map Ending.result, F) ∧
              F.world = m'.world) ∧
        ((∀ rounds, (Flow.execAll code rounds flows).on m = none) →
          ∀ limit budget, ∃ F,
            (runWithin code limit budget).on m = (.error (.outOfTime limit), F)) := by
  obtain ⟨script, flows, hscript, hf, hfollows⟩ := compileToCode_follows h
  refine ⟨script, flows, hscript, hf, fun m hm => ⟨fun rounds result m' hexec => ?_, ?_⟩⟩
  · have hr := hfollows m hm rounds
    rw [hexec] at hr
    cases hr with
    | finished hends hw => exact ⟨_, fun limit budget hn => ⟨_, hends.run hn limit, hw⟩⟩
  · intro hnone limit budget
    rcases (hfollows m hm (budget + 1)).run limit with ⟨F, hrun, -⟩ | ⟨_, _, _, _, hsome, -⟩
    · exact ⟨F, hrun⟩
    · cases (hnone _).symm.trans hsome

/-- Loops in instances in a loop. -/
theorem run_agrees_with_execution_nested : ∃ (code : Code) (script : Script) (flows : List Flow),
    compileToCode "for (i = 0; i < 3; i++) with (7, 0) if (i == 2) break; else repeat (i) continue;"
      {} = .ok code ∧
    Script.ofSource
      "for (i = 0; i < 3; i++) with (7, 0) if (i == 2) break; else repeat (i) continue;"
      {} = .ok script ∧ Node.HaveFlows code script.body flows ∧
    (∀ rounds result m',
      (Flow.execAll code rounds flows).on ((start code).addInstance 7) = some (result, m') →
      ∃ n, ∀ limit budget, n ≤ budget → ∃ F,
        (runWithin code limit budget).on ((start code).addInstance 7) =
          (result.map Ending.result, F) ∧ F.world = m'.world) ∧
    ((∀ rounds, (Flow.execAll code rounds flows).on ((start code).addInstance 7) = none) →
      ∀ limit budget, ∃ F, (runWithin code limit budget).on ((start code).addInstance 7) =
        (.error (.outOfTime limit), F)) := by
  obtain ⟨code, h, -⟩ := exists_ok_of_any (p := fun _ => true) (x := compileToCode
    "for (i = 0; i < 3; i++) with (7, 0) if (i == 2) break; else repeat (i) continue;" {})
    (by decide +kernel)
  obtain ⟨script, flows, hscript, hf, hruns⟩ := run_agrees_with_execution h
  exact ⟨code, script, flows, h, hscript, hf, hruns _ ((fresh_start code).addInstance 7)⟩

/-- The traps that the code of a script would be to blame for. -/
def Trap.isStructural : Trap → Bool
  | stackUnderflow | environmentUnderflow | noString _ | noConstant _ | noLocal _ | unpatched _
  | noIndex | notOperation _ => true
  | _ => false

/-- A trap that comes from values is not one of structure. -/
theorem Trap.FromValues.not_structural {t : Trap} {fields : Bool} (h : t.FromValues fields) :
    t.isStructural = false := by
  cases t <;> first | rfl | exact h.elim

/-- However far the run of a compiled script gets, the machine is within the code or at its end, the
instruction to come has the indices that it needs, and if an instruction has trapped it is not for
want of something that the code should have provided; an instance may only be missing where a field
of it is asked for. -/
theorem run_never_goes_wrong {text : String} {context : Context} {code : Code} {m F : Machine}
    {limit budget : Nat} {result : Except Trap Value}
    (h : compileToCode text context = .ok code) (hm : m.Fresh code)
    (hrun : (runWithin code limit budget).on m = (result, F)) :
    0 ≤ F.next ∧ F.next ≤ code.size ∧
      (∀ t, result = .error t → t.isStructural = false ∧ ∀ id, t = .noInstance id →
        ∃ I, fetch? code (F.next - 1) = some I ∧ I.asksField = true) ∧
      (result = .error (.outOfTime limit) → ∃ I, fetch? code F.next = some I ∧ I.Indexed) := by
  obtain ⟨script, flows, -, -, hfollows⟩ := compileToCode_follows h
  rcases (hfollows m hm (budget + 1)).run limit with
    ⟨F', hrun', hs⟩ | ⟨n, outcome, m', F', -, hends, hrun', ⟨site, hn, hle⟩, -⟩
  · cases hrun.symm.trans hrun'
    obtain ⟨site, I, hn, hlt, hI, hi⟩ := hs.fetch
    exact ⟨by omega, by omega, by rintro t ⟨⟩; exact ⟨rfl, by rintro id ⟨⟩⟩, fun _ => ⟨I, hI, hi⟩⟩
  · cases hrun.symm.trans hrun'
    have htraps : ∀ t, outcome.map Ending.result = .error t → ∃ (site : Nat) (I : Instruction),
        F.next = site + 1 ∧ code.Has site I ∧ t.FromValues I.asksField := by
      intro t ht
      rw [ht] at hends
      cases hends with
      | trapped hp => exact hp.trap
    refine ⟨by omega, by omega, fun t ht => ?_, fun ht => ?_⟩
    · obtain ⟨site, I, hsite, hI, hvalues⟩ := htraps t ht
      refine ⟨hvalues.not_structural, ?_⟩
      rintro id rfl
      rw [hsite, Int.add_sub_cancel]
      exact ⟨I, fetch?_of_has hI, hvalues⟩
    · obtain ⟨site, I, -, -, hvalues⟩ := htraps _ ht
      exact hvalues.elim

/-- A script that looks for an instance that is not there. -/
theorem run_never_goes_wrong_missing : ∃ (code : Code) (result : Except Trap Value) (F : Machine),
    compileToCode "repeat (3) with (target) hp = target.hp;" {} = .ok code ∧
    (runWithin code 9 9).on ((start code).setVariable "target" (.real 7)) = (result, F) ∧
    0 ≤ F.next ∧ F.next ≤ code.size ∧ ∀ t, result = .error t → t.isStructural = false := by
  obtain ⟨code, h, -⟩ := exists_ok_of_any (p := fun _ => true)
    (x := compileToCode "repeat (3) with (target) hp = target.hp;" {}) (by decide +kernel)
  have hm := (fresh_start code).setVariable "target" (.real 7)
  rcases hrun : (runWithin code 9 9).on ((start code).setVariable "target" (.real 7))
    with ⟨result, F⟩
  obtain ⟨hlow, hhigh, htraps, -⟩ := run_never_goes_wrong h hm hrun
  exact ⟨code, result, F, h, hrun, hlow, hhigh, fun t ht => (htraps t ht).1⟩

/-- At the end of a script there is no instance to go back to, and the stack holds a value for each
`repeat` and `switch` around the `return` or `exit` that has ended it. -/
theorem depths_after_run {text : String} {context : Context} {code : Code}
    (h : compileToCode text context = .ok code) :
    ∃ script flows, Script.ofSource text context = .ok script ∧
      Node.HaveFlows code script.body flows ∧ ∀ m : Machine, m.Fresh code →
        ∀ limit budget v F, (runWithin code limit budget).on m = (.ok v, F) →
          F.outer = [] ∧ ∃ rounds ending m',
            (Flow.execAll code rounds flows).on m = some (.ok ending, m') ∧
              F.stack.length = ending.left := by
  obtain ⟨script, flows, hscript, hf, hfollows⟩ := compileToCode_follows h
  refine ⟨script, flows, hscript, hf, fun m hm limit budget v F hrun => ?_⟩
  rcases (hfollows m hm (budget + 1)).run limit with
    ⟨F', hrun', -⟩ | ⟨n, result, m', F', hexec, -, hrun', -, hdepths⟩
  · cases hrun.symm.trans hrun'
  · have heq := hrun.symm.trans hrun'
    cases result with
    | error t => cases heq
    | ok ending =>
      cases heq
      obtain ⟨houter, hleft⟩ := hdepths ending rfl
      exact ⟨houter, budget + 1, ending, m', hexec, hleft⟩

/-- A script that returns out of a loop in an instance. -/
theorem depths_after_run_nested : ∃ (code : Code) (script : Script) (flows : List Flow),
    compileToCode "with (0) repeat (2) return 5;" {} = .ok code ∧
    Script.ofSource "with (0) repeat (2) return 5;" {} = .ok script ∧
    Node.HaveFlows code script.body flows ∧
    ∀ v F, (start code).run code = (.ok v, F) → F.outer = [] ∧ ∃ rounds ending m',
      (Flow.execAll code rounds flows).on (start code) = some (.ok ending, m') ∧
        F.stack.length = ending.left := by
  obtain ⟨code, h, -⟩ := exists_ok_of_any (p := fun _ => true)
    (x := compileToCode "with (0) repeat (2) return 5;" {}) (by decide +kernel)
  obtain ⟨script, flows, hscript, hf, hdepths⟩ := depths_after_run h
  exact ⟨code, script, flows, h, hscript, hf,
    fun v F => hdepths _ (fresh_start code) limit limit v F⟩

/-- The counter of a `repeat` stays on the stack when the script ends inside of it. -/
theorem return_leaves_counter :
    ((compileToCode "repeat (2) return 1;" {}).toOption.map fun code =>
      let (result, m) := (start code).run code
      (result.isOk, m.stack.length, m.outer.length)) = some (true, 1, 0) := by
  decide +kernel

end Gml
