import Gml.Proofs.Code.Landing
import Gml.Proofs.Evaluation.Agreement
import Gml.Proofs.Evaluation.Folding
import Gml.Proofs.Flow.Script

/-!
# Folding agrees with running

A script that returns a constant expression, compiled and run, returns the value that folding gives
(`run_returns_folded`). Compilation of such a script always succeeds: the names are truth values
(`Node.resolve_tagged`), and nothing in the code can be too large (`Node.succeeds_expression`). The
code only goes forward, so a run takes no more steps than there are instructions
(`Machine.Walk.ends_within`).
-/

namespace Gml

open Exec

/-! ### Names -/

/-- A sequence goes on after its first action. -/
theorem Resolve.run_bind_of_ok {α β : Type} {x : Resolve α} {f : α → Resolve β} {a : α}
    {scope scope' : Scope} (h : x.run scope = .ok (a, scope')) :
    (x >>= f).run scope = (f a).run scope' := by
  rw [StateT.run_bind, h]
  rfl

namespace Node

open Resolve

/-- Looking up the names of an operation finds its truth values. -/
theorem resolve_tagged (context : Context) (scope : Scope) (hlocals : scope.locals = []) :
    ∀ (node : Node) (site : Site), node.isOperation = true →
      (node.resolve context site).run scope = .ok (node.tagged, scope)
  | .int p value, _, _ => rfl
  | .ident p name resolution, site, hop => by
    have hresolution : scope.resolution context name = .intrinsic ((intrinsic? name).getD 0) := by
      unfold Scope.resolution
      rw [hlocals]
      obtain rfl | rfl : name = "true" ∨ name = "false" := by simpa [isOperation] using hop
      · rfl
      · rfl
    change Except.ok (Node.ident p name (scope.resolution context name), scope) = _
    rw [hresolution]
    rfl
  | .unary p operator operand, _, hop =>
    run_bind_of_ok (resolve_tagged context scope hlocals operand .expression hop)
  | .binary p operator lhs rhs, _, hop | .logical p operator lhs rhs, _, hop =>
    have ⟨hopl, hopr⟩ := Bool.and_eq_true_iff.1 hop
    (run_bind_of_ok (resolve_tagged context scope hlocals lhs .expression hopl)).trans
      (run_bind_of_ok (resolve_tagged context scope hlocals rhs .expression hopr))
  | .conditional p condition thenValue elseValue, _, hop =>
    have ⟨hop, hope⟩ := Bool.and_eq_true_iff.1 hop
    have ⟨hopc, hopt⟩ := Bool.and_eq_true_iff.1 hop
    (run_bind_of_ok (resolve_tagged context scope hlocals condition .expression hopc)).trans <|
      (run_bind_of_ok (resolve_tagged context scope hlocals thenValue .expression hopt)).trans <|
        run_bind_of_ok (resolve_tagged context scope hlocals elseValue .expression hope)
termination_by structural node => node

end Node

/-! ### Code -/

/-- Code is written without local variables and strings, and with so many constants at most. -/
structure Generator.Fills (g g' : Generator) (n : Nat) : Prop where
  strings : g'.code.strings = g.code.strings
  locals : g'.code.locals = g.code.locals
  constants : g'.code.constants.size ≤ g.code.constants.size + n

namespace Generate

open Generator

variable {α β : Type} {kinds : List FrameKind} {n m : Nat} {g : Generator} {R : List Nat}
  {P Q : α → Generator → Prop}

/-- As long as the code is not too long, an action succeeds, writes so many instructions and ends in
a state of which something is known. -/
def Succeeds (n : Nat) (x : Generate α) (g : Generator) (Q : α → Generator → Prop) : Prop :=
  g.code.size + n < maxCodeSize →
    ∃ a g', Gives x g a g' ∧ g'.code.size = g.code.size + n ∧ g.Fills g' n ∧ Q a g'

/-- A sequence succeeds if both actions do. -/
theorem Succeeds.bind {x : Generate α} {f : α → Generate β} {S : β → Generator → Prop}
    (hx : Succeeds n x g P) (hf : ∀ a g', P a g' → Succeeds m (f a) g' S) :
    Succeeds (n + m) (x >>= f) g S := by
  intro hbound
  obtain ⟨a, g₁, hgives, hsize, hfills, hP⟩ := hx (by omega)
  obtain ⟨b, g₂, hgives', hsize', hfills', hS⟩ := hf a g₁ hP (by omega)
  refine ⟨b, g₂, gives_bind.2 ⟨a, g₁, hgives, hgives'⟩, by omega, ⟨?_, ?_, ?_⟩, hS⟩
  · rw [hfills'.strings, hfills.strings]
  · rw [hfills'.locals, hfills.locals]
  · have := hfills.constants
    have := hfills'.constants
    omega

/-- The number of instructions may be written in another way. -/
theorem Succeeds.of_eq {x : Generate α} (h : Succeeds n x g Q) (hn : n = m) : Succeeds m x g Q :=
  hn ▸ h

/-- An instruction can be written. -/
theorem succeeds_write (I : Instruction) (hI : I.jump? = none) (h : g.InOrder kinds R) :
    Succeeds 1 (write I) g fun _ g' => g'.InOrder kinds R := fun _ =>
  ⟨(), _, rfl, size_push g.code I, ⟨rfl, rfl, Nat.le_succ _⟩, h.push hI⟩

/-- A branch can wait. -/
theorem succeeds_emit (I : Instruction) (hI : I.jump? = some .pending) (h : g.InOrder kinds R) :
    Succeeds 1 (emit I) g fun site g' => g'.InOrder kinds (site :: R) := fun _ =>
  ⟨_, _, rfl, size_push g.code I, ⟨rfl, rfl, Nat.le_succ _⟩, h.push_pending hI⟩

/-- It can be pointed to what comes next. -/
theorem succeeds_patchHere {site : Nat} (p : Position) (h : g.InOrder kinds (site :: R)) :
    Succeeds 0 (patchHere site p) g fun _ g' => g'.InOrder kinds R := by
  intro hbound
  obtain ⟨code, hrun⟩ := exists_patched p (Nat.le_refl g.code.size) h hbound
  have hgives : Gives (patchHere site p) g () { g with code } := hrun
  obtain ⟨d, I, J, -, -, -, heq⟩ := gives_patch hrun
  have hruns : Runs .none 0 (patchHere site p) g fun _ g' => g'.InOrder kinds R :=
    runs_patchHere nofun h
  obtain ⟨hsize, horder⟩ := hruns.gives () _ hgives
  refine ⟨(), _, hgives, hsize, ?_, horder⟩
  rw [heq]
  exact ⟨rfl, rfl, Nat.le_refl _⟩

/-- A value can be given. -/
theorem succeeds_pure {a : α} (h : Q a g) : Succeeds 0 (pure a) g Q := fun _ =>
  ⟨a, g, rfl, rfl, ⟨rfl, rfl, Nat.le_refl _⟩, h⟩

/-- A statement can be marked. -/
theorem succeeds_mark (p : Position) (h : g.InOrder kinds R) :
    Succeeds 0 (mark p) g fun _ g' => g'.InOrder kinds R := by
  intro _
  refine ⟨(), _, rfl, congrArg Array.size (instructions_mark g.code p), ?_, h.mark p⟩
  dsimp only
  rw [Code.mark_eq]
  exact ⟨rfl, rfl, Nat.le_refl _⟩

/-- There is no instance to leave. -/
theorem succeeds_leaveInstances (h : g.InOrder [] R) :
    Succeeds 0 leaveInstances g fun _ g' => g'.InOrder [] R := by
  intro _
  refine ⟨(), g, ?_, rfl, ⟨rfl, rfl, Nat.le_refl _⟩, h⟩
  have hframes : g.frames = [] := List.map_eq_nil_iff.1 h.kinds
  change ((g.frames.forM _ : Generate Unit).run g) = _
  rw [hframes]
  rfl

/-- A table gets one entry more at most. -/
theorem size_intern_le (constants : Array Double) (c : Double) :
    (intern constants c).2.size ≤ constants.size + 1 := by
  unfold intern
  split
  · exact Nat.le_succ _
  · exact Nat.le_of_eq (Array.size_push c)

/-- A constant and the instruction that pushes it. -/
theorem succeeds_constant (c : Double) (h : g.InOrder kinds R) :
    Succeeds 1 (do write (.pushReal (← constant c))) g fun _ g' => g'.InOrder kinds R := by
  intro _
  have hadds : Adds .none kinds 0 (constant c) := adds_constant c
  have horder := ((hadds g R h).gives _ _ rfl).2
  exact ⟨(), _, rfl, size_push _ _, ⟨rfl, rfl, size_intern_le g.code.constants c⟩, horder.push rfl⟩

/-- A connective can be written. -/
theorem succeeds_shortCircuit {test : Instruction} {decided : Int32} {p : Position}
    {lhs rhs : Generate Unit} (htest : test.jump? = some .pending)
    (hlhs : ∀ g R, g.InOrder kinds R → Succeeds n lhs g fun _ g' => g'.InOrder kinds R)
    (hrhs : ∀ g R, g.InOrder kinds R → Succeeds m rhs g fun _ g' => g'.InOrder kinds R)
    (h : g.InOrder kinds R) :
    Succeeds (n + m + 5) (shortCircuit test decided p lhs rhs) g fun _ g' => g'.InOrder kinds R :=
  Succeeds.of_eq (Succeeds.bind (hlhs g R h) fun _ g₁ h₁ =>
    Succeeds.bind (succeeds_emit _ htest h₁) fun short g₂ h₂ =>
    Succeeds.bind (hrhs g₂ _ h₂) fun _ g₃ h₃ =>
    Succeeds.bind (succeeds_write _ rfl h₃) fun _ g₄ h₄ =>
    Succeeds.bind (succeeds_write _ rfl h₄) fun _ g₅ h₅ =>
    Succeeds.bind (succeeds_emit _ rfl h₅) fun done g₆ h₆ =>
    Succeeds.bind (succeeds_patchHere p (h₆.perm (.swap _ _ _))) fun _ g₇ h₇ =>
    Succeeds.bind (succeeds_write _ rfl h₇) fun _ g₈ h₈ => succeeds_patchHere p h₈) (by omega)

end Generate

namespace Node

open Generate Generator

/-- Code for an operation can always be written. -/
theorem succeeds_expression {kinds : List FrameKind} : ∀ (node : Node), node.isOperation = true →
    ∀ (g : Generator) (R : List Nat), g.InOrder kinds R →
      Succeeds node.expressionSize node.tagged.expression g fun _ g' => g'.InOrder kinds R
  | .int p value, _, g, R, h => by
    change Succeeds 1 (Node.int p value).expression g _
    rw [expression_int]
    split
    · exact succeeds_write _ rfl h
    · exact succeeds_constant _ h
  | .ident p name resolution, _, g, R, h => succeeds_write _ rfl h
  | .unary p operator operand, hop, g, R, h =>
    Succeeds.bind (succeeds_expression operand hop g R h) fun _ g₁ h₁ =>
      succeeds_write _ (jump?_unary operator) h₁
  | .binary p operator lhs rhs, hop, g, R, h =>
    have ⟨hopl, hopr⟩ := Bool.and_eq_true_iff.1 hop
    Succeeds.of_eq (Succeeds.bind (succeeds_expression lhs hopl g R h) fun _ g₁ h₁ =>
      Succeeds.bind (succeeds_expression rhs hopr g₁ R h₁) fun _ g₂ h₂ =>
        succeeds_write _ (jump?_binary operator) h₂) (Nat.add_assoc _ _ _).symm
  | .logical p .and lhs rhs, hop, g, R, h | .logical p .or lhs rhs, hop, g, R, h =>
    have ⟨hopl, hopr⟩ := Bool.and_eq_true_iff.1 hop
    succeeds_shortCircuit rfl (succeeds_expression lhs hopl) (succeeds_expression rhs hopr) h
  | .logical p .xor lhs rhs, hop, g, R, h =>
    have ⟨hopl, hopr⟩ := Bool.and_eq_true_iff.1 hop
    Succeeds.of_eq (Succeeds.bind (succeeds_expression lhs hopl g R h) fun _ g₁ h₁ =>
      Succeeds.bind (succeeds_write _ rfl h₁) fun _ g₂ h₂ =>
      Succeeds.bind (succeeds_expression rhs hopr g₂ R h₂) fun _ g₃ h₃ =>
      Succeeds.bind (succeeds_write _ rfl h₃) fun _ g₄ h₄ => succeeds_write _ rfl h₄)
      (by simp only [expressionSize]; omega)
  | .conditional p condition thenValue elseValue, hop, g, R, h =>
    have ⟨hop, hope⟩ := Bool.and_eq_true_iff.1 hop
    have ⟨hopc, hopt⟩ := Bool.and_eq_true_iff.1 hop
    Succeeds.of_eq (Succeeds.bind (succeeds_expression condition hopc g R h) fun _ g₁ h₁ =>
      Succeeds.bind (succeeds_emit _ rfl h₁) fun skipThen g₂ h₂ =>
      Succeeds.bind (succeeds_expression thenValue hopt g₂ _ h₂) fun _ g₃ h₃ =>
      Succeeds.bind (succeeds_emit _ rfl h₃) fun skipElse g₄ h₄ =>
      Succeeds.bind (succeeds_patchHere p (h₄.perm (.swap _ _ _))) fun _ g₅ h₅ =>
      Succeeds.bind (succeeds_expression elseValue hope g₅ _ h₅) fun _ g₆ h₆ =>
        succeeds_patchHere p h₆)
      (by simp only [expressionSize]; omega)
termination_by structural node => node

end Node

namespace Script

open Generate Generator

/-- Only the names of the expression are looked up. -/
theorem resolve_returning (context : Context) {p : Position} {node : Node}
    (hop : node.isOperation = true) :
    Script.resolve context ⟨[.returning p (some node)]⟩ =
      .ok ⟨[.returning p (some node.tagged)]⟩ := by
  have hnode := Node.resolve_tagged context { enums := context.enums } rfl node .expression hop
  have hreturning : (Node.resolve context .statement (.returning p (some node))).run
      { enums := context.enums } =
      .ok (.returning p (some node.tagged), { enums := context.enums }) :=
    Resolve.run_bind_of_ok (Resolve.run_bind_of_ok hnode)
  have hall : (Node.resolveAll context .statement [.returning p (some node)]).run
      { enums := context.enums } =
      .ok ([.returning p (some node.tagged)], { enums := context.enums }) :=
    Resolve.run_bind_of_ok hreturning
  have hbody : (declareEnums [.returning p (some node)] >>= fun _ =>
      Node.resolveAll context .statement [.returning p (some node)]).run { enums := context.enums } =
      .ok ([.returning p (some node.tagged)], { enums := context.enums }) :=
    (Resolve.run_bind_of_ok (a := ()) rfl).trans hall
  unfold Script.resolve
  dsimp only
  rw [hbody]
  rfl

/-- The code of a script that returns an operation. Its tables can be addressed. -/
theorem generate_returning {p : Position} {node : Node} (hop : node.isOperation = true)
    (hsize : node.expressionSize + 1 < maxCodeSize) :
    ∃ code, Script.generate ⟨[.returning p (some node.tagged)]⟩ = .ok code ∧ code.Addressable ∧
      code.size ≤ node.expressionSize + 2 := by
  have hbody : Succeeds (0 + (node.expressionSize + (0 + 1)) + 0)
      (Node.statements [.returning p (some node.tagged)]) {} fun _ g => g.InOrder [] [] :=
    Succeeds.bind (Succeeds.bind (succeeds_mark p inOrder_start) fun _ g₁ h₁ =>
      Succeeds.bind (node.succeeds_expression hop g₁ [] h₁) fun _ g₂ h₂ =>
      Succeeds.bind (succeeds_leaveInstances h₂) fun _ g₃ h₃ => succeeds_write .ret rfl h₃)
      fun _ g₄ h₄ => succeeds_pure h₄
  obtain ⟨⟨⟩, g, hgives, hwritten, hfills, -⟩ := hbody (by change 0 + _ < _; omega)
  change g.code.size = 0 + _ at hwritten
  refine ⟨_, (generate_of_gives hgives).2, ?_⟩
  have hconstants : g.code.constants.size ≤ UInt32.size := by
    have := hfills.constants
    change _ ≤ 0 + _ at this
    change _ ≤ 4294967296
    unfold maxCodeSize at hsize
    omega
  have hA : g.code.Addressable :=
    ⟨by rw [hfills.strings]; decide, hconstants, by rw [hfills.locals]; decide⟩
  split
  · exact ⟨hA, by omega⟩
  · exact ⟨⟨hA.strings, hA.constants, hA.locals⟩, by rw [size_push]; omega⟩

end Script

/-! ### Runs -/

namespace Machine

variable {code : Code} {m F : Machine} {outcome : Outcome} {v : Value} {b k : Nat}

/-- A walk takes at most as many steps as there are instructions on its way. -/
theorem Walk.steps_le (h : m.Walk code b outcome) :
    ∃ n : Nat, n ≤ b - m.next ∧ m.after code n = outcome := by
  induction h with
  | arrive hnext => exact ⟨0, by omega, rfl⟩
  | step _ _ hstep _ _ ih =>
    obtain ⟨n, hn, hafter⟩ := ih
    exact ⟨n + 1, by omega, (after_succ_of_running hstep n).trans hafter⟩
  | trap _ _ hstep => exact ⟨1, by omega, after_succ_of_trapped hstep 0⟩

/-- A script that is over does not depend on the number of steps. -/
theorem over_unique {n : Nat} {o o' : Outcome} (h : m.after code n = o) (h' : m.after code k = o')
    (ho : ∀ m', o ≠ .running m') (ho' : ∀ m', o' ≠ .running m') : o = o' := by
  have hn := after_add_of_over h ho k
  have hk := after_add_of_over h' ho' n
  rw [Nat.add_comm] at hk
  exact hn.symm.trans hk

/-- A value is returned. -/
theorem step_ret {S : List Value} (hI : code.Has b .ret) (hnext : m.next = b)
    (hstack : m.stack = v :: S) :
    m.step code = .ended v { m with next := b + 1, stack := S } := by
  rw [step_of_has hnext hI]
  unfold execute
  simp only [pop, on_bind, on_get, thenOn_ok, hstack, on_modify, on_pure]
  rfl

/-- After that the machine does not run. -/
theorem not_running_of_ret (hI : code.Has b .ret) (hnext : m.next = b) (m' : Machine) :
    m.step code ≠ .running m' := by
  cases hstack : m.stack with
  | nil =>
    rw [step_of_has hnext hI]
    unfold execute
    simp only [pop, on_bind, on_get, thenOn_ok, hstack, on_throw, thenOn_error]
    intro h
    cases h
  | cons v S =>
    rw [step_ret hI hnext hstack]
    intro h
    cases h

/-- A script that walks to its return ends by then, if it ends at all. -/
theorem Walk.ends_within (h : m.Walk code b outcome) (hI : code.Has b .ret) (hnext : m.next = 0)
    (hend : m.after code k = .ended v F) : m.after code (b + 1) = .ended v F := by
  obtain ⟨n, hn, hafter⟩ := h.steps_le
  have hn : n ≤ b := by omega
  have hover : ∃ j, j ≤ b + 1 ∧ ∀ m', m.after code j ≠ .running m' := by
    by_cases hrunning : ∃ m', outcome = .running m'
    · obtain ⟨m', rfl⟩ := hrunning
      refine ⟨n + 1, by omega, fun m'' => ?_⟩
      rw [after_add hafter]
      intro hafter'
      cases hstep : m'.step code with
      | running m₁ => exact not_running_of_ret hI h.next_eq m₁ hstep
      | ended w m₁ => rw [after_succ_of_ended hstep] at hafter'; cases hafter'
      | trapped t m₁ => rw [after_succ_of_trapped hstep] at hafter'; cases hafter'
    · exact ⟨n, by omega, fun m' hm' => hrunning ⟨m', hafter.symm.trans hm'⟩⟩
  obtain ⟨j, hj, hover⟩ := hover
  have heq := over_unique rfl hend hover nofun
  obtain ⟨i, hi⟩ := Nat.exists_eq_add_of_le hj
  rw [hi]
  exact after_add_of_over heq nofun i

end Machine

/-- The expression that a script returns, if that is all that it does. -/
def Script.returned? (script : Script) : Option Node :=
  if script.body.length = 1 then script.body.head?.bind Node.returned? else none

/-- A script that returns something has one statement. -/
theorem Script.eq_of_returned {script : Script} {node : Node} (h : script.returned? = some node) :
    ∃ p, script = ⟨[.returning p (some node)]⟩ := by
  obtain ⟨body⟩ := script
  obtain ⟨hlength, h⟩ := Option.ite_none_right_eq_some.1 h
  obtain ⟨statement, rfl⟩ := List.length_eq_one_iff.1 hlength
  obtain ⟨p, rfl⟩ := Node.eq_returning h
  exact ⟨p, rfl⟩

/-- The number that a value is. -/
def Value.number? : Value → Option Float
  | real number => some number
  | _ => none

/-- A script that returns a value pushes it, returns, and has nothing after that but its end. -/
theorem Code.Realizes.returning {code : Code} {p : Position} {node : Node} {stop : Nat}
    (h : code.Realizes [.returning p (some node)] stop) :
    ∃ k, code.Pushes (.value node) 0 k ∧ code.Has k .ret ∧ code.size = k + 2 := by
  have hperforms := h.performs
  generalize hL : [] = L at hperforms
  cases hperforms with
  | sequence hone hrest =>
    cases hrest with
    | nothing =>
      cases hone with
      | basic hacts => cases hacts
      | @returnValue _ _ k _ _ hvalue hsegment =>
        subst hL
        obtain ⟨hret, -⟩ := hsegment
        refine ⟨k, hvalue.pushes, hret, ?_⟩
        rcases h.ending with ⟨hsize, -⟩ | ⟨-, hexit⟩
        · exact hsize
        · cases hret.symm.trans hexit

/-- Folding agrees with running. A text that reads as the return of an operation compiles, and a run
of the code on any machine that has not run yet returns the value that folding gives, if every
expression that is evaluated on the way has a value that a machine number can be, and those whose
truth is asked for are not negative. The expression must have fewer instructions than a run may
take. -/
theorem run_returns_folded {text : String} {context : Context} {p : Position} {node : Node}
    {enums : Enums} {v : Int64}
    (hparse : Script.parse text context.versionTier = .ok ⟨[.returning p (some node)]⟩)
    (hop : node.isOperation = true) (hv : node.constant? { enums } = some v)
    (hexact : Node.Values enums (node.evaluated { enums }) Exact)
    (htested : Node.Values enums (node.tested { enums }) (0 ≤ ·))
    (hsize : node.expressionSize < Machine.limit) :
    ∃ code, compileToCode text context = .ok code ∧ ∀ m : Machine, m.Fresh code →
      ∃ x F, m.run code = (.ok (.real x), F) ∧ (x == Float.ofInt v.toInt) = true := by
  have hlimit : Machine.limit = 100000 := rfl
  obtain ⟨code, hgenerate, hA, hcode⟩ := Script.generate_returning (p := p) hop
    (by unfold maxCodeSize; omega)
  have hsource : Script.ofSource text context = .ok ⟨[.returning p (some node.tagged)]⟩ := by
    rw [Script.ofSource, hparse]
    exact Script.resolve_returning context hop
  have hcompile : compileToCode text context = .ok code := by
    unfold compileToCode
    rw [hparse]
    change (Script.resolve context _ >>= Script.generate) = _
    rw [Script.resolve_returning context hop]
    exact hgenerate
  refine ⟨code, hcompile, fun m hm => ?_⟩
  obtain ⟨stop, hrealizes⟩ := Script.realizes (Script.regular_of_source hsource) hgenerate
  obtain ⟨k, hpushes, hret, hk⟩ := hrealizes.returning
  obtain ⟨x, hx, his⟩ := node.folding_agrees code.locals hop hv hexact htested
  have hagrees := hpushes.computed hA hrealizes.nodup m m [] ⟨0, m, rfl, hm.next, hm.stack, trivial,
    .refl hm.locals, .refl m⟩
  rw [hx m] at hagrees
  cases hagrees with
  | ok hreaches =>
    obtain ⟨n, F, hF, hnext, hstack, -⟩ := hreaches
    have hstep := Machine.step_ret hret hnext hstack
    have hready : m.Ready code := ⟨hm.locals, hm.current, by simp [hm.outer]⟩
    obtain ⟨outcome, hwalk, -⟩ := hpushes.moves.walk m hready hm.next (Nat.zero_le _)
    have hended := hwalk.ends_within hret hm.next (Machine.after_next hF hstep)
    refine ⟨x, _, runWithin_of_over hended (by simp) (by omega) Machine.limit, ?_⟩
    exact (his.beq_iff (Number.is_ofInt (hexact node (Node.mem_evaluated _ node) v hv))).2 rfl

/-- An expression of all kinds of operations. -/
theorem run_returns_folded_nested : ∃ (p : Position) (node : Node) (code : Code) (x : Float)
    (F : Machine),
    Script.parse "return -7 div 2 * (1 << 4) + (5 mod -3 == 2 && !0 ? ~8 : 1 / 0);" literalTier =
      .ok ⟨[.returning p (some node)]⟩ ∧
    node.isOperation = true ∧ node.constant? {} = some (-57) ∧
    Node.Values {} (node.evaluated {}) Exact ∧ Node.Values {} (node.tested {}) (0 ≤ ·) ∧
    node.expressionSize < Machine.limit ∧
    compileToCode "return -7 div 2 * (1 << 4) + (5 mod -3 == 2 && !0 ? ~8 : 1 / 0);" {} = .ok code ∧
    (Machine.start code).run code = (.ok (.real x), F) ∧ (x == Float.ofInt (-57)) = true := by
  obtain ⟨script, hparse, hfolded⟩ := exists_ok_of_any
    (p := fun script => script.returned?.any fun node : Node => node.isOperation &&
      decide (node.constant? {} = some (-57) ∧ Node.Values {} (node.evaluated {}) Exact ∧
        Node.Values {} (node.tested {}) (0 ≤ ·) ∧ node.expressionSize < Machine.limit))
    (x := Script.parse "return -7 div 2 * (1 << 4) + (5 mod -3 == 2 && !0 ? ~8 : 1 / 0);"
      literalTier) (by decide +kernel)
  simp only [Option.any_eq_true, Bool.and_eq_true, decide_eq_true_iff] at hfolded
  obtain ⟨node, hnode, hop, hv, hexact, htested, hsize⟩ := hfolded
  obtain ⟨p, rfl⟩ := Script.eq_of_returned hnode
  obtain ⟨code, hcode, hrun⟩ :=
    @run_returns_folded _ {} p node {} (-57) hparse hop hv hexact htested hsize
  obtain ⟨x, F, hx, heq⟩ := hrun (Machine.start code) (Machine.fresh_start code)
  exact ⟨p, node, code, x, F, hparse, hop, hv, hexact, htested, hsize, hcode, hx, heq⟩

/-- The condition counts as true for folding, but not for the machine. -/
theorem negative_condition_fails :
    ((Script.parse "return -1 ? 2 : 3;" literalTier).toOption.bind fun script =>
      script.returned?.bind fun node => node.constant? {}) = some 2 ∧
    ((compileToCode "return -1 ? 2 : 3;" {}).toOption.bind fun code =>
      ((Machine.start code).run code).1.toOption.bind Value.number?) = some 3 := by
  decide +kernel

end Gml
