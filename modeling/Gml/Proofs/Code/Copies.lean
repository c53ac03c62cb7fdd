import Gml.Proofs.Code.Growth
import Gml.Proofs.Code.Landing
import Gml.Proofs.Tree.Resolved
import Mathlib.Algebra.Group.Nat.Defs

/-!
# The size of the code of a script

The code of a script is linear in the script, if constructs nest only so deep and the body of a
`with` statement counts once for each target: the factor is `maxNesting + 10`
(`Script.codeSize_le_spread`).

If the body counts once, the factor is only bounded because a branch cannot pass more than
`maxCodeSize` instructions, and the branch around each copy of the body has to
(`Script.codeSize_le_count`). To see that, writing the code has to be followed up to this branch:
`Generate.Forces` says what can be learned from its success. Below the bound the code can double
with each statement (`Script.code_of_cascade`).
-/

namespace Gml

/-! ### What can be learned from success -/

namespace Generate

open Generator Node

variable {α β : Type} {c d : Prop} {n : Nat} {g : Generator} {kinds : List FrameKind}
  {R : List Nat}

/-- If an action succeeds from a state on, then something holds. -/
def Forces (c : Prop) (x : Generate α) (g : Generator) : Prop :=
  ∀ a g', Gives x g a g' → c

/-- What can be learned wherever the branches are in order. -/
def Shows (kinds : List FrameKind) (c : Prop) (x : Generate α) : Prop :=
  ∀ (g : Generator) (R : List Nat), g.InOrder kinds R → Forces c x g

variable {x : Generate α} {f : α → Generate β}

/-- Less may be learned. -/
theorem Forces.imp (h : Forces c x g) (hcd : c → d) : Forces d x g :=
  fun a g' hgives => hcd (h a g' hgives)

/-- So it may wherever the branches are in order. -/
theorem Shows.imp (h : Shows kinds c x) (hcd : c → d) : Shows kinds d x :=
  fun g R hg => (h g R hg).imp hcd

/-- Two things may be learned. -/
theorem Forces.and (hc : Forces c x g) (hd : Forces d x g) : Forces (c ∧ d) x g :=
  fun a g' hgives => ⟨hc a g' hgives, hd a g' hgives⟩

/-- The first of two actions succeeds if both do. -/
theorem Forces.first (h : Forces c x g) : Forces c (x >>= f) g := by
  intro b g' hgives
  obtain ⟨a, g₁, hfirst, -⟩ := gives_bind.1 hgives
  exact h a g₁ hfirst

/-- So does the second, in the state that the first ends in. -/
theorem Runs.second {P : α → Generator → Prop} (hx : Runs .none n x g P)
    (hf : ∀ a g', g'.code.size = g.code.size + n → P a g' → Forces c (f a) g') :
    Forces c (x >>= f) g := by
  intro b g' hgives
  obtain ⟨a, g₁, hfirst, hrest⟩ := gives_bind.1 hgives
  obtain ⟨hsize, hP⟩ := hx.gives a g₁ hfirst
  exact hf a g₁ hsize hP b g' hrest

/-- The end of the code may be asked for. -/
theorem forces_here {f : Nat → Generate α} (h : Forces c (f g.code.size) g) :
    Forces c (here >>= f) g :=
  h

/-- A branch may come first. -/
theorem forces_emit {I : Instruction} {f : Nat → Generate α}
    (h : Forces c (f g.code.size) { g with code := g.code.push I }) :
    Forces c (emit I >>= f) g :=
  h

/-- A value may be given first. -/
theorem forces_pure_bind {a : α} (h : Forces c (f a) g) : Forces c (pure a >>= f) g :=
  h

/-- A mark in front is no matter. -/
theorem shows_started {p : Position} {body : Generate Unit} (h : Shows kinds c body) :
    Shows kinds c (started p body) :=
  fun g R hg => (adds_mark False.elim g R hg).second fun _ g₁ _ h₁ => h g₁ R h₁

/-- A frame around is no matter. -/
theorem forces_inFrame {kind : FrameKind} {p : Position} {body : Generate Unit}
    (hbody : Shows (kind :: kinds) c body) (h : g.InOrder kinds R) :
    Forces c (inFrame kind p body) g := by
  intro frame g' hgives
  obtain ⟨g₁, frames, hgives, -⟩ := gives_inFrame hgives
  exact hbody _ R (h.enter kind) () g₁ hgives

/-- A branch to what comes next has not passed too much. -/
theorem forces_patchHere {site : Nat} {p : Position} :
    Forces (g.code.size < site + maxCodeSize) (patchHere site p) g := by
  intro u g' hgives
  have hpatch : Gives (patch site g.code.size p) g u g' := hgives
  obtain ⟨distance, -, -, hpassed, -⟩ := gives_patch hpatch
  have hle := Int32.toInt_le distance
  rw [Int32.toInt_maxValue] at hle
  unfold maxCodeSize
  omega

/-- There is a branch around the body for each target. -/
theorem shows_eachInstance {body : Node} {p : Position}
    (hbody : Adds .none (.within :: kinds) n body.statement) (targets : List Node) :
    Shows kinds (targets ≠ [] → n + 2 ≤ maxCodeSize)
      (eachInstance p (inFrame .within body.position body.statement) targets) := by
  intro g R h
  cases targets with
  | nil => exact fun _ _ _ hne => absurd rfl hne
  | cons target rest =>
    refine (adds_expression target False.elim g R h).second fun _ g₁ e₁ h₁ => ?_
    refine forces_emit <| forces_here ?_
    have h₂ := h₁.push_pending (I := .pushEnv .pending) rfl
    have e₂ := size_push g₁.code (.pushEnv .pending)
    refine (runs_inFrame (fun g hg => hbody g _ hg) h₂).second fun frame g₃ e₃ h₃ => ?_
    refine forces_here <| (runs_patchAll False.elim (Nat.le_refl _)
      (h₃.1.perm (frame.sites_perm _))).second fun _ g₄ e₄ h₄ => ?_
    dsimp only at e₃
    refine (runs_branchBack False.elim rfl (by rw [e₂]; omega) h₄).second fun _ g₅ e₅ h₅ => ?_
    refine Forces.first <| forces_patchHere.imp fun hpassed _ => ?_
    omega

section

variable {e : Prop} {p : Position} {condition body : Node}

/-- An expression can always be written, if nothing is asked about the faults. -/
theorem adds_value (kinds : List FrameKind) (node : Node) :
    Adds .none kinds node.expressionSize node.expression :=
  adds_expression node nofun

/-- What a statement and the rest show. -/
theorem shows_cons {node : Node} {rest : List Node} (hnode : Shows kinds c node.statement)
    (hrest : Shows kinds d (statements rest)) :
    Shows kinds (c ∧ d) (statements (node :: rest)) := by
  intro g R h
  refine (hnode g R h).first.and ?_
  exact (adds_any kinds node g R h).second fun _ g₁ _ h₁ => hrest g₁ R h₁

/-- What the body of a condition shows. -/
theorem shows_ifThen (hbody : Shows kinds c body.statement) :
    Shows kinds c (Node.ifElse p condition body none).statement := by
  refine shows_started fun g R h => ?_
  refine (adds_value kinds condition g R h).second fun _ g₁ _ h₁ => ?_
  exact (runs_emit _ rfl h₁).second fun _ g₂ _ h₂ => (hbody g₂ _ h₂.2).first

/-- What both bodies of a condition show. -/
theorem shows_ifElse {elseBody : Node} (hbody : Shows kinds c body.statement)
    (helse : Shows kinds d elseBody.statement) :
    Shows kinds (c ∧ d) (Node.ifElse p condition body (some elseBody)).statement := by
  refine shows_started fun g R h => ?_
  refine (adds_value kinds condition g R h).second fun _ g₁ _ h₁ => ?_
  refine (runs_emit _ rfl h₁).second fun _ g₂ _ h₂ => ?_
  refine (hbody g₂ _ h₂.2).first.and ?_
  refine (adds_any kinds body g₂ _ h₂.2).second fun _ g₃ _ h₃ => ?_
  refine (runs_emit _ rfl h₃).second fun _ g₄ _ h₄ => ?_
  refine (runs_patchHere False.elim (h₄.2.perm (.swap _ _ _))).second fun _ g₅ _ h₅ => ?_
  exact (helse g₅ _ h₅).first

/-- What the body of a loop shows. -/
theorem shows_whileDo (hbody : Shows (.loop :: kinds) c body.statement) :
    Shows kinds c (Node.whileDo p condition body).statement := by
  refine shows_started fun g R h => forces_here ?_
  refine (adds_value kinds condition g R h).second fun _ g₁ _ h₁ => ?_
  refine (runs_emit _ rfl h₁).second fun _ g₂ _ h₂ => ?_
  exact (forces_inFrame hbody h₂.2).first

/-- So it is if the test comes last. -/
theorem shows_doUntil (hbody : Shows (.loop :: kinds) c body.statement) :
    Shows kinds c (Node.doUntil p body condition).statement :=
  shows_started fun _ _ h => forces_here (forces_inFrame hbody h).first

/-- So it is if there is a count. -/
theorem shows_repeatTimes (hbody : Shows (.counter :: kinds) c body.statement) :
    Shows kinds c (Node.repeatTimes p condition body).statement := by
  refine shows_started fun g R h => ?_
  refine (adds_value kinds condition g R h).second fun _ g₁ _ h₁ => forces_here ?_
  refine (adds_write _ rfl g₁ R h₁).second fun _ g₂ _ h₂ => ?_
  refine (adds_write _ rfl g₂ R h₂).second fun _ g₃ _ h₃ => ?_
  refine (adds_write _ rfl g₃ R h₃).second fun _ g₄ _ h₄ => ?_
  refine (runs_emit _ rfl h₄).second fun _ g₅ _ h₅ => ?_
  exact (forces_inFrame hbody h₅.2).first

/-- A `for` loop after its test. -/
theorem forces_rounds {step : List Node} {f : Frame → Generate Unit}
    (hbody : Shows (.loop :: kinds) c body.statement) (hstep : Shows kinds d (statements step))
    (h : g.InOrder kinds R) :
    Forces (c ∧ d) (do
      let frame ← inFrame .loop body.position body.statement
      patchAll frame.continues (← here) p
      statements step
      f frame) g := by
  refine (forces_inFrame hbody h).first.and ?_
  refine (runs_inFrame (fun g hg => adds_any _ body g _ hg) h).second fun frame g₁ _ h₁ => ?_
  refine forces_here <| (runs_patchAll False.elim (Nat.le_refl _)
    (h₁.1.perm (frame.sites_perm _))).second fun _ g₂ _ h₂ => ?_
  exact (hstep g₂ _ h₂).first

/-- What the clauses and the body of a loop show. -/
theorem shows_forLoop {init step : List Node} {condition : Option Node}
    (hinit : Shows kinds e (statements init)) (hstep : Shows kinds d (statements step))
    (hbody : Shows (.loop :: kinds) c body.statement) :
    Shows kinds (e ∧ c ∧ d) (Node.forLoop p init condition step body).statement := by
  refine shows_started fun g R h => (hinit g R h).first.and ?_
  refine (adds_all kinds init g R h).second fun _ g₁ _ h₁ => forces_here ?_
  cases condition with
  | none => exact forces_pure_bind (forces_rounds hbody hstep h₁)
  | some condition =>
    refine (adds_value kinds condition g₁ R h₁).second fun _ g₂ _ h₂ => ?_
    exact (runs_emit _ rfl h₂).second fun _ g₃ _ h₃ =>
      forces_pure_bind (forces_rounds hbody hstep h₃.2)

/-- What the bodies of arms show. -/
theorem forces_arms {cases : List (Case Node)} {c : Case Node → Prop}
    (hbodies : ∀ arm ∈ cases, Shows kinds (c arm) (statements arm.body))
    {entries : List (Option Nat)} {otherwise : Option Nat}
    (hentries : entries.map Option.isSome = cases.map (·.label.isSome))
    (h : g.InOrder kinds (entries.filterMap id ++ (otherwise.toList ++ R))) :
    Forces (∀ arm ∈ cases, c arm) (arms cases entries otherwise) g := by
  induction cases generalizing entries otherwise g with
  | nil => exact fun _ _ _ => by simp
  | cons arm rest ih =>
    obtain ⟨entry, entries, rfl, hentry, hrest⟩ := List.map_eq_cons_iff.1 hentries
    rw [List.forall_mem_cons] at hbodies
    -- What follows is the same for all arms; they differ in which branch leads to them.
    have hgo (otherwise : Option Nat) (g : Generator)
        (hg : g.InOrder kinds (entries.filterMap id ++ (otherwise.toList ++ R))) :
        Forces (∀ other ∈ arm :: rest, c other)
          (do statements arm.body; arms rest entries otherwise) g := by
      refine ((hbodies.1 g _ hg).first.and ?_).imp List.forall_mem_cons.2
      exact (adds_all kinds arm.body g _ hg).second fun _ g₁ _ h₁ => ih hbodies.2 hrest h₁
    rcases entry with _ | site
    · rcases otherwise with _ | site
      · exact hgo none g h
      · exact (runs_patchHere False.elim (h.perm List.perm_middle)).second fun _ g₁ _ h₁ =>
          hgo none g₁ h₁
    · exact (runs_patchHere False.elim h).second fun _ g₁ _ h₁ => hgo otherwise g₁ h₁

/-- What the arms of a switch show. -/
theorem shows_switch {subject : Node} {cases : List (Case Node)} {c : Case Node → Prop}
    (hbodies : ∀ arm ∈ cases, Shows (.switch :: kinds) (c arm) (statements arm.body)) :
    Shows kinds (∀ arm ∈ cases, c arm) (Node.switch p subject cases).statement := by
  refine shows_started fun g R h => ?_
  refine (adds_value kinds subject g R h).second fun _ g₁ _ h₁ => ?_
  refine (runs_labels cases False.elim h₁).second fun entries g₂ _ h₂ => ?_
  refine (runs_emit _ rfl h₂.2).second fun otherwise g₃ _ h₃ => Forces.first ?_
  intro frame g' hgives
  obtain ⟨g₄, frames, hgives, -⟩ := gives_inFrame hgives
  have horder := (h₃.2.enter .switch).perm List.perm_middle.symm
  exact forces_arms hbodies h₂.1 horder () g₄ hgives

end

end Generate

namespace Node

open Generate Generator

mutual

variable {copies : Nat → Nat}

/-- Where the code of a statement has been written, it is linear in the nodes of the statement. -/
theorem shows_bounded {factor limit : Nat} (hlimit : limit + 10 ≤ factor)
    (hfactor : maxCodeSize + 11 ≤ factor) : ∀ (node : Node) (kinds : List FrameKind),
    kinds.length + node.statementDepth ≤ limit →
      Shows kinds (node.Bounded factor copies kinds) node.statement
  | .block _ body, kinds, h => by
    simp only [statementDepth] at h
    exact shows_started <|
      (shows_boundedAll hlimit hfactor body kinds (by omega)).imp .block
  | .ifElse _ _ thenBody none, kinds, h => by
    simp only [statementDepth, alternativeDepth] at h
    exact (shows_ifThen (shows_bounded hlimit hfactor thenBody kinds (by omega))).imp
      (.ifThen (by omega))
  | .ifElse _ _ thenBody (some elseBody), kinds, h => by
    simp only [statementDepth, alternativeDepth] at h
    exact (shows_ifElse (shows_bounded hlimit hfactor thenBody kinds (by omega))
      (shows_bounded hlimit hfactor elseBody kinds (by omega))).imp
      fun hparts => .ifElse (by omega) hparts.1 hparts.2
  | .whileDo _ _ body, kinds, h => by
    simp only [statementDepth] at h
    exact (shows_whileDo
      (shows_bounded hlimit hfactor body _ (by rw [List.length_cons]; omega))).imp
      (.whileDo (by omega))
  | .doUntil _ body _, kinds, h => by
    simp only [statementDepth] at h
    exact (shows_doUntil
      (shows_bounded hlimit hfactor body _ (by rw [List.length_cons]; omega))).imp
      (.doUntil (by omega))
  | .repeatTimes _ _ body, kinds, h => by
    simp only [statementDepth] at h
    exact (shows_repeatTimes
      (shows_bounded hlimit hfactor body _ (by rw [List.length_cons]; omega))).imp
      (.repeatTimes (by omega))
  | .forLoop _ init _ step body, kinds, h => by
    simp only [statementDepth] at h
    exact (shows_forLoop (shows_boundedAll hlimit hfactor init kinds (by omega))
      (shows_boundedAll hlimit hfactor step kinds (by omega))
      (shows_bounded hlimit hfactor body _ (by rw [List.length_cons]; omega))).imp
      fun hparts => .forLoop (by omega) hparts.1 hparts.2.2 hparts.2.1
  | .switch _ _ cases, kinds, h => by
    simp only [statementDepth] at h
    exact (shows_switch
      (shows_boundedArms hlimit hfactor cases _ (by rw [List.length_cons]; omega))).imp
      (.switch (by omega))
  | .withEach _ targets body, kinds, _ =>
    (shows_started (shows_eachInstance (adds_any _ body) targets)).imp
      (bounded_withEach (by omega))
  | .assign .., _, h | .discard .., _, h | .declare .., _, h | .returning .., _, h | .exit .., _, h
  | .breaking .., _, h | .continuing .., _, h | .declareGlobal .., _, h | .declareEnum .., _, h
  | .int .., _, h | .real .., _, h | .string .., _, h | .ident .., _, h | .binary .., _, h
  | .logical .., _, h | .unary .., _, h | .conditional .., _, h | .call .., _, h | .index .., _, h
  | .member .., _, h | .update .., _, h | .struct .., _, h | .array .., _, h => by
    simp only [statementDepth] at h
    exact fun _ _ _ _ _ _ => bounded_of_isPlain (by omega) rfl
termination_by structural node => node

/-- So it is with several statements. -/
theorem shows_boundedAll {factor limit : Nat} (hlimit : limit + 10 ≤ factor)
    (hfactor : maxCodeSize + 11 ≤ factor) : ∀ (nodes : List Node) (kinds : List FrameKind),
    kinds.length + statementsDepth nodes ≤ limit →
      Shows kinds (BoundedAll factor copies kinds nodes) (statements nodes)
  | [], _, _ => fun _ _ _ _ _ _ => by simp [BoundedAll, statementsSize]
  | node :: rest, kinds, h => by
    simp only [statementsDepth] at h
    exact (shows_cons (shows_bounded hlimit hfactor node kinds (by omega))
      (shows_boundedAll hlimit hfactor rest kinds (by omega))).imp
      fun hparts => .cons hparts.1 hparts.2
termination_by structural nodes => nodes

/-- So it is with the arms of a switch. -/
theorem shows_boundedArms {factor limit : Nat} (hlimit : limit + 10 ≤ factor)
    (hfactor : maxCodeSize + 11 ≤ factor) :
    ∀ (cases : List (Case Node)) (kinds : List FrameKind),
      kinds.length + armsDepth cases ≤ limit → ∀ arm ∈ cases,
        Shows kinds (BoundedAll factor copies kinds arm.body) (statements arm.body)
  | [], _, _ => by simp
  | ⟨_, body, _⟩ :: rest, kinds, h => by
    simp only [armsDepth] at h
    exact List.forall_mem_cons.2 ⟨shows_boundedAll hlimit hfactor body kinds (by omega),
      shows_boundedArms hlimit hfactor rest kinds (by omega)⟩
termination_by structural cases => cases

end

end Node

/-! ### Scripts -/

namespace Script

open Generate

/-- The number of nodes in a script. -/
def count (script : Script) : Nat :=
  Node.weightAll (fun _ => 1) script.body

/-- The number of nodes in a script, where the body of a `with` statement counts for each target. -/
def spread (script : Script) : Nat :=
  Node.weightAll id script.body

/-- How deep statements nest in a script. -/
def statementDepth (script : Script) : Nat :=
  Node.statementsDepth script.body

/-- The size of code by the spread of its tree. -/
theorem codeSize_le_spread {script : Script} (hdepth : script.statementDepth ≤ maxNesting) :
    script.codeSize ≤ (maxNesting + 10) * script.spread := by
  unfold statementDepth at hdepth
  exact Node.boundedAll_spread (Nat.le_refl _) script.body [] (by simpa using hdepth)

/-- The size of code by the number of nodes. -/
theorem codeSize_le_count {script : Script} {code : Code} (h : script.generate = .ok code)
    (hdepth : script.statementDepth ≤ maxNesting) :
    script.codeSize ≤ 2 * maxCodeSize * script.count := by
  obtain ⟨g, hgives⟩ := gives_of_generate h
  have hlimit : maxNesting + 10 ≤ 2 * maxCodeSize := by decide
  have hfactor : maxCodeSize + 11 ≤ 2 * maxCodeSize := by decide
  unfold statementDepth at hdepth
  exact Node.shows_boundedAll hlimit hfactor script.body [] (by simpa using hdepth)
    {} [] Generator.inOrder_start () g hgives

/-- The code of a script has the body of each `with` statement once for each target and all else
once, and maybe one instruction at its end (`codeSize`). So it is linear in the script, if the body
of each `with` statement counts once for each target. If it counts once, the size of the code is
bounded by how far branches reach. -/
theorem size_of_generate {script : Script} {code : Code} (h : script.generate = .ok code)
    (hdepth : script.statementDepth ≤ maxNesting) :
    (code.size = script.codeSize ∨ code.size = script.codeSize + 1) ∧
      code.size ≤ (maxNesting + 10) * (script.spread + 1) ∧
      code.size ≤ 2 * maxCodeSize * (script.count + 1) := by
  have hspread := codeSize_le_spread hdepth
  have hcount := codeSize_le_count h hdepth
  obtain ⟨-, -, hsize⟩ := within_of_generate h
  rw [Nat.mul_succ, Nat.mul_succ]
  unfold maxNesting maxCodeSize at *
  omega

/-- A body that is written twice, inside of a loop. -/
theorem size_of_generate_with :
    ∃ script code,
      Script.ofSource "repeat (3) { with (a, b) { if (c) continue; exit; } }" {} = .ok script ∧
      script.generate = .ok code ∧ script.statementDepth = 6 ∧ script.spread = 16 ∧
      (code.size = 25 ∨ code.size = 26) ∧
      code.size ≤ (maxNesting + 10) * 17 ∧ code.size ≤ 2 * maxCodeSize * (script.count + 1) := by
  obtain ⟨code, h, hok⟩ := exists_ok_of_any (p := fun _ =>
    (Script.ofSource "repeat (3) { with (a, b) { if (c) continue; exit; } }" {}).toOption.any
      fun script => script.statementDepth = 6 ∧ script.spread = 16 ∧ script.codeSize = 25)
    (x := compileToCode "repeat (3) { with (a, b) { if (c) continue; exit; } }" {})
    (by decide +kernel)
  obtain ⟨script, hscript, hgenerate⟩ := compileToCode_eq_ok h
  rw [hscript] at hok
  obtain ⟨hdepth, hspread, hexact⟩ := of_decide_eq_true hok
  have hsize := size_of_generate hgenerate (by rw [hdepth]; decide)
  rw [hspread, hexact] at hsize
  exact ⟨script, code, hscript, hgenerate, hdepth, hspread, hsize⟩

end Script

/-! ### A body in many copies -/

namespace Generate

variable {α β : Type}

/-- An action fails only because of branches and frames. -/
def FailsPatching (x : Generate α) : Prop :=
  ∀ g diagnostic, x.run g = .error diagnostic → diagnostic.fault.isPatching = true

/-- Only branches can fail in a sequence. -/
theorem FailsPatching.bind {x : Generate α} {f : α → Generate β} (hx : FailsPatching x)
    (hf : ∀ a, FailsPatching (f a)) : FailsPatching (x >>= f) := by
  intro g diagnostic hfails
  rw [StateT.run_bind] at hfails
  cases hrun : x.run g with
  | error =>
    rw [hrun] at hfails
    cases hfails
    exact hx g diagnostic hrun
  | ok result =>
    rw [hrun] at hfails
    exact hf result.1 result.2 diagnostic hfails

/-- An action that always gives something does not fail. -/
theorem failsPatching_of_gives {x : Generate α} (h : ∀ g, ∃ a g', Gives x g a g') :
    FailsPatching x := by
  intro g diagnostic hfails
  obtain ⟨a, g', hgives⟩ := h g
  cases hgives.symm.trans hfails

/-- An instruction cannot fail. -/
theorem failsPatching_write (I : Instruction) : FailsPatching (write I) :=
  failsPatching_of_gives fun _ => ⟨_, _, rfl⟩

/-- A branch may be too far from its target. -/
theorem failsPatching_patch (site target : Nat) (p : Position) :
    FailsPatching (patch site target p) := by
  intro g diagnostic hfails
  cases hpatch : g.patch? site target with
  | none =>
    have hrun : (patch site target p).run g = .error ⟨.notBranch site, p⟩ := by
      simp only [patch, StateT.run_bind, StateT.run_get, pure_bind, hpatch]
      rfl
    cases hrun.symm.trans hfails
    rfl
  | some code =>
    simp only [patch, StateT.run_bind, StateT.run_get, pure_bind, hpatch] at hfails
    cases hfails

/-- So may several. -/
theorem failsPatching_patchAll (sites : List Nat) (target : Nat) (p : Position) :
    FailsPatching (patchAll sites target p) := by
  induction sites with
  | nil => exact failsPatching_of_gives fun g => ⟨(), g, rfl⟩
  | cons site sites ih => exact (failsPatching_patch site target p).bind fun _ => ih

/-- To ask for the end cannot fail. -/
theorem failsPatching_here : FailsPatching here :=
  failsPatching_of_gives fun _ => ⟨_, _, rfl⟩

/-- A branch without a target cannot fail. -/
theorem failsPatching_emit (I : Instruction) : FailsPatching (emit I) :=
  failsPatching_of_gives fun _ => ⟨_, _, rfl⟩

/-- A frame fails over a branch only. -/
theorem failsPatching_inFrame {kind : FrameKind} {p : Position} {body : Generate Unit}
    (hbody : FailsPatching body) : FailsPatching (inFrame kind p body) := by
  refine .bind (failsPatching_of_gives fun _ => ⟨_, _, rfl⟩) fun _ => hbody.bind fun _ => ?_
  refine .bind (failsPatching_of_gives fun _ => ⟨_, _, rfl⟩) fun g => ?_
  rcases g with ⟨code, _ | ⟨frame, frames⟩⟩
  · intro g diagnostic hfails
    cases hfails
    rfl
  · exact failsPatching_of_gives fun _ => ⟨_, _, rfl⟩

/-- To leave instances cannot fail. -/
theorem failsPatching_leaveInstances : FailsPatching leaveInstances := by
  refine .bind (failsPatching_of_gives fun _ => ⟨_, _, rfl⟩) fun g => ?_
  induction g.frames with
  | nil => exact failsPatching_of_gives fun g => ⟨(), g, rfl⟩
  | cons frame frames ih =>
    refine .bind ?_ fun _ => ih
    dsimp only
    split
    · exact failsPatching_write _
    · exact failsPatching_of_gives fun g => ⟨(), g, rfl⟩

/-- A whole number cannot fail. -/
theorem failsPatching_int (p : Position) (value : Int64) :
    FailsPatching (Node.int p value).expression := by
  rw [Node.expression_int]
  split
  · exact failsPatching_write _
  · exact .bind (failsPatching_of_gives fun _ => ⟨_, _, rfl⟩) fun _ => failsPatching_write _

/-- A body for several targets fails over a branch only. -/
theorem failsPatching_eachInstance {body : Generate Frame} {p : Position} {targets : List Node}
    (htargets : ∀ target ∈ targets, FailsPatching target.expression) (hbody : FailsPatching body) :
    FailsPatching (Node.eachInstance p body targets) := by
  induction targets with
  | nil => exact failsPatching_of_gives fun g => ⟨(), g, rfl⟩
  | cons target rest ih =>
    rw [List.forall_mem_cons] at htargets
    refine htargets.1.bind fun _ => (failsPatching_emit _).bind fun enter => ?_
    refine failsPatching_here.bind fun start => hbody.bind fun frame => ?_
    refine failsPatching_here.bind fun _ => (failsPatching_patchAll _ _ _).bind fun _ => ?_
    refine .bind ((failsPatching_emit _).bind fun _ => failsPatching_patch _ _ _) fun _ => ?_
    refine .bind (failsPatching_here.bind fun _ => failsPatching_patch _ _ _) fun _ => ?_
    exact failsPatching_here.bind fun _ => (failsPatching_patchAll _ _ _).bind fun _ =>
      ih htargets.2

end Generate

namespace Node

/-- `with` statements inside of each other, with two targets each. -/
def cascade : Nat → Node
  | 0 => .exit {}
  | n + 1 => .withEach {} [.int {} 1, .int {} 2] (cascade n)

/-- A cascade has three nodes for each level. -/
theorem weight_cascade (n : Nat) : (cascade n).weight (fun _ => 1) = 3 * n + 1 := by
  induction n with
  | zero => rfl
  | succ n ih =>
    simp only [cascade, weight, weightAll, ih]
    omega

/-- A cascade is as deep as it has levels. -/
theorem statementDepth_cascade (n : Nat) : (cascade n).statementDepth = n + 1 := by
  induction n with
  | zero => rfl
  | succ n ih => simp only [cascade, statementDepth, ih]

/-- The innermost statement has an instruction for each instance around it, and the code doubles
with each statement around that. -/
theorem statementSize_cascade (n : Nat) (kinds : List FrameKind) :
    (cascade n).statementSize kinds + 6 = 2 ^ n * (FrameKind.enteredCount kinds + n + 7) := by
  induction n generalizing kinds with
  | zero => simp [cascade, statementSize]
  | succ n ih =>
    have hentered :
        FrameKind.enteredCount (.within :: kinds) = FrameKind.enteredCount kinds + 1 := by
      simp [FrameKind.enteredCount]
    have hinner := ih (.within :: kinds)
    rw [hentered, Nat.add_right_comm _ 1 n, Nat.add_assoc _ n 1] at hinner
    simp only [cascade, statementSize, expressionsSize, expressionSize, List.length_cons,
      List.length_nil, Nat.pow_succ, Nat.mul_assoc, Nat.mul_left_comm _ 2, ← hinner]
    omega

/-- A cascade fails over a branch only. -/
theorem failsPatching_cascade (n : Nat) : Generate.FailsPatching (cascade n).statement := by
  induction n with
  | zero =>
    refine .bind (Generate.failsPatching_of_gives fun _ => ⟨_, _, rfl⟩) fun _ => ?_
    exact Generate.failsPatching_leaveInstances.bind fun _ => Generate.failsPatching_write _
  | succ n ih =>
    refine .bind (Generate.failsPatching_of_gives fun _ => ⟨_, _, rfl⟩) fun _ => ?_
    refine Generate.failsPatching_eachInstance ?_ (Generate.failsPatching_inFrame ih)
    simp [Generate.failsPatching_int]

end Node

namespace Script

open Generate

/-- The code of such a script can be written as long as there are not too many copies. -/
theorem code_of_cascade {n : Nat} (hn : n ≤ 25) :
    ∃ code, Script.generate ⟨[Node.cascade n]⟩ = .ok code ∧ 2 ^ n * (n + 7) ≤ code.size + 6 := by
  have hsize : Script.codeSize ⟨[Node.cascade n]⟩ + 6 = 2 ^ n * (n + 7) := by
    have hcascade := Node.statementSize_cascade n []
    simpa [codeSize, Node.statementsSize, FrameKind.enteredCount] using hcascade
  have hbound : 2 ^ n * (n + 7) ≤ 2 ^ 25 * (25 + 7) :=
    Nat.mul_le_mul (Nat.pow_le_pow_right (by decide) hn) (by omega)
  cases h : Script.generate ⟨[Node.cascade n]⟩ with
  | error diagnostic =>
    have hroom : Script.codeSize ⟨[Node.cascade n]⟩ < maxCodeSize := by
      unfold maxCodeSize
      omega
    rcases generate_cases ⟨[Node.cascade n]⟩ with ⟨other, hrun, herror⟩ | ⟨g, -, -, hok⟩
    · have hpatching : FailsPatching (Node.statements [Node.cascade n]) :=
        (Node.failsPatching_cascade n).bind fun _ =>
          failsPatching_of_gives fun g => ⟨(), g, rfl⟩
      have hfault := hpatching _ other hrun
      rw [(excused_of_generate herror hroom fun _ => True).patching] at hfault
      cases hfault
    · rw [hok] at h
      cases h
  | ok code =>
    obtain ⟨-, -, hwithin⟩ := within_of_generate h
    exact ⟨code, rfl, by omega⟩

/-- The body of a `with` statement is written once for each target, together with its mark. So the
number of instructions is not bounded by any usual multiple of the number of nodes. -/
theorem copies_of_body :
    (∃ script code, Script.ofSource "with (1, 2) exit;" {} = .ok script ∧
      script.generate = .ok code ∧
      code.instructions.toList = [.pushInt 1, .pushEnv (.relative 4), .popEnvExit, .exit,
        .popEnv (.relative (-2)), .pushInt 2, .pushEnv (.relative 4), .popEnvExit, .exit,
        .popEnv (.relative (-2)), .exit] ∧
      code.marks.toList.map (·.1) = [0, 2, 7]) ∧
    ∀ K ≤ 10000000, ∃ (script : Script) (code : Code), script.generate = .ok code ∧
      script.statementDepth ≤ maxNesting ∧ K * (script.count + 1) < code.size := by
  constructor
  · obtain ⟨code, h, hok⟩ := exists_ok_of_any (p := fun code =>
      code.instructions.toList = [.pushInt 1, .pushEnv (.relative 4), .popEnvExit, .exit,
        .popEnv (.relative (-2)), .pushInt 2, .pushEnv (.relative 4), .popEnvExit, .exit,
        .popEnv (.relative (-2)), .exit] ∧ code.marks.toList.map (·.1) = [0, 2, 7])
      (x := compileToCode "with (1, 2) exit;" {}) (by decide +kernel)
    obtain ⟨script, hscript, hgenerate⟩ := compileToCode_eq_ok h
    exact ⟨script, code, hscript, hgenerate, of_decide_eq_true hok⟩
  · intro K hK
    obtain ⟨code, hgenerate, hsize⟩ := code_of_cascade (Nat.le_refl 25)
    refine ⟨_, code, hgenerate, ?_, ?_⟩
    · simp only [statementDepth, Node.statementsDepth, Node.statementDepth_cascade]
      decide
    · simp only [count, Node.weightAll, Node.weight_cascade]
      omega

end Script

end Gml
