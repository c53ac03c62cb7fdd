import Gml.Proofs.Code.Complete
import Gml.Proofs.Outcome

/-!
# Where branches of a script lead

What writing the code of a script can do (`Script.generate_cases`), from what is known about its
statements. If it succeeds, every branch and every mark leads to the instructions of the statements
or right after them (`Script.within_of_generate`). The instruction that ends the script is added
there, unless the statements themselves end in one.

If it fails, then not because of a branch (`Script.excused_of_generate`). Either way a branch gets
its target once, while it waits: it is no matter whether this is asked for
(`Script.patches_of_generate`).
-/

namespace Gml

namespace Code

/-- Everything in the code points to one of its first instructions or right after them. -/
structure Within (code : Code) (bound : Nat) : Prop where
  /-- A branch has a target there. -/
  branches : ∀ i I jump, code.Has i I → I.jump? = some jump → ∃ target ≤ bound, jump.Leads i target
  /-- A statement starts there. -/
  marks : ∀ mark ∈ code.marks, mark.1 ≤ bound

variable {code : Code} {bound : Nat}

/-- A bound may be raised. -/
theorem Within.mono {bound' : Nat} (h : code.Within bound) (hle : bound ≤ bound') :
    code.Within bound' := by
  refine ⟨fun i I jump hI hjump => ?_, fun mark hmark => Nat.le_trans (h.marks mark hmark) hle⟩
  obtain ⟨target, htarget, hleads⟩ := h.branches i I jump hI hjump
  exact ⟨target, Nat.le_trans htarget hle, hleads⟩

/-- An instruction that is no branch changes nothing. -/
theorem Within.push (h : code.Within bound) {I : Instruction} (hI : I.jump? = none) :
    (code.push I).Within bound := by
  refine ⟨fun i J jump hJ hjump => ?_, h.marks⟩
  rcases has_push.1 hJ with ⟨-, hJ⟩ | ⟨-, rfl⟩
  · exact h.branches i J jump hJ hjump
  · rw [hI] at hjump
    cases hjump

/-- No branch waits. -/
theorem Within.firstPending?_eq_none (h : code.Within bound) : code.firstPending? = none := by
  refine Array.findIdx?_eq_none_iff.2 fun I hmem => decide_eq_false fun hpending => ?_
  obtain ⟨i, hi⟩ := Array.mem_iff_getElem?.1 hmem
  obtain ⟨target, -, distance, hjump, -⟩ := h.branches i I .pending hi hpending
  cases hjump

end Code

/-- If nothing is around and nothing else is known to wait, then nothing waits. -/
theorem Generator.InOrder.within {g : Generator} (h : g.InOrder [] []) :
    g.code.Within g.code.size := by
  refine ⟨fun i I jump hI hjump => ?_, h.marks⟩
  have hsites : g.sites = [] := by
    rw [Generator.sites, List.map_eq_nil_iff.1 h.kinds, List.flatMap_nil]
  cases jump with
  | pending =>
    have hmem := (h.waits i).2 ⟨I, hI, hjump⟩
    rw [hsites] at hmem
    cases hmem
  | relative distance =>
    obtain ⟨target, hle, heq⟩ := h.leads i I distance hI hjump
    exact ⟨target, hle, distance, rfl, heq⟩

/-- A branch that waits gets its target, and nothing else changes. -/
def Generator.Completes (g g' : Generator) (site target : Nat) : Prop :=
  ∃ (I J : Instruction) (distance : Int32), g.code.Has site I ∧ I.jump? = some .pending ∧
    I.withJump? (.relative distance) = some J ∧ (site : Int) + distance.toInt = target ∧
    g' = { g with code :=
      { g.code with instructions := g.code.instructions.setIfInBounds site J } }

/-- A careful generator points only branches that wait. -/
theorem Generate.completes_of_patch {g g' : Generator} {site target : Nat} {p : Position}
    (hcareful : g.careful = true) (h : Gives (patch site target p) g () g') :
    g.Completes g' site target := by
  obtain ⟨distance, I, J, hdistance, hI, hJ, hg'⟩ := gives_patch h
  refine ⟨I, J, distance, hI, ?_, hJ, hdistance, hg'⟩
  refine Decidable.byContradiction fun hpending => ?_
  have hrefused : g.patch? site target = none := by
    have hwaits : g.code.waitsAt site = false := by
      refine decide_eq_false ?_
      rwa [show g.code.instructions[site]? = some I from hI]
    unfold Generator.patch?
    rw [hcareful, hwaits]
    rfl
  have hfails : (patch site target p).run g = .error ⟨.notBranch site, p⟩ := by
    simp only [patch, StateT.run_bind, StateT.run_get, pure_bind, hrefused]
    rfl
  cases hfails.symm.trans h

namespace Script

open Generate Generator

/-- All statements of a script stand where they may stand, in places of some kind. -/
def IsProper (script : Script) (P : Position → Prop) : Prop :=
  ∀ node ∈ script.body, node.IsAction P false false

/-- The statements of a script keep the branches in order. -/
theorem adds_body (script : Script) (P : Position → Prop) :
    Adds ⟨script.IsProper P, P⟩ [] script.codeSize (Node.statements script.body) := by
  have hserve : FrameKind.Serve [] false false := ⟨nofun, nofun⟩
  exact Node.adds_statements hserve script.body id

/-- So they do from the beginning. -/
theorem runs_body (script : Script) (P : Position → Prop) :
    Runs ⟨script.IsProper P, P⟩ script.codeSize (Node.statements script.body) {}
      fun _ g => g.InOrder [] [] :=
  script.adds_body P {} [] inOrder_start

/-- The code of the statements of a script, once it is written, is the code of the script. -/
theorem generate_of_gives {script : Script} {g : Generator}
    (h : Gives (Node.statements script.body) {} () g) :
    g.code.Within g.code.size ∧ script.generate =
      .ok (if g.code.instructions.back? = some .exit then g.code else g.code.push .exit) := by
  have hwithin := ((script.runs_body fun _ => True).gives () g h).2.within
  refine ⟨hwithin, ?_⟩
  have hpending : Code.firstPending? (if g.code.instructions.back? = some .exit then g.code
      else g.code.push .exit) = none := by
    split
    · exact hwithin.firstPending?_eq_none
    · exact (hwithin.push rfl).firstPending?_eq_none
  unfold generate generateFrom
  rw [show (Node.statements script.body).run {} = .ok ((), g) from h]
  dsimp only [bind, Except.bind]
  rw [hpending]
  rfl

/-- The code of the statements has been written, if the code of the script has. -/
theorem gives_of_generate {script : Script} {code : Code} (h : script.generate = .ok code) :
    ∃ g, Gives (Node.statements script.body) {} () g := by
  cases hrun : (Node.statements script.body).run {} with
  | error diagnostic =>
    unfold generate generateFrom at h
    rw [hrun] at h
    cases h
  | ok result => exact ⟨result.2, hrun⟩

/-- The code of a script is that of its statements, and ends the script. -/
theorem generate_cases (script : Script) :
    (∃ diagnostic, (Node.statements script.body).run {} = .error diagnostic ∧
      script.generate = .error diagnostic) ∨
    ∃ g : Generator, g.code.size = script.codeSize ∧ g.code.Within g.code.size ∧
      script.generate = .ok (if g.code.instructions.back? = some .exit then g.code
        else g.code.push .exit) := by
  cases hrun : (Node.statements script.body).run {} with
  | error diagnostic =>
    refine .inl ⟨diagnostic, rfl, ?_⟩
    unfold generate generateFrom
    rw [hrun]
    rfl
  | ok result =>
    obtain ⟨⟨⟩, g⟩ := result
    obtain ⟨hsize, -⟩ := (script.runs_body fun _ => True).gives () g hrun
    exact .inr ⟨g, by simpa [Code.size] using hsize, generate_of_gives hrun⟩

/-- All branches and marks of a script lead to its statements or right after them. -/
theorem within_of_generate {script : Script} {code : Code} (h : script.generate = .ok code) :
    code.Within script.codeSize ∧ code.instructions.back? = some .exit ∧
      (code.size = script.codeSize ∨ code.size = script.codeSize + 1) := by
  rcases script.generate_cases with ⟨diagnostic, -, herror⟩ | ⟨g, hsize, hwithin, hok⟩
  · rw [herror] at h
    cases h
  · rw [hok] at h
    cases h
    rw [hsize] at hwithin
    by_cases hexit : g.code.instructions.back? = some .exit
    · rw [if_pos hexit]
      exact ⟨hwithin, hexit, .inl hsize⟩
    · rw [if_neg hexit]
      refine ⟨hwithin.push rfl, by simp [Code.push], .inr ?_⟩
      rw [size_push, hsize]

/-- Code that is not too long never fails over a branch. -/
theorem excused_of_generate {script : Script} {diagnostic : Diagnostic}
    (h : script.generate = .error diagnostic) (hsize : script.codeSize < maxCodeSize)
    (P : Position → Prop) : diagnostic.fault.Excused (script.IsProper P) := by
  rcases script.generate_cases with ⟨other, hrun, herror⟩ | ⟨g, -, -, hok⟩
  · rw [herror] at h
    cases h
    refine (script.runs_body P).fails diagnostic hrun ?_
    rwa [show Code.size ({} : Generator).code = 0 from rfl, Nat.zero_add]
  · rw [hok] at h
    cases h

/-- Writing the code of a script carefully comes to the same. -/
theorem generateFrom_careful (script : Script) :
    script.generateFrom { careful := true } = script.generate := by
  have hrun : (Node.statements script.body).run { careful := true } = _ :=
    (script.runs_body fun _ => True).careful
  unfold generate generateFrom
  rw [hrun]
  cases (Node.statements script.body).run {} <;> rfl

/-- Whatever the tree, no branch is left without a target and none makes the generator fail. Each
target goes to a branch that waits and changes nothing else: a generator that refuses to point any
other branch writes the same code or fails in the same way. -/
theorem patches_of_generate (script : Script) (hsize : script.codeSize < maxCodeSize) :
    (∀ diagnostic, script.generate = .error diagnostic → diagnostic.fault.isPatching = false) ∧
    (∀ code, script.generate = .ok code → ∀ i I jump, code.Has i I → I.jump? = some jump →
      jump ≠ .pending ∧ ∃ target ≤ code.size, jump.Leads i target) ∧
    script.generateFrom { careful := true } = script.generate ∧
    ∀ (g g' : Generator) (site target : Nat) (p : Position), g.careful = true →
      Gives (patch site target p) g () g' → g.Completes g' site target := by
  refine ⟨fun diagnostic h => (excused_of_generate h hsize fun _ => True).patching, ?_,
    script.generateFrom_careful, fun g g' site target p => completes_of_patch⟩
  intro code h i I jump hI hjump
  obtain ⟨hwithin, -, hcode⟩ := within_of_generate h
  obtain ⟨target, htarget, hleads⟩ := hwithin.branches i I jump hI hjump
  refine ⟨?_, target, by omega, hleads⟩
  rintro rfl
  obtain ⟨distance, hrelative, -⟩ := hleads
  cases hrelative

/-- A tree that no text has: its switch has two arms without a label. -/
theorem patches_of_generate_two_defaults :
    let p : Position := .nowhere
    let arms : List (Case Node) :=
      [⟨none, [.breaking p], p⟩, ⟨some (.int p 3), [.continuing p], p⟩, ⟨none, [], p⟩]
    let script : Script := ⟨[.whileDo p (.int p 1) (.switch p (.int p 2) arms)]⟩
    script.codeSize < maxCodeSize ∧ ∃ code, script.generate = .ok code ∧
      script.generateFrom { careful := true } = .ok code ∧
      ∀ i I jump, code.Has i I → I.jump? = some jump →
        jump ≠ .pending ∧ ∃ target ≤ code.size, jump.Leads i target := by
  intro p arms script
  have hsize : script.codeSize < maxCodeSize := by decide +kernel
  obtain ⟨code, hcode, -⟩ := exists_ok_of_any (p := fun code => code.size = script.codeSize + 1)
    (x := script.generate) (by decide +kernel)
  obtain ⟨-, hjumps, hcareful, -⟩ := patches_of_generate script hsize
  exact ⟨hsize, code, hcode, hcareful.trans hcode, hjumps code hcode⟩

end Script

end Gml
