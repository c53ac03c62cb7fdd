import Gml.Proofs.Code.Landing

/-!
# The places that code tells of

Code tells of places in two ways: it is marked with the places where its statements come from, and
if it cannot be written then the message has a place. All of these are places of the tree
(`Script.marks_of_generate`, `Script.position_of_generate`).

The code of a script that has a statement is marked at its very front. So each instruction has a
place, that of the last mark up to it (`Code.exists_mark`).
-/

namespace Gml

/-- In opened code each instruction has the place of a mark. -/
theorem Code.exists_mark {code : Code} (h : code.IsOpened) (index : Nat) :
    ∃ mark ∈ code.marks, code.positionOf index = mark.2 := by
  obtain ⟨front, hfront, hzero⟩ := h
  unfold positionOf
  split
  next mark hfind =>
    have hmem := List.mem_reverse.1 (List.mem_of_find?_eq_some hfind)
    exact ⟨mark, Array.mem_toList_iff.1 hmem, rfl⟩
  next hfind =>
    have hnone := List.find?_eq_none.1 hfind front
      (List.mem_reverse.2 (Array.mem_toList_iff.2 hfront))
    exact (hnone (decide_eq_true (hzero ▸ Nat.zero_le index))).elim

/-- Every statement starts with a mark. -/
theorem Node.exists_started (node : Node) :
    ∃ body, node.statement = started node.position body := by
  cases node with
  | discard p expression => cases expression <;> exact ⟨_, rfl⟩
  | ifElse p condition thenBody elseBody => cases elseBody <;> exact ⟨_, rfl⟩
  | _ => exact ⟨_, rfl⟩

namespace Script

open Generate Node

variable {P : Position → Prop} {script : Script}

/-- If code cannot be written, the reason is at a place of the script. -/
theorem position_of_generate {diagnostic : Diagnostic} (h : script.IsProper P)
    (hgenerate : script.generate = .error diagnostic) :
    P diagnostic.position ∧ diagnostic.stage ≠ .lexical := by
  rcases script.generate_cases with ⟨other, hrun, herror⟩ | ⟨g, -, -, hok⟩
  · rw [herror] at hgenerate
    cases hgenerate
    exact (script.runs_body P).tells diagnostic hrun h
  · rw [hok] at hgenerate
    cases hgenerate

/-- Code is marked with places of its script. It is opened unless the script has no statements. -/
theorem marks_of_generate {code : Code} (h : script.IsProper P)
    (hgenerate : script.generate = .ok code) :
    (∀ mark ∈ code.marks, P mark.2) ∧ (code.IsOpened ∨ code.instructions = #[.exit]) := by
  obtain ⟨g, hrun⟩ := gives_of_generate hgenerate
  have hcode := (generate_of_gives hrun).2.symm.trans hgenerate
  have hmarks : code.marks = g.code.marks := by
    cases hcode
    split <;> rfl
  refine ⟨fun mark hmark => ?_, ?_⟩
  · rcases ((script.runs_body P).marks () g hrun h).marks mark (hmarks ▸ hmark) with hmark | hplace
    · exact (Array.not_mem_empty mark hmark).elim
    · exact hplace
  cases hbody : script.body with
  | nil =>
    rw [hbody] at hrun
    cases hrun
    cases hcode
    exact .inr rfl
  | cons node rest =>
    -- The same code comes from a state that has the mark of the first statement already.
    obtain ⟨body, hstarted⟩ := node.exists_started
    have hmarked : Gives (statements script.body) { code := Code.mark {} node.position } () g := by
      rw [hbody, statements, hstarted] at hrun ⊢
      exact hrun
    have hruns := script.adds_body P _ [] (Generator.inOrder_start.mark node.position)
    obtain ⟨mark, hmark, hzero⟩ :=
      (hruns.marks () g hmarked h).opened ⟨_, Code.mem_marks_self {} node.position, rfl⟩
    exact .inl ⟨mark, hmarks.symm ▸ hmark, hzero⟩

end Script

end Gml
