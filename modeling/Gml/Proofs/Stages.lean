import Gml.Proofs.Assembly.Landing
import Gml.Proofs.Tree.Order

/-!
# The stages of compilation agree

Each stage of compilation counts on the one before it, and reports an internal error where a tree or
code is not as it expects. None of these comes up for a source (`compile_never_internal`):

* Reading a source puts expressions and statements where they belong, and every `break` and
  `continue` inside of a construct that code has a frame for (`Script.actions_of_parse`).
* Looking up the names leaves none without a meaning, and refuses every target that code cannot store
  to (`Script.actions_of_resolve`).
* Writing code for such a tree gives every branch its target (`Script.excused_of_generate`).
* Assembly finds all of these targets inside of the code or at its end
  (`Code.Within.stage_of_assemble`).

The distance of a branch is a number of 32 bits, so this holds up to a number of instructions.
-/

namespace Gml

variable {text : String} {context : Context}

/-- A script of a source is proper. -/
theorem Script.isProper_of_source {script : Script} {P : Position → Prop}
    (h : Script.ofSource text context = .ok script) (hspans : ∀ node ∈ script.body, node.Spans P) :
    script.IsProper P := by
  intro node hmem
  have haction := Script.actions_of_source h node hmem
  refine ⟨haction.statement, ?_, haction.enclosed⟩
  exact haction.every.imp₂ (fun _ hknown hplaces => ⟨hknown.settled, hplaces⟩) (hspans node hmem)

/-- There are two stages that can fail. -/
theorem compileToCode_eq_error {diagnostic : Diagnostic}
    (h : compileToCode text context = .error diagnostic) :
    Script.ofSource text context = .error diagnostic ∨
      ∃ script, Script.ofSource text context = .ok script ∧ script.generate = .error diagnostic := by
  unfold Script.ofSource
  rcases error_of_bind h with hparse | ⟨parsed, hparse, h⟩
  · rw [hparse]
    exact .inl rfl
  · rw [hparse]
    exact error_of_bind h

/-- Writing code for a source fails because of the source, or because something is too large. -/
theorem stage_of_compileToCode {diagnostic : Diagnostic}
    (hsize : ∀ script, Script.ofSource text context = .ok script → script.codeSize < maxCodeSize)
    (h : compileToCode text context = .error diagnostic) : diagnostic.stage ≠ .codeGen := by
  rcases compileToCode_eq_error h with hsource | ⟨script, hsource, hgenerate⟩
  · rcases Script.stage_of_source hsource with hstage | hstage | hstage
    all_goals
      rw [hstage]
      exact nofun
  · have hexcused := Script.excused_of_generate hgenerate (hsize script hsource) fun _ => True
    have hstage : diagnostic.stage = .assembly :=
      hexcused.stage (Script.isProper_of_source hsource fun node _ => node.spans_true)
    rw [hstage]
    exact nofun

/-- Jumps stay within the code. -/
theorem within_of_compileToCode {code : Code} (h : compileToCode text context = .ok code) :
    code.Within code.size := by
  obtain ⟨script, -, hgenerate⟩ := compileToCode_eq_ok h
  obtain ⟨hwithin, -, hsize⟩ := Script.within_of_generate hgenerate
  exact hwithin.mono (by omega)

/-- No source leads to an internal error, as all stages agree on the trees and the code that they hand
on. -/
theorem compile_never_internal
    (hsize : ∀ script, Script.ofSource text context = .ok script → script.codeSize < maxCodeSize) :
    (∀ diagnostic, compile text context = .error diagnostic → diagnostic.isInternal = false) ∧
    (∀ script, Script.parse text context.versionTier = .ok script →
      ∀ node ∈ script.body, node.ActionOf Node.Read false false) ∧
    (∀ script, Script.ofSource text context = .ok script →
      ∀ node ∈ script.body, node.ActionOf Node.Known false false) ∧
    ∀ code, compileToCode text context = .ok code → code.Within code.size := by
  refine ⟨fun diagnostic h => ?_, fun _ => Script.actions_of_parse,
    fun _ => Script.actions_of_source, fun _ => within_of_compileToCode⟩
  refine decide_eq_false ?_
  rcases error_of_bind h with h | ⟨code, hcode, h⟩
  · exact stage_of_compileToCode hsize h
  · rw [(within_of_compileToCode hcode).stage_of_assemble (Nat.le_refl _) h]
    exact nofun

/-- An operand that is too large for its width. -/
theorem compile_never_internal_operand :
    let context : Context := { encoding := ⟨1, 1, .little⟩ }
    ∃ diagnostic, compile "while (x) { x = 200; if (y) break; }" context = .error diagnostic ∧
      diagnostic.isInternal = false := by
  intro context
  obtain ⟨script, hscript, hsize⟩ := exists_ok_of_any
    (p := fun script => script.codeSize < maxCodeSize)
    (x := Script.ofSource "while (x) { x = 200; if (y) break; }" context) (by decide +kernel)
  have hfails : (compile "while (x) { x = 200; if (y) break; }" context).isOk = false := by
    decide +kernel
  cases h : compile "while (x) { x = 200; if (y) break; }" context with
  | ok assembly =>
    rw [h] at hfails
    cases hfails
  | error diagnostic =>
    refine ⟨diagnostic, rfl, (compile_never_internal fun other hother => ?_).1 diagnostic h⟩
    cases hscript.symm.trans hother
    exact of_decide_eq_true hsize

end Gml
