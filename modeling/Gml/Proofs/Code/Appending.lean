import Gml.Proofs.Code.Landing
import Gml.Proofs.Tree.Leaves

/-!
# Scripts that go on

A script is gone through front to back: its names are looked up in the order of its statements, and
its code is written in this order. So more statements at its end leave alone what there is already.
The code of the longer script starts with that of the shorter one, with all its branches, tables and
marks (`Script.generate_of_append`).

There are three exceptions. An enumeration at top level is known from the start, so it may change
what stands before it. The instruction that ends the shorter script is not there if it was only
added (`Script.bareCode`). And a statement without code at the end is marked where the next one
starts, which takes its place.
-/

namespace Gml

/-! ### Longer code -/

/-- Entries that are all in another table at the same place are its start. -/
theorem prefix_of_getElem? {α : Type} {xs ys : Array α}
    (h : ∀ (i : Nat) (x : α), xs[i]? = some x → ys[i]? = some x) : xs.toList <+: ys.toList := by
  refine List.prefix_iff_getElem?.2 fun i hi => ?_
  rw [Array.getElem?_toList]
  refine h i _ ?_
  rw [← Array.getElem?_toList, List.getElem?_eq_getElem hi]

namespace Code

variable {code code' : Code}

/-- Code with the instruction that ends a script, which is added if it does not end in one. -/
def ended (code : Code) : Code :=
  if code.instructions.back? = some .exit then code else code.push .exit

/-- Ending code changes the instructions only. -/
theorem exists_ended (code : Code) : ∃ instructions, code.ended = { code with instructions } := by
  unfold ended
  split
  · exact ⟨_, rfl⟩
  · exact ⟨_, rfl⟩

/-- Code is the start of longer code that is ended. -/
theorem StartOf.ended (h : code.StartOf code') : code.StartOf code'.ended := by
  unfold Code.ended
  split
  · exact h
  · refine h.trans ⟨.push code' .exit, ?_, rfl⟩
    rw [Generator.size_push]
    exact Nat.le_succ _

/-- In the start of longer code branches have the targets that they keep, if none of them waits. -/
theorem StartOf.instructions (h : code.StartOf code') {bound : Nat} (hwithin : code.Within bound) :
    code.instructions.toList <+: code'.instructions.toList := by
  refine prefix_of_getElem? fun i I hI => h.has hI fun hpending => ?_
  obtain ⟨target, -, distance, hjump, -⟩ := hwithin.branches i I .pending hI hpending
  cases hjump

end Code

/-! ### Looking up names -/

namespace Node

variable {context : Context} {site : Site}

/-- What becomes of the first nodes does not depend on the others. -/
theorem exists_of_resolveAll_append {xs ys out : List Node} {scope after : Scope}
    (h : (resolveAll context site (xs ++ ys)).run scope = .ok (out, after)) :
    ∃ first between rest, (resolveAll context site xs).run scope = .ok (first, between) ∧
      out = first ++ rest := by
  induction xs generalizing scope out with
  | nil => exact ⟨[], scope, out, rfl, rfl⟩
  | cons node xs ih =>
    obtain ⟨node', scope₁, hnode, h⟩ := Resolve.exists_of_run_bind h
    obtain ⟨rest', scope₂, hrest, h⟩ := Resolve.exists_of_run_bind h
    cases h
    obtain ⟨first, between, rest, hfirst, rfl⟩ := ih hrest
    refine ⟨node' :: first, between, rest, ?_, rfl⟩
    change StateT.run (node.resolve context site >>= _) scope = _
    rw [StateT.run_bind, hnode]
    change ((resolveAll context site xs).run scope₁ >>= _) = _
    rw [hfirst]
    rfl

end Node

namespace Script

open Generate

/-- Statements that declare no enumeration are passed over when enumerations are declared. -/
theorem declareEnums_append {p s : List Node} (h : ∀ node ∈ s, node.enumeration? = none) :
    declareEnums (p ++ s) = declareEnums p := by
  induction p with
  | nil =>
    induction s with
    | nil => rfl
    | cons node s ih =>
      rw [List.forall_mem_cons] at h
      cases node with
      | declareEnum => cases h.1
      | _ => exact ih h.2
  | cons node p ih =>
    cases node with
    | declareEnum q name members =>
      exact congrArg (Resolve.declareEnum name members >>= fun _ => ·) ih
    | _ => exact ih

/-- The statements at the front are looked up as they are alone. -/
theorem exists_of_resolve_append {context : Context} {p s : List Node} {long : Script}
    (hs : ∀ node ∈ s, node.enumeration? = none)
    (h : Script.resolve context ⟨p ++ s⟩ = .ok long) :
    ∃ first rest, Script.resolve context ⟨p⟩ = .ok ⟨first⟩ ∧ long = ⟨first ++ rest⟩ := by
  obtain ⟨⟨body, after⟩, hrun, h⟩ := exists_ok_of_bind h
  cases h
  obtain ⟨_, scope, hdeclare, hbody⟩ := Resolve.exists_of_run_bind hrun
  rw [declareEnums_append hs] at hdeclare
  obtain ⟨first, between, rest, hfirst, rfl⟩ := Node.exists_of_resolveAll_append hbody
  refine ⟨first, rest, ?_, rfl⟩
  unfold Script.resolve
  dsimp only
  rw [StateT.run_bind, hdeclare]
  change ((Node.resolveAll context .statement p).run scope >>= _) = _
  rw [hfirst]
  rfl

/-! ### Writing code -/

/-- Statements are written one list after the other. -/
theorem gives_statements_append {xs ys : List Node} {g g'' : Generator} :
    Gives (Node.statements (xs ++ ys)) g () g'' ↔
      ∃ g', Gives (Node.statements xs) g () g' ∧ Gives (Node.statements ys) g' () g'' := by
  induction xs generalizing g with
  | nil => exact ⟨fun h => ⟨g, rfl, h⟩, fun ⟨_, hnil, h⟩ => by cases hnil; exact h⟩
  | cons node xs ih =>
    change Gives (node.statement >>= fun _ => Node.statements (xs ++ ys)) g () g'' ↔
      ∃ g', Gives (node.statement >>= fun _ => Node.statements xs) g () g' ∧ _
    simp only [gives_bind, ih]
    constructor
    · rintro ⟨_, g₁, hnode, g', hxs, hys⟩
      exact ⟨g', ⟨_, g₁, hnode, hxs⟩, hys⟩
    · rintro ⟨g', ⟨_, g₁, hnode, hxs⟩, hys⟩
      exact ⟨_, g₁, hnode, g', hxs, hys⟩

/-- The code of the statements of a script, without an instruction that is added to end it. -/
def bareCode (script : Script) : Except Diagnostic Code := do
  let (_, generator) ← (Node.statements script.body).run {}
  return generator.code

/-- A script is its code without the end, and the end. -/
theorem generate_of_bareCode {script : Script} {bare : Code} (h : script.bareCode = .ok bare) :
    bare.Within bare.size ∧ script.generate = .ok bare.ended := by
  obtain ⟨⟨_, g⟩, hrun, h⟩ := exists_ok_of_bind h
  cases h
  exact generate_of_gives hrun

/-- The code of the first statements is the start of the code of all. -/
theorem startOf_of_generate {xs ys : List Node} {code : Code}
    (h : generate ⟨xs ++ ys⟩ = .ok code) :
    ∃ bare, bareCode ⟨xs⟩ = .ok bare ∧ bare.StartOf code := by
  obtain ⟨g'', hall⟩ := gives_of_generate h
  obtain ⟨g', hxs, hys⟩ := gives_statements_append.1 hall
  have horder := ((runs_body ⟨xs⟩ fun _ => True).gives () g' hxs).2
  have hstart := (Node.adds_all [] ys g' [] horder).keeps () g'' hys
  have hcode := (generate_of_gives hall).2
  rw [hcode] at h
  cases h
  refine ⟨g'.code, ?_, hstart.ended⟩
  unfold bareCode
  rw [show (Node.statements xs).run {} = .ok ((), g') from hxs]
  rfl

/-- If more statements at the end of a script declare no enumeration at top level, they leave its
code as it is: the code of both together starts with the instructions of the statements, its tables
start with their tables, and the marks before the end of the instructions are the same. -/
theorem generate_of_append {context : Context} {p s : List Node} {code' : Code}
    (hs : ∀ node ∈ s, node.enumeration? = none)
    (h : (Script.resolve context ⟨p ++ s⟩ >>= generate) = .ok code') :
    ∃ bare code, (Script.resolve context ⟨p⟩ >>= bareCode) = .ok bare ∧
      (Script.resolve context ⟨p⟩ >>= generate) = .ok code ∧ code = bare.ended ∧
      bare.instructions.toList <+: code'.instructions.toList ∧
      code.strings.toList <+: code'.strings.toList ∧
      code.constants.toList <+: code'.constants.toList ∧
      code.locals.toList <+: code'.locals.toList ∧
      code'.marks.toList.filter (·.1 < bare.size) = code.marks.toList.filter (·.1 < bare.size) := by
  obtain ⟨long, hlong, h⟩ := exists_ok_of_bind h
  obtain ⟨first, rest, hfirst, rfl⟩ := exists_of_resolve_append hs hlong
  obtain ⟨bare, hbare, hstart⟩ := startOf_of_generate h
  obtain ⟨hwithin, hcode⟩ := generate_of_bareCode hbare
  refine ⟨bare, bare.ended, ?_, ?_, rfl, hstart.instructions hwithin, ?_⟩
  · rw [hfirst]
    exact hbare
  · rw [hfirst]
    exact hcode
  · obtain ⟨instructions, hended⟩ := bare.exists_ended
    rw [hended]
    exact ⟨prefix_of_getElem? fun _ _ => hstart.strings,
      prefix_of_getElem? fun _ _ => hstart.constants, prefix_of_getElem? fun _ _ => hstart.locals,
      hstart.marks⟩

/-- A loop, whose branches keep their distances, and a declaration, whose mark makes room for that
of the next statement. -/
theorem generate_of_append_loop :
    let o : Position := .nowhere
    let x : Node := .ident o "x" .unresolved
    let p : List Node := [.whileDo o x (.breaking o), .declare o [⟨"y", none, o⟩]]
    let s : List Node := [.declare o [⟨"x", some (.string o "x" false), o⟩], .discard o x]
    (∀ node ∈ s, node.enumeration? = none) ∧
    ∃ bare code code', (Script.resolve {} ⟨p⟩ >>= bareCode) = .ok bare ∧
      (Script.resolve {} ⟨p⟩ >>= generate) = .ok code ∧
      (Script.resolve {} ⟨p ++ s⟩ >>= generate) = .ok code' ∧ code = bare.ended ∧
      bare.instructions.toList <+: code'.instructions.toList ∧
      code.strings.toList <+: code'.strings.toList ∧
      code.constants.toList <+: code'.constants.toList ∧
      code.locals.toList <+: code'.locals.toList ∧
      code'.marks.toList.filter (·.1 < bare.size) =
        code.marks.toList.filter (·.1 < bare.size) := by
  intro o x p s
  have hs : ∀ node ∈ s, node.enumeration? = none := List.forall_mem_cons.2
    ⟨rfl, List.forall_mem_singleton.2 rfl⟩
  obtain ⟨code', hcode', -⟩ := exists_ok_of_any (p := fun code => code.locals = #["y", "x"])
    (x := Script.resolve {} ⟨p ++ s⟩ >>= generate) (by decide +kernel)
  obtain ⟨bare, code, hbare, hcode, hstart⟩ := generate_of_append hs hcode'
  exact ⟨hs, bare, code, code', hbare, hcode, hcode', hstart⟩

end Script

end Gml
