import Gml.Proofs.Code.Expression

/-!
# The code of statements without branches

Assignments, steps, expressions whose value is dropped, and declarations: the code that is written
for them does what they say, in the sense of `Code.Acts`.
-/

namespace Gml

namespace Generator

/-- Code is written that does what a statement without branches says. -/
structure Enacts (g g' : Generator) (node : Node) : Prop extends Extends g g' where
  /-- The finished code does it there. -/
  acts : ∀ {code : Code}, g'.code.PartOf code → code.Acts node g.code.size g'.code.size

variable {g g' g'' : Generator} {node : Node}

/-- The code that is laid evaluates its expression. -/
theorem Lays.evaluates {code : Code} (l : g.Lays g' (.value node))
    (h : Generate.Gives node.expression g () g') (hc : g'.code.PartOf code) :
    code.Evaluates node g.code.size g'.code.size :=
  ⟨l.pushes hc, g, g', h, rfl, rfl, hc⟩

/-- The code that is laid leads to its address. -/
theorem Lays.addresses {code : Code} {place : Place} (l : g.Lays g' (.address node place))
    (h : Generate.Gives node.address g place g') (hc : g'.code.PartOf code) :
    code.Addresses node place g.code.size g'.code.size :=
  ⟨l.pushes hc, g, g', h, rfl, rfl, hc⟩

/-- Work on the tables before a statement is no part of its code. -/
theorem Writes.enacts (h : g.Writes g' []) (h' : g'.Enacts g'' node) : g.Enacts g'' node := by
  have ha := @h'.acts
  rw [h.size_eq] at ha
  exact ⟨h.toExtends.trans h'.toExtends, ha⟩

end Generator

namespace Generate

open Generator

/-- The code of an expression pushes its value. -/
def Evaluating (node : Node) : Prop :=
  ∀ ⦃g g' : Generator⦄, Gives node.expression g () g' → g.Lays g' (.value node)

/-- The code of a statement does what it says, without branches. -/
def Enacting (x : Generate Unit) (node : Node) : Prop :=
  ∀ ⦃g g' : Generator⦄, Gives x g () g' → g.Enacts g' node

variable {g g' : Generator} {p : Position}

/-- A mark in front is no matter. -/
theorem started_enacts {node : Node} {body : Generate Unit} (hbody : Enacting body node) :
    Enacting (Node.started p body) node := by
  intro g g' h
  obtain ⟨_, g₁, h₁, h⟩ := gives_bind.1 h
  exact (mark_gives h₁).enacts (hbody h)

/-- An assignment acts as one. -/
theorem enacting_assign {target value : Node} {operator : AssignOp}
    (htarget : ∀ {g g' : Generator} {place : Place}, Gives target.address g place g' →
      g.Lays g' (.address target place))
    (hvalue : Evaluating value) :
    Enacting (Node.assign p target operator value).statement
      (.assign p target operator value) := by
  refine started_enacts ?_
  intro g g' h
  obtain ⟨place, g₁, h₁, h⟩ := gives_bind.1 h
  have l₁ := htarget h₁
  obtain ⟨hload, hstore⟩ := jump?_place (l₁.pushes (.refl _))
  dsimp only at h
  split at h
  next hop =>
    obtain ⟨_, g₂, h₂, h⟩ := gives_bind.1 h
    have l₂ := hvalue h₂
    have w₃ := write_gives h (by simp [hstore])
    refine ⟨l₁.toExtends.trans <| l₂.toExtends.trans w₃.toExtends, fun hc => ?_⟩
    have c₂ := w₃.part.trans hc
    rw [w₃.size_eq]
    exact .assign hop (l₁.addresses h₁ (l₂.part.trans c₂)) (l₂.evaluates h₂ c₂) (w₃.segment hc).1
  next operation hop =>
    simp only [gives_bind] at h
    obtain ⟨_, g₂, h₂, _, g₃, h₃, _, g₄, h₄, h⟩ := h
    have w₂ := loadKeeping_gives hload h₂
    have l₃ := hvalue h₃
    have w₄ := (write_gives h₄ (by simp [Node.jump?_binary])).append
      (write_gives h (by simp [hstore]))
    refine ⟨l₁.toExtends.trans <| w₂.toExtends.trans <| l₃.toExtends.trans w₄.toExtends,
      fun hc => ?_⟩
    have c₃ := w₄.part.trans hc
    have c₂ := l₃.part.trans c₃
    have hevaluates := l₃.evaluates h₃ c₃
    rw [w₂.size_eq] at hevaluates
    rw [w₄.size_eq]
    exact .compound hop (l₁.addresses h₁ (w₂.part.trans c₂)) (w₂.segment c₂) hevaluates
      (w₄.segment hc)

/-- A step acts as one. -/
theorem enacting_step {q : Position} {target : Node} {step : Step} {inFront : Bool}
    (htarget : ∀ {g g' : Generator} {place : Place}, Gives target.address g place g' →
      g.Lays g' (.address target place)) :
    Enacting (Node.discard p (.update q target step inFront)).statement
      (.discard p (.update q target step inFront)) := by
  refine started_enacts ?_
  intro g g' h
  simp only [gives_bind] at h
  obtain ⟨place, g₁, h₁, _, g₂, h₂, _, g₃, h₃, h⟩ := h
  have l₁ := htarget h₁
  obtain ⟨hload, hstore⟩ := jump?_place (l₁.pushes (.refl _))
  have w₄ := (loadKeeping_gives hload h₂).append <| (stepByOne_gives h₃).append
    (write_gives h (by simp [hstore]))
  refine ⟨l₁.toExtends.trans w₄.toExtends, fun hc => ?_⟩
  rw [w₄.size_eq, List.length_append, ← Nat.add_assoc]
  exact .step (l₁.addresses h₁ (w₄.part.trans hc)) (w₄.segment hc)

/-- The code of an expression whose value is dropped. -/
theorem enacting_drop {expression : Node} (hupdate : expression.isUpdate = false)
    (hexpression : Evaluating expression) :
    Enacting (Node.started p do expression.expression; write .popz) (.discard p expression) := by
  refine started_enacts ?_
  intro g g' h
  obtain ⟨_, g₁, h₁, h⟩ := gives_bind.1 h
  have l₁ := hexpression h₁
  have w₂ := write_gives h (by simp [Instruction.jump?])
  refine ⟨l₁.toExtends.trans w₂.toExtends, fun hc => ?_⟩
  rw [w₂.size_eq]
  exact .discard hupdate (l₁.evaluates h₁ (w₂.part.trans hc)) (w₂.segment hc).1

/-- Declarations store the values of their variables. -/
theorem declarations_gives {bindings : List (Binding Node)}
    (hvalues : ∀ binding ∈ bindings, ∀ value, binding.value = some value →
      Evaluating value)
    (hnames : ∀ binding ∈ bindings, ¬ IsTemporary binding.name)
    (h : Gives (Node.declarations bindings) g () g') :
    g.Extends g' ∧ ∀ {code : Code}, g'.code.PartOf code →
      code.Declares bindings g.code.size g'.code.size := by
  induction bindings generalizing g with
  | nil =>
    obtain ⟨-, rfl⟩ := gives_pure.1 h
    exact ⟨.refl _, fun _ => .done⟩
  | cons binding rest ih =>
    have hvalues' := fun b hb => hvalues b (List.mem_cons_of_mem binding hb)
    have hnames' := fun b hb => hnames b (List.mem_cons_of_mem binding hb)
    have hname := hnames binding List.mem_cons_self
    rcases binding with ⟨name, _ | value, q⟩
    · simp only [Node.declarations, gives_bind] at h
      obtain ⟨id, g₁, h₁, h⟩ := h
      obtain ⟨w₁, -⟩ := slot_gives h₁
      obtain ⟨x₂, hrest⟩ := ih hvalues' hnames' h
      refine ⟨w₁.toExtends.trans x₂, fun hc => .plain ?_⟩
      have := hrest hc
      rwa [w₁.size_eq] at this
    · simp only [Node.declarations, gives_bind] at h
      obtain ⟨id, g₁, h₁, _, g₂, h₂, _, g₃, h₃, h⟩ := h
      obtain ⟨w₁, hs⟩ := slot_gives h₁
      have l₂ := hvalues _ List.mem_cons_self value rfl h₂
      have w₃ := write_gives h₃ (by simp [Instruction.jump?])
      obtain ⟨x₄, hrest⟩ := ih hvalues' hnames' h
      refine ⟨w₁.toExtends.trans <| l₂.toExtends.trans <| w₃.toExtends.trans x₄, fun hc => ?_⟩
      have c₃ := x₄.part.trans hc
      have c₂ := w₃.part.trans c₃
      have hevaluates := l₂.evaluates h₂ c₂
      have hdeclares := hrest hc
      rw [w₁.size_eq] at hevaluates
      rw [w₃.size_eq] at hdeclares
      exact .valued hname ((l₂.part.trans c₂).slot hs) hevaluates (w₃.segment c₃).1 hdeclares

end Generate

namespace Node

open Generate Generator

variable {p : Position}

/-- A regular expression is evaluated by its code. -/
theorem evaluating_expression {node : Node} (h : node.Every Node.Regular) : Evaluating node :=
  fun _ _ => lays_expression node h

/-- So is one that may be missing. -/
theorem evaluating_option {label : Option Node} (h : EveryOption Node.Regular label) :
    ∀ node, label = some node → Evaluating node := by
  rintro node rfl
  exact evaluating_expression h

/-- An expression is evaluated for its effects. -/
theorem enacting_discard {expression : Node} (h : expression.Every Node.Regular) :
    Enacting (Node.discard p expression).statement (.discard p expression) := by
  cases expression with
  | update q target step inFront => exact enacting_step (lays_address target h.2)
  | _ => exact enacting_drop rfl (evaluating_expression h)

/-- Variables are declared one after the other. -/
theorem enacting_declare {bindings : List (Binding Node)}
    (h : (Node.declare p bindings).Every Node.Regular) :
    Enacting (Node.declare p bindings).statement (.declare p bindings) := by
  refine started_enacts ?_
  intro g g' hg
  have hvalues := (everyBinding_iff _ bindings).1 h.2
  obtain ⟨x, hd⟩ := declarations_gives (fun b hb => evaluating_option (hvalues b hb)) h.1 hg
  exact ⟨x, fun hc => .declare (hd hc)⟩

/-- Declarations without values write no code. -/
theorem enacting_nothing {node : Node} (h : ∀ (code : Code) (a : Nat), code.Acts node a a) :
    Enacting (started p (return)) node := by
  refine started_enacts ?_
  intro g g' hg
  obtain ⟨-, rfl⟩ := gives_pure.1 hg
  exact ⟨.refl _, fun _ => h _ _⟩

end Node

end Gml
