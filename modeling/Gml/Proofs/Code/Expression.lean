import Gml.Proofs.Code.Writing

/-!
# The code of expressions

The code that is written for an expression pushes its value, in the sense of `Code.Pushes`: this is
`lays_expression`, by one induction over the tree with the addresses of places, lists of operands and
fields of structs. What was written before is left alone.
-/

namespace Gml

namespace Generator

/-- Code is written that pushes an operand, and what was there is left alone. -/
structure Lays (g g' : Generator) (operand : Operand) : Prop extends Extends g g' where
  /-- The finished code pushes the operand there. -/
  pushes : ∀ {code : Code}, g'.code.PartOf code →
    code.Pushes operand g.code.size g'.code.size

end Generator

namespace Generate

open Generator

variable {g g' : Generator}

/-! ### Places -/

variable {place : Place} {p : Position} {resolution : Resolution}

/-- The instructions of a variable are no branches. -/
theorem jump?_variable {code : Code} {name : String} {load store : Instruction}
    (h : code.Variable name resolution load store) : load.jump? = none ∧ store.jump? = none := by
  cases h <;> exact ⟨rfl, rfl⟩

/-- The instructions of a place are no branches. -/
theorem jump?_place {code : Code} {node : Node} {a b : Nat}
    (h : code.Pushes (.address node place) a b) :
    place.load.jump? = none ∧ place.store.jump? = none := by
  cases h with
  | name hv => exact jump?_variable hv
  | member => exact ⟨rfl, rfl⟩
  | argument => exact ⟨rfl, rfl⟩
  | element => exact ⟨rfl, rfl⟩

/-- A name has the instructions of its meaning. -/
theorem namedPlace_gives {name : String} (hn : ¬ IsTemporary name)
    (h : Gives (namedPlace name resolution p) g place g') :
    g.Writes g' [] ∧ ∃ load store, place = .named load store ∧
      ∀ {code : Code}, g'.code.PartOf code → code.Variable name resolution load store := by
  cases resolution with
  | localVar =>
    simp only [namedPlace, gives_bind, gives_pure] at h
    obtain ⟨id, _, h, rfl, rfl⟩ := h
    obtain ⟨hw, he⟩ := slot_gives h
    exact ⟨hw, _, _, rfl, fun hc => .localVar hn (hc.slot he)⟩
  | globalVar =>
    simp only [namedPlace, gives_bind, gives_pure] at h
    obtain ⟨id, _, h, rfl, rfl⟩ := h
    obtain ⟨hw, he⟩ := string_gives h
    exact ⟨hw, _, _, rfl, fun hc => .globalVar (hc.string he)⟩
  | builtinVariable =>
    simp only [namedPlace, gives_bind, gives_pure] at h
    obtain ⟨id, _, h, rfl, rfl⟩ := h
    obtain ⟨hw, he⟩ := string_gives h
    exact ⟨hw, _, _, rfl, fun hc => .builtinVariable (hc.string he)⟩
  | argumentArray =>
    simp only [namedPlace, gives_bind, gives_pure] at h
    obtain ⟨id, _, h, rfl, rfl⟩ := h
    obtain ⟨hw, he⟩ := string_gives h
    exact ⟨hw, _, _, rfl, fun hc => .argumentArray (hc.string he)⟩
  | dynamic =>
    simp only [namedPlace, gives_bind, gives_pure] at h
    obtain ⟨id, _, h, rfl, rfl⟩ := h
    obtain ⟨hw, he⟩ := string_gives h
    exact ⟨hw, _, _, rfl, fun hc => .dynamic (hc.string he)⟩
  | argument index =>
    obtain ⟨rfl, rfl⟩ := gives_pure.1 h
    exact ⟨⟨.refl _, rfl, fun _ => trivial⟩, _, _, rfl, fun _ => .argument index⟩
  | unresolved => exact (gives_fail h).elim
  | builtinFunction => exact (gives_fail h).elim
  | userSymbol reference => exact (gives_fail h).elim
  | intrinsic value => exact (gives_fail h).elim

/-- Its place is the address of the name. -/
theorem lays_name {name : String} (hn : ¬ IsTemporary name)
    (h : Gives (namedPlace name resolution p) g place g') :
    g.Lays g' (.address (.ident p name resolution) place) := by
  obtain ⟨hw, load, store, rfl, hv⟩ := namedPlace_gives hn h
  refine ⟨hw.toExtends, fun hc => ?_⟩
  rw [hw.size_eq]
  exact .name (hv hc)

/-- A place is loaded, and kept for the store. -/
theorem loadKeeping_gives {u : Unit} (hl : place.load.jump? = none)
    (h : Gives (loadKeeping place) g u g') : g.Writes g' place.keeping := by
  unfold loadKeeping at h
  unfold Place.keeping
  split at h
  · rw [if_pos ‹_›]
    obtain ⟨_, g₁, h₁, h⟩ := gives_bind.1 h
    exact (write_gives h₁ (by simp [Instruction.jump?])).append (write_gives h (by simp [hl]))
  · rw [if_neg ‹_›]
    exact write_gives h (by simp [hl])

/-- A step adds or takes one. -/
theorem stepByOne_gives {step : Step} {u : Unit} (h : Gives (stepByOne step) g u g') :
    g.Writes g' [.pushInt 1, step.instruction] := by
  obtain ⟨_, g₁, h₁, h⟩ := gives_bind.1 h
  refine (write_gives h₁ (by simp [Instruction.jump?])).append (write_gives h ?_)
  cases step <;> simp [Step.instruction, Instruction.jump?]

/-- A step on a place writes its instructions. -/
theorem stepped_gives {step : Step} {inFront : Bool} {u : Unit} (hl : place.load.jump? = none)
    (hs : place.store.jump? = none) (h : Gives (stepped place step inFront) g u g') :
    ∃ kept, (place.isNamed = false → ∃ n, Entry g'.code.locals kept (temporaryName n)) ∧
      g.Writes g' (place.stepping step inFront kept) := by
  have hdup : (Instruction.dup 1).jump? ≠ some .pending := by simp [Instruction.jump?]
  have hpop : ∀ id, (Instruction.popLocal id).jump? ≠ some .pending := by simp [Instruction.jump?]
  have hpush : ∀ id, (Instruction.pushLocal id).jump? ≠ some .pending := by
    simp [Instruction.jump?]
  have hstore : place.store.jump? ≠ some .pending := by simp [hs]
  obtain ⟨_, g₀, h₀, h⟩ := gives_bind.1 h
  have w₀ := loadKeeping_gives hl h₀
  rcases place with ⟨load, store⟩ | name | ⟨accessor, dims⟩ | _ <;> cases inFront <;>
    simp only [gives_bind] at h
  · obtain ⟨_, g₁, h₁, _, g₂, h₂, h⟩ := h
    exact ⟨0, by simp [Place.isNamed], w₀.append <| (write_gives h₁ hdup).append <|
      (stepByOne_gives h₂).append (write_gives h hstore)⟩
  · obtain ⟨_, g₁, h₁, _, g₂, h₂, h⟩ := h
    exact ⟨0, by simp [Place.isNamed], w₀.append <| (stepByOne_gives h₁).append <|
      (write_gives h₂ hdup).append (write_gives h hstore)⟩
  case field.false | element.false | argument.false =>
    obtain ⟨kept, g₁, h₁, _, g₂, h₂, _, g₃, h₃, _, g₄, h₄, _, g₅, h₅, h⟩ := h
    obtain ⟨w₁, n, hn⟩ := temporary_gives h₁
    have w := (write_gives h₂ hdup).append <| (write_gives h₃ (hpop kept)).append <|
      (stepByOne_gives h₄).append <| (write_gives h₅ hstore).append (write_gives h (hpush kept))
    exact ⟨kept, fun _ => ⟨n, w.part.slot hn⟩, w₀.append (w₁.append w)⟩
  case field.true | element.true | argument.true =>
    obtain ⟨kept, g₁, h₁, _, g₂, h₂, _, g₃, h₃, _, g₄, h₄, _, g₅, h₅, h⟩ := h
    obtain ⟨w₁, n, hn⟩ := temporary_gives h₁
    have w := (stepByOne_gives h₂).append <| (write_gives h₃ hdup).append <|
      (write_gives h₄ (hpop kept)).append <| (write_gives h₅ hstore).append
        (write_gives h (hpush kept))
    exact ⟨kept, fun _ => ⟨n, w.part.slot hn⟩, w₀.append (w₁.append w)⟩

/-! ### Branches inside of expressions -/

/-- The code of an `and` or `or`: the branch after the first operand goes to the fixed result. -/
theorem shortCircuit_gives {test : Instruction} {decided : Int32} {lhs rhs : Generate Unit}
    {l r : Node} {u : Unit} (ht : test.jump? = some .pending)
    (hl : ∀ {g g' : Generator}, Gives lhs g () g' → g.Lays g' (.value l))
    (hr : ∀ {g g' : Generator}, Gives rhs g () g' → g.Lays g' (.value r))
    (h : Gives (shortCircuit test decided p lhs rhs) g u g') :
    g.Extends g' ∧ ∃ (k b : Nat) (short done : Jump), g'.code.size = b + 4 ∧
      short.Leads k (b + 3) ∧ done.Leads (b + 2) (b + 4) ∧
      ∀ {code : Code}, g'.code.PartOf code →
        code.Pushes (.value l) g.code.size k ∧
        (∀ {J : Instruction}, test.withJump? short = some J → code.Has k J) ∧
        code.Pushes (.value r) (k + 1) b ∧
        code.Segment b [.not, .not, .branch done, .pushInt decided] := by
  simp only [shortCircuit, gives_bind] at h
  obtain ⟨_, g₁, h₁, short, g₂, h₂, _, g₃, h₃, _, g₄, h₄, _, g₅, h₅, done, g₆, h₆, _, g₇, h₇, _,
    g₈, h₈, h⟩ := h
  have l₁ := hl h₁
  obtain ⟨x₂, rfl, s₂, open₂⟩ := emit_gives h₂
  have l₃ := hr h₃
  have w₅ := (write_gives h₄ (by simp [Instruction.jump?])).append
    (write_gives h₅ (by simp [Instruction.jump?]))
  obtain ⟨x₆, rfl, s₆, open₆⟩ := emit_gives h₆
  have w₈ := write_gives h₈ (by simp [Instruction.jump?])
  -- Two branches wait at once: the one of the test is pointed to its target first.
  have chain : ∀ {W : List Gap}, g.code.Waits W →
      g₆.Points g₇ [g₁.code.size] test g₆.code.size ∧
        g₈.Points g' [g₅.code.size] (.branch .pending) g₈.code.size ∧ g'.code.Waits W := by
    intro W w
    have w₂ := open₂ ht (l₁.waits w)
    have w₆ := open₆ rfl (w₅.waits (l₃.waits w₂))
    obtain ⟨p₇, w₇⟩ := patchHere_gives h₇ (w₆.perm (.swap _ _ _))
    obtain ⟨p₉, w₉⟩ := patchHere_gives h (w₈.waits w₇)
    exact ⟨p₇, p₉, w₉⟩
  obtain ⟨p₇, p₉, -⟩ := chain (.nil g.code)
  have hx : g.Extends g₆ :=
    l₁.toExtends.trans <| x₂.trans <| l₃.toExtends.trans <| w₅.toExtends.trans x₆
  have hs₅ : g₅.code.size = g₃.code.size + 2 := w₅.size_eq
  have hs₆ : g₆.code.size = g₃.code.size + 3 := by rw [s₆, hs₅]
  have hs₇ : g₇.code.size = g₃.code.size + 3 := p₇.size_eq.trans hs₆
  have hs₈ : g₈.code.size = g₃.code.size + 4 := by rw [w₈.size_eq, hs₇]; rfl
  obtain ⟨short, hshort, hasShort⟩ := p₇.leads _ (List.mem_singleton.2 rfl)
  obtain ⟨done, hdone, hasDone⟩ := p₉.leads _ (List.mem_singleton.2 rfl)
  rw [hs₆] at hshort
  rw [hs₅, hs₈] at hdone
  have hsize : g'.code.size = g₃.code.size + 4 := p₉.size_eq.trans hs₈
  refine ⟨⟨?_, ?_, fun w => (chain w).2.2, ?_, ?_⟩, g₁.code.size, g₃.code.size, short, done,
    hsize, hshort, hdone, ?_⟩
  · rw [p₉.frames, w₈.frames, p₇.frames, hx.frames]
  · have := hx.size_le
    omega
  · exact hx.part.trans <| p₇.part.trans <| w₈.part.trans p₉.part
  · rw [p₉.locals]
    exact fun hn => w₈.nodup (p₇.locals ▸ hx.nodup hn)
  · intro code hc
    have c₈ := p₉.part.trans hc
    have c₇ := w₈.part.trans c₈
    have c₅ := x₆.part.trans (p₇.part.trans c₇)
    have c₃ := w₅.part.trans c₅
    have hnots := w₅.segment c₅
    have hresult := (w₈.segment c₈).1
    have hbranch := hasDone rfl hc
    rw [hs₇] at hresult
    rw [hs₅] at hbranch
    exact ⟨l₁.pushes (x₂.part.trans (l₃.part.trans c₃)), fun hJ => hasShort hJ c₇,
      s₂ ▸ l₃.pushes c₃, hnots.1, hnots.2.1, hbranch, hresult, trivial⟩

/-- The code of a choice between two values: each branch skips one of them. -/
theorem lays_conditional {c t e : Node} {u : Unit}
    (hc : ∀ {g g' : Generator}, Gives c.expression g () g' → g.Lays g' (.value c))
    (ht : ∀ {g g' : Generator}, Gives t.expression g () g' → g.Lays g' (.value t))
    (he : ∀ {g g' : Generator}, Gives e.expression g () g' → g.Lays g' (.value e))
    (h : Gives (Node.conditional p c t e).expression g u g') :
    g.Lays g' (.value (.conditional p c t e)) := by
  replace h := gives_bind.1 h
  simp only [gives_bind] at h
  obtain ⟨_, g₁, h₁, skipThen, g₂, h₂, _, g₃, h₃, skipElse, g₄, h₄, _, g₅, h₅, _, g₆, h₆, h⟩ := h
  have l₁ := hc h₁
  obtain ⟨x₂, rfl, s₂, open₂⟩ := emit_gives h₂
  have l₃ := ht h₃
  obtain ⟨x₄, rfl, s₄, open₄⟩ := emit_gives h₄
  have l₆ := he h₆
  have chain : ∀ {W : List Gap}, g.code.Waits W →
      g₄.Points g₅ [g₁.code.size] (.branchFalse .pending) g₄.code.size ∧
        g₆.Points g' [g₃.code.size] (.branch .pending) g₆.code.size ∧ g'.code.Waits W := by
    intro W w
    have w₂ := open₂ rfl (l₁.waits w)
    have w₄ := open₄ rfl (l₃.waits w₂)
    obtain ⟨p₅, w₅⟩ := patchHere_gives h₅ (w₄.perm (.swap _ _ _))
    obtain ⟨p₇, w₇⟩ := patchHere_gives h (l₆.waits w₅)
    exact ⟨p₅, p₇, w₇⟩
  obtain ⟨p₅, p₇, -⟩ := chain (.nil g.code)
  have hx : g.Extends g₄ := l₁.toExtends.trans <| x₂.trans <| l₃.toExtends.trans x₄
  obtain ⟨skipThen, hThen, hasThen⟩ := p₅.leads _ (List.mem_singleton.2 rfl)
  obtain ⟨skipElse, hElse, hasElse⟩ := p₇.leads _ (List.mem_singleton.2 rfl)
  refine ⟨⟨?_, ?_, fun w => (chain w).2.2, ?_, ?_⟩, fun {code} hc => ?_⟩
  · rw [p₇.frames, l₆.frames, p₅.frames, hx.frames]
  · rw [p₇.size_eq]
    exact Nat.le_trans hx.size_le (p₅.size_eq ▸ l₆.size_le)
  · exact hx.part.trans <| p₅.part.trans <| l₆.part.trans p₇.part
  · rw [p₇.locals]
    exact fun hn => l₆.nodup (p₅.locals ▸ hx.nodup hn)
  · have c₆ := p₇.part.trans hc
    have c₅ := l₆.part.trans c₆
    have c₃ := x₄.part.trans (p₅.part.trans c₅)
    have hpushes := l₆.pushes c₆
    rw [p₅.size_eq, s₄] at hpushes
    rw [p₇.size_eq]
    exact .conditional (l₁.pushes (x₂.part.trans (l₃.part.trans c₃))) (hasThen rfl c₅)
      (s₄ ▸ hThen) (s₂ ▸ l₃.pushes c₃) (hasElse rfl hc) hElse hpushes

/-! ### All expressions -/

/-- An index names one argument only if it is the one index of all the arguments. -/
theorem isArgument_iff {container : Node} {accessor : Accessor} {indices : List Node} :
    isArgument container accessor indices = true ↔
      (∃ p name, container = .ident p name .argumentArray) ∧ accessor = .array ∧
        ∃ index, indices = [index] := by
  unfold isArgument
  split
  · rw [Bool.and_eq_true, decide_eq_true_eq, decide_eq_true_eq, List.length_eq_one_iff]
    exact ⟨fun h => ⟨⟨_, _, rfl⟩, h⟩, fun h => h.2⟩
  next hne =>
    constructor
    · intro h
      cases h
    · rintro ⟨⟨p, name, rfl⟩, -⟩
      exact (hne p name rfl).elim

/-- The place of an element, given what the actions for the container and the indices write. -/
theorem elementPlace_gives {container : Node} {accessor : Accessor} {indices : List Node}
    {pushContainer pushIndices : Generate Unit} (hn : 0 < indices.length ∧ indices.length ≤ 2)
    (hc : ∀ {g g' : Generator}, Gives pushContainer g () g' → g.Lays g' (.value container))
    (hi : ∀ {g g' : Generator}, Gives pushIndices g () g' → g.Lays g' (.values indices))
    (h : Gives (elementPlace p container accessor indices pushContainer pushIndices) g place g') :
    g.Lays g' (.address (.index p container accessor indices) place) := by
  unfold elementPlace at h
  split at h
  next harg =>
    obtain ⟨⟨q, name, rfl⟩, rfl, index, rfl⟩ := isArgument_iff.1 harg
    obtain ⟨_, g₁, h₁, h⟩ := gives_bind.1 h
    obtain ⟨rfl, rfl⟩ := gives_pure.1 h
    have l₁ := hi h₁
    refine ⟨l₁.toExtends, fun hcode => ?_⟩
    cases l₁.pushes hcode with
    | moreValues hv hrest =>
      cases hrest
      exact .argument hv
  next harg =>
    simp only [gives_bind, gives_pure] at h
    obtain ⟨_, g₁, h₁, _, g₂, h₂, count, g₃, h₃, rfl, rfl⟩ := h
    obtain ⟨-, rfl, rfl⟩ := byteCount_gives h₃
    have l₁ := hc h₁
    have l₂ := hi h₂
    exact ⟨l₁.toExtends.trans l₂.toExtends, fun hcode =>
      .element (by simpa using harg) hn (l₁.pushes (l₂.part.trans hcode)) (l₂.pushes hcode)⟩

end Generate

namespace Node

open Generate Generator

/-- Nothing may be written. -/
theorem writes_nothing (g : Generator) : g.Writes g [] :=
  ⟨.refl g, rfl, fun _ => trivial⟩

variable {g g' : Generator}

/-- An instruction makes another operand of the one whose code comes before it. In between there may
be new entries of tables. -/
theorem lays_followed {operand result : Operand} {I : Instruction} {g₁ g₂ : Generator} {u : Unit}
    (l : g.Lays g₁ operand) (w : g₁.Writes g₂ []) (h : Gives (write I) g₂ u g')
    (hI : I.jump? = none) (hp : ∀ {code : Code} {a b : Nat}, g₂.code.PartOf code → code.Pushes
      operand a b → code.Has b I → code.Pushes result a (b + 1)) : g.Lays g' result := by
  have w₂ := write_gives h (by simp [hI])
  have w' := w.append w₂
  refine ⟨l.toExtends.trans w'.toExtends, fun hc => ?_⟩
  rw [w'.size_eq]
  exact hp (w₂.part.trans hc) (l.pushes (w'.part.trans hc)) (w'.segment hc).1

/-- The code of a load: the address is pushed, and the value takes its place. -/
theorem lays_load {node : Node} {place : Place} {g₁ : Generator} {u : Unit}
    (l : g.Lays g₁ (.address node place)) (h : Gives (write place.load) g₁ u g') :
    g.Lays g' (.value node) :=
  lays_followed l (writes_nothing g₁) h (jump?_place (l.pushes (.refl _))).1 fun _ => .load

/-- The code of an operand that one instruction pushes. -/
theorem lays_instruction {operand : Operand} {I : Instruction} {g₁ : Generator} {u : Unit}
    (w : g.Writes g₁ []) (h : Gives (write I) g₁ u g') (hI : I.jump? = none) (hp : ∀ {code : Code}
      {a : Nat}, g₁.code.PartOf code → code.Has a I → code.Pushes operand a (a + 1)) :
    g.Lays g' operand := by
  have w' := w.append (write_gives h (by simp [hI]))
  refine ⟨w'.toExtends, fun hc => ?_⟩
  rw [w'.size_eq]
  exact hp ((write_gives h (by simp [hI])).part.trans hc) (w'.segment hc).1

/-- A small whole number is pushed as it is. -/
theorem expression_int (p : Position) (value : Int64) : (Node.int p value).expression =
    if Int32.minValue.toInt ≤ value.toInt ∧ value.toInt ≤ Int32.maxValue.toInt then
      write (.pushInt value.toInt32)
    else
      Generate.constant (.ofFloat (Float.ofInt value.toInt)) >>= fun id =>
        write (.pushReal id) := rfl

/-- The code of a name in an expression. -/
theorem lays_ident {p : Position} {name : String} {resolution : Resolution} {u : Unit}
    (hn : ¬ IsTemporary name) (h : Gives (Node.ident p name resolution).expression g u g') :
    g.Lays g' (.value (.ident p name resolution)) := by
  cases resolution
  case intrinsic value => exact lays_instruction (writes_nothing g) h rfl fun _ hI => .intrinsic hI
  case userSymbol reference =>
    exact lays_instruction (writes_nothing g) h rfl fun _ hI => .userSymbol hI
  case builtinFunction =>
    obtain ⟨id, g₁, h₁, h⟩ := gives_bind.1 h
    obtain ⟨w, hs⟩ := string_gives h₁
    exact lays_instruction w h rfl fun hc hI => .function (hc.string hs) hI
  all_goals
    obtain ⟨place, g₁, h₁, h⟩ := gives_bind.1 h
    exact lays_load (lays_name hn h₁) h

/-- No binary operation is a branch. -/
theorem jump?_binary (operator : BinaryOp) : operator.instruction.jump? = none := by
  cases operator <;> rfl

/-- No unary operation is a branch. -/
theorem jump?_unary (operator : UnaryOp) : operator.instruction.jump? = none := by
  cases operator <;> rfl

mutual

/-- The code of an expression pushes its value. -/
theorem lays_expression : ∀ (node : Node) {g g' : Generator}, node.Every Node.Regular →
    Gives node.expression g () g' → g.Lays g' (.value node)
  | .int p value, g, g', _, h => by
    rw [expression_int] at h
    split at h
    next hv => exact lays_instruction (writes_nothing g) h rfl fun _ hI => .int hv hI
    next hv =>
      obtain ⟨id, g₁, h₁, h⟩ := gives_bind.1 h
      obtain ⟨w, hk⟩ := constant_gives h₁
      exact lays_instruction w h rfl fun hc hI => .largeInt hv (hc.constant hk) hI
  | .real p value, g, g', _, h => by
    obtain ⟨id, g₁, h₁, h⟩ := gives_bind.1 h
    obtain ⟨w, hk⟩ := constant_gives h₁
    exact lays_instruction w h rfl fun hc hI => .real (hc.constant hk) hI
  | .string p value verbatim, g, g', _, h => by
    obtain ⟨id, g₁, h₁, h⟩ := gives_bind.1 h
    obtain ⟨w, hs⟩ := string_gives h₁
    exact lays_instruction w h rfl fun hc hI => .string (hc.string hs) hI
  | .ident p name resolution, g, g', hr, h => lays_ident hr h
  | .binary p operator lhs rhs, g, g', hr, h => by
    replace h := gives_bind.1 h
    simp only [gives_bind] at h
    obtain ⟨_, g₁, h₁, _, g₂, h₂, h⟩ := h
    have l₁ := lays_expression lhs hr.2.1 h₁
    have l₂ := lays_expression rhs hr.2.2 h₂
    have w := write_gives h (by simp [jump?_binary])
    refine ⟨l₁.toExtends.trans (l₂.toExtends.trans w.toExtends), fun hc => ?_⟩
    rw [w.size_eq]
    exact .binary (l₁.pushes (l₂.part.trans (w.part.trans hc))) (l₂.pushes (w.part.trans hc))
      (w.segment hc).1
  | .logical p .and lhs rhs, g, g', hr, h => by
    obtain ⟨hx, k, b, short, done, hs, hshort, hdone, hcode⟩ :=
      shortCircuit_gives rfl (lays_expression lhs hr.2.1) (lays_expression rhs hr.2.2) h
    refine ⟨hx, fun hc => ?_⟩
    obtain ⟨hl, hb, hr, hseg⟩ := hcode hc
    rw [hs]
    exact .and hl (hb rfl) hshort hr hseg hdone
  | .logical p .or lhs rhs, g, g', hr, h => by
    obtain ⟨hx, k, b, short, done, hs, hshort, hdone, hcode⟩ :=
      shortCircuit_gives rfl (lays_expression lhs hr.2.1) (lays_expression rhs hr.2.2) h
    refine ⟨hx, fun hc => ?_⟩
    obtain ⟨hl, hb, hr, hseg⟩ := hcode hc
    rw [hs]
    exact .or hl (hb rfl) hshort hr hseg hdone
  | .logical p .xor lhs rhs, g, g', hr, h => by
    replace h := gives_bind.1 h
    simp only [gives_bind] at h
    obtain ⟨_, g₁, h₁, _, g₂, h₂, _, g₃, h₃, _, g₄, h₄, h⟩ := h
    have l₁ := lays_expression lhs hr.2.1 h₁
    have w₂ := write_gives h₂ (by simp [Instruction.jump?])
    have l₃ := lays_expression rhs hr.2.2 h₃
    have w := (write_gives h₄ (by simp [Instruction.jump?])).append
      (write_gives h (by simp [Instruction.jump?]))
    refine ⟨l₁.toExtends.trans <| w₂.toExtends.trans <| l₃.toExtends.trans w.toExtends,
      fun hc => ?_⟩
    have c₃ := w.part.trans hc
    have c₂ := l₃.part.trans c₃
    have hrhs := l₃.pushes c₃
    rw [w₂.size_eq] at hrhs
    rw [w.size_eq]
    exact .xor (l₁.pushes (w₂.part.trans c₂)) (w₂.segment c₂).1 hrhs (w.segment hc)
  | .unary p operator operand, g, g', hr, h => by
    obtain ⟨_, g₁, h₁, h⟩ := gives_bind.1 h
    exact lays_followed (lays_expression operand hr.2 h₁) (writes_nothing g₁) h
      (jump?_unary operator) fun _ => .unary
  | .conditional p condition thenValue elseValue, g, g', hr, h =>
    lays_conditional (lays_expression condition hr.2.1) (lays_expression thenValue hr.2.2.1)
      (lays_expression elseValue hr.2.2.2) h
  | .call p callee arguments, g, g', hr, h => by
    replace h := gives_bind.1 h
    simp only [gives_bind] at h
    obtain ⟨argc, g₀, h₀, _, g₁, h₁, h⟩ := h
    obtain ⟨hlt, rfl, rfl⟩ := byteCount_gives h₀
    have l₁ := lays_expressionsLastFirst arguments hr.2.2 h₁
    split at h
    · obtain ⟨id, g₂, h₂, h⟩ := gives_bind.1 h
      obtain ⟨w₂, hs⟩ := string_gives h₂
      exact lays_followed l₁ w₂ h rfl fun hc hp => .callFunction hp hlt (hc.string hs)
    · exact lays_followed l₁ (writes_nothing _) h rfl fun _ hp => .callScript hp hlt
    next hne hne' =>
      obtain ⟨_, g₂, h₂, h⟩ := gives_bind.1 h
      have l₂ := lays_expression callee hr.2.1 h₂
      have w := write_gives h (by simp [Instruction.jump?])
      refine ⟨l₁.toExtends.trans <| l₂.toExtends.trans w.toExtends, fun hc => ?_⟩
      have c₂ := w.part.trans hc
      rw [w.size_eq]
      refine .callValue ?_ (l₁.pushes (l₂.part.trans c₂)) hlt (l₂.pushes c₂) (w.segment hc).1
      unfold isCalledByName
      split
      · exact (hne _ _ rfl).elim
      · exact (hne' _ _ _ rfl).elim
      · rfl
  | .index p container accessor indices, g, g', hr, h => by
    obtain ⟨place, g₁, h₁, h⟩ := gives_bind.1 h
    exact lays_load (elementPlace_gives hr.1 (lays_expression container hr.2.1)
      (lays_expressions indices hr.2.2) h₁) h
  | .member p instanceOf field, g, g', hr, h => by
    replace h := gives_bind.1 h
    simp only [gives_bind] at h
    obtain ⟨_, g₁, h₁, id, g₂, h₂, h⟩ := h
    obtain ⟨w₂, hs⟩ := string_gives h₂
    exact lays_followed (lays_expression instanceOf hr.2 h₁) w₂ h rfl
      fun hc hp => .load (.member hp (hc.string hs))
  | .update p target step inFront, g, g', hr, h => by
    obtain ⟨place, g₁, h₁, h⟩ := gives_bind.1 h
    have l₁ := lays_address target hr.2 h₁
    obtain ⟨hload, hstore⟩ := jump?_place (l₁.pushes (.refl _))
    obtain ⟨kept, hkept, w⟩ := stepped_gives hload hstore h
    refine ⟨l₁.toExtends.trans w.toExtends, fun hc => ?_⟩
    rw [w.size_eq]
    refine .update (l₁.pushes (w.part.trans hc)) ?_ (w.segment hc)
    intro hnamed
    obtain ⟨n, hn⟩ := hkept hnamed
    exact ⟨n, hc.slot hn⟩
  | .struct p fields, g, g', hr, h => by
    replace h := gives_bind.1 h
    simp only [gives_bind] at h
    obtain ⟨_, g₁, h₁, count, g₂, h₂, h⟩ := h
    obtain ⟨hlt, rfl, rfl⟩ := wordCount_gives h₂
    exact lays_followed (lays_fields fields hr.2 h₁) (writes_nothing _) h rfl
      fun _ hp => .struct hp hlt
  | .array p elements, g, g', hr, h => by
    replace h := gives_bind.1 h
    simp only [gives_bind] at h
    obtain ⟨_, g₁, h₁, count, g₂, h₂, h⟩ := h
    obtain ⟨hlt, rfl, rfl⟩ := wordCount_gives h₂
    exact lays_followed (lays_expressions elements hr.2 h₁) (writes_nothing _) h rfl
      fun _ hp => .array hp hlt
  | .assign .., _, _, _, h | .block .., _, _, _, h | .ifElse .., _, _, _, h
  | .whileDo .., _, _, _, h | .doUntil .., _, _, _, h | .repeatTimes .., _, _, _, h
  | .forLoop .., _, _, _, h | .switch .., _, _, _, h | .withEach .., _, _, _, h
  | .declare .., _, _, _, h | .declareGlobal .., _, _, _, h | .declareEnum .., _, _, _, h
  | .returning .., _, _, _, h | .exit .., _, _, _, h | .breaking .., _, _, _, h
  | .continuing .., _, _, _, h | .discard .., _, _, _, h => (gives_fail h).elim
termination_by structural node => node

/-- The code of an address pushes it. -/
theorem lays_address : ∀ (node : Node) {g g' : Generator} {place : Place},
    node.Every Node.Regular → Gives node.address g place g' → g.Lays g' (.address node place)
  | .ident p name resolution, g, g', place, hr, h => lays_name hr h
  | .member p instanceOf field, g, g', place, hr, h => by
    simp only [address, gives_bind, gives_pure] at h
    obtain ⟨_, g₁, h₁, id, g₂, h₂, rfl, rfl⟩ := h
    have l₁ := lays_expression instanceOf hr.2 h₁
    obtain ⟨w₂, hs⟩ := string_gives h₂
    refine ⟨l₁.toExtends.trans w₂.toExtends, fun hc => ?_⟩
    rw [w₂.size_eq]
    exact .member (l₁.pushes (w₂.part.trans hc)) (hc.string hs)
  | .index p container accessor indices, g, g', place, hr, h =>
    elementPlace_gives hr.1 (lays_expression container hr.2.1) (lays_expressions indices hr.2.2) h
  | .int .., _, _, _, _, h | .real .., _, _, _, _, h | .string .., _, _, _, _, h
  | .binary .., _, _, _, _, h | .logical .., _, _, _, _, h | .unary .., _, _, _, _, h
  | .conditional .., _, _, _, _, h | .call .., _, _, _, _, h | .update .., _, _, _, _, h
  | .struct .., _, _, _, _, h | .array .., _, _, _, _, h
  | .assign .., _, _, _, _, h | .block .., _, _, _, _, h | .ifElse .., _, _, _, _, h
  | .whileDo .., _, _, _, _, h | .doUntil .., _, _, _, _, h | .repeatTimes .., _, _, _, _, h
  | .forLoop .., _, _, _, _, h | .switch .., _, _, _, _, h | .withEach .., _, _, _, _, h
  | .declare .., _, _, _, _, h | .declareGlobal .., _, _, _, _, h
  | .declareEnum .., _, _, _, _, h | .returning .., _, _, _, _, h | .exit .., _, _, _, _, h
  | .breaking .., _, _, _, _, h | .continuing .., _, _, _, _, h
  | .discard .., _, _, _, _, h => (gives_fail h).elim
termination_by structural node => node

/-- The code of several expressions pushes their values. -/
theorem lays_expressions : ∀ (nodes : List Node) {g g' : Generator},
    EveryOf Node.Regular nodes → Gives (expressions nodes) g () g' → g.Lays g' (.values nodes)
  | [], g, g', _, h => by
    obtain ⟨-, rfl⟩ := gives_pure.1 h
    exact ⟨.refl _, fun _ => .noValues⟩
  | node :: rest, g, g', hr, h => by
    simp only [expressions, gives_bind] at h
    obtain ⟨_, g₁, h₁, h⟩ := h
    have l₁ := lays_expression node hr.1 h₁
    have l₂ := lays_expressions rest hr.2 h
    exact ⟨l₁.toExtends.trans l₂.toExtends, fun hc =>
      .moreValues (l₁.pushes (l₂.part.trans hc)) (l₂.pushes hc)⟩
termination_by structural nodes => nodes

/-- The code of arguments pushes their values, the last one first. -/
theorem lays_expressionsLastFirst : ∀ (nodes : List Node) {g g' : Generator},
    EveryOf Node.Regular nodes → Gives (expressionsLastFirst nodes) g () g' →
    g.Lays g' (.lastFirst nodes)
  | [], g, g', _, h => by
    obtain ⟨-, rfl⟩ := gives_pure.1 h
    exact ⟨.refl _, fun _ => .noLastFirst⟩
  | node :: rest, g, g', hr, h => by
    simp only [expressionsLastFirst, gives_bind] at h
    obtain ⟨_, g₁, h₁, h⟩ := h
    have l₁ := lays_expressionsLastFirst rest hr.2 h₁
    have l₂ := lays_expression node hr.1 h
    exact ⟨l₁.toExtends.trans l₂.toExtends, fun hc =>
      .moreLastFirst (l₁.pushes (l₂.part.trans hc)) (l₂.pushes hc)⟩
termination_by structural nodes => nodes

/-- The code of fields pushes their keys and values. -/
theorem lays_fields : ∀ (fields : List (String × Node)) {g g' : Generator},
    EveryField Node.Regular fields → Gives (fieldExpressions fields) g () g' →
    g.Lays g' (.fields fields)
  | [], g, g', _, h => by
    obtain ⟨-, rfl⟩ := gives_pure.1 h
    exact ⟨.refl _, fun _ => .noFields⟩
  | (key, value) :: rest, g, g', hr, h => by
    simp only [fieldExpressions, gives_bind] at h
    obtain ⟨id, g₁, h₁, _, g₂, h₂, _, g₃, h₃, h⟩ := h
    obtain ⟨w₁, hs⟩ := string_gives h₁
    have w₂ := write_gives h₂ (by simp [Instruction.jump?])
    have w := w₁.append w₂
    have l₃ := lays_expression value hr.1 h₃
    have l₄ := lays_fields rest hr.2 h
    refine ⟨w.toExtends.trans <| l₃.toExtends.trans l₄.toExtends, fun hc => ?_⟩
    have c₃ := l₄.part.trans hc
    have c₂ := l₃.part.trans c₃
    have hvalue := l₃.pushes c₃
    rw [w.size_eq] at hvalue
    exact .moreFields ((w₂.part.trans c₂).string hs) (w.segment c₂).1 hvalue (l₄.pushes hc)
termination_by structural fields => fields

end

end Node

end Gml
