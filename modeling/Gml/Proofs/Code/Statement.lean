import Gml.Proofs.Code.Action
import Gml.Proofs.Code.Frame

/-!
# The code of statements

The code that is written for a statement does what the statement says, in the sense of
`Code.Performs`: this is `Node.performing_statement`, by one induction over the tree, with a lemma for
each construct that says how its branches get their targets.

From this comes the layout of whole scripts, `Script.realizes`.
-/

namespace Gml

namespace Generate

open Generator

variable {g g' : Generator} {R : List Gap}

/-- The code of a statement without branches. -/
theorem performing_basic {node : Node} (hnode : Enacting node.statement node) :
    Performing node.statement (.one node) := by
  intro g g' R w h
  have x := hnode h
  exact x.does w fun hc _ => .basic (x.acts hc)

/-! ### Choices and loops -/

variable {p : Position} {condition body : Node}

/-- A condition without an alternative. -/
theorem performing_ifThen (hcondition : Evaluating condition)
    (hbody : Performing body.statement (.one body)) :
    Performing (Node.ifElse p condition body none).statement
      (.one (.ifElse p condition body none)) := by
  refine started_gives ?_
  intro g g' R w h
  simp only [gives_bind] at h
  obtain ⟨_, g₁, h₁, site, g₂, h₂, _, g₃, h₃, h⟩ := h
  have l₁ := hcondition h₁
  obtain ⟨x₂, rfl, s₂, -⟩ := emit_gives h₂
  have d₃ := hbody (emit_opens h₂ rfl (l₁.waits_gaps w)) h₃
  obtain ⟨p₄, w₄⟩ := patchHere_closes h d₃.waits
  obtain ⟨skip, hskip, hasSkip⟩ := p₄.leads _ (List.mem_singleton.2 rfl)
  refine ⟨l₁.grows.trans <| x₂.grows.trans <| d₃.toGrows.trans p₄.grows, w₄,
    l₁.part.trans <| x₂.part.trans <| d₃.part.trans p₄.part, fun {code levels} hc hf => ?_⟩
  have c₃ := p₄.part.trans hc
  have c₂ := d₃.part.trans c₃
  rw [p₄.frames] at hf
  rw [p₄.size_eq]
  exact .ifThen (l₁.evaluates h₁ (x₂.part.trans c₂)) (hasSkip rfl hc) hskip (s₂ ▸ d₃.performs c₃ hf)

/-- A condition with an alternative. -/
theorem performing_ifElse {elseBody : Node}
    (hcondition : Evaluating condition)
    (hbody : Performing body.statement (.one body))
    (helse : Performing elseBody.statement (.one elseBody)) :
    Performing (Node.ifElse p condition body (some elseBody)).statement
      (.one (.ifElse p condition body (some elseBody))) := by
  refine started_gives ?_
  intro g g' R w h
  simp only [gives_bind] at h
  obtain ⟨_, g₁, h₁, skipThen, g₂, h₂, _, g₃, h₃, skipElse, g₄, h₄, _, g₅, h₅, _, g₆, h₆, h⟩ := h
  have l₁ := hcondition h₁
  obtain ⟨x₂, rfl, s₂, -⟩ := emit_gives h₂
  have d₃ := hbody (emit_opens h₂ rfl (l₁.waits_gaps w)) h₃
  obtain ⟨x₄, rfl, s₄, -⟩ := emit_gives h₄
  have w₄ := emit_opens h₄ rfl d₃.waits
  obtain ⟨p₅, w₅⟩ := patchHere_closes h₅ (w₄.perm ((List.Perm.swap _ _ _).append_left _))
  have d₆ := helse w₅ h₆
  obtain ⟨p₇, w₇⟩ := patchHere_closes h d₆.waits
  obtain ⟨skipThen, hThen, hasThen⟩ := p₅.leads _ (List.mem_singleton.2 rfl)
  obtain ⟨skipElse, hElse, hasElse⟩ := p₇.leads _ (List.mem_singleton.2 rfl)
  refine ⟨l₁.grows.trans <| x₂.grows.trans <| d₃.toGrows.trans <| x₄.grows.trans <|
    p₅.grows.trans <| d₆.toGrows.trans p₇.grows, w₇,
    l₁.part.trans <| x₂.part.trans <| d₃.part.trans <| x₄.part.trans <| p₅.part.trans <|
    d₆.part.trans p₇.part, fun {code levels} hc hf => ?_⟩
  have c₆ := p₇.part.trans hc
  have c₅ := d₆.part.trans c₆
  have c₃ := x₄.part.trans (p₅.part.trans c₅)
  have c₂ := d₃.part.trans c₃
  rw [p₇.frames] at hf
  have hf₃ : Frame.Fits code g₃.frames levels := by
    rw [← x₄.frames, ← p₅.frames]
    exact d₆.frames.fits hf
  have hperforms := d₆.performs c₆ hf
  rw [p₅.size_eq, s₄] at hperforms
  rw [p₇.size_eq]
  exact .ifElse (l₁.evaluates h₁ (x₂.part.trans c₂)) (hasThen rfl c₅) (s₄ ▸ hThen)
    (s₂ ▸ d₃.performs c₃ hf₃) (hasElse rfl hc) hElse hperforms

/-- The rounds of a loop: its body, what goes between two rounds and the branch back. The branches
`X` leave the loop before a round. -/
theorem rounds_gives {block : Generate Unit} {clause : Clause} {kind : FrameKind} {q : Position}
    {frame : Frame} {I J : Instruction} {X : List Nat} {next start : Nat}
    {g₁ g₂ g₃ g₄ g₅ : Generator} (hblock : Performing block clause)
    (hJ : J.jump? = some .pending) (w : g.code.Waits (g.gaps ++ (X.map (·, I) ++ R)))
    (h₁ : Gives (inFrame kind q block) g frame g₁)
    (h₂ : Gives (patchAll frame.continues next p) g₁ () g₂)
    (hstep : ∀ {R : List Gap}, g₂.code.Waits (g₂.gaps ++ R) → g₂.Carries g₃ R)
    (h₄ : Gives (branchBack J start p) g₃ () g₄)
    (h₅ : Gives (patchAll X g₄.code.size p) g₄ () g₅)
    (h₆ : Gives (patchAll frame.breaks g₅.code.size p) g₅ () g') :
    g.Carries g' R ∧ g₂.code.size = g₁.code.size ∧ g'.code.size = g₃.code.size + 1 ∧
      ∃ back : Jump, back.Leads g₃.code.size start ∧
        ∀ {code : Code} {levels : List Level}, g'.code.PartOf code →
          Frame.Fits code g'.frames levels →
          g₃.code.PartOf code ∧ Frame.Fits code g₃.frames levels ∧
          code.Performs (⟨kind, g₃.code.size + 1, next⟩ :: levels) clause g.code.size
            g₁.code.size ∧
          (∀ {J'}, J.withJump? back = some J' → code.Has g₃.code.size J') ∧
          ∀ site ∈ X, ∃ jump : Jump, jump.Leads site (g₃.code.size + 1) ∧
            ∀ {I'}, I.withJump? jump = some I' → code.Has site I' := by
  obtain ⟨hkind, e₁⟩ := inFrame_gives hblock w h₁
  obtain ⟨p₂, w₂⟩ := patchAll_closes h₂ e₁.waits
  have k₃ := hstep w₂
  obtain ⟨x₄, s₄, back, hback, hasBack⟩ := branchBack_gives hJ h₄
  obtain ⟨p₅, w₅⟩ := patchAll_closes h₅ (x₄.waits_gaps k₃.waits)
  obtain ⟨p₆, w₆⟩ := patchAll_closes h₆ w₅
  refine ⟨⟨e₁.toGrows.trans <| p₂.grows.trans <| k₃.toGrows.trans <| x₄.grows.trans <|
    p₅.grows.trans p₆.grows, w₆, e₁.part.trans <| p₂.part.trans <| k₃.part.trans <|
    x₄.part.trans <| p₅.part.trans p₆.part⟩, p₂.size_eq, by rw [p₆.size_eq, p₅.size_eq, s₄], back,
    hback, fun {code levels} hc hf => ?_⟩
  have c₅ := p₆.part.trans hc
  have c₄ := p₅.part.trans c₅
  have c₃ := x₄.part.trans c₄
  have c₂ := k₃.part.trans c₃
  rw [p₆.frames, p₅.frames, x₄.frames] at hf
  have hf₁ := k₃.frames.fits hf
  rw [p₂.frames] at hf₁
  have hlevels := fits_cons hkind p₆ hc p₂ c₂ hf₁
  rw [p₅.size_eq, s₄] at hlevels
  refine ⟨c₃, hf, e₁.performs (p₂.part.trans c₂) hlevels, fun hJ' => hasBack hJ' c₄, ?_⟩
  intro site hsite
  obtain ⟨jump, hjump, hasJump⟩ := p₅.leads site hsite
  rw [s₄] at hjump
  exact ⟨jump, hjump, fun hI' => hasJump hI' c₅⟩

/-- A loop with its test in front. -/
theorem performing_whileDo (hcondition : Evaluating condition)
    (hbody : Performing body.statement (.one body)) :
    Performing (Node.whileDo p condition body).statement
      (.one (.whileDo p condition body)) := by
  refine started_gives ?_
  intro g g' R w h
  simp only [gives_bind, gives_here] at h
  obtain ⟨_, _, ⟨rfl, rfl⟩, _, g₁, h₁, leave, g₂, h₂, frame, g₃, h₃, _, g₄, h₄, _, g₅, h₅, _, g₆,
    h₆, _, _, ⟨rfl, rfl⟩, h⟩ := h
  have l₁ := hcondition h₁
  obtain ⟨x₂, rfl, s₂, -⟩ := emit_gives h₂
  obtain ⟨k, s₄, s', back, hback, hrounds⟩ := rounds_gives (X := [_]) hbody rfl
    (emit_opens h₂ rfl (l₁.waits_gaps w)) h₃ h₄ (Extends.refl g₄).carries h₅ (gives_patchHere h₆) h
  refine ⟨l₁.grows.trans <| x₂.grows.trans k.toGrows, k.waits,
    l₁.part.trans <| x₂.part.trans k.part, fun {code levels} hc hf => ?_⟩
  obtain ⟨-, -, hperforms, hasBack, hleave⟩ := hrounds hc hf
  obtain ⟨leave, hleave, hasLeave⟩ := hleave _ (List.mem_singleton.2 rfl)
  rw [s₂] at hperforms
  rw [s₄] at hperforms hback hasBack hleave
  rw [s', s₄]
  exact .whileDo (l₁.evaluates h₁ (x₂.part.trans (k.part.trans hc))) (hasLeave rfl) hleave hperforms
    (hasBack rfl) hback

/-- A loop with its test at the end. -/
theorem performing_doUntil (hcondition : Evaluating condition)
    (hbody : Performing body.statement (.one body)) :
    Performing (Node.doUntil p body condition).statement
      (.one (.doUntil p body condition)) := by
  refine started_gives ?_
  intro g g' R w h
  simp only [gives_bind, gives_here] at h
  obtain ⟨_, _, ⟨rfl, rfl⟩, frame, g₁, h₁, _, _, ⟨rfl, rfl⟩, _, g₂, h₂, _, g₃, h₃, _, g₄, h₄, _, _,
    ⟨rfl, rfl⟩, h⟩ := h
  have l₃ := hcondition h₃
  -- The test is after the body, so no branch leaves the loop before a round.
  obtain ⟨k, s₂, s', back, hback, hrounds⟩ := rounds_gives (I := .branch .pending) (X := [])
    hbody rfl w h₁ h₂ l₃.carries h₄ (gives_pure.2 ⟨rfl, rfl⟩) h
  refine ⟨k.toGrows, k.waits, k.part, fun {code levels} hc hf => ?_⟩
  obtain ⟨c₃, -, hperforms, hasBack, -⟩ := hrounds hc hf
  have htest := l₃.evaluates h₃ c₃
  rw [s₂] at htest
  rw [s']
  exact .doUntil hperforms htest (hasBack rfl) hback

/-- A loop with a count. -/
theorem performing_repeatTimes {count : Node} (hcount : Evaluating count)
    (hbody : Performing body.statement (.one body)) :
    Performing (Node.repeatTimes p count body).statement (.one (.repeatTimes p count body)) := by
  refine started_gives ?_
  intro g g' R w h
  simp only [gives_bind, gives_here] at h
  obtain ⟨_, g₁, h₁, _, _, ⟨rfl, rfl⟩, _, g₂, h₂, _, g₃, h₃, _, g₄, h₄, leave, g₅, h₅, frame, g₆,
    h₆, _, _, ⟨rfl, rfl⟩, _, g₇, h₇, _, g₈, h₈, _, g₉, h₉, _, g₁₀, h₁₀, _, _, ⟨rfl, rfl⟩, _, g₁₁,
    h₁₁, h⟩ := h
  have l₁ := hcount h₁
  have w₄ := (write_gives h₂ (by simp [Instruction.jump?])).append <|
    (write_gives h₃ (by simp [Instruction.jump?])).append
      (write_gives h₄ (by simp [Instruction.jump?]))
  obtain ⟨x₅, rfl, s₅, -⟩ := emit_gives h₅
  have w₈ := stepByOne_gives h₈
  obtain ⟨k, s₇, s₁₁, back, hback, hrounds⟩ := rounds_gives (X := [_]) hbody rfl
    (emit_opens h₅ rfl (w₄.waits_gaps (l₁.waits_gaps w))) h₆ h₇ w₈.carries h₉
    (gives_patchHere h₁₀) h₁₁
  have w₁₂ := write_gives h (by simp [Instruction.jump?])
  refine ⟨l₁.grows.trans <| w₄.grows.trans <| x₅.grows.trans <| k.toGrows.trans w₁₂.grows,
    w₁₂.waits_gaps k.waits,
    l₁.part.trans <| w₄.part.trans <| x₅.part.trans <| k.part.trans w₁₂.part,
    fun {code levels} hc hf => ?_⟩
  have c₁₁ := w₁₂.part.trans hc
  have c₄ := x₅.part.trans (k.part.trans c₁₁)
  rw [w₁₂.frames] at hf
  obtain ⟨c₈, -, hperforms, hasBack, hleave⟩ := hrounds c₁₁ hf
  obtain ⟨leave, hleave, hasLeave⟩ := hleave _ (List.mem_singleton.2 rfl)
  have htest := w₄.segment c₄
  have hstep := w₈.segment c₈
  have hdrop := (w₁₂.segment hc).1
  have hjump := hasBack rfl
  have hskip := hasLeave rfl
  have hs₄ : g₄.code.size = g₁.code.size + 3 := w₄.size_eq
  have hs₈ : g₈.code.size = g₆.code.size + 2 := by rw [w₈.size_eq, s₇]; rfl
  have hs₁₂ : g'.code.size = g₆.code.size + 4 := by rw [w₁₂.size_eq, s₁₁, hs₈]; rfl
  rw [s₅, hs₄, hs₈] at hperforms
  rw [s₇] at hstep
  rw [hs₈] at hjump hback
  rw [s₁₁, hs₈] at hdrop
  rw [hs₄, hs₈] at hleave
  rw [hs₄] at hskip
  rw [hs₁₂]
  exact .repeatTimes (l₁.evaluates h₁ (w₄.part.trans c₄))
    ⟨htest.1, htest.2.1, htest.2.2.1, hskip, trivial⟩ hleave hperforms
    ⟨hstep.1, hstep.2.1, hjump, hdrop, trivial⟩ hback

/-- A loop with clauses. -/
theorem performing_forLoop {init step : List Node}
    (hinit : Performing (Node.statements init) (.all init))
    (hcondition : Evaluating condition)
    (hstep : Performing (Node.statements step) (.all step))
    (hbody : Performing body.statement (.one body)) :
    Performing (Node.forLoop p init (some condition) step body).statement
      (.one (.forLoop p init (some condition) step body)) := by
  refine started_gives ?_
  intro g g' R w h
  simp only [gives_bind, gives_here, gives_pure] at h
  obtain ⟨_, g₁, h₁, _, _, ⟨rfl, rfl⟩, _, g₂, h₂, site, g₃, h₃, _, _, ⟨rfl, rfl⟩, frame, g₄, h₄, _,
    _, ⟨rfl, rfl⟩, _, g₅, h₅, _, g₆, h₆, _, g₇, h₇, _, _, ⟨rfl, rfl⟩, _, g₈, h₈, _, _, ⟨rfl, rfl⟩,
    h⟩ := h
  have d₁ := hinit w h₁
  have l₂ := hcondition h₂
  obtain ⟨x₃, rfl, s₃, -⟩ := emit_gives h₃
  have w₃ := emit_opens h₃ rfl (l₂.waits_gaps d₁.waits)
  have d₆ := hstep (patchAll_closes h₅ (inFrame_gives (R := [_]) hbody w₃ h₄).2.waits).2 h₆
  obtain ⟨k, s₅, s', back, hback, hrounds⟩ := rounds_gives (X := [_]) hbody rfl w₃ h₄ h₅
    (fun w₅ => (hstep w₅ h₆).carries) h₇ h₈ h
  refine ⟨d₁.toGrows.trans <| l₂.grows.trans <| x₃.grows.trans k.toGrows, k.waits,
    d₁.part.trans <| l₂.part.trans <| x₃.part.trans k.part, fun {code levels} hc hf => ?_⟩
  obtain ⟨c₆, hf₆, hperforms, hasBack, hleave⟩ := hrounds hc hf
  obtain ⟨leave, hleave, hasLeave⟩ := hleave _ (List.mem_singleton.2 rfl)
  have c₂ := x₃.part.trans (k.part.trans hc)
  have hf₁ := k.frames.fits hf
  have hsteps := d₆.performs c₆ hf₆
  rw [x₃.frames, l₂.frames] at hf₁
  rw [s₃] at hperforms
  rw [s₅] at hsteps
  rw [s']
  exact .forLoop (d₁.performs (l₂.part.trans c₂) hf₁) (l₂.evaluates h₂ c₂) (hasLeave rfl) hleave
    hperforms hsteps (hasBack rfl) hback

/-- A loop without a test. -/
theorem performing_forEver {init step : List Node}
    (hinit : Performing (Node.statements init) (.all init))
    (hstep : Performing (Node.statements step) (.all step))
    (hbody : Performing body.statement (.one body)) :
    Performing (Node.forLoop p init none step body).statement
      (.one (.forLoop p init none step body)) := by
  refine started_gives ?_
  intro g g' R w h
  simp only [gives_bind, gives_here, gives_pure] at h
  obtain ⟨_, g₁, h₁, _, _, ⟨rfl, rfl⟩, _, _, ⟨rfl, rfl⟩, frame, g₂, h₂, _, _, ⟨rfl, rfl⟩, _, g₃, h₃,
    _, g₄, h₄, _, g₅, h₅, _, _, ⟨rfl, rfl⟩, _, g₆, h₆, _, _, ⟨rfl, rfl⟩, h⟩ := h
  have d₁ := hinit w h₁
  have d₄ := hstep (patchAll_closes h₃ (inFrame_gives (R := []) hbody d₁.waits h₂).2.waits).2 h₄
  obtain ⟨k, s₃, s', back, hback, hrounds⟩ := rounds_gives (I := .branch .pending) hbody rfl
    d₁.waits h₂ h₃ (fun w₃ => (hstep w₃ h₄).carries) h₅ h₆ h
  refine ⟨d₁.toGrows.trans k.toGrows, k.waits, d₁.part.trans k.part, fun {code levels} hc hf => ?_⟩
  obtain ⟨c₄, hf₄, hperforms, hasBack, -⟩ := hrounds hc hf
  have hsteps := d₄.performs c₄ hf₄
  rw [s₃] at hsteps
  rw [s']
  exact .forEver (d₁.performs (k.part.trans hc) (k.frames.fits hf)) hperforms hsteps (hasBack rfl)
    hback

/-! ### Instances -/

/-- A body for each target. -/
theorem performing_eachInstance {q : Position} {targets : List Node}
    (htargets : ∀ target ∈ targets, Evaluating target)
    (hbody : Performing body.statement (.one body)) :
    Performing (Node.eachInstance p (inFrame .within q body.statement) targets)
      (.targets targets body) := by
  induction targets with
  | nil =>
    intro g g' R w h
    obtain ⟨-, rfl⟩ := gives_pure.1 h
    exact (Extends.refl _).does w fun _ _ => .noTargets
  | cons target rest ih =>
    intro g g' R w h
    simp only [Node.eachInstance, gives_bind, gives_here] at h
    obtain ⟨_, g₁, h₁, enter, g₂, h₂, _, _, ⟨rfl, rfl⟩, frame, g₃, h₃, _, _, ⟨rfl, rfl⟩, _, g₄, h₄, _,
      g₅, h₅, _, g₆, h₆, _, _, ⟨rfl, rfl⟩, _, g₇, h₇, h⟩ := h
    have l₁ := htargets target List.mem_cons_self h₁
    obtain ⟨x₂, rfl, s₂, -⟩ := emit_gives h₂
    obtain ⟨k, s₄, s₇, back, -, hrounds⟩ := rounds_gives (X := [_]) hbody rfl
      (emit_opens h₂ rfl (l₁.waits_gaps w)) h₃ h₄ (Extends.refl g₄).carries h₅ (gives_patchHere h₆)
      h₇
    have d₈ := ih (fun t ht => htargets t (List.mem_cons_of_mem _ ht)) k.waits h
    refine ⟨l₁.grows.trans <| x₂.grows.trans <| k.toGrows.trans d₈.toGrows, d₈.waits,
      l₁.part.trans <| x₂.part.trans <| k.part.trans d₈.part, fun {code levels} hc hf => ?_⟩
    have c₇ := d₈.part.trans hc
    obtain ⟨-, -, hperforms, hasBack, hleave⟩ := hrounds c₇ (d₈.frames.fits hf)
    obtain ⟨skip, hskip, hasSkip⟩ := hleave _ (List.mem_singleton.2 rfl)
    have hrest := d₈.performs hc hf
    rw [s₇] at hrest
    rw [s₂] at hperforms
    rw [s₄] at hperforms hskip hrest hasBack
    exact .moreTargets (l₁.evaluates h₁ (x₂.part.trans (k.part.trans c₇))) (hasSkip rfl) hskip
      hperforms (hasBack rfl) hrest

/-! ### Switches -/

/-- The branches to the arms that have a label. -/
def labelGaps (entries : List (Option Nat)) : List Gap :=
  (entries.filterMap id).map (·, .branchTrue .pending)

/-- In finished code the branches to labelled arms lead to where the arms start. -/
def Reaches (code : Code) : List (Option Nat) → List Nat → Prop
  | [], [] => True
  | entry :: entries, start :: starts =>
    (∀ site, entry = some site → ∃ jump, jump.Leads site start ∧ code.Has site (.branchTrue jump)) ∧
      Reaches code entries starts
  | _, _ => False

variable {cases : List (Case Node)}

/-- The labels of a switch are compared one after the other. -/
theorem labels_gives {entries : List (Option Nat)} {R : List Gap}
    (hlabels : ∀ arm ∈ cases, ∀ label, arm.label = some label → Evaluating label)
    (w : g.code.Waits (g.gaps ++ R)) (h : Gives (Node.labels cases) g entries g') :
    g.Extends g' ∧ g'.code.Waits (g'.gaps ++ (labelGaps entries ++ R)) ∧
      entries.map Option.isSome = cases.map (fun arm => arm.label.isSome) ∧
      ∀ {code : Code} {starts : List Nat}, g'.code.PartOf code → Reaches code entries starts →
        code.Tests cases starts g.code.size g'.code.size := by
  induction cases generalizing g entries R with
  | nil =>
    obtain ⟨rfl, rfl⟩ := gives_pure.1 h
    refine ⟨.refl _, w, rfl, fun {code starts} _ hr => ?_⟩
    cases starts with
    | nil => exact .done
    | cons => exact hr.elim
  | cons arm rest ih =>
    have hlabels' := fun a ha => hlabels a (List.mem_cons_of_mem arm ha)
    rcases arm with ⟨_ | label, body, q⟩
    · simp only [Node.labels, gives_bind, gives_pure] at h
      obtain ⟨entries, g₁, h₁, rfl, rfl⟩ := h
      obtain ⟨x₁, w₁, hm, htests⟩ := ih hlabels' w h₁
      refine ⟨x₁, w₁, by simp [hm], fun {code starts} hc hr => ?_⟩
      cases starts with
      | nil => exact hr.elim
      | cons start starts => exact .unlabelled (htests hc hr.2)
    · simp only [Node.labels, gives_bind, gives_pure] at h
      obtain ⟨_, g₁, h₁, _, g₂, h₂, _, g₃, h₃, site, g₄, h₄, entries, g₅, h₅, rfl, rfl⟩ := h
      have w₁ := write_gives h₁ (by simp [Instruction.jump?])
      have l₂ := hlabels _ List.mem_cons_self label rfl h₂
      have w₃ := write_gives h₃ (by simp [Instruction.jump?])
      obtain ⟨x₄, rfl, s₄, -⟩ := emit_gives h₄
      obtain ⟨x₅, w₅, hm, htests⟩ := ih hlabels'
        (emit_opens h₄ rfl (w₃.waits_gaps (l₂.waits_gaps (w₁.waits_gaps w)))) h₅
      refine ⟨w₁.toExtends.trans <| l₂.toExtends.trans <| w₃.toExtends.trans <| x₄.trans x₅,
        w₅.perm ?_, by simp [hm], fun {code starts} hc hr => ?_⟩
      · simp only [labelGaps, List.filterMap_cons, id, List.map_cons, List.cons_append]
        exact List.perm_middle.append_left _
      · cases starts with
        | nil => exact hr.elim
        | cons start starts =>
          obtain ⟨jump, hl, hJ⟩ := hr.1 _ rfl
          have c₄ := x₅.part.trans hc
          have c₃ := x₄.part.trans c₄
          have c₂ := w₃.part.trans c₃
          have hrest := htests hc hr.2
          have hlabel := l₂.evaluates h₂ c₂
          rw [s₄, w₃.size_eq] at hrest
          rw [w₁.size_eq] at hlabel
          rw [w₃.size_eq] at hl hJ
          exact .label (w₁.segment (l₂.part.trans c₂)).1 hlabel
            ⟨(w₃.segment c₃).1, hJ, trivial⟩ hl hrest

/-- The branch for a subject that no label equals, as long as it waits. -/
def defaultGaps (otherwise : Option Nat) : List Gap :=
  otherwise.toList.map (·, .branch .pending)

/-- If all arms have a label, other subjects go past them. -/
theorem otherwise_eq_stop {stop : Nat} {starts : List Nat}
    (h : (cases.any fun arm => arm.label.isNone) = false) :
    Case.otherwise stop cases starts = stop := by
  induction cases generalizing starts with
  | nil => rfl
  | cons arm cases ih =>
    rw [List.any_cons, Bool.or_eq_false_iff] at h
    cases starts with
    | nil => rfl
    | cons start starts =>
      rw [Case.otherwise, if_neg (by simp [h.1])]
      exact ih h.2

/-- The code of the arms, given the branches that wait for them. If an arm has no label, the branch
for the other subjects goes to the first such arm, and else it still waits after the arms. -/
theorem arms_gives {entries : List (Option Nat)} {otherwise : Option Nat} {R : List Gap}
    (hbodies : ∀ arm ∈ cases, Performing (Node.statements arm.body) (.all arm.body))
    (hm : entries.map Option.isSome = cases.map (fun arm => arm.label.isSome))
    (w : g.code.Waits (g.gaps ++ (labelGaps entries ++ (defaultGaps otherwise ++ R))))
    (h : Gives (Node.arms cases entries otherwise) g () g') :
    g.Grows g' ∧ g.code.PartOf g'.code ∧
      g'.code.Waits (g'.gaps ++
        ((if cases.any fun arm => arm.label.isNone then [] else defaultGaps otherwise) ++ R)) ∧
      ∃ starts, ∀ {code : Code} {levels : List Level}, g'.code.PartOf code →
        Frame.Fits code g'.frames levels →
        code.Performs levels (.arms cases starts) g.code.size g'.code.size ∧
        Reaches code entries starts ∧
        ∀ site stop, otherwise = some site →
          (cases.any fun arm => arm.label.isNone) = true →
          ∃ jump, jump.Leads site (Case.otherwise stop cases starts) ∧
            code.Has site (.branch jump) := by
  induction cases generalizing g entries otherwise R with
  | nil =>
    rw [List.map_nil, List.map_eq_nil_iff] at hm
    subst hm
    obtain ⟨-, rfl⟩ := gives_pure.1 h
    exact ⟨(Extends.refl _).grows, .refl _, w, [], fun _ _ => ⟨.noArms, trivial, by simp⟩⟩
  | cons arm cases ih =>
    have hbodies' := fun a ha => hbodies a (List.mem_cons_of_mem arm ha)
    have hbody := hbodies arm List.mem_cons_self
    rcases arm with ⟨label, body, q⟩
    rcases entries with _ | ⟨entry, entries⟩
    · simp at hm
    simp only [List.map_cons, List.cons.injEq] at hm
    obtain ⟨hentry, hm⟩ := hm
    simp only [Node.arms, List.head?_cons, Option.join_some, List.tail_cons] at h
    rcases entry with _ | site
    · obtain ⟨g₁, hgrows₁, hpart₁, hsize, w₁, hother₁, h⟩ :
          ∃ g₁, g.Grows g₁ ∧ g.code.PartOf g₁.code ∧ g₁.code.size = g.code.size ∧
            g₁.code.Waits (g₁.gaps ++ (labelGaps entries ++ (defaultGaps none ++ R))) ∧
            (∀ site, otherwise = some site → ∀ {code : Code}, g₁.code.PartOf code →
              ∃ jump, jump.Leads site g.code.size ∧ code.Has site (.branch jump)) ∧
            Gives (do Node.statements body; Node.arms cases entries none) g₁ () g' := by
        rcases otherwise with _ | site
        · exact ⟨g, (Extends.refl g).grows, .refl _, rfl, w, by simp, h⟩
        · simp only [pure_bind] at h
          obtain ⟨_, g₁, h₁, h⟩ := gives_bind.1 h
          obtain ⟨p₁, w₁⟩ := patchHere_closes h₁ (w.perm (List.perm_middle.append_left _))
          refine ⟨g₁, p₁.grows, p₁.part, p₁.size_eq, w₁, ?_, h⟩
          rintro s ⟨⟩ code hc
          obtain ⟨jump, hl, hJ⟩ := p₁.leads _ (List.mem_singleton.2 rfl)
          exact ⟨jump, hl, hJ rfl hc⟩
      obtain ⟨_, g₂, h₂, h⟩ := gives_bind.1 h
      have d₂ := hbody w₁ h₂
      obtain ⟨hgrows, hpart, w₃, starts, hperforms⟩ := ih hbodies' hm d₂.waits h
      have hlabel : label.isNone = true := by
        rw [← Option.not_isSome, ← hentry]; rfl
      refine ⟨hgrows₁.trans <| d₂.toGrows.trans hgrows, hpart₁.trans <| d₂.part.trans hpart, ?_,
        g.code.size :: starts, fun {code levels} hc hf => ?_⟩
      · simpa [hlabel, defaultGaps] using w₃
      obtain ⟨harms, hreach, -⟩ := hperforms hc hf
      have c₂ := hpart.trans hc
      have hfirst := d₂.performs c₂ (hgrows.frames.fits hf)
      rw [hsize] at hfirst
      refine ⟨.moreArms hfirst harms, ⟨by simp, hreach⟩, ?_⟩
      intro s stop hs _
      rw [Case.otherwise, if_pos hlabel]
      exact hother₁ s hs (d₂.part.trans c₂)
    · simp only [gives_bind, pure_bind] at h
      obtain ⟨_, g₁, h₁, _, g₂, h₂, h⟩ := h
      obtain ⟨p₁, w₁⟩ := patchHere_closes h₁ w
      have d₂ := hbody w₁ h₂
      obtain ⟨hgrows, hpart, w₃, starts, hperforms⟩ := ih hbodies' hm d₂.waits h
      have hlabel : label.isNone = false := by
        rw [← Option.not_isSome, ← hentry]; rfl
      refine ⟨p₁.grows.trans <| d₂.toGrows.trans hgrows, p₁.part.trans <| d₂.part.trans hpart, ?_,
        g₁.code.size :: starts, fun {code levels} hc hf => ?_⟩
      · simpa [hlabel] using w₃
      obtain ⟨harms, hreach, hother⟩ := hperforms hc hf
      have c₂ := hpart.trans hc
      have hfirst := d₂.performs c₂ (hgrows.frames.fits hf)
      rw [← p₁.size_eq]
      refine ⟨.moreArms hfirst harms, ⟨?_, hreach⟩, ?_⟩
      · rintro s ⟨⟩
        obtain ⟨jump, hl, hJ⟩ := p₁.leads _ (List.mem_singleton.2 rfl)
        exact ⟨jump, p₁.size_eq ▸ hl, hJ rfl (d₂.part.trans c₂)⟩
      · intro s stop hs hany
        rw [Case.otherwise, if_neg (by simp [hlabel])]
        exact hother s stop hs (by simpa [hlabel] using hany)

/-- A switch with its arms. -/
theorem performing_switch {subject : Node} (hsubject : Evaluating subject)
    (hlabels : ∀ arm ∈ cases, ∀ label, arm.label = some label → Evaluating label)
    (hbodies : ∀ arm ∈ cases, Performing (Node.statements arm.body) (.all arm.body)) :
    Performing (Node.switch p subject cases).statement (.one (.switch p subject cases)) := by
  refine started_gives ?_
  intro g g' R w h
  obtain ⟨_, g₁, h₁, h⟩ := gives_bind.1 h
  obtain ⟨entries, g₂, h₂, h⟩ := gives_bind.1 h
  obtain ⟨site, g₃, h₃, h⟩ := gives_bind.1 h
  obtain ⟨frame, g₄, h₄, h⟩ := gives_bind.1 h
  have l₁ := hsubject h₁
  obtain ⟨x₂, w₂, hm, htests⟩ := labels_gives hlabels (l₁.waits_gaps w) h₂
  obtain ⟨x₃, rfl, s₃, -⟩ := emit_gives h₃
  have w₃ : g₃.code.Waits (g₃.gaps ++
      (labelGaps entries ++ (defaultGaps (some g₂.code.size) ++ R))) :=
    (emit_opens h₃ rfl w₂).perm (List.perm_middle.symm.append_left _)
  obtain ⟨g₅, frames, h₅, hframes, rfl⟩ := gives_inFrame h₄
  obtain ⟨⟨hgrow, hle, hnodup⟩, hpart₅, w₅, starts, hperforms⟩ :=
    arms_gives (g := { g₃ with frames := { kind := .switch } :: g₃.frames }) hbodies hm w₃ h₅
  rw [hframes] at hgrow hperforms
  obtain ⟨hkind, -, -, hgrow⟩ := hgrow
  have hgrows₅ : g₃.Grows { g₅ with frames } := ⟨hgrow, hle, hnodup⟩
  -- The branches to a next round, of which a switch has none, are dropped with the frame.
  have w₄ : g₅.code.Waits (Generator.gaps { g₅ with frames } ++
      ((if cases.any fun arm => arm.label.isNone then [] else defaultGaps (some g₂.code.size)) ++
        (frame.breaks.map (·, .branch .pending) ++ R))) := by
    refine .right (frame.continues.map (·, .branch .pending)) (w₅.perm ?_)
    unfold gaps
    rw [hframes, List.flatMap_cons, Frame.gaps]
    simp only [List.perm_iff_count, List.count_append]
    intro gap
    omega
  -- Either an arm without a label has got the branch for other subjects, or it goes to the end.
  obtain ⟨g₆, hgrows₆, hpart₆, hsize₆, hframes₆, w₆, hother, h⟩ :
      ∃ g₆, Grows { g₅ with frames } g₆ ∧ g₅.code.PartOf g₆.code ∧
        g₆.code.size = g₅.code.size ∧ g₆.frames = frames ∧
        g₆.code.Waits (g₆.gaps ++ (frame.breaks.map (·, .branch .pending) ++ R)) ∧
        (∀ {code : Code} {levels : List Level}, g₆.code.PartOf code →
          Frame.Fits code (frame :: frames) levels →
          ∃ jump, jump.Leads g₂.code.size (Case.otherwise g₅.code.size cases starts) ∧
            code.Has g₂.code.size (.branch jump)) ∧
        Gives (do patchAll frame.breaks (← here) p; write .popz) g₆ () g' := by
    split at h
    next hany =>
      rw [if_pos hany] at w₄
      exact ⟨_, (Extends.refl _).grows, .refl _, rfl, rfl, w₄,
        fun hc hf => (hperforms hc hf).2.2 _ _ rfl hany, h⟩
    next hany =>
      rw [if_neg hany] at w₄
      obtain ⟨_, g₆, h₆, h⟩ := gives_bind.1 h
      obtain ⟨p₆, w₆⟩ := patchHere_closes h₆ w₄
      refine ⟨g₆, p₆.grows, p₆.part, p₆.size_eq, p₆.frames, w₆, fun hc _ => ?_, h⟩
      rw [otherwise_eq_stop (by simpa using hany)]
      obtain ⟨jump, hl, hJ⟩ := p₆.leads _ (List.mem_singleton.2 rfl)
      exact ⟨jump, hl, hJ rfl hc⟩
  simp only [gives_bind, gives_here] at h
  obtain ⟨_, _, ⟨rfl, rfl⟩, _, g₇, h₇, h⟩ := h
  obtain ⟨p₇, w₇⟩ := patchAll_closes h₇ w₆
  have w₈ := write_gives h (by simp [Instruction.jump?])
  refine ⟨l₁.grows.trans <| x₂.grows.trans <| x₃.grows.trans <|
    hgrows₅.trans <| hgrows₆.trans <| p₇.grows.trans w₈.grows,
    w₈.waits_gaps w₇, l₁.part.trans <| x₂.part.trans <| x₃.part.trans <| hpart₅.trans <|
    hpart₆.trans <| p₇.part.trans w₈.part, fun {code levels} hc hf => ?_⟩
  have c₇ := w₈.part.trans hc
  have c₆ := p₇.part.trans c₇
  have c₅ := hpart₆.trans c₆
  have c₃ := hpart₅.trans c₅
  have c₂ := x₃.part.trans c₃
  rw [w₈.frames, p₇.frames, hframes₆] at hf
  have hlevels : Frame.Fits code (frame :: frames)
      (⟨.switch, g₅.code.size, g₅.code.size⟩ :: levels) := by
    refine ⟨hkind, fun s hs => ?_, fun hne => (hne rfl).elim, hf⟩
    obtain ⟨jump, hl, hJ⟩ := p₇.leads s hs
    rw [hsize₆] at hl
    exact ⟨jump, hl, hJ rfl c₇⟩
  obtain ⟨harms, hreach, -⟩ := hperforms c₅ hlevels
  obtain ⟨otherwise, hl, hJ⟩ := hother c₆ hlevels
  have hpop := (w₈.segment hc).1
  have hs₇ : g₇.code.size = g₅.code.size := p₇.size_eq.trans hsize₆
  rw [hs₇] at hpop
  rw [w₈.size_eq, hs₇]
  exact .switch (l₁.evaluates h₁ (x₂.part.trans c₂)) (htests c₂ hreach) hJ hl (s₃ ▸ harms) hpop

/-! ### Ends of the script -/

/-- A script returns a value. -/
theorem performing_returnValue {value : Node} (hvalue : Evaluating value) :
    Performing (Node.returning p (some value)).statement (.one (.returning p (some value))) := by
  refine started_gives ?_
  intro g g' R w h
  simp only [gives_bind] at h
  obtain ⟨_, g₁, h₁, _, g₂, h₂, h⟩ := h
  have l₁ := hvalue h₁
  have w₂ := leaveInstances_gives h₂
  have w₃ := w₂.append (write_gives h (by simp [Instruction.jump?]))
  refine (l₁.toExtends.trans w₃.toExtends).does w fun {code levels} hc hf => ?_
  have hseg := w₃.segment hc
  rw [← w₃.frames, ← hf.entered] at hseg
  rw [w₃.size_eq, ← w₃.frames, ← hf.entered, List.length_append, List.length_replicate,
    ← Nat.add_assoc]
  exact .returnValue (l₁.evaluates h₁ (w₃.part.trans hc)) hseg

/-- The end of the script leaves all instances. -/
theorem ending_gives {u : Unit} (h : Gives (do leaveInstances; write .exit) g u g') :
    g.Extends g' ∧ ∀ {code : Code} {levels : List Level}, g'.code.PartOf code →
      Frame.Fits code g'.frames levels →
      code.Segment g.code.size (.replicate (Level.entered levels) .popEnvExit ++ [.exit]) ∧
        g'.code.size = g.code.size + Level.entered levels + 1 := by
  obtain ⟨_, g₁, h₁, h⟩ := gives_bind.1 h
  have w₂ := (leaveInstances_gives h₁).append (write_gives h (by simp [Instruction.jump?]))
  refine ⟨w₂.toExtends, fun {code levels} hc hf => ?_⟩
  have hseg := w₂.segment hc
  have hsize := w₂.size_eq
  rw [← w₂.frames, ← hf.entered] at hseg hsize
  rw [List.length_append, List.length_replicate, ← Nat.add_assoc] at hsize
  exact ⟨hseg, hsize⟩

end Generate

namespace Node

open Generate Generator

mutual

/-- The code of a statement does what it says. -/
theorem performing_statement : ∀ node : Node, node.Every Node.Regular →
    Performing node.statement (.one node)
  | .block p body, hr => by
    refine started_gives ?_
    intro g g' R w h
    have d := performing_statements body hr.2 w h
    exact ⟨d.toGrows, d.waits, d.part, fun hc hf => .block (d.performs hc hf)⟩
  | .assign p target operator value, hr => performing_basic <|
    enacting_assign (lays_address target hr.2.1) (evaluating_expression hr.2.2)
  | .discard p expression, hr => performing_basic (enacting_discard hr.2)
  | .ifElse p condition thenBody none, hr =>
    performing_ifThen (evaluating_expression hr.2.1) (performing_statement thenBody hr.2.2.1)
  | .ifElse p condition thenBody (some elseBody), hr =>
    performing_ifElse (evaluating_expression hr.2.1) (performing_statement thenBody hr.2.2.1)
      (performing_statement elseBody hr.2.2.2)
  | .whileDo p condition body, hr =>
    performing_whileDo (evaluating_expression hr.2.1) (performing_statement body hr.2.2)
  | .doUntil p body condition, hr =>
    performing_doUntil (evaluating_expression hr.2.2) (performing_statement body hr.2.1)
  | .repeatTimes p count body, hr =>
    performing_repeatTimes (evaluating_expression hr.2.1) (performing_statement body hr.2.2)
  | .forLoop p init none step body, hr =>
    performing_forEver (performing_statements init hr.2.1) (performing_statements step hr.2.2.2.1)
      (performing_statement body hr.2.2.2.2)
  | .forLoop p init (some condition) step body, hr =>
    performing_forLoop (performing_statements init hr.2.1) (evaluating_expression hr.2.2.1)
      (performing_statements step hr.2.2.2.1) (performing_statement body hr.2.2.2.2)
  | .switch p subject cases, hr =>
    performing_switch (evaluating_expression hr.2.1)
      (fun arm ha => evaluating_option ((everyCase_iff _ cases).1 hr.2.2 arm ha).1)
      (performing_arms cases hr.2.2)
  | .withEach p targets body, hr => by
    refine started_gives ?_
    intro g g' R w h
    have htargets := (everyOf_iff _ targets).1 hr.2.1
    have d := performing_eachInstance (fun t ht => evaluating_expression (htargets t ht))
      (performing_statement body hr.2.2) w h
    exact ⟨d.toGrows, d.waits, d.part, fun hc hf => .withEach (d.performs hc hf)⟩
  | .declare p bindings, hr => performing_basic (enacting_declare hr)
  | .declareGlobal p names, _ =>
    performing_basic (enacting_nothing fun _ _ => .declareGlobal)
  | .declareEnum p name members, _ =>
    performing_basic (enacting_nothing fun _ _ => .declareEnum)
  | .returning p (some value), hr => performing_returnValue (evaluating_expression hr.2)
  | .returning p none, _ => by
    refine started_gives ?_
    intro g g' R w h
    obtain ⟨x, hends⟩ := ending_gives h
    refine x.does w fun hc hf => ?_
    obtain ⟨hseg, hsize⟩ := hends hc hf
    rw [hsize]
    exact .returnNothing hseg
  | .exit p, _ => by
    refine started_gives ?_
    intro g g' R w h
    obtain ⟨x, hends⟩ := ending_gives h
    refine x.does w fun hc hf => ?_
    obtain ⟨hseg, hsize⟩ := hends hc hf
    rw [hsize]
    exact .exit hseg
  | .breaking p, _ => started_gives (performing_breaking p)
  | .continuing p, _ => started_gives (performing_continuing p)
  | .int .., _ | .real .., _ | .string .., _ | .ident .., _ | .binary .., _ | .logical .., _
  | .unary .., _ | .conditional .., _ | .call .., _ | .index .., _ | .member .., _
  | .update .., _ | .struct .., _ | .array .., _ =>
    started_gives fun _ _ _ _ h => (gives_fail h).elim
termination_by structural node => node

/-- The code of statements in sequence does what they say. -/
theorem performing_statements : ∀ nodes : List Node, EveryOf Node.Regular nodes →
    Performing (statements nodes) (.all nodes)
  | [], _ => by
    intro g g' R w h
    obtain ⟨-, rfl⟩ := gives_pure.1 h
    exact (Extends.refl _).does w fun _ _ => .nothing
  | node :: rest, hr => by
    intro g g' R w h
    simp only [statements, gives_bind] at h
    obtain ⟨_, g₁, h₁, h⟩ := h
    have d₁ := performing_statement node hr.1 w h₁
    have d₂ := performing_statements rest hr.2 d₁.waits h
    exact ⟨d₁.toGrows.trans d₂.toGrows, d₂.waits, d₁.part.trans d₂.part, fun hc hf =>
      .sequence (d₁.performs (d₂.part.trans hc) (d₂.frames.fits hf)) (d₂.performs hc hf)⟩
termination_by structural nodes => nodes

/-- The code of each arm of a switch does what the arm says. -/
theorem performing_arms : ∀ cases : List (Case Node), EveryCase Node.Regular cases →
    ∀ arm ∈ cases, Performing (statements arm.body) (.all arm.body)
  | [], _ => by simp
  | ⟨label, body, p⟩ :: rest, hr => by
    intro arm harm
    rcases List.mem_cons.1 harm with rfl | harm
    · exact performing_statements body hr.2.1
    · exact performing_arms rest hr.2.2 arm harm
termination_by structural cases => cases

end

end Node

open Generate Generator in
/-- The code of a script does what its statements say, and then ends the script. -/
theorem Script.realizes {script : Script} {code : Code}
    (hr : Node.EveryOf Node.Regular script.body) (h : script.generate = .ok code) :
    ∃ stop, code.Realizes script.body stop := by
  unfold Script.generate Script.generateFrom at h
  cases hrun : (Node.statements script.body).run {} with
  | error diagnostic => rw [hrun] at h; cases h
  | ok result =>
    obtain ⟨⟨⟩, g⟩ := result
    rw [hrun] at h
    have w : Code.Waits {} (Generator.gaps {} ++ []) := .nil _
    have d : Does {} g [] (.all script.body) := Node.performing_statements script.body hr w hrun
    have hframes : g.frames = [] := by
      have hgrow := d.frames
      cases hf : g.frames with
      | nil => rfl
      | cons f fs => rw [hf] at hgrow; exact hgrow.elim
    have hfits : ∀ {code : Code}, Frame.Fits code g.frames [] := by
      rw [hframes]
      exact trivial
    have hcode : code = if g.code.instructions.back? = some .exit then g.code
        else g.code.push .exit := by
      cases hpending : Code.firstPending? (if g.code.instructions.back? = some .exit then g.code
          else g.code.push .exit) with
      | some site =>
        dsimp only [bind, Except.bind] at h
        rw [hpending] at h
        cases h
      | none =>
        dsimp only [bind, Except.bind] at h
        rw [hpending] at h
        exact (Except.ok.inj h).symm
    refine ⟨g.code.size, ?_⟩
    split at hcode
    next hexit =>
      subst hcode
      refine ⟨d.performs (.refl _) hfits, .inr ⟨rfl, ?_⟩, d.nodup (by simp)⟩
      rw [Array.back?_eq_getElem?] at hexit
      exact hexit
    next =>
      subst hcode
      refine ⟨d.performs (.push _ _) hfits, .inl ⟨by simp [Code.size, Code.push], ?_⟩,
        d.nodup (by simp)⟩
      exact Code.has_push.2 (.inr ⟨rfl, rfl⟩)

end Gml
