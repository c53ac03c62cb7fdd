import Gml.Tree.Parser.Statement

/-!
# What the actions of the parser do

`Parse.Keeps` says what an action does at the parsers with a property: if it succeeds, what it gives
and that the parser has the property as before, and if it fails, that something is wrong with the
grammar. `Parse.Leads` is for actions that lead from one property to another. Both are closed under
sequence, and actions that keep a property also under loops, so that the grammar is gone through part
by part.

Any property will do that does not depend on the token that comes next (`Parser.Steady`). The parts of
the grammar that put nothing of their own around what they read are gone through here, for all such
properties: fields, arguments, bindings and the arms of a switch.
-/

namespace Gml

/-- The property of a parser does not depend on the token that comes next. -/
class Parser.Steady (S : Parser → Prop) : Prop where
  advance : ∀ parser, S parser → S { parser with current := parser.current + 1 }

namespace Parse

variable {α β : Type} {P : α → Prop} {Q : β → Prop} {S S' S'' : Parser → Prop}

/-- What an action at a parser does. -/
structure LeadsAt (S : Parser → Prop) (parser : Parser) (x : Parse α) (P : α → Prop) : Prop where
  /-- What it gives has a property, and so has the parser then. -/
  gives : ∀ a parser', x.run.run parser = (.ok a, parser') → P a ∧ S parser'
  /-- If it fails, the tokens do not follow the grammar. -/
  fails : ∀ diagnostic parser', x.run.run parser = (.error diagnostic, parser') →
    diagnostic.stage = .grammar

/-- What an action does that leads from one property of the parser to another. -/
def Leads (S S' : Parser → Prop) (x : Parse α) (P : α → Prop) : Prop :=
  ∀ parser : Parser, S parser → LeadsAt S' parser x P

/-- What an action does that keeps a property of the parser. -/
abbrev Keeps (S : Parser → Prop) (x : Parse α) (P : α → Prop) : Prop :=
  Leads S S x P

/-- An action that gives something whose properties do not matter. -/
abbrev Passes (S : Parser → Prop) (x : Parse α) : Prop :=
  Keeps S x fun _ => True

variable {x item : Parse α} {parser : Parser} {f : α → Parse β}

/-- An action that succeeds. -/
theorem leadsAt_of_run {parser' : Parser} {a : α} (hrun : x.run.run parser = (.ok a, parser'))
    (h : P a) (hp : S parser') : LeadsAt S parser x P where
  gives b other hgives := by
    cases hrun.symm.trans hgives
    exact ⟨h, hp⟩
  fails diagnostic other hfails := by cases hrun.symm.trans hfails

/-- To give a value. -/
theorem keeps_pure {a : α} (h : P a) : Keeps S (pure a) P :=
  fun _ hp => leadsAt_of_run rfl h hp

/-- To fail. -/
theorem leads_throw {d : Diagnostic} (h : d.stage = .grammar) :
    Leads S S' (throw d : Parse α) P := by
  refine fun parser _ => ⟨?_, ?_⟩
  · rintro _ _ ⟨⟩
  · rintro _ _ ⟨⟩
    exact h

/-- What comes after an action. -/
theorem LeadsAt.bind (hx : LeadsAt S parser x P) (hf : ∀ a, P a → Leads S S' (f a) Q) :
    LeadsAt S' parser (x >>= f) Q := by
  refine ⟨fun b parser' h => ?_, fun diagnostic parser' h => ?_⟩
  all_goals
    rw [ExceptT.run_bind, StateT.run_bind] at h
    rcases hrun : x.run.run parser with ⟨_ | a, parser₁⟩
  · rw [hrun] at h
    cases h
  · rw [hrun] at h
    obtain ⟨ha, hp⟩ := hx.gives a parser₁ hrun
    exact (hf a ha parser₁ hp).gives b parser' h
  · rw [hrun] at h
    cases h
    exact hx.fails _ _ hrun
  · rw [hrun] at h
    obtain ⟨ha, hp⟩ := hx.gives a parser₁ hrun
    exact (hf a ha parser₁ hp).fails diagnostic parser' h

/-- A sequence of actions. -/
theorem leads_bind (hx : Leads S S' x P) (hf : ∀ a, P a → Leads S' S'' (f a) Q) :
    Leads S S'' (x >>= f) Q :=
  fun parser hp => (hx parser hp).bind hf

/-- A result that does not matter. -/
theorem leads_then (hx : Leads S S' x fun _ => True) (hf : ∀ a, Leads S' S'' (f a) Q) :
    Leads S S'' (x >>= f) Q :=
  leads_bind hx fun a _ => hf a

/-- A result that is changed. -/
theorem keeps_map {f : α → β} (hx : Keeps S x P) (hf : ∀ a, P a → Q (f a)) :
    Keeps S (f <$> x) Q := by
  rw [← bind_pure_comp]
  exact leads_bind hx fun a ha => keeps_pure (hf a ha)

/-- A weaker result. -/
theorem LeadsAt.imp {P' : α → Prop} (hx : LeadsAt S parser x P) (h : ∀ a, P a → P' a) :
    LeadsAt S parser x P' where
  gives a parser' hrun := (hx.gives a parser' hrun).imp_left (h a)
  fails := hx.fails

/-- A weaker result everywhere. -/
theorem Leads.imp {P' : α → Prop} (hx : Leads S S' x P) (h : ∀ a, P a → P' a) : Leads S S' x P' :=
  fun parser hp => (hx parser hp).imp h

/-- A look at the parser comes before an action. -/
theorem leads_get_bind {f : Parser → Parse β}
    (hf : ∀ parser : Parser, S parser → LeadsAt S' parser (f parser) Q) :
    Leads S S' (get >>= f) Q :=
  fun parser hp => ⟨(hf parser hp).gives, (hf parser hp).fails⟩

/-- A change of the parser. -/
theorem leads_modify {f : Parser → Parser} (hf : ∀ parser, S parser → S' (f parser)) :
    Leads S S' (modify f : Parse Unit) fun _ => True :=
  fun parser hp => leadsAt_of_run rfl trivial (hf parser hp)

/-- An action between two changes of the parser. -/
theorem keeps_around {before after : Parser → Parser} (hb : ∀ parser, S parser → S' (before parser))
    (ha : ∀ parser, S' parser → S (after parser)) (hx : Keeps S' x P) :
    Keeps S (ExceptT.mk do
      modify before
      let result ← x.run
      modify after
      return result) P := by
  intro parser hp
  rcases hrun : x.run.run (before parser) with ⟨result, parser₁⟩
  have hafter : (ExceptT.mk do
      modify before
      let result ← x.run
      modify after
      return result : Parse α).run.run parser = (result, after parser₁) := by
    change ((x.run.run (before parser)).1, after (x.run.run (before parser)).2) = _
    rw [hrun]
  have hinner := hx (before parser) (hb parser hp)
  refine ⟨fun a parser' h => ?_, fun diagnostic parser' h => ?_⟩
  · cases hafter.symm.trans h
    exact (hinner.gives a parser₁ hrun).imp_right (ha parser₁)
  · cases hafter.symm.trans h
    exact hinner.fails diagnostic parser₁ hrun

/-- Something that is there. -/
theorem keeps_some (h : Keeps S item P) :
    Keeps S (some <$> item) fun value => ∀ a ∈ value, P a := by
  refine keeps_map h fun a ha => ?_
  rintro _ ⟨⟩
  exact ha

/-- Nothing is there. -/
theorem keeps_none : Keeps S (pure none) fun value : Option α => ∀ a ∈ value, P a := by
  refine keeps_pure ?_
  rintro _ ⟨⟩

/-- An expression or statement that may be left out, and what comes after it. -/
theorem keeps_optional {found : Bool} {f : Option α → Parse β} (h : Keeps S item P)
    (hf : ∀ value : Option α, (∀ a ∈ value, P a) → Keeps S (f value) Q) :
    Keeps S (if found = true then some <$> item >>= f else pure none >>= f) Q := by
  split
  · exact leads_bind (keeps_some h) hf
  · exact leads_bind keeps_none hf

/-! ### Tokens -/

/-- A look at the kind. -/
theorem passes_kind : Passes S kind :=
  fun _ hp => leadsAt_of_run rfl trivial hp

/-- A look at the kind of the next token comes before an action. -/
theorem leads_kind_bind {f : Kind → Parse β}
    (hf : ∀ parser : Parser, S parser → LeadsAt S' parser (f parser.head.kind) Q) :
    Leads S S' (kind >>= f) Q :=
  fun parser hp => ⟨(hf parser hp).gives, (hf parser hp).fails⟩

/-- A look at the place. -/
theorem passes_position : Passes S position :=
  fun _ hp => leadsAt_of_run rfl trivial hp

/-- A look for a kind. -/
theorem passes_check (wanted : Kind) : Passes S (check wanted) :=
  fun _ hp => leadsAt_of_run rfl trivial hp

/-- A kind that is known. -/
theorem leadsAt_check_bind {wanted : Kind} {f : Bool → Parse β}
    (h : LeadsAt S parser (f (parser.head.kind = wanted)) Q) :
    LeadsAt S parser (check wanted >>= f) Q :=
  ⟨h.gives, h.fails⟩

/-- To fail at the next token. -/
theorem leads_fail {fault : Fault} (h : fault.stage = .grammar) :
    Leads S S' (fail fault : Parse α) P :=
  leads_then passes_position fun _ => leads_throw h

/-- Nothing comes after it. -/
theorem leads_fail_bind {fault : Fault} (h : fault.stage = .grammar) :
    Leads S S' (fail fault >>= f) Q :=
  leads_bind (P := fun _ => False) (leads_fail h : Keeps S _ _) fun _ hfalse => hfalse.elim

/-- A token that is not expected. -/
theorem leads_unexpected {place : Misplaced} : Leads S S' (unexpected place : Parse α) P :=
  leads_get_bind fun parser hp => leads_fail rfl parser hp

/-- What reading a token does. -/
theorem run_next (parser : Parser) :
    next.run.run parser = (.ok parser.head,
      if parser.head.kind = .endOfFile then parser
      else { parser with current := parser.current + 1 }) := by
  change (if parser.head.kind = .endOfFile then _ else _ : Parse Token).run.run parser = _
  split <;> rfl

/-- A loop keeps what each of its rounds keeps. -/
theorem keeps_loop {step : α → Parse (α ⊕ β)} {a : α}
    (hstep : ∀ a, P a → Keeps S (step a) fun result => Sum.elim P Q result) (ha : P a) :
    Keeps S (loop step a) Q := by
  have hrounds : ∀ n a, P a → Keeps S (rounds step n a) Q := by
    intro n
    induction n with
    | zero => exact fun _ _ => leads_fail rfl
    | succ n ih =>
      intro a ha
      refine leads_bind (hstep a ha) fun result hresult => ?_
      cases result with
      | inl a => exact ih a hresult
      | inr b => exact keeps_pure hresult
  exact leads_get_bind fun parser hp => hrounds _ a ha parser hp

/-- Items up to the end. -/
theorem keeps_manyUntil {closes : Kind → Bool} (hitem : Keeps S item P) :
    Keeps S (manyUntil closes item) fun items => ∀ a ∈ items, P a := by
  refine keeps_loop (P := fun items => ∀ a ∈ items, P a) (fun items hitems => ?_) (by simp)
  refine leads_then passes_kind fun k => ?_
  split
  · exact keeps_pure fun a ha => hitems a (List.mem_reverse.1 ha)
  · refine leads_bind hitem fun a ha => keeps_pure ?_
    exact List.forall_mem_cons.2 ⟨ha, hitems⟩

variable [Parser.Steady S]

/-- What is read next is the token at the head. -/
theorem leadsAt_next (hp : S parser) : LeadsAt S parser next (· = parser.head) := by
  refine leadsAt_of_run (run_next parser) rfl ?_
  split
  · exact hp
  · exact Parser.Steady.advance parser hp

/-- One token. -/
theorem passes_next : Passes S next :=
  fun _ hp => (leadsAt_next hp).imp fun _ _ => trivial

/-- A token that may be there. -/
theorem passes_skip (wanted : Kind) : Passes S (skip wanted) := by
  refine leads_then (passes_check wanted) fun found => ?_
  split
  · exact leads_then passes_next fun _ => keeps_pure trivial
  · exact keeps_pure trivial

/-- A token that is asked for. -/
theorem passes_eat (wanted : Kind) : Passes S (eat wanted) := by
  refine leads_then (passes_check wanted) fun found => ?_
  split
  · exact passes_next
  · exact leads_get_bind fun parser hp => leads_fail rfl parser hp

/-- A name is the next token. -/
theorem leadsAt_eatName (hp : S parser) :
    LeadsAt S parser eatName fun token => token = parser.head ∧ token.kind = .identifier := by
  refine leadsAt_check_bind ?_
  split
  next hk =>
    refine (leadsAt_next hp).imp ?_
    rintro token rfl
    exact ⟨rfl, of_decide_eq_true hk⟩
  next => exact leads_get_bind (fun parser hp => leads_fail rfl parser hp) parser hp

/-- A name. -/
theorem keeps_eatName : Keeps S eatName fun token => token.kind = .identifier :=
  fun _ hp => (leadsAt_eatName hp).imp fun _ h => h.2

/-! ### Lists

With commas between them, items are read in rounds. A list that may end before an item first looks
for the closing token in each round; the rest of the round is the same.
-/

/-- One round of a list with commas: an item, and a comma if there are more. -/
def separatedRound (item : Parse α) (items : List α) : Parse (List α ⊕ List α) := do
  let items := (← item) :: items
  if ← skip .comma then return .inl items
  return .inr items.reverse

/-- One round of a list. -/
theorem keeps_separatedRound {items : List α} (hitem : Keeps S item P) (hitems : ∀ a ∈ items, P a) :
    Keeps S (separatedRound item items) fun result => Sum.elim (fun items => ∀ a ∈ items, P a)
      (fun items => items ≠ [] ∧ ∀ a ∈ items, P a) result := by
  refine leads_bind hitem fun a ha => leads_then (passes_skip _) fun more => ?_
  have hall : ∀ b ∈ a :: items, P b := List.forall_mem_cons.2 ⟨ha, hitems⟩
  split
  · exact keeps_pure hall
  · exact keeps_pure ⟨by simp, fun b hb => hall b (List.mem_reverse.1 hb)⟩

/-- A list with commas. -/
theorem keeps_separated (hitem : Keeps S item P) :
    Keeps S (separated item) fun items => items ≠ [] ∧ ∀ a ∈ items, P a :=
  keeps_loop (P := fun items => ∀ a ∈ items, P a)
    (fun _ hitems => keeps_separatedRound hitem hitems) (by simp)

/-- A list up to its end. -/
theorem keeps_listUntil {close : Kind} (hitem : Keeps S item P) :
    Keeps S (listUntil close item) fun items => ∀ a ∈ items, P a := by
  refine keeps_loop (P := fun items => ∀ a ∈ items, P a) (fun items hitems => ?_) (by simp)
  refine leads_then (passes_check _) fun closed => ?_
  split
  · exact keeps_pure fun a ha => hitems a (List.mem_reverse.1 ha)
  · refine (keeps_separatedRound hitem hitems).imp fun result hresult => ?_
    cases result with
    | inl => exact hresult
    | inr => exact hresult.2

/-! ### Parts of the grammar -/

section

variable {inner : Inner} {P Q : Node → Prop}

/-- A field of a struct. -/
theorem keeps_structField (h : Keeps S inner.expression P) :
    Keeps S (structField inner) fun field => P field.2 := by
  refine leads_then passes_kind fun k => ?_
  have hrest : ∀ key : String, Keeps S (do
      let _ ← eat .colon
      return (key, ← inner.expression)) fun field => P field.2 := fun key =>
    leads_then (passes_eat _) fun _ => leads_bind h fun _ hn => keeps_pure hn
  split
  iterate 2 exact leads_then passes_next fun _ => leads_then (keeps_pure trivial) fun _ => hrest _
  · exact leads_then leads_unexpected fun _ => hrest _

/-- Arguments. -/
theorem keeps_arguments (h : Keeps S inner.expression P) :
    Keeps S (arguments inner) fun items => ∀ node ∈ items, P node := by
  refine keeps_loop (P := fun items => ∀ node ∈ items, P node) (fun items hitems => ?_) (by simp)
  refine leads_then (passes_check _) fun closed => ?_
  have hitem : Keeps S (do return Sum.inl ((← inner.expression) :: items)) fun result =>
      Sum.elim (fun items : List Node => ∀ node ∈ items, P node)
        (fun items : List Node => ∀ node ∈ items, P node) result :=
    leads_bind h fun node hn => keeps_pure (List.forall_mem_cons.2 ⟨hn, hitems⟩)
  split
  · exact keeps_pure fun a ha => hitems a (List.mem_reverse.1 ha)
  · split
    · exact hitem
    · exact leads_then (passes_eat _) fun _ => hitem

/-- A name with its value. -/
theorem keeps_binding {N : String → Prop} (hname : Keeps S eatName fun token => N token.value)
    (h : Keeps S inner.expression P) : Keeps S (binding inner) fun binding =>
      N binding.name ∧ ∀ value ∈ binding.value, P value := by
  refine leads_bind hname fun token ht => leads_then (passes_skip _) fun found => ?_
  exact keeps_optional h fun value hv => keeps_pure ⟨ht, hv⟩

/-- An arm of a switch. -/
theorem keeps_switchCase (he : Keeps S inner.expression P) (hs : Keeps S inner.statement Q) :
    Keeps S (switchCase inner) fun arm =>
      (∀ label ∈ arm.label, P label) ∧ ∀ statement ∈ arm.body, Q statement := by
  refine leads_then passes_position fun start => leads_then passes_kind fun k => ?_
  have hrest : ∀ label : Option Node, (∀ node ∈ label, P node) → Keeps S (do
      let _ ← eat .colon
      let body ← manyUntil (fun kind => kind ∈ [.kwCase, .kwDefault, .rightBrace, .endOfFile])
        inner.statement
      return ({ label, body, position := start } : Case Node)) fun arm =>
      (∀ label ∈ arm.label, P label) ∧ ∀ statement ∈ arm.body, Q statement :=
    fun label hl => leads_then (passes_eat _) fun _ =>
      leads_bind (keeps_manyUntil hs) fun _ hb => keeps_pure ⟨hl, hb⟩
  split
  · exact leads_then passes_next fun _ => leads_bind (keeps_some he) hrest
  · exact leads_then passes_next fun _ => leads_bind keeps_none hrest
  · exact leads_bind leads_unexpected hrest

end

end Parse

end Gml
