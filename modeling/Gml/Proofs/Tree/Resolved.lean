import Gml.Compile
import Gml.Proofs.Outcome
import Gml.Proofs.Tree.Order
import Gml.Proofs.Tree.Read

/-!
# Trees whose names are looked up

Looking up the names of a tree that is read gives a tree of the same shape in which every name has a
meaning, and what is stored to is a variable, a field or an element (`Script.actions_of_resolve`).
It stays regular: names and the numbers of indices are as they were, and what a member is replaced by
has a name or value of the tree, too. If a name cannot be looked up, that is all that is wrong
(`Script.stage_of_resolve`). All places are taken from the tree, those of the tree that comes out
(`Script.spans_of_resolve`) and that of the message (`Script.position_of_resolve`).

Together with the trees that are read this covers all trees that code is written for:
`compileToCode_eq_ok`.
-/

namespace Gml

/-! ### Actions

An action ends with what it gives, or with a fault of a kind.
-/

namespace Resolve

variable {α β : Type} {P : α → Prop} {Q : β → Prop} {E : Diagnostic → Prop}

/-- How an action ends: what it gives has a property, and so has the message if it fails. -/
structure Ends (E : Diagnostic → Prop) (x : Resolve α) (P : α → Prop) : Prop where
  gives : ∀ scope a scope', x.run scope = .ok (a, scope') → P a
  fails : ∀ scope diagnostic, x.run scope = .error diagnostic → E diagnostic

/-- To give a value. -/
theorem ends_pure {a : α} (h : P a) : Ends E (pure a) P := by
  constructor
  · rintro scope _ _ ⟨⟩
    exact h
  · rintro scope _ ⟨⟩

/-- To fail. -/
theorem ends_fail {fault : Fault} {p : Position} (h : E ⟨fault, p⟩) :
    Ends E (fail fault p : Resolve α) P := by
  constructor
  · rintro scope _ _ ⟨⟩
  · rintro scope _ ⟨⟩
    exact h

/-- A sequence. -/
theorem Ends.bind {x : Resolve α} {f : α → Resolve β} (hx : Ends E x P)
    (hf : ∀ a, P a → Ends E (f a) Q) : Ends E (x >>= f) Q := by
  constructor
  case gives =>
    intro scope b scope' h
    rw [StateT.run_bind] at h
    obtain ⟨result, hrun, h⟩ := exists_ok_of_bind h
    exact (hf result.1 (hx.gives scope result.1 result.2 hrun)).gives result.2 b scope' h
  case fails =>
    intro scope diagnostic h
    rw [StateT.run_bind] at h
    rcases error_of_bind h with h | ⟨result, hrun, h⟩
    · exact hx.fails scope diagnostic h
    · exact (hf result.1 (hx.gives scope result.1 result.2 hrun)).fails result.2 diagnostic h

/-- An action that gives something whose properties do not matter. -/
abbrev Passes (E : Diagnostic → Prop) (x : Resolve α) : Prop :=
  Ends E x fun _ => True

/-- A result that does not matter. -/
theorem ends_then {x : Resolve α} {f : α → Resolve β} (hx : Passes E x)
    (hf : ∀ a, Ends E (f a) Q) : Ends E (x >>= f) Q :=
  Ends.bind hx fun a _ => hf a

/-- A look at the scope. -/
theorem passes_get : Passes E get := by
  constructor
  · exact fun _ _ _ _ => trivial
  · rintro scope _ ⟨⟩

/-- A change of the scope. -/
theorem passes_modify {f : Scope → Scope} : Passes E (modify f) := by
  constructor
  · exact fun _ _ _ _ => trivial
  · rintro scope _ ⟨⟩

/-! ### Declarations -/

variable {context : Context} {name : String} {p : Position}

/-- A requirement. -/
theorem passes_require {feature : Feature} (h : E ⟨.unavailable feature context.versionTier, p⟩) :
    Passes E (require context feature p) := by
  unfold require
  split
  · exact ends_pure trivial
  · exact ends_fail h

/-- A local variable. -/
theorem passes_declareLocal (h : E ⟨.localName name, p⟩) :
    Passes E (declareLocal context name p) := by
  unfold declareLocal
  split
  · exact ends_then (ends_fail h) fun _ => passes_modify
  · exact passes_modify

/-- A global variable. -/
theorem passes_declareGlobal (h : E ⟨.globalName name, p⟩) :
    Passes E (declareGlobal context p name) := by
  unfold declareGlobal
  split
  · exact ends_then (ends_fail h) fun _ => passes_modify
  · exact passes_modify

/-- Several of them. -/
theorem passes_declareGlobals (h : ∀ name, E ⟨.globalName name, p⟩) (names : List String) :
    Passes E (names.forM (declareGlobal context p)) := by
  induction names with
  | nil => exact ends_pure trivial
  | cons name names ih => exact ends_then (passes_declareGlobal (h name)) fun _ => ih

/-- Values that are not known. -/
theorem fails_of_memberValues {enums : Enums} {members : List (Binding Node)} {next : Int64}
    {values : Table String Int64} {diagnostic : Diagnostic}
    (hE : ∀ member ∈ members, ∀ value ∈ member.value,
      E ⟨.enumValue name member.name, value.position⟩)
    (h : Scope.memberValues enums name members next values = .error diagnostic) : E diagnostic := by
  induction members generalizing next values with
  | nil => cases h
  | cons member members ih =>
    obtain ⟨hmember, hE⟩ := List.forall_mem_cons.1 hE
    unfold Scope.memberValues at h
    split at h
    · exact ih hE h
    next value hvalue =>
      split at h
      · exact ih hE h
      · cases h
        exact hmember value hvalue

/-- An enumeration. -/
theorem passes_declareEnum {members : List (Binding Node)}
    (hE : ∀ member ∈ members, ∀ value ∈ member.value,
      E ⟨.enumValue name member.name, value.position⟩) :
    Passes E (declareEnum name members) := by
  refine ends_then passes_get fun scope => ends_then ?_ fun _ =>
    ends_then passes_modify fun _ => ends_pure trivial
  refine ⟨fun _ _ _ _ => trivial, fun scope' diagnostic h => ?_⟩
  rcases error_of_bind h with h | ⟨values, -, h⟩
  · exact fails_of_memberValues hE h
  · cases h

/-- What an action does on a tree that is read: if it fails then over a name, at one of some places. -/
abbrev Yields (P : Position → Prop) (x : Resolve α) (Q : α → Prop) : Prop :=
  Ends (fun diagnostic => diagnostic.stage = .resolution ∧ P diagnostic.position) x Q

end Resolve

/-! ### Targets -/

/-- Whether the node can come from a name, a field or an element. A member of an enumeration is
replaced by its value. -/
def Node.isCandidate : Node → Bool
  | ident .. | member .. | index .. | int .. => true
  | _ => false

namespace Resolve

variable {P : Position → Prop}

/-- A target. -/
theorem yields_storable {target : Node} (hevery : target.Every (Node.In Node.Known P))
    (hcandidate : target.isCandidate = true) :
    Yields P (storable target) fun result =>
      result.isStorable = true ∧ result.Every (Node.In Node.Known P) := by
  have hposition : P target.position := hevery.self.places _ target.position_mem_places
  unfold storable
  split
  iterate 5 exact ends_fail ⟨rfl, hposition⟩
  next hint _ hfunction hsymbol hintrinsic =>
    refine ends_pure ⟨?_, hevery⟩
    -- All other candidates are refused above, and no name is left without a meaning.
    cases target with
    | ident p name resolution =>
      have hknown : resolution ≠ .unresolved := of_decide_eq_true hevery.holds.settled
      cases resolution with
      | unresolved => exact (hknown rfl).elim
      | builtinFunction => exact (hfunction _ _ rfl).elim
      | userSymbol reference => exact (hsymbol _ _ _ rfl).elim
      | intrinsic value => exact (hintrinsic _ _ _ rfl).elim
      | _ => rfl
    | int p value => exact (hint _ _ rfl).elim
    | member | index => rfl
    | _ => cases hcandidate

/-- What a member is replaced by is a variable of its name or a value. -/
theorem yields_shortcut {context : Context} {p : Position} {name field : String}
    (h : ¬ IsTemporary field) (hp : P p) : Yields P (shortcut? context p name field) fun short =>
      ∀ node ∈ short, node.ValueOf (Node.In Node.Known P) ∧ node.isCandidate = true := by
  have hplaces : ∀ q ∈ [p], P q := List.forall_mem_singleton.2 hp
  refine ends_then passes_get fun scope => ?_
  split
  · exact ends_pure (by rintro _ ⟨⟩)
  split
  · refine ends_pure ?_
    rintro _ ⟨⟩
    exact ⟨⟨rfl, ⟨h, rfl⟩, hplaces⟩, rfl⟩
  split
  · refine ends_pure ?_
    rintro _ ⟨⟩
    refine ⟨⟨rfl, ⟨h, ?_⟩, hplaces⟩, rfl⟩
    split <;> rfl
  split
  · exact ends_pure (by rintro _ ⟨⟩)
  split
  · refine ends_pure ?_
    rintro _ ⟨⟩
    exact ⟨⟨rfl, ⟨trivial, trivial⟩, hplaces⟩, rfl⟩
  · exact ends_fail ⟨rfl, hp⟩

end Resolve

/-! ### Trees -/

namespace Node

/-- What looking up the names of a node gives. -/
structure Becomes (P : Position → Prop) (node result : Node) : Prop where
  /-- An expression stays one, and so does a statement. -/
  kind : result.isExpression = node.isExpression
  /-- All names have a meaning, and all places are of a kind. -/
  every : result.Every (In Known P)
  /-- It stands where the node may stand. -/
  enclosed : ∀ inLoop inside, node.Enclosed inLoop inside → result.Enclosed inLoop inside
  /-- What can be assigned to is a place or a value. -/
  candidate : node.isAssignable = true → result.isCandidate = true

/-- What looking up the names of several nodes gives. -/
structure BecomeAll (P : Position → Prop) (nodes results : List Node) : Prop where
  length_eq : results.length = nodes.length
  kind : ∀ kind : Bool, (∀ node ∈ nodes, node.isExpression = kind) →
    ∀ result ∈ results, result.isExpression = kind
  every : EveryOf (In Known P) results
  enclosed : ∀ inLoop inside, EnclosedOf nodes inLoop inside → EnclosedOf results inLoop inside

/-- One more node. -/
theorem BecomeAll.cons {P : Position → Prop} {node result : Node} {nodes results : List Node}
    (h : node.Becomes P result) (hrest : BecomeAll P nodes results) :
    BecomeAll P (node :: nodes) (result :: results) where
  length_eq := congrArg (· + 1) hrest.length_eq
  kind kind hkind := by
    obtain ⟨hnode, hnodes⟩ := List.forall_mem_cons.1 hkind
    exact List.forall_mem_cons.2 ⟨h.kind.trans hnode, hrest.kind kind hnodes⟩
  every := ⟨h.every, hrest.every⟩
  enclosed inLoop inside henclosed :=
    ⟨h.enclosed inLoop inside henclosed.1, hrest.enclosed inLoop inside henclosed.2⟩

open Resolve

variable {P : Position → Prop} {context : Context}

/-- Every name means something. -/
theorem resolution_ne_unresolved (scope : Scope) (name : String) :
    scope.resolution context name ≠ .unresolved := by
  unfold Scope.resolution
  repeat' split
  all_goals exact nofun

/-- A statement. -/
theorem yields_onlyStatement {site : Site} {node : Node} {result : Resolve Node} {Q : Node → Prop}
    (hsite : site = .expression → node.isExpression = true) (hnode : node.isExpression = false)
    (h : Yields P result Q) : Yields P (onlyStatement site node result) Q := by
  cases site with
  | statement => exact h
  | expression =>
    have := hsite rfl
    rw [hnode] at this
    cases this

/-- The members of an enumeration get whole numbers in their own places. -/
theorem known_fixedMembers {q : Position} {name : String} (values : Table String Int64)
    {members : List (Binding Node)} (h : ∀ p ∈ (declareEnum q name members).places, P p) :
    (∀ p ∈ (declareEnum q name (fixedMembers values members)).places, P p) ∧
      EveryBinding (In Known P) (fixedMembers values members) := by
  constructor
  · show ∀ p ∈ q :: (fixedMembers values members).map (·.position), P p
    rw [fixedMembers, List.map_map]
    exact h
  · rw [everyBinding_iff]
    intro binding hb
    obtain ⟨member, hmem, rfl⟩ := List.mem_map.1 hb
    exact ⟨⟨trivial, trivial⟩, List.forall_mem_singleton.2 <|
      h _ (List.mem_cons_of_mem _ (List.mem_map_of_mem hmem))⟩

/-- A node has a place. -/
theorem readIn_position {node : Node} (h : node.Every (In Read P)) : P node.position :=
  h.self.places _ node.position_mem_places

/-- The values of an enumeration stand in its places. -/
theorem enumValues_placed {q : Position} {name : String} {members : List (Binding Node)}
    (h : (declareEnum q name members).Every (In Read P)) :
    ∀ member ∈ members, ∀ value ∈ member.value,
      Diagnostic.stage ⟨.enumValue name member.name, value.position⟩ = .resolution ∧
        P value.position :=
  fun member hmem value hvalue => ⟨rfl, readIn_position
    ((everyOption_iff _ _).1 ((everyBinding_iff _ _).1 h.2 member hmem) value hvalue)⟩

mutual

/-- Looking up the names of a node that is read. -/
theorem yields_resolve : ∀ (node : Node) (site : Site), node.Every (In Read P) →
    (site = .expression → node.isExpression = true) →
    Yields P (node.resolve context site) (node.Becomes P)
  | .int .., _, hr, _ =>
    ends_pure ⟨rfl, ⟨⟨trivial, trivial⟩, hr.2⟩, fun _ _ _ => trivial, fun _ => rfl⟩
  | .real .., _, hr, _ =>
    ends_pure ⟨rfl, ⟨⟨trivial, trivial⟩, hr.2⟩, fun _ _ _ => trivial, nofun⟩
  | .string p value verbatim, _, hr, _ => by
    have hpure : Yields P (pure (.string p value verbatim))
        ((Node.string p value verbatim).Becomes P) :=
      ends_pure ⟨rfl, ⟨⟨trivial, trivial⟩, hr.2⟩, fun _ _ _ => trivial, nofun⟩
    unfold resolve
    split
    · exact ends_then (passes_require ⟨rfl, readIn_position hr⟩) fun _ => hpure
    · exact hpure
  | .ident .., _, hr, _ => ends_then passes_get fun scope =>
    ends_pure ⟨rfl, ⟨⟨hr.1.regular, decide_eq_true (resolution_ne_unresolved scope _)⟩, hr.2⟩,
      fun _ _ _ => trivial, fun _ => rfl⟩
  | .binary _ _ lhs rhs, _, hr, _ | .logical _ _ lhs rhs, _, hr, _ =>
    have hf := hr.1.1.formed
    Ends.bind (yields_resolve lhs _ hr.2.1 fun _ => hf.1) fun _ hl =>
      Ends.bind (yields_resolve rhs _ hr.2.2 fun _ => hf.2) fun _ hr' =>
        ends_pure ⟨rfl, ⟨⟨⟨trivial, hl.kind.trans hf.1, hr'.kind.trans hf.2⟩, hr.1.2⟩, hl.every,
          hr'.every⟩,
          fun _ _ _ => trivial, nofun⟩
  | .unary _ _ operand, _, hr, _ =>
    have hf := hr.1.1.formed
    Ends.bind (yields_resolve operand _ hr.2 fun _ => hf) fun _ ho =>
      ends_pure ⟨rfl, ⟨⟨⟨trivial, ho.kind.trans hf⟩, hr.1.2⟩, ho.every⟩, fun _ _ _ => trivial, nofun⟩
  | .conditional _ condition thenValue elseValue, _, hr, _ =>
    have hf := hr.1.1.formed
    Ends.bind (yields_resolve condition _ hr.2.1 fun _ => hf.1) fun _ hc =>
      Ends.bind (yields_resolve thenValue _ hr.2.2.1 fun _ => hf.2.1) fun _ ht =>
        Ends.bind (yields_resolve elseValue _ hr.2.2.2 fun _ => hf.2.2) fun _ he =>
          ends_pure ⟨rfl, ⟨⟨⟨trivial, hc.kind.trans hf.1, ht.kind.trans hf.2.1,
            he.kind.trans hf.2.2⟩, hr.1.2⟩, hc.every, ht.every, he.every⟩, fun _ _ _ => trivial, nofun⟩
  | .call _ callee arguments, _, hr, _ =>
    have hf := hr.1.1.formed
    Ends.bind (yields_resolve callee _ hr.2.1 fun _ => hf.1) fun _ hc =>
      Ends.bind (yields_resolveAll arguments _ hr.2.2 fun _ => hf.2) fun _ ha =>
        ends_pure ⟨rfl, ⟨⟨⟨trivial, hc.kind.trans hf.1, ha.kind _ hf.2⟩, hr.1.2⟩, hc.every, ha.every⟩,
          fun _ _ _ => trivial, nofun⟩
  | .index _ container _ indices, _, hr, _ =>
    have hf := hr.1.1.formed
    Ends.bind (yields_resolve container _ hr.2.1 fun _ => hf.1) fun _ hc =>
      Ends.bind (yields_resolveAll indices _ hr.2.2 fun _ => hf.2) fun _ hi =>
        ends_pure ⟨rfl, ⟨⟨⟨by simpa only [Node.Regular, hi.length_eq] using hr.1.1.regular,
          hc.kind.trans hf.1, hi.kind _ hf.2⟩, hr.1.2⟩, hc.every, hi.every⟩, fun _ _ _ => trivial,
          fun _ => rfl⟩
  | .member p instanceOf field, _, hr, _ => by
    have hf : instanceOf.isExpression = true := hr.1.1.formed
    have hrest : ∀ short : Option Node,
        (∀ node ∈ short, node.ValueOf (In Known P) ∧ node.isCandidate = true) → Yields P (do
          match short with
          | some node => return node
          | none => return .member p (← instanceOf.resolve context .expression) field)
          ((Node.member p instanceOf field).Becomes P) := by
      intro short hshort
      cases short with
      | some node =>
        obtain ⟨hvalue, hcandidate⟩ := hshort node rfl
        refine ends_pure ⟨hvalue.expression, hvalue.every, fun _ _ _ => ?_, fun _ => hcandidate⟩
        exact enclosed_of_isExpression hvalue.expression
      | none =>
        exact Ends.bind (yields_resolve instanceOf _ hr.2 fun _ => hf) fun _ hi =>
          ends_pure ⟨rfl, ⟨⟨⟨hr.1.1.regular, hi.kind.trans hf⟩, hr.1.2⟩, hi.every⟩, fun _ _ _ => trivial,
            fun _ => rfl⟩
    unfold resolve
    split
    · exact Ends.bind (yields_shortcut hr.1.1.regular (readIn_position hr)) hrest
    · exact Ends.bind (ends_pure (by rintro _ ⟨⟩)) hrest
  | .update _ target _ _, _, hr, _ =>
    have hf : target.isAssignable = true := hr.1.1.formed
    Ends.bind (yields_resolve target _ hr.2 fun _ => isExpression_of_isAssignable hf) fun _ ht =>
      Ends.bind (yields_storable ht.every (ht.candidate hf)) fun _ hs =>
        ends_pure ⟨rfl, ⟨⟨⟨trivial, hs.1⟩, hr.1.2⟩, hs.2⟩, fun _ _ _ => trivial, nofun⟩
  | .struct _ fields, _, hr, _ =>
    ends_then (passes_require ⟨rfl, readIn_position hr⟩) fun _ =>
      Ends.bind (yields_resolveFields fields hr.2 hr.1.1.formed) fun _ hf =>
        ends_pure ⟨rfl, ⟨⟨⟨trivial, hf.2⟩, hr.1.2⟩, hf.1⟩, fun _ _ _ => trivial, nofun⟩
  | .array _ elements, _, hr, _ =>
    have hf := hr.1.1.formed
    ends_then (passes_require ⟨rfl, readIn_position hr⟩) fun _ =>
      Ends.bind (yields_resolveAll elements _ hr.2 fun _ => hf) fun _ he =>
        ends_pure ⟨rfl, ⟨⟨⟨trivial, he.kind _ hf⟩, hr.1.2⟩, he.every⟩, fun _ _ _ => trivial, nofun⟩
  | .assign _ target _ value, _, hr, hs =>
    have hf := hr.1.1.formed
    yields_onlyStatement hs rfl <|
      Ends.bind (yields_resolve value _ hr.2.2 fun _ => hf.2) fun _ hv =>
        Ends.bind (yields_resolve target _ hr.2.1 fun _ => isExpression_of_isAssignable hf.1)
          fun _ ht => Ends.bind (yields_storable ht.every (ht.candidate hf.1)) fun _ hs =>
            ends_pure ⟨rfl, ⟨⟨⟨trivial, hs.1, hv.kind.trans hf.2⟩, hr.1.2⟩, hs.2, hv.every⟩,
              fun _ _ _ => trivial, nofun⟩
  | .block _ body, _, hr, hs =>
    yields_onlyStatement hs rfl <|
      Ends.bind (yields_resolveAll body _ hr.2 nofun) fun _ hb =>
        ends_pure ⟨rfl, ⟨⟨⟨trivial, hb.kind _ hr.1.1.formed⟩, hr.1.2⟩, hb.every⟩, hb.enclosed, nofun⟩
  | .ifElse _ condition thenBody none, _, hr, hs =>
    have hf := hr.1.1.formed
    yields_onlyStatement hs rfl <|
      Ends.bind (yields_resolve condition _ hr.2.1 fun _ => hf.1) fun _ hc =>
        Ends.bind (yields_resolve thenBody _ hr.2.2.1 nofun) fun _ ht =>
          Ends.bind (ends_pure (P := (· = none)) rfl) fun _ he => by
            subst he
            exact ends_pure ⟨rfl, ⟨⟨⟨trivial, hc.kind.trans hf.1, ht.kind.trans hf.2.1, nofun⟩, hr.1.2⟩,
              hc.every, ht.every, trivial⟩, fun l b he => ⟨ht.enclosed l b he.1, trivial⟩, nofun⟩
  | .ifElse _ condition thenBody (some elseBody), _, hr, hs =>
    have hf := hr.1.1.formed
    yields_onlyStatement hs rfl <|
      Ends.bind (yields_resolve condition _ hr.2.1 fun _ => hf.1) fun _ hc =>
        Ends.bind (yields_resolve thenBody _ hr.2.2.1 nofun) fun _ ht =>
          Ends.bind (Ends.bind (yields_resolve elseBody _ hr.2.2.2 nofun) fun other ho =>
            ends_pure (P := fun result => ∃ other, result = some other ∧ elseBody.Becomes P other)
              ⟨other, rfl, ho⟩) fun _ he => by
            obtain ⟨other, rfl, ho⟩ := he
            refine ends_pure ⟨rfl, ⟨⟨⟨trivial, hc.kind.trans hf.1, ht.kind.trans hf.2.1, ?_⟩, hr.1.2⟩,
              hc.every, ht.every, ho.every⟩,
              fun l b he => ⟨ht.enclosed l b he.1, ho.enclosed l b he.2⟩, nofun⟩
            rintro _ ⟨⟩
            exact ho.kind.trans (hf.2.2 elseBody rfl)
  | .whileDo _ condition body, _, hr, hs =>
    have hf := hr.1.1.formed
    yields_onlyStatement hs rfl <|
      Ends.bind (yields_resolve condition _ hr.2.1 fun _ => hf.1) fun _ hc =>
        Ends.bind (yields_resolve body _ hr.2.2 nofun) fun _ hb =>
          ends_pure ⟨rfl, ⟨⟨⟨trivial, hc.kind.trans hf.1, hb.kind.trans hf.2⟩, hr.1.2⟩, hc.every,
            hb.every⟩,
            fun _ _ he => hb.enclosed _ _ he, nofun⟩
  | .doUntil _ body condition, _, hr, hs =>
    have hf := hr.1.1.formed
    yields_onlyStatement hs rfl <|
      Ends.bind (yields_resolve body _ hr.2.1 nofun) fun _ hb =>
        Ends.bind (yields_resolve condition _ hr.2.2 fun _ => hf.1) fun _ hc =>
          ends_pure ⟨rfl, ⟨⟨⟨trivial, hc.kind.trans hf.1, hb.kind.trans hf.2⟩, hr.1.2⟩, hb.every,
            hc.every⟩,
            fun _ _ he => hb.enclosed _ _ he, nofun⟩
  | .repeatTimes _ count body, _, hr, hs =>
    have hf := hr.1.1.formed
    yields_onlyStatement hs rfl <|
      Ends.bind (yields_resolve count _ hr.2.1 fun _ => hf.1) fun _ hc =>
        Ends.bind (yields_resolve body _ hr.2.2 nofun) fun _ hb =>
          ends_pure ⟨rfl, ⟨⟨⟨trivial, hc.kind.trans hf.1, hb.kind.trans hf.2⟩, hr.1.2⟩, hc.every,
            hb.every⟩,
            fun _ _ he => hb.enclosed _ _ he, nofun⟩
  | .forLoop _ init condition step body, _, hr, hs =>
    have hf := hr.1.1.formed
    yields_onlyStatement hs rfl <|
      Ends.bind (yields_resolveAll init _ hr.2.1 nofun) fun _ hi =>
        Ends.bind (yields_resolveOptional condition hr.2.2.1 hf.2.1) fun _ hc =>
          Ends.bind (yields_resolveAll step _ hr.2.2.2.1 nofun) fun _ hs =>
            Ends.bind (yields_resolve body _ hr.2.2.2.2 nofun) fun _ hb =>
              ends_pure ⟨rfl, ⟨⟨⟨trivial, hi.kind _ hf.1, fun _ hm => (hc _ hm).expression,
                hs.kind _ hf.2.2.1, hb.kind.trans hf.2.2.2⟩, hr.1.2⟩, hi.every, everyOption_values hc,
                hs.every, hb.every⟩, fun l b he => ⟨hi.enclosed l b he.1, hs.enclosed l b he.2.1,
                hb.enclosed _ _ he.2.2⟩, nofun⟩
  | .switch p subject cases, _, hr, hs =>
    have hf := hr.1.1.formed
    yields_onlyStatement hs rfl <|
      Ends.bind (yields_resolve subject _ hr.2.1 fun _ => hf.1) fun _ hs =>
        Ends.bind (yields_resolveCases cases hr.2.2 hf.2) fun _ hc =>
          ends_pure ⟨rfl, ⟨⟨⟨trivial, hs.kind.trans hf.1, hc.1⟩, hc.2.2.2 p hr.1.2⟩, hs.every,
            hc.2.1⟩, fun _ _ he => hc.2.2.1 _ he, nofun⟩
  | .withEach _ targets body, _, hr, hs =>
    have hf := hr.1.1.formed
    yields_onlyStatement hs rfl <|
      Ends.bind (yields_resolveAll targets _ hr.2.1 fun _ => hf.1) fun _ ht =>
        Ends.bind (yields_resolve body _ hr.2.2 nofun) fun _ hb =>
          ends_pure ⟨rfl, ⟨⟨⟨trivial, ht.kind _ hf.1, hb.kind.trans hf.2⟩, hr.1.2⟩, ht.every,
            hb.every⟩,
            fun _ _ he => hb.enclosed _ _ he, nofun⟩
  | .declare _ bindings, _, hr, hs =>
    have hplaces := List.forall_mem_cons.1 hr.1.2
    yields_onlyStatement hs rfl <| Ends.bind (yields_resolveVariables bindings hr.1.1.regular
      hplaces.2 hr.2 hr.1.1.formed) fun _ hb => ends_pure ⟨rfl, ⟨⟨⟨hb.1, hb.2.1⟩,
        List.forall_mem_cons.2 ⟨hplaces.1, hb.2.2.1⟩⟩, hb.2.2.2⟩, fun _ _ _ => trivial, nofun⟩
  | .declareGlobal .., _, hr, hs =>
    yields_onlyStatement hs rfl <|
      ends_then (passes_declareGlobals (fun _ => ⟨rfl, readIn_position hr⟩) _) fun _ =>
        ends_pure ⟨rfl, ⟨⟨trivial, trivial⟩, hr.2⟩, fun _ _ _ => trivial, nofun⟩
  | .declareEnum .., _, hr, hs =>
    yields_onlyStatement hs rfl <| ends_then (passes_declareEnum (enumValues_placed hr)) fun _ =>
      have hfixed := known_fixedMembers _ hr.1.2
      ends_pure ⟨rfl, ⟨⟨⟨trivial, trivial⟩, hfixed.1⟩, hfixed.2⟩, fun _ _ _ => trivial, nofun⟩
  | .returning _ value, _, hr, hs =>
    yields_onlyStatement hs rfl <|
      Ends.bind (yields_resolveOptional value hr.2 hr.1.1.formed) fun _ hv =>
        ends_pure ⟨rfl, ⟨⟨⟨trivial, fun _ hm => (hv _ hm).expression⟩, hr.1.2⟩, everyOption_values hv⟩,
          fun _ _ _ => trivial, nofun⟩
  | .exit _, _, hr, hs =>
    yields_onlyStatement hs rfl <|
      ends_pure ⟨rfl, ⟨⟨trivial, trivial⟩, hr.2⟩, fun _ _ _ => trivial, nofun⟩
  | .breaking _, _, hr, hs | .continuing _, _, hr, hs =>
    yields_onlyStatement hs rfl <|
      ends_pure ⟨rfl, ⟨⟨trivial, trivial⟩, hr.2⟩, fun _ _ he => he, nofun⟩
  | .discard _ expression, _, hr, hs =>
    have hf := hr.1.1.formed
    yields_onlyStatement hs rfl <|
      Ends.bind (yields_resolve expression _ hr.2 fun _ => hf) fun _ he =>
        ends_pure ⟨rfl, ⟨⟨⟨trivial, he.kind.trans hf⟩, hr.1.2⟩, he.every⟩, fun _ _ _ => trivial, nofun⟩
termination_by structural node => node

/-- Several nodes. -/
theorem yields_resolveAll : ∀ (nodes : List Node) (site : Site), EveryOf (In Read P) nodes →
    (site = .expression → ∀ node ∈ nodes, node.isExpression = true) →
    Yields P (resolveAll context site nodes) (BecomeAll P nodes)
  | [], _, _, _ => ends_pure ⟨rfl, fun _ h => h, trivial, fun _ _ h => h⟩
  | node :: rest, site, hr, hs =>
    Ends.bind (yields_resolve node site hr.1 fun h => hs h node List.mem_cons_self) fun _ hn =>
      Ends.bind (yields_resolveAll rest site hr.2
        fun h other hmem => hs h other (List.mem_cons_of_mem _ hmem)) fun _ hrest =>
          ends_pure (.cons hn hrest)
termination_by structural nodes => nodes

/-- One that may be missing. -/
theorem yields_resolveOptional : ∀ node : Option Node, EveryOption (In Read P) node →
    (∀ value ∈ node, value.isExpression = true) →
    Yields P (resolveOptional context .expression node) fun result =>
      ∀ value ∈ result, value.ValueOf (In Known P)
  | none, _, _ => ends_pure (by rintro _ ⟨⟩)
  | some node, hr, hf =>
    Ends.bind (yields_resolve node _ hr fun _ => hf node rfl) fun _ hn => by
      refine ends_pure ?_
      rintro _ ⟨⟩
      exact ⟨hn.kind.trans (hf node rfl), hn.every⟩
termination_by structural node => node

/-- Fields. -/
theorem yields_resolveFields : ∀ fields : List (String × Node), EveryField (In Read P) fields →
    (∀ field ∈ fields, field.2.isExpression = true) →
    Yields P (resolveFields context fields) fun results =>
      EveryField (In Known P) results ∧ ∀ field ∈ results, field.2.isExpression = true
  | [], _, _ => ends_pure ⟨trivial, by simp⟩
  | (_, value) :: rest, hr, hf =>
    have hvalue : value.isExpression = true := hf _ List.mem_cons_self
    Ends.bind (yields_resolve value _ hr.1 fun _ => hvalue) fun _ hv =>
      Ends.bind (yields_resolveFields rest hr.2
        fun field hmem => hf field (List.mem_cons_of_mem _ hmem)) fun _ hrest =>
          ends_pure ⟨⟨hv.every, hrest.1⟩,
            List.forall_mem_cons.2 ⟨hv.kind.trans hvalue, hrest.2⟩⟩
termination_by structural fields => fields

/-- Declarations. -/
theorem yields_resolveVariables : ∀ bindings : List (Binding Node),
    (∀ binding ∈ bindings, ¬ IsTemporary binding.name) →
    (∀ p ∈ bindings.map (·.position), P p) → EveryBinding (In Read P) bindings →
    (∀ binding ∈ bindings, ∀ value ∈ binding.value, value.isExpression = true) →
    Yields P (resolveVariables context bindings) fun results =>
      (∀ binding ∈ results, ¬ IsTemporary binding.name) ∧
      (∀ binding ∈ results, ∀ value ∈ binding.value, value.isExpression = true) ∧
      (∀ p ∈ results.map (·.position), P p) ∧ EveryBinding (In Known P) results
  | [], _, _, _, _ => ends_pure ⟨by simp, by simp, by simp, trivial⟩
  | ⟨name, value, p⟩ :: rest, hn, hp, hr, hf =>
    have hp := List.forall_mem_cons.1 hp
    have hname : ¬ IsTemporary name := hn ⟨name, value, p⟩ List.mem_cons_self
    Ends.bind (yields_resolveOptional value hr.1 (hf _ List.mem_cons_self)) fun _ hv =>
      ends_then (passes_declareLocal ⟨rfl, hp.1⟩) fun _ =>
        Ends.bind (yields_resolveVariables rest
          (fun binding hmem => hn binding (List.mem_cons_of_mem _ hmem)) hp.2 hr.2
          (fun binding hmem => hf binding (List.mem_cons_of_mem _ hmem))) fun _ hrest =>
            ends_pure ⟨List.forall_mem_cons.2 ⟨hname, hrest.1⟩,
              List.forall_mem_cons.2 ⟨fun _ hmem => (hv _ hmem).expression, hrest.2.1⟩,
              List.forall_mem_cons.2 ⟨hp.1, hrest.2.2.1⟩, everyOption_values hv, hrest.2.2.2⟩
termination_by structural bindings => bindings

/-- Arms. -/
theorem yields_resolveCases : ∀ cases : List (Case Node), EveryCase (In Read P) cases →
    (∀ arm ∈ cases, (∀ label ∈ arm.label, label.isExpression = true) ∧
      ∀ statement ∈ arm.body, statement.isExpression = false) →
    Yields P (resolveCases context cases) fun results =>
      (∀ arm ∈ results, (∀ label ∈ arm.label, label.isExpression = true) ∧
        ∀ statement ∈ arm.body, statement.isExpression = false) ∧
      EveryCase (In Known P) results ∧
      (∀ inLoop, EnclosedCases cases inLoop → EnclosedCases results inLoop) ∧
      ∀ p, (∀ q ∈ p :: cases.map (·.position), P q) → ∀ q ∈ p :: results.map (·.position), P q
  | [], _, _ => ends_pure ⟨by simp, trivial, fun _ h => h, fun _ h => h⟩
  | ⟨label, body, _⟩ :: rest, hr, hf =>
    have harm := hf _ List.mem_cons_self
    Ends.bind (yields_resolveOptional label hr.1 harm.1) fun _ hl =>
      Ends.bind (yields_resolveAll body _ hr.2.1 nofun) fun _ hb =>
        Ends.bind (yields_resolveCases rest hr.2.2
          fun arm hmem => hf arm (List.mem_cons_of_mem _ hmem)) fun _ hrest =>
            ends_pure ⟨List.forall_mem_cons.2
              ⟨⟨fun _ hmem => (hl _ hmem).expression, hb.kind _ harm.2⟩, hrest.1⟩,
              ⟨everyOption_values hl, hb.every, hrest.2.1⟩,
              fun inLoop he => ⟨hb.enclosed _ _ he.1, hrest.2.2.1 inLoop he.2⟩,
              fun p hp => List.forall_mem_cons.2 ⟨(List.forall_mem_cons.1 hp).1,
                hrest.2.2.2 _ (List.forall_mem_cons.1 hp).2⟩⟩
termination_by structural cases => cases

end

end Node

/-! ### Scripts -/

namespace Script

/-- All enumerations. -/
theorem passes_declareEnums {E : Diagnostic → Prop} (nodes : List Node)
    (hE : ∀ p name members, .declareEnum p name members ∈ nodes → ∀ member ∈ members,
      ∀ value ∈ member.value, E ⟨.enumValue name member.name, value.position⟩) :
    Resolve.Passes E (declareEnums nodes) := by
  fun_induction declareEnums nodes with
  | case1 => exact Resolve.ends_pure trivial
  | case2 p name members rest ih =>
    exact Resolve.ends_then (Resolve.passes_declareEnum (hE p name members List.mem_cons_self))
      fun _ => ih fun q other others hmem => hE q other others (.tail _ hmem)
  | case3 node rest _ ih => exact ih fun q other others hmem => hE q other others (.tail _ hmem)

variable {context : Context} {script : Script}
variable {P : Position → Prop}

/-- Looking up the names of a script. -/
theorem yields_body (hr : ∀ node ∈ script.body, node.ActionOf Node.Read false false)
    (hspans : ∀ node ∈ script.body, node.Spans P) :
    Resolve.Yields P (do
      declareEnums script.body
      Node.resolveAll context .statement script.body) (Node.BecomeAll P script.body) := by
  have hread : ∀ node ∈ script.body, node.Every (Node.In Node.Read P) := fun node hmem =>
    (hr node hmem).every.imp₂ (fun _ hread hplaces => ⟨hread, hplaces⟩) (hspans node hmem)
  refine Resolve.ends_then (passes_declareEnums _ fun p name members hmem =>
    Node.enumValues_placed (hread _ hmem)) fun _ => ?_
  exact Node.yields_resolveAll script.body .statement ((Node.everyOf_iff _ _).2 hread) nofun

/-- Statements are known. -/
theorem actions_of_resolve {resolved : Script}
    (hr : ∀ node ∈ script.body, node.ActionOf Node.Read false false)
    (h : script.resolve context = .ok resolved) :
    ∀ node ∈ resolved.body, node.ActionOf Node.Known false false := by
  obtain ⟨result, hrun, h⟩ := exists_ok_of_bind h
  cases h
  have hbody := (yields_body hr fun node _ => node.spans_true).gives _ result.1 result.2 hrun
  have hstatements := hbody.kind false fun node hmem => (hr node hmem).statement
  have henclosed := hbody.enclosed false false (Node.enclosedOf_actions hr)
  exact fun node hmem => ⟨hstatements node hmem,
    ((Node.everyOf_iff _ _).1 hbody.every node hmem).imp fun _ hknown => hknown.holds,
    (Node.enclosedOf_iff _).1 henclosed node hmem⟩

/-- A script keeps its places when its names are looked up. -/
theorem spans_of_resolve {resolved : Script}
    (hr : ∀ node ∈ script.body, node.ActionOf Node.Read false false)
    (hspans : ∀ node ∈ script.body, node.Spans P) (h : script.resolve context = .ok resolved) :
    ∀ node ∈ resolved.body, node.Spans P := by
  obtain ⟨result, hrun, h⟩ := exists_ok_of_bind h
  cases h
  have hbody := (yields_body hr hspans).gives _ result.1 result.2 hrun
  exact fun node hmem =>
    ((Node.everyOf_iff _ _).1 hbody.every node hmem).imp fun _ hknown => hknown.places

/-- A name that cannot be looked up is at a place of the script. -/
theorem position_of_resolve {diagnostic : Diagnostic}
    (hr : ∀ node ∈ script.body, node.ActionOf Node.Read false false)
    (hspans : ∀ node ∈ script.body, node.Spans P) (h : script.resolve context = .error diagnostic) :
    diagnostic.stage = .resolution ∧ P diagnostic.position := by
  rcases error_of_bind h with h | ⟨result, -, h⟩
  · exact (yields_body hr hspans).fails _ diagnostic h
  · cases h

/-- Only names are at fault. -/
theorem stage_of_resolve {diagnostic : Diagnostic}
    (hr : ∀ node ∈ script.body, node.ActionOf Node.Read false false)
    (h : script.resolve context = .error diagnostic) : diagnostic.stage = .resolution :=
  (position_of_resolve hr (fun node _ => node.spans_true) h).1

end Script

/-- The tree that a source is compiled from. -/
def Script.ofSource (text : String) (context : Context) : Except Diagnostic Script := do
  (← Script.parse text context.versionTier).resolve context

variable {text : String} {context : Context}

/-- The statements of the tree of a source are as code needs them. -/
theorem Script.actions_of_source {script : Script} (h : Script.ofSource text context = .ok script) :
    ∀ node ∈ script.body, node.ActionOf Node.Known false false := by
  obtain ⟨parsed, hparse, hresolve⟩ := exists_ok_of_bind h
  exact actions_of_resolve (actions_of_parse hparse) hresolve

/-- A source without a tree is at fault itself. -/
theorem Script.stage_of_source {diagnostic : Diagnostic}
    (h : Script.ofSource text context = .error diagnostic) :
    diagnostic.stage = .lexical ∨ diagnostic.stage = .grammar ∨ diagnostic.stage = .resolution := by
  rcases error_of_bind h with hparse | ⟨parsed, hparse, hresolve⟩
  · rcases stage_of_parse hparse with hstage | hstage
    · exact .inl hstage
    · exact .inr (.inl hstage)
  · exact .inr (.inr (stage_of_resolve (actions_of_parse hparse) hresolve))

/-- The tree of a source is regular. -/
theorem Script.regular_of_source {script : Script} (h : Script.ofSource text context = .ok script) :
    Node.EveryOf Node.Regular script.body :=
  (Node.everyOf_iff _ _).2 fun node hmem =>
    (actions_of_source h node hmem).every.imp fun _ hknown => hknown.regular

/-- Code comes from a script. -/
theorem compileToCode_eq_ok {code : Code} (h : compileToCode text context = .ok code) :
    ∃ script, Script.ofSource text context = .ok script ∧ script.generate = .ok code := by
  obtain ⟨parsed, hparse, h⟩ := exists_ok_of_bind h
  obtain ⟨script, hresolve, hgenerate⟩ := exists_ok_of_bind h
  refine ⟨script, ?_, hgenerate⟩
  rw [Script.ofSource, hparse]
  exact hresolve

end Gml
