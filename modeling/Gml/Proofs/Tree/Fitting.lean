import Gml.Proofs.Tree.Written

/-!
# Expressions that are read can be written

Every expression that the parser gives has a written form, and it nests no deeper than the tokens
that were read (`Parser.fits_of_expression`): a pair of parentheses or a plus sign that is not needed
takes a level of nesting and never saves one.
-/

namespace Gml

/-- The parser is so deep in nested code. -/
def Parser.Deep (n : Nat) (parser : Parser) : Prop :=
  parser.nesting = n

instance {n : Nat} : Parser.Steady (Parser.Deep n) where
  advance _ h := h

namespace Parse

variable {α : Type} {P : α → Prop} {n : Nat}

/-- What an action does so deep in nested code. -/
abbrev Gives (n : Nat) (x : Parse α) (P : α → Prop) : Prop :=
  Keeps (Parser.Deep n) x P

/-- Something is read one level further in only if that is not too deep. -/
theorem gives_nested {x : Parse α} (hx : n < maxNesting → Gives (n + 1) x P) :
    Gives n (nested x) P := by
  refine leads_get_bind fun parser hp => ?_
  split
  · exact leads_fail rfl parser hp
  next hdeep =>
    rw [hp, Nat.not_le] at hdeep
    exact keeps_around (fun _ => congrArg (· + 1)) (fun _ => congrArg (· - 1)) (hx hdeep) parser hp

/-! ### The grammar

Each form of an expression that is read can be written at its level.
-/

/-- The actions one level further in read expressions that can be written there. -/
structure FitsInner (inner : Inner) : Prop where
  expression : ∀ n, Gives n inner.expression (Node.Fits (n + 1) 0)
  operand : ∀ n, Gives n inner.operand (Node.Fits (n + 1) unaryLevel)

variable {inner : Inner} (hi : FitsInner inner) (hn : n ≤ maxNesting)

include hi hn

/-- A primary expression. -/
theorem gives_primary : Gives n (primary inner) (Node.Fits n postfixLevel) := by
  -- What is written as a single token does not nest.
  have hleaf : ∀ {node : Node}, (∃ tokens, node.Written 0 tokens) → postfixLevel ≤ node.level →
      node.depth = 0 → node.Fits n postfixLevel := fun hwritten hlevel hdepth =>
    .of_depth_eq hwritten hlevel hdepth hn
  refine leads_then passes_position fun start => leads_kind_bind fun parser hp => ?_
  split
  next hk =>
    refine (leadsAt_next hp).bind fun token ht => ?_
    subst ht
    split
    next literal hliteral =>
      refine keeps_pure (hleaf ⟨_, .number hk hliteral⟩ ?_ ?_)
      · cases literal <;> exact Nat.le_succ _
      · cases literal <;> rfl
    next hfault => exact leads_throw (Literal.stage_of_ofText hfault)
  next hk =>
    refine (leadsAt_next hp).bind fun token ht => keeps_pure ?_
    subst ht
    exact hleaf ⟨_, .text hk⟩ (Nat.le_succ _) rfl
  next hk =>
    refine (leadsAt_next hp).bind fun token ht => keeps_pure ?_
    subst ht
    exact hleaf ⟨_, .verbatim hk⟩ (Nat.le_succ _) rfl
  next hk =>
    refine (leadsAt_next hp).bind fun token ht => keeps_pure ?_
    subst ht
    exact hleaf ⟨_, .name hk⟩ (Nat.le_succ _) rfl
  · refine leads_then passes_next (fun _ => leads_bind (hi.expression _) fun inside hinside =>
      leads_then (passes_eat _) fun _ => keeps_pure ?_) parser hp
    exact hinside.enclose postfixLevel
  · refine leads_then passes_next (fun _ => leads_bind
      (keeps_listUntil (keeps_structField (hi.expression _))) fun fields hfields =>
        leads_then (passes_eat _) fun _ => keeps_pure ?_) parser hp
    obtain ⟨written, hentries, hkeys, hcolons, hvalues⟩ := Node.Fits.exists_fields hfields
    obtain ⟨inside, hinside⟩ := Listed.exists_of (written.map WrittenField.all)
    refine .of_depth_eq ?_ (Nat.le_succ _) rfl (Node.depthFields_le_of_fits hfields hn)
    rw [← hentries]
    exact ⟨_, @Node.Written.struct 0 start written inside (.ofKind .leftBrace)
      (.ofKind .rightBrace) rfl rfl (fun field hmem => .inr (hkeys field hmem)) hcolons hvalues
      hinside⟩
  · refine leads_then passes_next (fun _ => leads_bind (keeps_listUntil (hi.expression _))
      fun elements helements => leads_then (passes_eat _) fun _ => keeps_pure ?_) parser hp
    obtain ⟨parts, hnodes, hparts⟩ := Node.Fits.exists_parts helements
    obtain ⟨inside, hinside⟩ := Listed.exists_of (parts.map Prod.snd)
    refine .of_depth_eq ?_ (Nat.le_succ _) rfl (Node.depthAll_le_of_fits helements hn)
    rw [← hnodes]
    exact ⟨_, @Node.Written.array 0 start parts inside (.ofKind .leftBracket)
      (.ofKind .rightBracket) rfl rfl hparts hinside⟩
  · exact leads_unexpected parser hp

/-- A call. -/
theorem gives_callOf {callee : Node} (hc : callee.Fits n postfixLevel) :
    Gives n (callOf inner callee) (Node.Fits n postfixLevel) := by
  refine leads_then passes_next fun _ => leads_bind (keeps_arguments (hi.expression n))
    fun items hitems => leads_then (passes_eat _) fun _ => keeps_pure ?_
  obtain ⟨front, hfront⟩ := hc.written.elim fun _ h => h.exists_at postfixLevel
  obtain ⟨parts, hnodes, hparts⟩ := Node.Fits.exists_parts hitems
  obtain ⟨inside, hinside⟩ := Listed.exists_of (parts.map Prod.snd)
  refine .of_depth_eq ?_ (Nat.le_refl _) (Node.depth_call ..) ?_
  · rw [← hnodes]
    exact ⟨_, @Node.Written.call 0 _ callee parts front inside (.ofKind .leftParen)
      (.ofKind .rightParen) (Nat.zero_le _) rfl rfl hfront hparts hinside⟩
  · rw [← Nat.add_max_add_left]
    exact Nat.max_le.2 ⟨hc.depth, Node.depthAll_le_of_fits hitems hn⟩

/-- A bracket has as many indices as its accessor takes. -/
theorem gives_indexOf {container : Node} (hc : container.Fits n postfixLevel) {parser : Parser}
    (hp : parser.Deep n) {accessor : Accessor}
    (hk : parser.head.kind = accessor.opening) :
    LeadsAt (Parser.Deep n) parser (indexOf inner container) (Node.Fits n postfixLevel) := by
  refine (leadsAt_next hp).bind fun bracket hbracket => ?_
  subst hbracket
  have haccessor : Accessor.ofKind parser.head.kind = accessor := by
    rw [hk]
    cases accessor <;> rfl
  refine leads_bind (keeps_separated (hi.expression _)) fun items hitems => ?_
  rw [haccessor]
  split
  next htakes =>
    refine leads_then (passes_eat _) fun _ => keeps_pure ?_
    obtain ⟨front, hfront⟩ := hc.written.elim fun _ h => h.exists_at postfixLevel
    obtain ⟨parts, hnodes, hparts⟩ := Node.Fits.exists_parts hitems.2
    obtain ⟨inside, hinside⟩ := Listed.exists_of (parts.map Prod.snd)
    refine .of_depth_eq ?_ (Nat.le_refl _) (Node.depth_index ..) ?_
    · subst hnodes
      rw [List.length_map] at htakes
      exact ⟨_, @Node.Written.index 0 _ container accessor parts front inside
        (.ofKind accessor.opening) (.ofKind .rightBracket) (Nat.zero_le _) rfl rfl
        (fun hnil => hitems.1 (congrArg _ hnil)) htakes hfront hparts hinside⟩
    · rw [← Nat.add_max_add_left]
      exact Nat.max_le.2 ⟨hc.depth, Node.depthAll_le_of_fits hitems.2 hn⟩
  · exact leads_throw rfl

omit hi hn in
/-- A field. -/
theorem gives_memberOf {instanceOf : Node} (hf : instanceOf.Fits n postfixLevel) :
    Gives n (memberOf instanceOf) (Node.Fits n postfixLevel) := by
  refine leads_then passes_next fun _ => leads_bind keeps_eatName fun field hfield => keeps_pure ?_
  obtain ⟨front, hfront⟩ := hf.written.elim fun _ h => h.exists_at postfixLevel
  refine .of_depth_eq ?_ (Nat.le_refl _) (Node.depth_member ..) hf.depth
  exact ⟨_, @Node.Written.member 0 _ instanceOf front (.ofKind .dot) field (Nat.zero_le _) rfl
    hfield hfront⟩

omit hi hn in
/-- A step, written in front of its target or after it. -/
theorem fits_update {target : Node} (hf : target.Fits n postfixLevel)
    (hassignable : target.isAssignable = true) (position : Position) (step : Step)
    (inFront : Bool) : (Node.update position target step inFront).Fits n unaryLevel := by
  obtain ⟨tokens, htokens⟩ := hf.written.elim fun _ h => h.exists_at postfixLevel
  refine .of_depth_eq ?_ (Nat.le_refl _) (Node.depth_update ..) hf.depth
  cases inFront with
  | true =>
    exact ⟨_, @Node.Written.stepBefore 0 position target step tokens (.ofKind step.kind)
      (Nat.zero_le _) rfl hassignable htokens⟩
  | false =>
    exact ⟨_, @Node.Written.stepAfter 0 position target step tokens (.ofKind step.kind)
      (Nat.zero_le _) rfl hassignable htokens⟩

omit hi hn in
/-- A step behind. -/
theorem gives_steppedAfter {target : Node} (hf : target.Fits n postfixLevel) :
    Gives n (steppedAfter target) (Node.Fits n unaryLevel) := by
  unfold steppedAfter
  split
  next hassignable =>
    exact leads_then passes_next fun _ => keeps_pure (fits_update hf hassignable ..)
  · exact leads_fail_bind rfl

/-- What stands behind an expression. -/
theorem gives_postfixed : Gives n (postfixed inner) (Node.Fits n unaryLevel) := by
  refine leads_bind (gives_primary hi hn) fun first hfirst => ?_
  refine keeps_loop (P := Node.Fits n postfixLevel) (fun operand ho => ?_) hfirst
  have hindex : ∀ (accessor : Accessor) {parser : Parser}, parser.Deep n →
      parser.head.kind = accessor.opening →
      LeadsAt (Parser.Deep n) parser (do return .inl (← indexOf inner operand))
        fun result : Node ⊕ Node =>
          Sum.elim (Node.Fits n postfixLevel) (Node.Fits n unaryLevel) result := fun _ _ hp hk =>
    (gives_indexOf hi hn ho hp hk).bind fun _ hf => keeps_pure hf
  refine leads_kind_bind fun parser hp => ?_
  split
  · exact (gives_callOf hi hn ho parser hp).bind fun _ hf => keeps_pure hf
  next hk => exact hindex .array hp hk
  next hk => exact hindex .map hp hk
  next hk => exact hindex .arrayRef hp hk
  next hk => exact hindex .grid hp hk
  next hk => exact hindex .list hp hk
  · exact (gives_memberOf ho parser hp).bind fun _ hf => keeps_pure hf
  iterate 2 exact (gives_steppedAfter ho parser hp).bind fun _ hf => keeps_pure hf
  · exact leadsAt_of_run rfl (ho.loosen (Nat.le_succ _)) hp

/-- A step in front. -/
theorem gives_steppedBefore : Gives n (steppedBefore inner) (Node.Fits n unaryLevel) := by
  refine leads_then passes_next fun token => ?_
  refine leads_bind (gives_postfixed hi hn) fun target ht => ?_
  split
  next hassignable =>
    -- What can be stepped has no step of its own, so that it needs no parentheses.
    have hlevel : postfixLevel ≤ target.level := by
      cases target with
      | ident | member | index => simp [Node.level]
      | _ => cases hassignable
    refine keeps_pure (fits_update ⟨ht.written, ?_⟩ hassignable ..)
    rw [Node.depthAt_of_le hlevel, ← Node.depthAt_of_le (Nat.le_of_succ_le hlevel)]
    exact ht.depth
  · exact leads_throw rfl

omit hn in
/-- A sign. -/
theorem gives_signed (operator : UnaryOp) :
    Gives n (signed inner operator) (Node.Fits n unaryLevel) := by
  refine leads_then passes_next fun _ => leads_bind (hi.operand n) fun operand ho => keeps_pure ?_
  obtain ⟨tokens, htokens⟩ := ho.written.elim fun _ h => h.exists_at unaryLevel
  refine .of_depth_eq ?_ (Nat.le_refl _) (Node.depth_unary ..) ?_
  · exact ⟨_, @Node.Written.sign 0 _ operator operand tokens (.ofKind operator.kind)
      (Nat.zero_le _) rfl htokens⟩
  · have hdepth := ho.depth
    omega

/-- What stands in front of it. -/
theorem gives_unary : Gives n (unary inner) (Node.Fits n unaryLevel) := by
  refine leads_then passes_kind fun _ => ?_
  split
  · exact gives_signed hi .not
  · exact gives_signed hi .negate
  · exact gives_signed hi .bitNot
  · -- A plus sign is not kept, so that there is room for one level of nesting more.
    refine leads_then passes_next fun _ => (hi.operand n).imp fun operand ho => ?_
    exact ⟨ho.written, Nat.le_trans (Nat.add_le_add_right (Nat.le_succ n) _) ho.depth⟩
  iterate 2 exact gives_steppedBefore hi hn
  · exact gives_postfixed hi hn

omit hi hn in
/-- An operator on operands that fit. -/
theorem fits_operator {operator : Operator} {lhs rhs : Node} (hl : lhs.Fits n operator.level)
    (hr : rhs.Fits n (operator.level + 1)) (position : Position) :
    (operator.node position lhs rhs).Fits n operator.level := by
  obtain ⟨left, hleft⟩ := hl.written.elim fun _ h => h.exists_at operator.level
  obtain ⟨right, hright⟩ := hr.written.elim fun _ h => h.exists_at (operator.level + 1)
  obtain ⟨kind, hkind⟩ : ∃ kind, kind ∈ operator.kinds := by
    rcases operator with op | op <;> cases op <;> exact ⟨_, List.mem_cons_self⟩
  refine .of_depth_eq ?_ (Nat.le_of_eq (Node.level_operator ..).symm) (Node.depth_operator ..) ?_
  · exact ⟨_, @Node.Written.operation 0 position operator lhs rhs left right (.ofKind kind)
      (Nat.zero_le _) hkind hleft hright⟩
  · rw [← Nat.add_max_add_left]
    exact Nat.max_le.2 ⟨hl.depth, hr.depth⟩

omit hi hn in
/-- Operators of one level. -/
theorem gives_chain {operators : List (Kind × Operator)} {operand : Parse Node} {k : Nat}
    (hlevel : ∀ entry ∈ operators, entry.2.level = k)
    (ho : Gives n operand (Node.Fits n (k + 1))) :
    Gives n (chain operators operand) (Node.Fits n k) := by
  refine leads_bind ho fun first hfirst => ?_
  refine keeps_loop (P := Node.Fits n k) (fun lhs hl => ?_) (hfirst.loosen (Nat.le_succ k))
  refine leads_then passes_kind fun _ => ?_
  split
  · exact keeps_pure hl
  next operator hlookup =>
    obtain rfl : operator.level = k := hlevel _ (mem_of_lookup hlookup)
    refine leads_then passes_next fun _ => leads_bind ho fun rhs hr => keeps_pure ?_
    exact fits_operator hl hr _

omit hi hn in
/-- Operators of all levels. -/
theorem gives_ladder {operand : Parse Node} :
    ∀ {k : Nat} (levels : List (List (Kind × Operator))),
      (∀ i, ∀ entry ∈ levels.getD i [], entry.2.level = k + i) →
      Gives n operand (Node.Fits n (k + levels.length)) →
      Gives n (ladder operand levels) (Node.Fits n k)
  | _, [], _, ho => ho
  | k, operators :: tighter, hlevels, ho => by
    refine gives_chain (hlevels 0) (gives_ladder tighter (fun i entry hentry => ?_) ?_)
    · rw [hlevels (i + 1) entry hentry]
      omega
    · rw [List.length_cons, ← Nat.add_assoc, Nat.add_right_comm] at ho
      exact ho

omit hi hn in
/-- The operators of the ladder stand at their levels. -/
theorem level_of_mem_levels (i : Nat) :
    ∀ entry ∈ Operator.levels.getD i [], entry.2.level = 1 + i := by
  have htable : ∀ i < Operator.levels.length, ∀ entry ∈ Operator.levels.getD i [],
      entry.2.level = 1 + i := by decide
  by_cases hi : i < Operator.levels.length
  · exact htable i hi
  · rw [List.getD_eq_getElem?_getD, List.getElem?_eq_none (Nat.not_lt.1 hi)]
    exact List.forall_mem_nil _

/-- A conditional. -/
theorem gives_conditional : Gives n (conditional inner) (Node.Fits n 0) := by
  refine leads_bind (gives_ladder (k := 1) Operator.levels level_of_mem_levels
    (gives_unary hi hn)) fun condition hc => ?_
  refine leads_then (passes_check _) fun found => ?_
  split
  · refine leads_then passes_next fun _ => leads_bind (hi.expression n) fun thenValue ht =>
      leads_then (passes_eat _) fun _ => leads_bind (hi.expression n) fun elseValue he =>
        keeps_pure ?_
    obtain ⟨first, hfirst⟩ := hc.written.elim fun _ h => h.exists_at 1
    obtain ⟨second, hsecond⟩ := ht.written
    obtain ⟨third, hthird⟩ := he.written
    refine .of_depth_eq ?_ (Nat.zero_le _) (Node.depth_conditional ..) ?_
    · exact ⟨_, @Node.Written.choice _ condition thenValue elseValue first second third
        (.ofKind .question) (.ofKind .colon) rfl rfl hfirst hsecond hthird⟩
    · have hcondition := hc.depth
      have hthen := ht.depth
      have helse := he.depth
      rw [Node.depthAt_zero] at hthen helse
      omega
  · exact keeps_pure (hc.loosen (Nat.zero_le _))

omit hi hn in
/-- The whole grammar. -/
theorem fitsInner_grammar : ∀ levels, FitsInner (grammar levels)
  | 0 => ⟨fun _ => leads_fail rfl, fun _ => leads_fail rfl⟩
  | levels + 1 =>
    have hi := fitsInner_grammar levels
    ⟨fun _ => gives_nested fun hn => gives_conditional hi hn,
      fun _ => gives_nested fun hn => gives_unary hi hn⟩

end Parse

/-- What is read as an expression can be written within the same limit. -/
theorem Parser.fits_of_expression {tokens : List Token} {node : Node} {parser : Parser}
    (h : Parser.expression.run.run (.ofTokens tokens) = (.ok node, parser)) : node.Fits 1 0 :=
  (((Parse.fitsInner_grammar _).expression 0 (.ofTokens tokens) rfl).gives _ _ h).1

end Gml
