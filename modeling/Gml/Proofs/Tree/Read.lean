import Gml.Proofs.Outcome
import Gml.Proofs.Token.Span
import Gml.Proofs.Tree.Parsing
import Gml.Proofs.Tree.Shape

/-!
# Trees that are read from a source

A name in a source starts with a letter or an underscore, so it is never the name of a temporary
variable (`Cursor.tokens_plain`), and a bracket is read with one or two indices. Expressions and
statements are read where they belong, and a `break` or `continue` only inside of something that it
can leave or go on with, as the parser counts how deep it is. All of this is
`Script.actions_of_parse`.

`Parse.Yields` says what an action of the parser does at a depth.
-/

namespace Gml

/-! ### Tokens -/

/-- The characters of such a name. -/
theorem toList_temporaryName (n : Nat) :
    (temporaryName n).toList = '$' :: 't' :: 'm' :: 'p' :: (toString n).toList := by
  unfold temporaryName
  simp only [String.toList_append]
  rfl

/-- Other names are not temporary. -/
theorem not_isTemporary_ofList {c : Char} {rest : List Char} (h : c ≠ '$') :
    ¬ IsTemporary (String.ofList (c :: rest)) := by
  rintro ⟨n, hn⟩
  have htoList := congrArg String.toList hn
  rw [String.toList_ofList, toList_temporaryName] at htoList
  exact h (List.cons.inj htoList).1

/-- A token that, if it is a name, is not the name of a temporary variable. -/
def Token.Plain (token : Token) : Prop :=
  token.kind = .identifier → ¬ IsTemporary token.value

/-- A name starts with a letter or an underscore. -/
theorem Lexeme.value_read {tier : Nat} {chars : List Char} {lexeme : Lexeme}
    (h : Lexeme.read? tier chars = some lexeme) (hk : lexeme.kind = .identifier) :
    ¬ IsTemporary lexeme.value := by
  obtain ⟨span, rest, -, -, hspan⟩ := exists_span h
  rw [hk] at hspan
  rcases hspan.of_unlisted (by decide) with ⟨-, first, more, hfirst, -, hvalue⟩ | ⟨hkind, -⟩
  · rw [hvalue]
    refine not_isTemporary_ofList ?_
    rintro rfl
    exact absurd hfirst (by decide)
  · cases hkind

/-- Tokens are plain. -/
theorem Cursor.tokens_plain {tier : Nat} {source : Source} {cursor : Cursor}
    {tokens : List Token} (h : cursor.tokens tier source = .ok tokens) :
    ∀ token ∈ tokens, token.Plain := by
  fun_induction Cursor.tokens tier source cursor generalizing tokens with
  | case1 cursor position =>
    cases h
    intro token ht
    obtain rfl := List.mem_singleton.1 ht
    intro hk
    cases hk
  | case2 => cases h
  | case3 cursor position c rest hrest lexeme hread =>
    rename_i ih
    cases hlater : Cursor.tokens tier source (cursor.skipGap.advance lexeme.length) with
    | error diagnostic => rw [hlater] at h; cases h
    | ok later =>
      rw [hlater] at h
      cases h
      intro token ht
      rcases List.mem_cons.1 ht with rfl | ht
      · exact Lexeme.value_read hread
      · exact ih hlater token ht

/-- Only characters are refused. -/
theorem Cursor.stage_of_tokens {tier : Nat} {source : Source} {cursor : Cursor}
    {diagnostic : Diagnostic} (h : cursor.tokens tier source = .error diagnostic) :
    diagnostic.stage = .lexical := by
  fun_induction Cursor.tokens tier source cursor generalizing diagnostic with
  | case1 => cases h
  | case2 =>
    cases h
    rfl
  | case3 cursor position c rest hrest lexeme hread =>
    rename_i ih
    cases hlater : Cursor.tokens tier source (cursor.skipGap.advance lexeme.length) with
    | error other =>
      rw [hlater] at h
      cases h
      exact ih hlater
    | ok later => rw [hlater] at h; cases h

/-- A number that cannot be read. -/
theorem Literal.stage_of_ofText {text : String} {fault : Fault}
    (h : Literal.ofText text = .error fault) : fault.stage = .grammar := by
  unfold Literal.ofText at h
  split at h
  · split at h
    · cases h
    · cases h
      rfl
  · split at h
    · cases h
    · cases h
      rfl

/-! ### Depths -/

/-- How deep a statement stands. -/
structure Depth where
  /-- The number of loops and instance bodies around it. -/
  loops : Nat
  /-- The number of loops, switches and instance bodies around it. -/
  breakables : Nat

namespace Depth

/-- Whether a `continue` may stand there. -/
def inLoop (depth : Depth) : Bool :=
  0 < depth.loops

/-- Whether a `break` may stand there. -/
def inside (depth : Depth) : Bool :=
  0 < depth.breakables

/-- The depth in the body of a loop. -/
def loop (depth : Depth) : Depth :=
  ⟨depth.loops + 1, depth.breakables + 1⟩

/-- The depth in an arm of a switch. -/
def switch (depth : Depth) : Depth :=
  ⟨depth.loops, depth.breakables + 1⟩

/-- Inside of a loop. -/
theorem inLoop_loop (depth : Depth) : depth.loop.inLoop = true :=
  decide_eq_true (Nat.succ_pos _)

/-- A loop can be left. -/
theorem inside_loop (depth : Depth) : depth.loop.inside = true :=
  decide_eq_true (Nat.succ_pos _)

/-- So can a switch. -/
theorem inside_switch (depth : Depth) : depth.switch.inside = true :=
  decide_eq_true (Nat.succ_pos _)

end Depth

/-- All names among the tokens may stand in a tree, and the next statement stands so deep. -/
structure Parser.At (depth : Depth) (parser : Parser) : Prop where
  plain : ∀ token ∈ parser.tokens, token.Plain
  loops : parser.loopDepth = depth.loops
  breakables : parser.breakableDepth = depth.breakables

/-- The next token is plain. -/
theorem Parser.At.head {depth : Depth} {parser : Parser} (h : parser.At depth) :
    parser.head.Plain := by
  unfold Parser.head
  cases hget : parser.tokens[min parser.current (parser.tokens.size - 1)]? with
  | none =>
    rintro - ⟨n, hn⟩
    have htoList := congrArg String.toList hn
    rw [toList_temporaryName] at htoList
    cases htoList
  | some token => exact h.plain token (Array.mem_of_getElem? hget)

instance {depth : Depth} : Parser.Steady (Parser.At depth) where
  advance _ h := ⟨h.plain, h.loops, h.breakables⟩

/-! ### Actions of the parser -/

namespace Parse

variable {α : Type} {P : α → Prop} {depth : Depth}

/-- What an action does at a depth. -/
abbrev Yields (depth : Depth) (x : Parse α) (P : α → Prop) : Prop :=
  Keeps (Parser.At depth) x P

/-- A name is not temporary. -/
theorem yields_name : Yields depth eatName fun token => ¬ IsTemporary token.value := by
  refine fun parser hp => (leadsAt_eatName hp).imp ?_
  rintro token ⟨rfl, hk⟩
  exact hp.head hk

/-- One level further in. -/
theorem yields_nested {x : Parse α} (hx : Yields depth x P) : Yields depth (nested x) P := by
  refine leads_get_bind fun parser hp => ?_
  split
  · exact leads_fail rfl parser hp
  · refine keeps_around ?_ ?_ hx parser hp <;>
      exact fun parser hp => ⟨hp.plain, hp.loops, hp.breakables⟩

/-- One loop further in. -/
theorem yields_inLoop {x : Parse α} (hx : Yields depth.loop x P) : Yields depth (inLoop x) P := by
  refine keeps_around (fun parser hp => ?_) (fun parser hp => ?_) hx
  · exact ⟨hp.plain, congrArg (· + 1) hp.loops, congrArg (· + 1) hp.breakables⟩
  · exact ⟨hp.plain, congrArg (· - 1) hp.loops, congrArg (· - 1) hp.breakables⟩

/-! ### The grammar

Each form of an expression is sound when it is read, if what is further in is.
-/

/-- An expression that is read. -/
abbrev Sound : Node → Prop :=
  Node.ValueOf Node.Read

/-- A statement that is read at a depth. -/
abbrev SoundAt (depth : Depth) : Node → Prop :=
  Node.ActionOf Node.Read depth.inLoop depth.inside

/-- The actions one level further in read expressions and statements. -/
structure SoundInner (inner : Inner) : Prop where
  /-- Statements stand where they may stand. -/
  statement : ∀ {depth}, Yields depth inner.statement (SoundAt depth)
  /-- Expressions are read. -/
  expression : ∀ {depth}, Yields depth inner.expression Sound
  /-- Operands are expressions, too. -/
  operand : ∀ {depth}, Yields depth inner.operand Sound

variable {inner : Inner} (hi : SoundInner inner)

include hi

/-- A primary expression. -/
theorem yields_primary : Yields depth (primary inner) Sound := by
  refine leads_then passes_position fun start => leads_kind_bind fun parser hp => ?_
  split
  · refine leads_then passes_next (fun token => ?_) parser hp
    split
    next literal _ =>
      refine keeps_pure ?_
      cases literal <;> exact ⟨rfl, trivial, trivial⟩
    next fault hfault => exact leads_throw (Literal.stage_of_ofText hfault)
  · exact leads_then passes_next (fun _ => keeps_pure ⟨rfl, trivial, trivial⟩) parser hp
  · exact leads_then passes_next (fun _ => keeps_pure ⟨rfl, trivial, trivial⟩) parser hp
  next hk =>
    refine (leadsAt_next hp).bind fun token ht => keeps_pure ?_
    subst ht
    exact ⟨rfl, hp.head hk, rfl⟩
  · exact leads_then passes_next (fun _ => leads_bind hi.expression fun _ hn =>
      leads_then (passes_eat _) fun _ => keeps_pure hn) parser hp
  · refine leads_then passes_next (fun _ => leads_bind
      (keeps_listUntil (keeps_structField hi.expression)) fun fields hf =>
        leads_then (passes_eat _) fun _ => keeps_pure ?_) parser hp
    exact ⟨rfl, ⟨trivial, fun field hmem => (hf field hmem).expression⟩,
      (Node.everyField_iff _ fields).2 fun field hmem => (hf field hmem).every⟩
  · refine leads_then passes_next (fun _ => leads_bind (keeps_listUntil hi.expression)
      fun elements he => leads_then (passes_eat _) fun _ => keeps_pure ?_) parser hp
    exact ⟨rfl, ⟨trivial, fun element hmem => (he element hmem).expression⟩,
      Node.everyOf_values he⟩
  · exact leads_unexpected parser hp

/-- A call. -/
theorem yields_callOf {callee : Node} (hc : Sound callee) :
    Yields depth (callOf inner callee) Sound :=
  leads_then passes_next fun _ => leads_bind (keeps_arguments hi.expression) fun _ ha =>
    leads_then (passes_eat _) fun _ => keeps_pure
      ⟨rfl, ⟨trivial, hc.expression, fun argument hmem => (ha argument hmem).expression⟩, hc.every,
        Node.everyOf_values ha⟩

/-- A bracket is read with one or two indices. -/
theorem yields_indexOf {container : Node} (hc : Sound container) :
    Yields depth (indexOf inner container) Sound := by
  refine leads_then passes_next fun bracket => ?_
  refine leads_bind (keeps_separated hi.expression) fun indices hindices => ?_
  split
  next htakes =>
    refine leads_then (passes_eat _) fun _ => keeps_pure ⟨rfl, ⟨⟨?_, ?_⟩, ?_⟩, ?_⟩
    · exact List.length_pos_iff.2 hindices.1
    · unfold Accessor.takes at htakes
      split at htakes <;> simp at htakes <;> omega
    · exact ⟨hc.expression, fun index hmem => (hindices.2 index hmem).expression⟩
    · exact ⟨hc.every, Node.everyOf_values hindices.2⟩
  · exact leads_throw rfl

omit hi in
/-- A field. -/
theorem yields_memberOf {instanceOf : Node} (hn : Sound instanceOf) :
    Yields depth (memberOf instanceOf) Sound :=
  leads_then passes_next fun _ => leads_bind yields_name fun _ hf =>
    keeps_pure ⟨rfl, ⟨hf, hn.expression⟩, hn.every⟩

omit hi in
/-- A step behind. -/
theorem yields_steppedAfter {target : Node} (ht : Sound target) :
    Yields depth (steppedAfter target) Sound := by
  unfold steppedAfter
  split
  next hassignable =>
    exact leads_then passes_next fun _ => keeps_pure ⟨rfl, ⟨trivial, hassignable⟩, ht.every⟩
  · exact leads_fail_bind rfl

/-- What stands behind. -/
theorem yields_postfixed : Yields depth (postfixed inner) Sound := by
  refine leads_bind (yields_primary hi) fun first hfirst => ?_
  refine keeps_loop (P := Sound) (fun operand ho => ?_) hfirst
  refine leads_then passes_kind fun k => ?_
  split
  · exact leads_bind (yields_callOf hi ho) fun _ hn => keeps_pure hn
  iterate 5 exact leads_bind (yields_indexOf hi ho) fun _ hn => keeps_pure hn
  · exact leads_bind (yields_memberOf ho) fun _ hn => keeps_pure hn
  iterate 2 exact leads_bind (yields_steppedAfter ho) fun _ hn => keeps_pure hn
  · exact keeps_pure ho

/-- A step in front. -/
theorem yields_steppedBefore : Yields depth (steppedBefore inner) Sound := by
  refine leads_then passes_next fun token => ?_
  refine leads_bind (yields_postfixed hi) fun target ht => ?_
  split
  next hassignable => exact keeps_pure ⟨rfl, ⟨trivial, hassignable⟩, ht.every⟩
  · exact leads_throw rfl

/-- A sign. -/
theorem yields_signed (operator : UnaryOp) : Yields depth (signed inner operator) Sound :=
  leads_then passes_next fun _ => leads_bind hi.operand fun _ hn =>
    keeps_pure ⟨rfl, ⟨trivial, hn.expression⟩, hn.every⟩

/-- What stands in front. -/
theorem yields_unary : Yields depth (unary inner) Sound := by
  refine leads_then passes_kind fun k => ?_
  split
  · exact yields_signed hi .not
  · exact yields_signed hi .negate
  · exact yields_signed hi .bitNot
  · exact leads_then passes_next fun _ => hi.operand
  iterate 2 exact yields_steppedBefore hi
  · exact yields_postfixed hi

omit hi in
/-- One level of operators. -/
theorem yields_chain {operators : List (Kind × Operator)} {operand : Parse Node}
    (ho : Yields depth operand Sound) : Yields depth (chain operators operand) Sound := by
  refine leads_bind ho fun first hfirst => ?_
  refine keeps_loop (P := Sound) (fun lhs hl => ?_) hfirst
  refine leads_then passes_kind fun k => ?_
  split
  · exact keeps_pure hl
  next operator _ =>
    refine leads_then passes_next fun _ => leads_bind ho fun rhs hr => keeps_pure ?_
    cases operator <;>
      exact ⟨rfl, ⟨trivial, hl.expression, hr.expression⟩, hl.every, hr.every⟩

omit hi in
/-- All levels of operators. -/
theorem yields_ladder {operand : Parse Node} (ho : Yields depth operand Sound) :
    ∀ levels, Yields depth (ladder operand levels) Sound
  | [] => ho
  | _ :: tighter => yields_chain (yields_ladder ho tighter)

/-- A conditional. -/
theorem yields_conditional : Yields depth (conditional inner) Sound := by
  refine leads_bind (yields_ladder (yields_unary hi) _) fun condition hc => ?_
  refine leads_then (passes_check _) fun found => ?_
  split
  · exact leads_then passes_next fun _ => leads_bind hi.expression fun _ ht =>
      leads_then (passes_eat _) fun _ => leads_bind hi.expression fun _ he =>
        keeps_pure ⟨rfl, ⟨trivial, hc.expression, ht.expression, he.expression⟩, hc.every,
          ht.every, he.every⟩
  · exact keeps_pure hc

/-- An assignment or a call. -/
theorem yields_simple : Yields depth (simple inner) (SoundAt depth) := by
  refine leads_then passes_position fun start => leads_bind (yields_unary hi) fun target ht => ?_
  refine leads_then passes_kind fun k => ?_
  split
  · split
    next hassignable =>
      exact leads_then passes_next fun _ => leads_bind hi.expression fun _ hv =>
        keeps_pure ⟨rfl, ⟨⟨trivial, hassignable, hv.expression⟩, ht.every, hv.every⟩, trivial⟩
    · exact leads_fail_bind rfl
  · split
    · exact keeps_pure ⟨rfl, ⟨⟨trivial, rfl⟩, ht.every⟩, trivial⟩
    · exact keeps_pure ⟨rfl, ⟨⟨trivial, rfl⟩, ht.every⟩, trivial⟩
    · exact leads_unexpected

/-- A name with its value. -/
theorem yields_binding : Yields depth (binding inner) fun binding =>
    ¬ IsTemporary binding.name ∧ ∀ value ∈ binding.value, Sound value :=
  keeps_binding (N := fun name => ¬ IsTemporary name) yields_name hi.expression

/-- A declaration. -/
theorem yields_declaration : Yields depth (declaration inner) (SoundAt depth) := by
  refine leads_then (passes_eat _) fun token => ?_
  refine leads_bind (keeps_separated (yields_binding hi)) fun bindings hb => keeps_pure ?_
  refine ⟨rfl, ⟨⟨fun binding hmem => (hb.2 binding hmem).1, fun binding hmem value hvalue => ?_⟩,
    ?_⟩, trivial⟩
  · exact ((hb.2 binding hmem).2 value hvalue).expression
  · exact (Node.everyBinding_iff _ bindings).2 fun binding hmem =>
      Node.everyOption_values (hb.2 binding hmem).2

/-! ### Statements

So is each form of a statement, at its depth.
-/

/-- A block. -/
theorem yields_block : Yields depth (block inner) (SoundAt depth) :=
  leads_then (passes_eat _) fun _ => leads_bind (keeps_manyUntil hi.statement) fun _ hb =>
    leads_then (passes_eat _) fun _ => keeps_pure
      ⟨rfl, ⟨⟨trivial, fun statement hmem => (hb statement hmem).statement⟩,
        Node.everyOf_actions hb⟩, Node.enclosedOf_actions hb⟩

/-- A condition. -/
theorem yields_ifElse : Yields depth (ifElse inner) (SoundAt depth) := by
  refine leads_then (passes_eat _) fun _ => leads_bind hi.expression fun condition hc => ?_
  refine leads_then (passes_skip _) fun _ => leads_bind hi.statement fun thenBody ht => ?_
  refine leads_then (passes_skip _) fun found => ?_
  refine keeps_optional hi.statement fun elseBody he => keeps_pure ?_
  have hformed : ∀ body ∈ elseBody, body.isExpression = false := fun body hmem =>
    (he body hmem).statement
  cases elseBody with
  | none =>
    exact ⟨rfl, ⟨⟨trivial, hc.expression, ht.statement, hformed⟩, hc.every, ht.every, trivial⟩,
      ht.enclosed, trivial⟩
  | some body =>
    exact ⟨rfl, ⟨⟨trivial, hc.expression, ht.statement, hformed⟩, hc.every, ht.every,
      (he body rfl).every⟩, ht.enclosed, (he body rfl).enclosed⟩

/-- The body of a loop is in a loop. -/
theorem yields_loopBody :
    Yields depth (inLoop inner.statement) (Node.ActionOf Node.Read true true) := by
  refine (yields_inLoop hi.statement).imp fun body hb => ?_
  rwa [SoundAt, Depth.inLoop_loop, Depth.inside_loop] at hb

/-- A loop with a test. -/
theorem yields_whileDo : Yields depth (whileDo inner) (SoundAt depth) :=
  leads_then (passes_eat _) fun _ => leads_bind hi.expression fun _ hc =>
    leads_then (passes_skip _) fun _ => leads_bind (yields_loopBody hi) fun _ hb =>
      keeps_pure ⟨rfl, ⟨⟨trivial, hc.expression, hb.statement⟩, hc.every, hb.every⟩, hb.enclosed⟩

/-- A loop with its test last. -/
theorem yields_doUntil : Yields depth (doUntil inner) (SoundAt depth) :=
  leads_then (passes_eat _) fun _ => leads_bind (yields_loopBody hi) fun _ hb =>
    leads_then (passes_eat _) fun _ => leads_bind hi.expression fun _ hc =>
      leads_then (passes_skip _) fun _ => keeps_pure
        ⟨rfl, ⟨⟨trivial, hc.expression, hb.statement⟩, hb.every, hc.every⟩, hb.enclosed⟩

/-- A loop with a count. -/
theorem yields_repeatTimes : Yields depth (repeatTimes inner) (SoundAt depth) :=
  leads_then (passes_eat _) fun _ => leads_bind hi.expression fun _ hc =>
    leads_bind (yields_loopBody hi) fun _ hb =>
      keeps_pure ⟨rfl, ⟨⟨trivial, hc.expression, hb.statement⟩, hc.every, hb.every⟩, hb.enclosed⟩

/-- A loop with clauses. -/
theorem yields_forLoop : Yields depth (forLoop inner) (SoundAt depth) := by
  refine leads_then (passes_eat _) fun token => leads_then (passes_eat _) fun _ => ?_
  have hinit : Yields depth (do if ← check .kwVar then declaration inner else simple inner)
      (SoundAt depth) := by
    refine leads_then (passes_check _) fun found => ?_
    split
    · exact yields_declaration hi
    · exact yields_simple hi
  refine leads_bind (keeps_listUntil hinit) fun init hinit => ?_
  refine leads_then (passes_eat _) fun _ => leads_then (passes_check _) fun found => ?_
  have hrest : ∀ condition : Option Node, (∀ test ∈ condition, Sound test) → Yields depth (do
      let _ ← eat .semicolon
      let step ← listUntil .rightParen (simple inner)
      let _ ← eat .rightParen
      return .forLoop token.position init condition step (← inLoop inner.statement))
      (SoundAt depth) :=
    fun condition hc => leads_then (passes_eat _) fun _ =>
      leads_bind (keeps_listUntil (yields_simple hi)) fun step hs =>
        leads_then (passes_eat _) fun _ => leads_bind (yields_loopBody hi) fun _ hb =>
          keeps_pure ⟨rfl, ⟨⟨trivial, fun node hmem => (hinit node hmem).statement,
            fun test hmem => (hc test hmem).expression, fun node hmem => (hs node hmem).statement,
            hb.statement⟩, Node.everyOf_actions hinit, Node.everyOption_values hc,
            Node.everyOf_actions hs, hb.every⟩, Node.enclosedOf_actions hinit,
            Node.enclosedOf_actions hs, hb.enclosed⟩
  split
  · exact leads_bind keeps_none hrest
  · exact leads_bind (keeps_some hi.expression) hrest

/-- A switch. -/
theorem yields_switch : Yields depth (switch inner) (SoundAt depth) := by
  have henter : Leads (Parser.At depth) (Parser.At depth.switch) (modify fun parser =>
      { parser with breakableDepth := parser.breakableDepth + 1 } : Parse Unit) fun _ => True :=
    leads_modify fun _ hp => ⟨hp.plain, hp.loops, congrArg (· + 1) hp.breakables⟩
  have hleave : Leads (Parser.At depth.switch) (Parser.At depth) (modify fun parser =>
      { parser with breakableDepth := parser.breakableDepth - 1 } : Parse Unit) fun _ => True :=
    leads_modify fun _ hp => ⟨hp.plain, hp.loops, congrArg (· - 1) hp.breakables⟩
  refine leads_then (passes_eat _) fun _ => leads_bind hi.expression fun subject hs => ?_
  refine leads_then (passes_eat _) fun _ => leads_then henter fun _ => ?_
  refine leads_bind (keeps_manyUntil (keeps_switchCase hi.expression hi.statement)) fun cases hc => ?_
  refine leads_then hleave fun _ => leads_then (passes_eat _) fun _ => keeps_pure ?_
  refine ⟨rfl, ⟨⟨trivial, hs.expression, fun arm harm => ⟨?_, ?_⟩⟩, hs.every, ?_⟩, ?_⟩
  · exact fun label hmem => ((hc arm harm).1 label hmem).expression
  · exact fun statement hmem => ((hc arm harm).2 statement hmem).statement
  · exact (Node.everyCase_iff _ cases).2 fun arm harm =>
      ⟨Node.everyOption_values (hc arm harm).1, Node.everyOf_actions (hc arm harm).2⟩
  · refine (Node.enclosedCases_iff cases).2 fun arm harm => ?_
    have henclosed := Node.enclosedOf_actions (hc arm harm).2
    rwa [Depth.inside_switch] at henclosed

/-- A loop over instances. -/
theorem yields_withEach : Yields depth (withEach inner) (SoundAt depth) := by
  refine leads_then (passes_eat _) fun token => leads_then (passes_skip _) fun found => ?_
  have hrest : ∀ targets : List Node, (∀ node ∈ targets, Sound node) → Yields depth (do
      return .withEach token.position targets (← inLoop inner.statement)) (SoundAt depth) :=
    fun targets ht => leads_bind (yields_loopBody hi) fun _ hb =>
      keeps_pure ⟨rfl, ⟨⟨trivial, fun target hmem => (ht target hmem).expression, hb.statement⟩,
        Node.everyOf_values ht, hb.every⟩, hb.enclosed⟩
  split
  · exact leads_bind (keeps_separated hi.expression) fun targets ht =>
      leads_then (passes_eat _) fun _ => leads_bind (keeps_pure ht.2) hrest
  · refine leads_bind hi.expression fun target ht => ?_
    exact leads_bind (P := fun targets => ∀ node ∈ targets, Sound node)
      (keeps_pure (by simpa using ht)) hrest

omit hi in
/-- Global variables. -/
theorem yields_globals : Yields depth globals (SoundAt depth) :=
  leads_then (passes_eat _) fun _ => leads_then ((keeps_separated yields_name).imp
    fun _ _ => trivial) fun _ => leads_then (passes_skip _) fun _ =>
      keeps_pure ⟨rfl, ⟨trivial, trivial⟩, trivial⟩

/-- An enumeration. -/
theorem yields_enumeration : Yields depth (enumeration inner) (SoundAt depth) := by
  refine leads_then (passes_eat _) fun _ => leads_bind yields_name fun name _ => ?_
  refine leads_then (passes_eat _) fun _ => ?_
  refine leads_bind (keeps_listUntil (yields_binding hi)) fun members hm => ?_
  refine leads_then (passes_eat _) fun _ => leads_then (passes_skip _) fun _ => keeps_pure ?_
  exact ⟨rfl, ⟨⟨trivial, trivial⟩, (Node.everyBinding_iff _ members).2 fun member hmem =>
    Node.everyOption_values (hm member hmem).2⟩, trivial⟩

/-- A return. -/
theorem yields_returning : Yields depth (returning inner) (SoundAt depth) := by
  refine leads_then (passes_eat _) fun token => leads_then passes_kind fun k => ?_
  have hrest : ∀ value : Option Node, (∀ node ∈ value, Sound node) → Yields depth (do
      let _ ← skip .semicolon
      return .returning token.position value) (SoundAt depth) := fun value hv =>
    leads_then (passes_skip _) fun _ => keeps_pure
      ⟨rfl, ⟨⟨trivial, fun result hmem => (hv result hmem).expression⟩,
        Node.everyOption_values hv⟩, trivial⟩
  split
  iterate 3 exact leads_bind keeps_none hrest
  · exact leads_bind (keeps_some hi.expression) hrest

/-- A statement. -/
theorem yields_statement : Yields depth (statement inner) (SoundAt depth) := by
  refine leads_then passes_position fun start => leads_then passes_kind fun k => ?_
  split
  · exact leads_then passes_next fun _ =>
      keeps_pure ⟨rfl, ⟨⟨trivial, List.forall_mem_nil _⟩, trivial⟩, trivial⟩
  · exact yields_block hi
  · exact yields_ifElse hi
  · exact yields_whileDo hi
  · exact yields_doUntil hi
  · exact yields_repeatTimes hi
  · exact yields_forLoop hi
  · exact yields_switch hi
  · exact yields_withEach hi
  · exact leads_bind (yields_declaration hi) fun _ hd => leads_then (passes_skip _) fun _ =>
      keeps_pure hd
  · exact yields_globals
  · exact yields_enumeration hi
  · exact yields_returning hi
  · exact leads_then passes_next fun _ => leads_then (passes_skip _) fun _ =>
      keeps_pure ⟨rfl, ⟨trivial, trivial⟩, trivial⟩
  · refine leads_get_bind fun parser hp => ?_
    dsimp only
    split
    · exact leads_fail_bind rfl parser hp
    next hinside =>
      -- The parser has counted something to leave, and its count is the depth.
      rw [hp.breakables] at hinside
      exact leads_then passes_next (fun _ => leads_then (passes_skip _) fun _ =>
        keeps_pure ⟨rfl, ⟨trivial, trivial⟩, decide_eq_true (Nat.pos_of_ne_zero hinside)⟩) parser hp
  · refine leads_get_bind fun parser hp => ?_
    dsimp only
    split
    · exact leads_fail_bind rfl parser hp
    next hloop =>
      rw [hp.loops] at hloop
      exact leads_then passes_next (fun _ => leads_then (passes_skip _) fun _ =>
        keeps_pure ⟨rfl, ⟨trivial, trivial⟩, decide_eq_true (Nat.pos_of_ne_zero hloop)⟩) parser hp
  · exact leads_fail rfl
  · exact leads_bind (yields_simple hi) fun _ hn => leads_then (passes_skip _) fun _ =>
      keeps_pure hn

omit hi in
/-- The whole grammar. -/
theorem soundInner_grammar : ∀ levels, SoundInner (grammar levels)
  | 0 => ⟨leads_fail rfl, leads_fail rfl, leads_fail rfl⟩
  | levels + 1 =>
    have hi := soundInner_grammar levels
    ⟨yields_nested (yields_statement hi), yields_nested (yields_conditional hi),
      yields_nested (yields_unary hi)⟩

end Parse

/-! ### Scripts -/

namespace Script

variable {text : String} {tier : Nat}

/-- What reading a script does. -/
theorem yieldsAt_script {tokens : List Token} (h : ∀ token ∈ tokens, token.Plain) :
    Parse.LeadsAt (Parser.At ⟨0, 0⟩) (.ofTokens tokens) Parser.script fun script =>
      ∀ node ∈ script.body, node.ActionOf Node.Read false false :=
  Parse.leads_bind (Parse.keeps_manyUntil (Parse.soundInner_grammar _).statement)
    (fun _ hb => Parse.keeps_pure hb) _ ⟨fun token ht => h token (List.mem_toArray.1 ht), rfl, rfl⟩

/-- The statements of a script that is read are as they should be. -/
theorem actions_of_parse {script : Script} (h : Script.parse text tier = .ok script) :
    ∀ node ∈ script.body, node.ActionOf Node.Read false false := by
  unfold Script.parse at h
  cases htokens : tokenize text tier with
  | error diagnostic => rw [htokens] at h; cases h
  | ok tokens =>
    rw [htokens] at h
    rcases hrun : Parser.script.run.run (.ofTokens tokens) with ⟨result, parser⟩
    change (Parser.script.run.run (.ofTokens tokens)).1 = .ok script at h
    rw [hrun] at h
    obtain rfl : result = .ok script := h
    exact ((yieldsAt_script (Cursor.tokens_plain htokens)).gives script parser hrun).1

/-- Only grammar is at fault. -/
theorem stage_of_ofTokens {tokens : List Token} {diagnostic : Diagnostic}
    (htokens : tokenize text tier = .ok tokens) (h : Script.ofTokens tokens = .error diagnostic) :
    diagnostic.stage = .grammar := by
  rcases hrun : Parser.script.run.run (.ofTokens tokens) with ⟨result, parser⟩
  obtain rfl : result = .error diagnostic := (congrArg Prod.fst hrun).symm.trans h
  exact (yieldsAt_script (Cursor.tokens_plain htokens)).fails diagnostic parser hrun

/-- A script that cannot be read has characters or tokens that do not belong there. -/
theorem stage_of_parse {diagnostic : Diagnostic} (h : Script.parse text tier = .error diagnostic) :
    diagnostic.stage = .lexical ∨ diagnostic.stage = .grammar := by
  rcases error_of_bind h with htokens | ⟨tokens, htokens, h⟩
  · exact .inl (Cursor.stage_of_tokens htokens)
  · exact .inr (stage_of_ofTokens htokens h)

end Script

end Gml
