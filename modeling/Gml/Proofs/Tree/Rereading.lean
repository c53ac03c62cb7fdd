import Gml.Proofs.Outcome
import Gml.Proofs.Tree.Fitting

/-!
# Written expressions are read back

The written form of an expression is read as that expression again, up to places, and to its last
token.
-/

namespace Gml

/-! ### Standing at a token -/

namespace Parser

/-- The tokens that are not read yet. -/
def ahead (parser : Parser) : List Token :=
  parser.tokens.toList.drop parser.current

/-- The parser some tokens further on. -/
def advance (parser : Parser) (count : Nat) : Parser :=
  { parser with current := parser.current + count }

/-- Steps add up. -/
theorem advance_advance (parser : Parser) (m n : Nat) :
    (parser.advance m).advance n = parser.advance (m + n) := by
  simp only [advance, Nat.add_assoc]

/-- Tokens are passed. -/
theorem ahead_advance {parser : Parser} {tokens rest : List Token}
    (h : parser.ahead = tokens ++ rest) : (parser.advance tokens.length).ahead = rest := by
  have hdrop := congrArg (List.drop tokens.length) h
  rw [List.drop_left] at hdrop
  unfold ahead advance at *
  rwa [List.drop_drop] at hdrop

/-- One token is passed. -/
theorem ahead_advance_one {parser : Parser} {token : Token} {rest : List Token}
    (h : parser.ahead = token :: rest) : (parser.advance 1).ahead = rest :=
  @ahead_advance parser [token] rest h

/-- The number of tokens ahead. -/
theorem length_ahead (parser : Parser) :
    parser.ahead.length = parser.tokens.size - parser.current := by
  simp [ahead]

/-- The next token is the first. -/
theorem head_of_ahead {parser : Parser} {token : Token} {rest : List Token}
    (h : parser.ahead = token :: rest) : parser.head = token := by
  have hget : parser.tokens.toList[parser.current]? = some token := by
    rw [← List.head?_drop]
    exact congrArg List.head? h
  obtain ⟨hlt, hval⟩ := List.getElem?_eq_some_iff.1 hget
  rw [Array.length_toList] at hlt
  unfold head
  rw [Nat.min_eq_left (by omega), ← Array.getElem?_toList, hget]
  rfl

end Parser

/-- How tightly a token binds what stands before it: one more than the level of the expression that
it goes on with, or nothing if it does not go on with an expression. -/
def Kind.tightness : Kind → Nat
  | .question => 1
  | .logicalOr => 2
  | .logicalXor => 3
  | .logicalAnd => 4
  | .bitOr => 5
  | .bitXor => 6
  | .bitAnd => 7
  | .equal | .assign | .notEqual => 8
  | .less | .lessEqual | .greater | .greaterEqual => 9
  | .shiftLeft | .shiftRight => 10
  | .plus | .minus => 11
  | .star | .slash | .percent | .intDiv => 12
  | .leftParen | .leftBracket | .mapIndex | .arrayRefIndex | .gridIndex | .listIndex | .dot
  | .increment | .decrement => 14
  | _ => 0

namespace Parse

variable {α β : Type} {p : Parser} {m n : Nat} {token : Token} {rest : List Token}

/-- An action reads so many tokens and gives something. -/
def Reads (p : Parser) (x : Parse α) (count : Nat) (a : α) : Prop :=
  x.run.run p = (.ok a, p.advance count)

variable {a : α} {inner : Inner} {wanted : Kind}

/-- Nothing is read. -/
theorem reads_pure : Reads p (pure a) 0 a := rfl

/-- One thing is read after another. -/
theorem Reads.bind {x : Parse α} {f : α → Parse β} {b : β} (hx : Reads p x m a)
    (hf : Reads (p.advance m) (f a) n b) : Reads p (x >>= f) (m + n) b := by
  unfold Reads at *
  rw [ExceptT.run_bind, StateT.run_bind, hx]
  refine hf.trans ?_
  rw [Parser.advance_advance]

/-- An action after which something is made of what it gives. -/
theorem Reads.map {x : Parse α} {f : α → β} (hx : Reads p x n a) :
    Reads p (x >>= fun a => pure (f a)) n (f a) :=
  Reads.bind (n := 0) hx rfl

/-- A look at the kind. -/
theorem reads_kind_bind {f : Kind → Parse β} {b : β} :
    Reads p (kind >>= f) n b ↔ Reads p (f p.head.kind) n b :=
  .rfl

/-- A look at the place. -/
theorem reads_position_bind {f : Position → Parse β} {b : β} :
    Reads p (position >>= f) n b ↔ Reads p (f p.head.position) n b :=
  .rfl

/-- A look for a kind. -/
theorem reads_check_bind {f : Bool → Parse β} {b : β} :
    Reads p (check wanted >>= f) n b ↔ Reads p (f (p.head.kind = wanted)) n b :=
  .rfl

/-- One token. -/
theorem reads_next (h : p.ahead = token :: rest) (hk : token.kind ≠ .endOfFile) :
    Reads p next 1 token := by
  unfold Reads
  rw [run_next, Parser.head_of_ahead h, if_neg hk]
  rfl

/-- A token that is asked for. -/
theorem reads_eat (h : p.ahead = token :: rest) (hk : token.kind = wanted)
    (hw : wanted ≠ .endOfFile) : Reads p (eat wanted) 1 token := by
  refine reads_check_bind.2 ?_
  rw [Parser.head_of_ahead h, decide_eq_true hk]
  exact reads_next h (hk ▸ hw)

/-- A name. -/
theorem reads_eatName (h : p.ahead = token :: rest) (hk : token.kind = .identifier) :
    Reads p eatName 1 token := by
  refine reads_check_bind.2 ?_
  rw [Parser.head_of_ahead h, decide_eq_true hk]
  refine reads_next h ?_
  rw [hk]
  decide

/-- A token that is there. -/
theorem reads_skip (h : p.ahead = token :: rest) (hk : token.kind = wanted)
    (hw : wanted ≠ .endOfFile) : Reads p (skip wanted) 1 true := by
  refine reads_check_bind.2 ?_
  rw [Parser.head_of_ahead h, decide_eq_true hk]
  exact (reads_next h (hk ▸ hw)).map

/-- A token that is not there. -/
theorem reads_skip_none (h : p.ahead = token :: rest) (hk : token.kind ≠ wanted) :
    Reads p (skip wanted) 0 false := by
  refine reads_check_bind.2 ?_
  rw [Parser.head_of_ahead h, decide_eq_false hk]
  exact reads_pure

/-- One level further in. -/
theorem reads_nested {x : Parse α} (hn : p.nesting < maxNesting)
    (h : Reads { p with nesting := p.nesting + 1 } x n a) : Reads p (nested x) n a := by
  change (if maxNesting ≤ p.nesting then _ else _ : Parse α).run.run p = _
  rw [if_neg (Nat.not_le.2 hn)]
  change ((x.run.run { p with nesting := p.nesting + 1 }).1,
    { (x.run.run { p with nesting := p.nesting + 1 }).2 with
      nesting := (x.run.run { p with nesting := p.nesting + 1 }).2.nesting - 1 }) = _
  rw [h]
  rfl

/-! ### Loops -/

/-- The rounds of a loop read so many tokens and give something. -/
inductive Finishes (step : α → Parse (α ⊕ β)) : Parser → α → Nat → β → Prop
  | done {p : Parser} {a : α} {n : Nat} {b : β} (h : Reads p (step a) n (.inr b)) :
      Finishes step p a n b
  | again {p : Parser} {a a' : α} {m n : Nat} {b : β}
      (hstep : Reads p (step a) m (.inl a')) (hm : 0 < m)
      (hrest : Finishes step (p.advance m) a' n b) : Finishes step p a (m + n) b

/-- There are always as many rounds left as there are tokens. -/
theorem Finishes.rounds {step : α → Parse (α ⊕ β)} {b : β} (h : Finishes step p a n b) :
    ∀ count, n < count →
      Reads p (rounds step count a) n b := by
  induction h with
  | done h =>
    rintro (_ | count) hcount
    · omega
    · exact Reads.bind (n := 0) h rfl
  | again hstep hm _ ih =>
    rintro (_ | count) hcount
    · omega
    · exact hstep.bind (ih count (by omega))

/-- A loop that finishes. -/
theorem Finishes.loop {step : α → Parse (α ⊕ β)} {b : β} (h : Finishes step p a n b)
    (hn : n ≤ p.ahead.length) : Reads p (loop step a) n b := by
  rw [Parser.length_ahead] at hn
  exact h.rounds _ (Nat.lt_succ_of_le hn)

/-! ### Lists -/

/-- Tokens of several items, each of which comes after a comma. -/
inductive Continued : List (List Token) → List Token → Prop
  | nil : Continued [] []
  | cons {item : List Token} {items : List (List Token)} {comma : Token} {tokens : List Token}
      (hcomma : comma.kind = .comma) (hrest : Continued items tokens) :
      Continued (item :: items) (comma :: (item ++ tokens))

/-- After an argument there is a comma or the end of the arguments. -/
theorem Continued.exists_next {items : List (List Token)} {tokens : List Token} {closing : Token}
    (h : Continued items tokens) (hclosing : closing.kind = .rightParen) (rest : List Token) :
    ∃ next rest', tokens ++ closing :: rest = next :: rest' ∧ next.kind.tightness = 0 := by
  cases h with
  | nil => exact ⟨closing, rest, rfl, by rw [hclosing]; rfl⟩
  | cons hcomma _ => exact ⟨_, _, rfl, by rw [hcomma]; rfl⟩

/-- A comma stands before every item but the first. -/
theorem exists_continued {item : List Token} {items : List (List Token)} {tokens : List Token}
    (h : Listed (item :: items) tokens) :
    ∃ others, tokens = item ++ others ∧ Continued items others := by
  induction items generalizing item tokens with
  | nil =>
    cases h
    exact ⟨[], (List.append_nil _).symm, .nil⟩
  | cons next items ih =>
    cases h with
    | more hcomma hrest =>
      obtain ⟨others, rfl, hothers⟩ := ih hrest
      exact ⟨_, rfl, .cons hcomma hothers⟩

/-- One round of a list that may end before an item. -/
def listRound (close : Kind) (item : Parse α) (items : List α) : Parse (List α ⊕ List α) := do
  if ← check close then return .inr items.reverse
  let items := (← item) :: items
  if ← skip .comma then return .inl items
  return .inr items.reverse

/-- One round of items up to a closing token. -/
def manyRound (closes : Kind → Bool) (item : Parse α) (items : List α) :
    Parse (List α ⊕ List α) := do
  if closes (← kind) then return .inr items.reverse
  return .inl ((← item) :: items)

/-- One round of the arguments of a call. -/
def argumentRound (inner : Inner) (items : List Node) : Parse (List Node ⊕ List Node) := do
  if ← check .rightParen then return .inr items.reverse
  unless items.isEmpty do
    let _ ← eat .comma
  return .inl ((← inner.expression) :: items)

/-- The last item. -/
theorem reads_separatedRound_last {item : Parse α} (items : List α) (hitem : Reads p item n a)
    (h : (p.advance n).ahead = token :: rest) (hk : token.kind ≠ .comma) :
    Reads p (separatedRound item items) n (.inr (a :: items).reverse) := by
  refine Reads.bind (n := 0) hitem (Reads.bind (n := 0) (reads_skip_none h hk) ?_)
  exact reads_pure

/-- An item with a comma. -/
theorem reads_separatedRound_more {item : Parse α} (items : List α) (hitem : Reads p item n a)
    (h : (p.advance n).ahead = token :: rest) (hk : token.kind = .comma) :
    Reads p (separatedRound item items) (n + 1) (.inl (a :: items)) := by
  refine hitem.bind (Reads.bind (n := 0) (reads_skip h hk (by decide)) ?_)
  exact reads_pure

/-- A round before the end. -/
theorem reads_listRound {close : Kind} {item : Parse α} {items : List α} {result : List α ⊕ List α}
    (hk : p.head.kind ≠ close) (h : Reads p (separatedRound item items) n result) :
    Reads p (listRound close item items) n result := by
  refine reads_check_bind.2 ?_
  rw [decide_eq_false hk]
  exact h

/-- The end of a list. -/
theorem reads_listRound_close {close : Kind} {item : Parse α} (items : List α)
    (hk : p.head.kind = close) :
    Reads p (listRound close item items) 0 (.inr items.reverse) := by
  refine reads_check_bind.2 ?_
  rw [decide_eq_true hk]
  exact reads_pure

/-- One more item. -/
theorem reads_manyRound_more {closes : Kind → Bool} {item : Parse α} (items : List α)
    (hk : closes p.head.kind = false) (h : Reads p item n a) :
    Reads p (manyRound closes item items) n (.inl (a :: items)) := by
  refine reads_kind_bind.2 ?_
  rw [hk]
  exact h.map

/-- The end of the items. -/
theorem reads_manyRound_close {closes : Kind → Bool} {item : Parse α} (items : List α)
    (hk : closes p.head.kind = true) :
    Reads p (manyRound closes item items) 0 (.inr items.reverse) := by
  refine reads_kind_bind.2 ?_
  rw [hk]
  exact reads_pure

/-- Something that is there. -/
theorem reads_some {item : Parse α} (h : Reads p item n a) :
    Reads p (some <$> item) n (some a) := by
  rw [map_eq_pure_bind]
  exact h.map

/-- The end of arguments. -/
theorem reads_argumentRound_close (items : List Node) (hk : p.head.kind = .rightParen) :
    Reads p (argumentRound inner items) 0 (.inr items.reverse) := by
  refine reads_check_bind.2 ?_
  rw [decide_eq_true hk]
  exact reads_pure

/-- The first argument. -/
theorem reads_argumentRound_first {a : Node} (hk : p.head.kind ≠ .rightParen)
    (h : Reads p inner.expression n a) : Reads p (argumentRound inner []) n (.inl [a]) := by
  refine reads_check_bind.2 ?_
  rw [decide_eq_false hk]
  exact h.map

/-- One more argument. -/
theorem reads_argumentRound_more {a : Node} {items : List Node} (hitems : items ≠ [])
    (hahead : p.ahead = token :: rest) (hk : token.kind = .comma)
    (h : Reads (p.advance 1) inner.expression n a) :
    Reads p (argumentRound inner items) (1 + n) (.inl (a :: items)) := by
  obtain ⟨item, others, rfl⟩ := List.exists_cons_of_ne_nil hitems
  refine reads_check_bind.2 ?_
  rw [Parser.head_of_ahead hahead, hk]
  exact (reads_eat hahead hk (by decide)).bind h.map

section

variable {ι γ : Type} {tokensOf : ι → List Token} {f : α → γ} {g : ι → γ} {closing : Token}
  {level : Nat} {inside : List Token} {parts : List ι}

/-- An item of a list is read as it should be wherever it stands. -/
def ReadsItem (level : Nat) (item : Parse α) (tokens : List Token) (P : α → Prop) : Prop :=
  ∀ (p : Parser) (next : Token) (rest : List Token), p.nesting = level →
    p.ahead = tokens ++ next :: rest → next.kind.tightness = 0 →
    ∃ a, P a ∧ Reads p item tokens.length a

/-- A loop whose rounds read an item, and a comma if there are more of them. -/
theorem finishes_listed {item : Parse α} {step : List α → Parse (List α ⊕ List α)}
    (hclosing : closing.kind.tightness = 0) (hcomma : closing.kind ≠ .comma)
    (hitem : ∀ part ∈ parts, ReadsItem level item (tokensOf part) (f · = g part))
    (hstep : ∀ part ∈ parts, ∀ (p : Parser) rest items n result, p.ahead = tokensOf part ++ rest →
      Reads p (separatedRound item items) n result → Reads p (step items) n result)
    (items : List α) (hsome : parts ≠ []) (hlevel : p.nesting = level)
    (hlisted : Listed (parts.map tokensOf) inside)
    (hahead : p.ahead = inside ++ closing :: rest) :
    ∃ found : List α, found.map f = parts.map g ∧
      Finishes step p items inside.length (items.reverse ++ found) := by
  induction parts generalizing p items inside with
  | nil => exact absurd rfl hsome
  | cons part others ih =>
    rw [List.forall_mem_cons] at hitem hstep
    cases others with
    | nil =>
      cases hlisted
      obtain ⟨a, ha, hreads⟩ := hitem.1 p closing rest hlevel hahead hclosing
      have hround := reads_separatedRound_last items hreads (Parser.ahead_advance hahead) hcomma
      rw [List.reverse_cons] at hround
      exact ⟨[a], congrArg ([·]) ha, .done (hstep.1 p _ items _ _ hahead hround)⟩
    | cons other others =>
      obtain ⟨comma, hkind, tokens, htokens, rfl⟩ :
          ∃ comma : Token, comma.kind = .comma ∧ ∃ tokens,
            Listed ((other :: others).map tokensOf) tokens ∧
              inside = tokensOf part ++ comma :: tokens := by
        cases hlisted with
        | more hkind hrest => exact ⟨_, hkind, _, hrest, rfl⟩
      rw [List.append_assoc, List.cons_append] at hahead
      obtain ⟨a, ha, hreads⟩ := hitem.1 p comma _ hlevel hahead (by rw [hkind]; rfl)
      have hround := reads_separatedRound_more items hreads (Parser.ahead_advance hahead) hkind
      have hrest : (p.advance ((tokensOf part).length + 1)).ahead =
          tokens ++ closing :: rest := by
        rw [← Parser.advance_advance]
        exact Parser.ahead_advance_one (Parser.ahead_advance hahead)
      obtain ⟨found, hfound, hfinishes⟩ := ih hitem.2 hstep.2 (a :: items) (List.cons_ne_nil _ _)
        (p := p.advance ((tokensOf part).length + 1)) hlevel htokens hrest
      refine ⟨a :: found, by rw [List.map_cons, ha, hfound]; rfl, ?_⟩
      rw [List.reverse_cons, List.append_assoc] at hfinishes
      rw [List.length_append, List.length_cons, ← Nat.add_assoc, Nat.add_right_comm]
      exact .again (hstep.1 p _ items _ _ hahead hround) (Nat.succ_pos _) hfinishes

end

section

variable {ι γ : Type} {tokensOf : ι → List Token} {f : α → γ} {g : ι → γ} {closing : Token}
  {level : Nat} {inside : List Token} {parts : List ι} {item : Parse α}

/-- A list with commas. -/
theorem reads_separated (hclosing : closing.kind.tightness = 0) (hcomma : closing.kind ≠ .comma)
    (hitem : ∀ part ∈ parts, ReadsItem level item (tokensOf part) (f · = g part))
    (hsome : parts ≠ []) (hlevel : p.nesting = level) (hlisted : Listed (parts.map tokensOf) inside)
    (hahead : p.ahead = inside ++ closing :: rest) :
    ∃ found : List α, found.map f = parts.map g ∧ Reads p (separated item) inside.length found := by
  obtain ⟨found, hfound, hfinishes⟩ := finishes_listed hclosing hcomma hitem
    (fun _ _ _ _ _ _ _ _ hround => hround) [] hsome hlevel hlisted hahead
  refine ⟨found, hfound, hfinishes.loop ?_⟩
  rw [hahead, List.length_append]
  omega

/-- A list up to its end. -/
theorem reads_listUntil (hclosing : closing.kind.tightness = 0) (hcomma : closing.kind ≠ .comma)
    (hitem : ∀ part ∈ parts, ReadsItem level item (tokensOf part) (f · = g part))
    (hstart : ∀ part ∈ parts, ∃ token tokens, tokensOf part = token :: tokens ∧
      token.kind ≠ closing.kind)
    (hlevel : p.nesting = level) (hlisted : Listed (parts.map tokensOf) inside)
    (hahead : p.ahead = inside ++ closing :: rest) :
    ∃ found : List α, found.map f = parts.map g ∧
      Reads p (listUntil closing.kind item) inside.length found := by
  -- The closing token is not where an item starts, so the list does not end before one.
  have hopen : ∀ part ∈ parts, ∀ (p : Parser) rest, p.ahead = tokensOf part ++ rest →
      p.head.kind ≠ closing.kind := by
    intro part hpart p rest hahead
    obtain ⟨token, tokens, htokens, hk⟩ := hstart part hpart
    rw [htokens] at hahead
    rwa [Parser.head_of_ahead hahead]
  obtain ⟨found, hfound, hfinishes⟩ : ∃ found : List α, found.map f = parts.map g ∧
      Finishes (listRound closing.kind item) p [] inside.length found := by
    by_cases hsome : parts = []
    · subst hsome
      cases hlisted
      exact ⟨[], rfl, .done (reads_listRound_close [] (by rw [Parser.head_of_ahead hahead]))⟩
    · exact finishes_listed hclosing hcomma hitem (fun part hpart p rest _ _ _ hahead hround =>
        reads_listRound (hopen part hpart p rest hahead) hround) [] hsome hlevel hlisted hahead
  refine ⟨found, hfound, hfinishes.loop ?_⟩
  rw [hahead, List.length_append]
  omega

/-- The arguments of a call after the first, each of which comes after a comma. -/
theorem finishes_continued {inner : Inner} {f : Node → γ}
    (hitem : ∀ part ∈ parts, ReadsItem level inner.expression (tokensOf part) (f · = g part))
    (hclosing : closing.kind = .rightParen) {items : List Node} (hitems : items ≠ [])
    (hlevel : p.nesting = level) (hcontinued : Continued (parts.map tokensOf) inside)
    (hahead : p.ahead = inside ++ closing :: rest) :
    ∃ found : List Node, found.map f = parts.map g ∧
      Finishes (argumentRound inner) p items inside.length (items.reverse ++ found) := by
  induction parts generalizing p items inside with
  | nil =>
    cases hcontinued
    refine ⟨[], rfl, .done ?_⟩
    rw [List.append_nil]
    exact reads_argumentRound_close items ((Parser.head_of_ahead hahead) ▸ hclosing)
  | cons part others ih =>
    rw [List.forall_mem_cons] at hitem
    obtain ⟨comma, hcomma, tokens, htokens, rfl⟩ : ∃ comma : Token, comma.kind = .comma ∧ ∃ tokens,
        Continued (others.map tokensOf) tokens ∧ inside = comma :: (tokensOf part ++ tokens) := by
      cases hcontinued with
      | cons hcomma hrest => exact ⟨_, hcomma, _, hrest, rfl⟩
    rw [List.cons_append, List.append_assoc] at hahead
    have hafter := Parser.ahead_advance_one hahead
    obtain ⟨next, rest', hnext, hk⟩ := htokens.exists_next hclosing rest
    obtain ⟨a, ha, hreads⟩ := hitem.1 (p.advance 1) next rest' hlevel (hnext ▸ hafter) hk
    have hround := reads_argumentRound_more hitems hahead hcomma hreads
    have hrest := Parser.ahead_advance hafter
    rw [Parser.advance_advance] at hrest
    obtain ⟨found, hfound, hfinishes⟩ := ih hitem.2 (List.cons_ne_nil a items)
      (p := p.advance (1 + (tokensOf part).length)) hlevel htokens hrest
    refine ⟨a :: found, by rw [List.map_cons, ha, hfound]; rfl, ?_⟩
    rw [List.reverse_cons, List.append_assoc] at hfinishes
    rw [List.length_cons, List.length_append, Nat.add_comm, ← Nat.add_assoc]
    exact .again hround (by omega) hfinishes

/-- Arguments. -/
theorem reads_arguments {inner : Inner} {f : Node → γ}
    (hitem : ∀ part ∈ parts, ReadsItem level inner.expression (tokensOf part) (f · = g part))
    (hstart : ∀ part ∈ parts, ∃ token tokens, tokensOf part = token :: tokens ∧
      token.kind ≠ .rightParen)
    (hclosing : closing.kind = .rightParen) (hlevel : p.nesting = level)
    (hlisted : Listed (parts.map tokensOf) inside)
    (hahead : p.ahead = inside ++ closing :: rest) :
    ∃ found : List Node, found.map f = parts.map g ∧
      Reads p (arguments inner) inside.length found := by
  obtain ⟨found, hfound, hfinishes⟩ : ∃ found : List Node, found.map f = parts.map g ∧
      Finishes (argumentRound inner) p [] inside.length found := by
    cases parts with
    | nil =>
      cases hlisted
      exact ⟨[], rfl, .done (reads_argumentRound_close [] (Parser.head_of_ahead hahead ▸ hclosing))⟩
    | cons part others =>
      rw [List.forall_mem_cons] at hitem hstart
      obtain ⟨tokens, rfl, htokens⟩ := exists_continued hlisted
      rw [List.append_assoc] at hahead
      obtain ⟨next, rest', hnext, hk⟩ := htokens.exists_next hclosing rest
      obtain ⟨a, ha, hreads⟩ := hitem.1 p next rest' hlevel (hnext ▸ hahead) hk
      have hopen : p.head.kind ≠ .rightParen := by
        obtain ⟨token, tokens, htokens, hk⟩ := hstart.1
        rw [htokens] at hahead
        rwa [Parser.head_of_ahead hahead]
      obtain ⟨found, hfound, hfinishes⟩ := finishes_continued hitem.2 hclosing
        (List.cons_ne_nil a []) (p := p.advance (tokensOf part).length) hlevel htokens
        (Parser.ahead_advance hahead)
      refine ⟨a :: found, by rw [List.map_cons, ha, hfound]; rfl, ?_⟩
      have hpos : 0 < (tokensOf part).length := by
        obtain ⟨token, tokens, htokens, -⟩ := hstart.1
        rw [htokens]
        exact Nat.succ_pos _
      rw [List.length_append]
      exact .again (reads_argumentRound_first hopen hreads) hpos hfinishes
  refine ⟨found, hfound, hfinishes.loop ?_⟩
  rw [hahead, List.length_append]
  omega

end

/-! ### Levels -/

/-- Levels are in order. -/
theorem unaryLevel_le : unaryLevel ≤ postfixLevel := by decide

/-- An action reads so many tokens and gives a node, up to places. -/
def ReadsNode (p : Parser) (x : Parse Node) (count : Nat) (node : Node) : Prop :=
  ∃ a, a.unplaced = node.unplaced ∧ Reads p x count a

/-- After what is read first, the rounds of a loop come so many tokens further to a node, up to
places, and the loop ends as it ends from there. -/
def Through (first : Parse Node) (step : Node → Parse (Node ⊕ Node)) (p : Parser) (count : Nat)
    (node : Node) : Prop :=
  ∃ m n a b, Reads p first m a ∧ m + n = count ∧ b.unplaced = node.unplaced ∧
    ∀ k c, Finishes step (p.advance count) b k c → Finishes step (p.advance m) a (n + k) c

section

variable {first : Parse Node} {step : Node → Parse (Node ⊕ Node)} {node node' : Node}

/-- Only the first operand. -/
theorem through_first (h : ReadsNode p first n node) : Through first step p n node := by
  obtain ⟨a, ha, hreads⟩ := h
  refine ⟨n, 0, a, a, hreads, rfl, ha, fun k c hfinishes => ?_⟩
  rwa [Nat.zero_add]

/-- A loop goes on for another round. -/
theorem Through.again (h : Through first step p n node) (hm : 0 < m)
    (hstep : ∀ b : Node, b.unplaced = node.unplaced → ∃ c : Node, c.unplaced = node'.unplaced ∧
      Reads (p.advance n) (step b) m (.inl c)) : Through first step p (n + m) node' := by
  obtain ⟨i, j, a, b, hfirst, rfl, hb, hrest⟩ := h
  obtain ⟨c, hc, hreads⟩ := hstep b hb
  refine ⟨i, j + m, a, c, hfirst, (Nat.add_assoc ..).symm, hc, fun k d hfinishes => ?_⟩
  rw [← Parser.advance_advance] at hfinishes
  rw [Nat.add_assoc]
  exact hrest _ _ (.again hreads hm hfinishes)

/-- A loop ends. -/
theorem Through.ends (h : Through first step p n node) (hlength : n + m ≤ p.ahead.length)
    (hstep : ∀ b : Node, b.unplaced = node.unplaced → ∃ c : Node, c.unplaced = node'.unplaced ∧
      Reads (p.advance n) (step b) m (.inr c)) :
    ReadsNode p (first >>= loop step) (n + m) node' := by
  obtain ⟨i, j, a, b, hfirst, rfl, hb, hrest⟩ := h
  obtain ⟨c, hc, hreads⟩ := hstep b hb
  refine ⟨c, hc, ?_⟩
  rw [Nat.add_assoc]
  refine hfirst.bind ((hrest m c (.done hreads)).loop ?_)
  rw [Parser.length_ahead] at hlength ⊢
  change j + m ≤ p.tokens.size - (p.current + i)
  omega

end

/-- One round of what follows an operand. -/
def postfixRound (inner : Inner) (operand : Node) : Parse (Node ⊕ Node) := do
  match ← kind with
  | .leftParen => return .inl (← callOf inner operand)
  | .leftBracket | .mapIndex | .arrayRefIndex | .gridIndex | .listIndex =>
    return .inl (← indexOf inner operand)
  | .dot => return .inl (← memberOf operand)
  | .increment | .decrement => return .inr (← steppedAfter operand)
  | _ => return .inr operand

/-- One round of a chain of operators. -/
def chainRound (operators : List (Kind × Operator)) (operand : Parse Node) (lhs : Node) :
    Parse (Node ⊕ Node) := do
  match operators.lookup (← kind) with
  | none => return .inr lhs
  | some operator =>
    let start := (← next).position
    let rhs ← operand
    return .inl (operator.node start lhs rhs)

/-- A chain is a loop. -/
theorem chain_eq (operators : List (Kind × Operator)) (operand : Parse Node) :
    chain operators operand = operand >>= loop (chainRound operators operand) := rfl

/-- The operators of a level. -/
def operatorsAt (level : Nat) : List (Kind × Operator) :=
  Operator.levels.getD (level - 1) []

/-- Reads an expression of a level, from the operators up to the signs. -/
def rung (inner : Inner) (level : Nat) : Parse Node :=
  ladder (unary inner) (Operator.levels.drop (level - 1))

/-- A level is a chain. -/
theorem rung_eq (inner : Inner) {level : Nat} (hpos : 0 < level) (hlt : level < unaryLevel) :
    rung inner level = chain (operatorsAt level) (rung inner (level + 1)) := by
  have htable : ∀ i < 11, Operator.levels.drop i =
      Operator.levels.getD i [] :: Operator.levels.drop (i + 1) := by decide
  have hlevel : level - 1 + 1 = level := Nat.succ_pred_eq_of_pos hpos
  unfold rung operatorsAt
  rw [htable (level - 1) (by unfold unaryLevel at hlt; omega), hlevel]
  rfl

/-- An expression is read where a level is wanted. From the operators on, and for what stands before
a bracket, more may follow on the same level. -/
def ReadsAt (inner : Inner) (level : Nat) (p : Parser) (count : Nat) (node : Node) : Prop :=
  if level = 0 then ReadsNode p (conditional inner) count node
  else if level < unaryLevel then
    Through (rung inner (level + 1)) (chainRound (operatorsAt level) (rung inner (level + 1))) p count
      node
  else if level = unaryLevel then ReadsNode p (unary inner) count node
  else Through (primary inner) (postfixRound inner) p count node

/-- The most tightly binding token that may follow an expression where a level is wanted. -/
def followLimit (level : Nat) : Nat :=
  if level = 0 then 0 else level + 1

/-- There is a token left. -/
theorem lt_length_ahead (h : (p.advance n).ahead = token :: rest) : n < p.ahead.length := by
  have hlength := congrArg List.length h
  rw [Parser.length_ahead, List.length_cons] at hlength
  rw [Parser.length_ahead]
  change p.tokens.size - (p.current + n) = rest.length + 1 at hlength
  omega

/-- Nothing stands behind. -/
theorem reads_postfixRound_end (operand : Node) (h : p.head.kind.tightness ≤ postfixLevel) :
    Reads p (postfixRound inner operand) 0 (.inr operand) := by
  refine reads_kind_bind.2 ?_
  split
  iterate 9
    next hk =>
      rw [hk] at h
      exact absurd h (by decide)
  · exact reads_pure

/-- Operators bind by level. -/
theorem tightness_of_lookup {level : Nat} {kind : Kind} {operator : Operator} (hpos : 0 < level)
    (h : (operatorsAt level).lookup kind = some operator) : kind.tightness = level + 1 := by
  have htable : ∀ i < 11, ∀ entry ∈ Operator.levels.getD i [], entry.1.tightness = i + 2 := by
    decide
  have hmem := mem_of_lookup h
  by_cases hlt : level - 1 < 11
  · have htight := htable _ hlt _ hmem
    dsimp only at htight
    omega
  · have hnone : operatorsAt level = [] := by
      unfold operatorsAt
      rw [List.getD_eq_getElem?_getD, List.getElem?_eq_none (Nat.not_lt.1 hlt)]
      rfl
    rw [hnone] at hmem
    cases hmem

/-- No operator follows. -/
theorem reads_chainRound_end {level : Nat} {operand : Parse Node} (lhs : Node) (hpos : 0 < level)
    (h : p.head.kind.tightness ≤ level) :
    Reads p (chainRound (operatorsAt level) operand lhs) 0 (.inr lhs) := by
  refine reads_kind_bind.2 ?_
  split
  · exact reads_pure
  next operator hlookup =>
    have htight := tightness_of_lookup hpos hlookup
    omega

/-- Where a sign stands, there is no literal and no bracket. -/
theorem not_reads_primary {a : Node}
    (hk : p.head.kind ∈ [.bang, .minus, .bitNot, .plus, .increment, .decrement]) :
    ¬ Reads p (primary inner) n a := by
  intro h
  unfold primary at h
  rw [reads_position_bind, reads_kind_bind] at h
  simp only [List.mem_cons, List.not_mem_nil, or_false] at hk
  rcases hk with hk | hk | hk | hk | hk | hk <;> rw [hk] at h <;> cases h

/-- No sign stands in front. -/
theorem reads_unary_of_primary {a b : Node} (hprimary : Reads p (primary inner) m a)
    (h : Reads p (postfixed inner) n b) : Reads p (unary inner) n b := by
  rw [unary, reads_kind_bind]
  split
  iterate 6
    next hk => exact absurd hprimary (not_reads_primary (by rw [hk]; decide))
  · exact h

section

variable {inner : Inner} {node : Node} {level : Nat}

/-- The level of signs. -/
theorem readsAt_unaryLevel :
    ReadsAt inner unaryLevel p n node = ReadsNode p (unary inner) n node := rfl

/-- The level of an operator. -/
theorem readsAt_operator (hpos : 0 < level) (hlt : level < unaryLevel) :
    ReadsAt inner level p n node = Through (rung inner (level + 1))
      (chainRound (operatorsAt level) (rung inner (level + 1))) p n node := by
  unfold ReadsAt
  rw [if_neg (Nat.ne_of_gt hpos), if_pos hlt]

/-- A chain of operators ends before a token that binds less tightly. -/
theorem readsNode_rung (hpos : 0 < level) (hle : level ≤ unaryLevel)
    (h : ReadsAt inner level p n node) (hnext : (p.advance n).ahead = token :: rest)
    (ht : token.kind.tightness ≤ level) : ReadsNode p (rung inner level) n node := by
  rcases Nat.lt_or_eq_of_le hle with hlt | rfl
  · rw [readsAt_operator hpos hlt] at h
    rw [rung_eq inner hpos hlt, chain_eq]
    refine h.ends (m := 0) (Nat.le_of_lt (lt_length_ahead hnext)) fun b hb => ⟨b, hb, ?_⟩
    refine reads_chainRound_end b hpos ?_
    rwa [Parser.head_of_ahead hnext]
  · exact h

/-- No question mark follows. -/
theorem reads_conditional_end {a : Node} (h : Reads p (rung inner 1) n a)
    (hnext : (p.advance n).ahead = token :: rest) (ht : token.kind.tightness = 0) :
    Reads p (conditional inner) n a := by
  refine Reads.bind (n := 0) h (reads_check_bind.2 ?_)
  have hk : token.kind ≠ .question := by
    intro hk
    rw [hk] at ht
    cases ht
  rw [Parser.head_of_ahead hnext, decide_eq_false hk]
  exact reads_pure

/-- What is read where a level is wanted is read where the next looser one is. -/
theorem ReadsAt.loosen_one (hle : level ≤ unaryLevel) (h : ReadsAt inner (level + 1) p n node)
    (hnext : (p.advance n).ahead = token :: rest)
    (ht : token.kind.tightness ≤ followLimit level) : ReadsAt inner level p n node := by
  unfold followLimit at ht
  by_cases hzero : level = 0
  · subst hzero
    rw [if_pos rfl] at ht
    have ht := Nat.le_zero.1 ht
    obtain ⟨a, ha, hreads⟩ := readsNode_rung Nat.one_pos (by decide) h hnext (by omega)
    exact ⟨a, ha, reads_conditional_end hreads hnext ht⟩
  · rw [if_neg hzero] at ht
    have hpos := Nat.pos_of_ne_zero hzero
    rcases Nat.lt_or_eq_of_le hle with hlt | rfl
    · rw [readsAt_operator hpos hlt]
      exact through_first (readsNode_rung (Nat.succ_pos _) hlt h hnext ht)
    · rw [readsAt_unaryLevel]
      have hthrough : Through (primary inner) (postfixRound inner) p n node := h
      obtain ⟨a, ha, hreads⟩ := hthrough.ends (m := 0) (Nat.le_of_lt (lt_length_ahead hnext))
        fun b hb => ⟨b, hb, reads_postfixRound_end b (by rwa [Parser.head_of_ahead hnext])⟩
      obtain ⟨_, _, _, _, hprimary, -⟩ := hthrough
      exact ⟨a, ha, reads_unary_of_primary hprimary hreads⟩

/-- Looser levels end earlier. -/
theorem followLimit_mono {level level' : Nat} (h : level ≤ level') :
    followLimit level ≤ followLimit level' := by
  unfold followLimit
  split <;> split <;> omega

/-- An expression on a looser level. -/
theorem ReadsAt.loosen {tight : Nat} (htight : tight ≤ postfixLevel)
    (h : ReadsAt inner tight p n node) (hle : level ≤ tight)
    (hnext : (p.advance n).ahead = token :: rest)
    (ht : token.kind.tightness ≤ followLimit level) : ReadsAt inner level p n node := by
  induction tight with
  | zero =>
    obtain rfl := Nat.le_zero.1 hle
    exact h
  | succ tight ih =>
    rcases Nat.lt_or_eq_of_le hle with hlt | rfl
    · have hle' := Nat.le_of_lt_succ hlt
      have hone := h.loosen_one (Nat.le_of_succ_le_succ htight) hnext
        (Nat.le_trans ht (followLimit_mono hle'))
      exact ih (Nat.le_of_succ_le htight) hone hle'
    · exact h

end

/-! ### Written forms

Each form of an expression is read again from the tokens that it is written with.
-/

/-- Tokens of an expression are read where a level is wanted, if they do not nest too deep and
nothing that belongs to them follows. -/
def Rereads (level : Nat) (node : Node) (tokens : List Token) : Prop :=
  level ≤ postfixLevel → ∀ (g : Nat) (p : Parser) (next : Token) (rest : List Token),
    node.depthAt level ≤ g → p.nesting + g = maxNesting → p.ahead = tokens ++ next :: rest →
    next.kind.tightness ≤ followLimit level → ReadsAt (grammar (g + 1)) level p tokens.length node

section

variable {level : Nat} {node : Node} {tokens : List Token} {g : Nat} {next : Token}

/-- An expression in brackets. -/
theorem Rereads.item (h : Rereads 0 node tokens) (hg : node.depth + 1 ≤ g)
    (hn : n + g = maxNesting) :
    ReadsItem n (grammar (g + 1)).expression tokens (·.unplaced = node.unplaced) := by
  rintro p next rest rfl hahead hnext
  obtain ⟨g, rfl⟩ : ∃ g', g = g' + 1 := ⟨g - 1, by omega⟩
  obtain ⟨a, ha, hreads⟩ := h (Nat.zero_le _) g { p with nesting := p.nesting + 1 } next rest
    (by rw [Node.depthAt_zero]; omega) (by dsimp only; omega) hahead (Nat.le_of_eq hnext)
  exact ⟨a, ha, reads_nested (by omega) hreads⟩

/-- Items are read again. -/
theorem Rereads.items {parts : List (Node × List Token)}
    (h : ∀ part ∈ parts, Rereads 0 part.1 part.2) (hg : Node.depthAll (parts.map Prod.fst) ≤ g)
    (hn : n + g = maxNesting) : ∀ part ∈ parts,
      ReadsItem n (grammar (g + 1)).expression part.2 (·.unplaced = part.1.unplaced) := by
  intro part hpart
  exact (h part hpart).item ((Node.depthAll_le_iff _).1 hg _ (List.mem_map_of_mem hpart)) hn

/-- What stands after a sign. -/
theorem Rereads.operand (h : Rereads unaryLevel node tokens)
    (hg : node.depthAt unaryLevel + 1 ≤ g) (hn : p.nesting + g = maxNesting)
    (hahead : p.ahead = tokens ++ next :: rest) (ht : next.kind.tightness ≤ followLimit unaryLevel) :
    ReadsNode p (grammar (g + 1)).operand tokens.length node := by
  obtain ⟨g, rfl⟩ : ∃ g', g = g' + 1 := ⟨g - 1, by omega⟩
  obtain ⟨a, ha, hreads⟩ := h (by decide) g { p with nesting := p.nesting + 1 } next rest (by omega)
    (by dsimp only; omega) hahead ht
  exact ⟨a, ha, reads_nested (by omega) hreads⟩

/-- What is written without parentheses is read as it is where its own level is wanted. -/
theorem rereads_of_readsAt {own : Nat} (hown : own ≤ postfixLevel) (hle : own ≤ node.level)
    (hlevel : level ≤ own)
    (h : ∀ (g : Nat) (p : Parser) (next : Token) (rest : List Token), node.depth ≤ g →
      p.nesting + g = maxNesting → p.ahead = tokens ++ next :: rest →
      next.kind.tightness ≤ followLimit own → ReadsAt (grammar (g + 1)) own p tokens.length node) :
    Rereads level node tokens := by
  intro _ g p next rest hg hn hahead ht
  rw [Node.depthAt_of_le (Nat.le_trans hlevel hle)] at hg
  refine (h g p next rest hg hn hahead (Nat.le_trans ht (followLimit_mono hlevel))).loosen hown
    hlevel (Parser.ahead_advance hahead) ht

/-- So is a literal, a name or something in brackets, wherever it stands. -/
theorem rereads_of_primary (hle : postfixLevel ≤ node.level)
    (h : ∀ (g : Nat) (p : Parser) (rest : List Token), node.depth ≤ g →
      p.nesting + g = maxNesting → p.ahead = tokens ++ rest →
      ReadsNode p (primary (grammar (g + 1))) tokens.length node) : Rereads level node tokens :=
  fun hlevel => rereads_of_readsAt (Nat.le_refl _) hle hlevel
    (fun g p _ _ hg hn hahead _ => through_first (h g p _ hg hn hahead)) hlevel

end

/-! ### Literals, names and brackets -/

/-- Two tokens around others. -/
theorem length_enclosed (opening closing : Token) (tokens : List Token) :
    (opening :: (tokens ++ [closing])).length = 1 + (tokens.length + 1) := by
  rw [List.length_cons, List.length_append, Nat.add_comm]
  rfl

/-- They come one by one. -/
theorem ahead_enclosed {opening closing : Token} {inside : List Token}
    (h : p.ahead = opening :: (inside ++ [closing]) ++ rest) :
    p.ahead = opening :: (inside ++ closing :: rest) := by
  rwa [List.cons_append, List.append_assoc] at h

section

variable {level : Nat} {position : Position} {opening closing : Token} {inside : List Token}

/-- A number. -/
theorem rereads_number {literal : Literal} (hk : token.kind = .number)
    (hvalue : Literal.ofText token.value = .ok literal) :
    Rereads level (literal.node position) [token] := by
  refine rereads_of_primary ?_ fun g p rest _ _ hahead => ?_
  · cases literal <;> exact Nat.le_succ _
  · refine ⟨literal.node p.head.position, by cases literal <;> rfl, ?_⟩
    rw [primary, reads_position_bind, reads_kind_bind, Parser.head_of_ahead hahead, hk]
    refine Reads.bind (n := 0) (reads_next hahead (by rw [hk]; decide)) ?_
    rw [hvalue]
    exact reads_pure

/-- A string. -/
theorem rereads_string {verbatim : Bool}
    (hk : token.kind = if verbatim then .rawString else .string) :
    Rereads level (.string position token.value verbatim) [token] := by
  refine rereads_of_primary (Nat.le_succ _) fun g p rest _ _ hahead => ?_
  refine ⟨.string p.head.position token.value verbatim, rfl, ?_⟩
  rw [primary, reads_position_bind, reads_kind_bind, Parser.head_of_ahead hahead, hk]
  cases verbatim with
  | true => exact (reads_next hahead (by rw [hk]; decide)).map
  | false => exact (reads_next hahead (by rw [hk]; decide)).map

/-- A name. -/
theorem rereads_name (hk : token.kind = .identifier) :
    Rereads level (.ident position token.value .unresolved) [token] := by
  refine rereads_of_primary (Nat.le_succ _) fun g p rest _ _ hahead => ?_
  refine ⟨.ident p.head.position token.value .unresolved, rfl, ?_⟩
  rw [primary, reads_position_bind, reads_kind_bind, Parser.head_of_ahead hahead, hk]
  exact (reads_next hahead (by rw [hk]; decide)).map

/-- An expression in brackets. -/
theorem rereads_parens {node : Node} {tokens : List Token} (hlt : node.level < level)
    (hopening : opening.kind = .leftParen) (hclosing : closing.kind = .rightParen)
    (h : Rereads 0 node tokens) : Rereads level node (opening :: (tokens ++ [closing])) := by
  intro hlevel g p next rest hg hn hahead ht
  have hnext := Parser.ahead_advance hahead
  rw [Node.depthAt_of_lt hlt] at hg
  have hahead := ahead_enclosed hahead
  have hafter := Parser.ahead_advance_one hahead
  obtain ⟨a, ha, hreads⟩ := h.item hg hn (p.advance 1) closing _ rfl hafter
    (by rw [hclosing]; rfl)
  have hprimary : ReadsNode p (primary (grammar (g + 1)))
      (opening :: (tokens ++ [closing])).length node := by
    refine ⟨a, ha, ?_⟩
    rw [primary, reads_position_bind, reads_kind_bind, Parser.head_of_ahead hahead, hopening,
      length_enclosed]
    refine (reads_next hahead (by rw [hopening]; decide)).bind (hreads.bind ?_)
    exact (reads_eat (Parser.ahead_advance hafter) hclosing (by decide)).map
  exact (show ReadsAt (grammar (g + 1)) postfixLevel p _ node from through_first hprimary).loosen
    (Nat.le_refl _) hlevel hnext ht

variable {parts : List (Node × List Token)} {front : List Token}

omit position in
/-- The same without places. -/
theorem unplacedAll_found {found : List Node}
    (h : found.map Node.unplaced = parts.map fun part => part.1.unplaced) :
    Node.unplacedAll found = Node.unplacedAll (parts.map Prod.fst) := by
  rw [Node.unplacedAll_eq_map, Node.unplacedAll_eq_map, h, List.map_map]
  rfl

/-- An array. -/
theorem rereads_array (hopening : opening.kind = .leftBracket)
    (hclosing : closing.kind = .rightBracket) (hparts : ∀ part ∈ parts, Rereads 0 part.1 part.2)
      (hstart : ∀ part ∈ parts, ∃ token tokens, part.2 = token :: tokens ∧ token.kind ≠
      .rightBracket) (hinside : Listed (parts.map Prod.snd) inside) :
    Rereads level (.array position (parts.map Prod.fst)) (opening :: (inside ++ [closing])) := by
  refine rereads_of_primary (Nat.le_succ _) fun g p rest hg hn hahead => ?_
  have hahead := ahead_enclosed hahead
  have hafter := Parser.ahead_advance_one hahead
  obtain ⟨found, hfound, hreads⟩ := reads_listUntil (by rw [hclosing]; rfl)
    (by rw [hclosing]; decide) (Rereads.items hparts hg hn) (by rwa [hclosing])
    (p := p.advance 1) rfl hinside hafter
  refine ⟨.array p.head.position found, congrArg (Node.array default) (unplacedAll_found hfound), ?_⟩
  rw [hclosing] at hreads
  rw [primary, reads_position_bind, reads_kind_bind, Parser.head_of_ahead hahead, hopening,
    length_enclosed]
  refine (reads_next hahead (by rw [hopening]; decide)).bind (hreads.bind ?_)
  exact (reads_eat (Parser.ahead_advance hafter) hclosing (by decide)).map

/-- A field of a struct. -/
theorem readsItem_structField {field : WrittenField} {g : Nat}
    (hkey : field.key.kind = .identifier ∨ field.key.kind = .string)
    (hcolon : field.colon.kind = .colon)
    (h : ReadsItem n (grammar g).expression field.tokens (·.unplaced = field.value.unplaced)) :
    ReadsItem n (structField (grammar g)) field.all fun found =>
      (found.1, found.2.unplaced) = (field.key.value, field.value.unplaced) := by
  intro p next rest hn hahead ht
  have hafter := Parser.ahead_advance_one hahead
  have hvalue := Parser.ahead_advance_one hafter
  rw [Parser.advance_advance] at hvalue
  obtain ⟨a, ha, hreads⟩ := h (p.advance (1 + 1)) next rest hn hvalue ht
  refine ⟨(field.key.value, a), congrArg (field.key.value, ·) ha, ?_⟩
  have hend : Reads (p.advance 1) (do
      let _ ← eat .colon
      return (field.key.value, ← (grammar g).expression)) (1 + field.tokens.length)
      (field.key.value, a) := by
    refine (reads_eat hafter hcolon (by decide)).bind ?_
    rw [Parser.advance_advance]
    exact hreads.map
  have hlength : field.all.length = 1 + (1 + field.tokens.length) := by
    unfold WrittenField.all
    rw [List.length_cons, List.length_cons]
    omega
  rw [structField, reads_kind_bind, Parser.head_of_ahead hahead, hlength]
  rcases hkey with hkey | hkey <;> rw [hkey] <;>
    exact (reads_next hahead (by rw [hkey]; decide)).bind hend

/-- A struct. -/
theorem rereads_struct {fields : List WrittenField} (hopening : opening.kind = .leftBrace)
    (hclosing : closing.kind = .rightBrace)
    (hkeys : ∀ field ∈ fields, field.key.kind = .identifier ∨ field.key.kind = .string)
    (hcolons : ∀ field ∈ fields, field.colon.kind = .colon)
    (hvalues : ∀ field ∈ fields, Rereads 0 field.value field.tokens)
    (hinside : Listed (fields.map WrittenField.all) inside) :
    Rereads level (.struct position (fields.map WrittenField.entry))
      (opening :: (inside ++ [closing])) := by
  refine rereads_of_primary (Nat.le_succ _) fun g p rest hg hn hahead => ?_
  have hahead := ahead_enclosed hahead
  have hafter := Parser.ahead_advance_one hahead
  have hitem : ∀ field ∈ fields, ReadsItem p.nesting (structField (grammar (g + 1))) field.all
      fun found => (found.1, found.2.unplaced) = (field.key.value, field.value.unplaced) := by
    intro field hfield
    refine readsItem_structField (hkeys field hfield) (hcolons field hfield) ?_
    exact (hvalues field hfield).item
      ((Node.depthFields_le_iff _).1 hg _ (List.mem_map_of_mem hfield)) hn
  have hstart : ∀ field ∈ fields, ∃ token tokens, field.all = token :: tokens ∧
      token.kind ≠ closing.kind := by
    intro field hfield
    refine ⟨_, _, rfl, ?_⟩
    rw [hclosing]
    rcases hkeys field hfield with hkey | hkey <;> rw [hkey] <;> decide
  obtain ⟨found, hfound, hreads⟩ := reads_listUntil (by rw [hclosing]; rfl)
    (by rw [hclosing]; decide) hitem hstart (p := p.advance 1) rfl hinside hafter
  refine ⟨.struct p.head.position found, congrArg (Node.struct default) ?_, ?_⟩
  · rw [Node.unplacedFields_eq_map, Node.unplacedFields_eq_map, hfound, List.map_map]
    rfl
  · rw [hclosing] at hreads
    rw [primary, reads_position_bind, reads_kind_bind, Parser.head_of_ahead hahead, hopening,
      length_enclosed]
    refine (reads_next hahead (by rw [hopening]; decide)).bind (hreads.bind ?_)
    exact (reads_eat (Parser.ahead_advance hafter) hclosing (by decide)).map

/-! ### What follows an operand -/

/-- A call. -/
theorem rereads_call {callee : Node} (hlevel : level ≤ postfixLevel)
    (hopening : opening.kind = .leftParen) (hclosing : closing.kind = .rightParen)
    (hcallee : Rereads postfixLevel callee front) (hparts : ∀ part ∈ parts, Rereads 0 part.1 part.2)
    (hstart : ∀ part ∈ parts, ∃ token tokens, part.2 = token :: tokens ∧ token.kind ≠ .rightParen)
    (hinside : Listed (parts.map Prod.snd) inside) :
    Rereads level (.call position callee (parts.map Prod.fst))
      (front ++ opening :: (inside ++ [closing])) := by
  refine rereads_of_readsAt (Nat.le_refl _) (Nat.le_refl _) hlevel
    fun g p next rest hg hn hahead _ => ?_
  rw [Node.depth_call, Nat.max_le] at hg
  rw [List.append_assoc] at hahead
  have hbefore := hcallee (Nat.le_refl _) g p opening _ hg.1 hn hahead (by rw [hopening]; decide)
  have hbracket := ahead_enclosed (Parser.ahead_advance hahead)
  have hafter := Parser.ahead_advance_one hbracket
  obtain ⟨found, hfound, hreads⟩ := reads_arguments (Rereads.items hparts hg.2 hn) hstart hclosing
    (p := (p.advance front.length).advance 1) rfl hinside hafter
  rw [List.length_append, length_enclosed]
  refine Through.again hbefore (by omega) fun b hb => ?_
  refine ⟨.call opening.position b found, ?_, ?_⟩
  · change Node.call default b.unplaced (Node.unplacedAll found) = _
    rw [hb, unplacedAll_found hfound]
    rfl
  · rw [postfixRound, reads_kind_bind, Parser.head_of_ahead hbracket, hopening]
    refine Reads.map ?_
    refine (reads_next hbracket (by rw [hopening]; decide)).bind (hreads.bind ?_)
    exact (reads_eat (Parser.ahead_advance hafter) hclosing (by decide)).map

/-- An element. -/
theorem rereads_index {container : Node} {accessor : Accessor} (hlevel : level ≤ postfixLevel)
    (hopening : opening.kind = accessor.opening) (hclosing : closing.kind = .rightBracket)
    (hsome : parts ≠ []) (htakes : accessor.takes parts.length = true)
    (hcontainer : Rereads postfixLevel container front)
    (hparts : ∀ part ∈ parts, Rereads 0 part.1 part.2)
    (hinside : Listed (parts.map Prod.snd) inside) :
    Rereads level (.index position container accessor (parts.map Prod.fst))
      (front ++ opening :: (inside ++ [closing])) := by
  refine rereads_of_readsAt (Nat.le_refl _) (Nat.le_refl _) hlevel
    fun g p next rest hg hn hahead _ => ?_
  rw [Node.depth_index, Nat.max_le] at hg
  rw [List.append_assoc] at hahead
  have htight : opening.kind.tightness ≤ followLimit postfixLevel ∧
      opening.kind ≠ .endOfFile ∧ Accessor.ofKind opening.kind = accessor := by
    rw [hopening]
    cases accessor <;> decide
  have hbefore := hcontainer (Nat.le_refl _) g p opening _ hg.1 hn hahead htight.1
  have hbracket := ahead_enclosed (Parser.ahead_advance hahead)
  have hafter := Parser.ahead_advance_one hbracket
  obtain ⟨found, hfound, hreads⟩ := reads_separated (by rw [hclosing]; rfl)
    (by rw [hclosing]; decide) (Rereads.items hparts hg.2 hn) hsome
    (p := (p.advance front.length).advance 1) rfl hinside hafter
  have hcount : found.length = parts.length := by
    simpa only [List.length_map] using congrArg List.length hfound
  rw [List.length_append, length_enclosed]
  refine Through.again hbefore (by omega) fun b hb => ?_
  refine ⟨.index opening.position b accessor found, ?_, ?_⟩
  · change Node.index default b.unplaced accessor (Node.unplacedAll found) = _
    rw [hb, unplacedAll_found hfound]
    rfl
  · have hindex : Reads (p.advance front.length) (indexOf (grammar (g + 1)) b)
        (1 + (inside.length + 1)) (.index opening.position b accessor found) := by
      refine (reads_next hbracket htight.2.1).bind (hreads.bind ?_)
      rw [htight.2.2, hcount, if_pos htakes]
      exact (reads_eat (Parser.ahead_advance hafter) hclosing (by decide)).map
    rw [postfixRound, reads_kind_bind, Parser.head_of_ahead hbracket, hopening]
    cases accessor <;> exact hindex.map

/-- A field. -/
theorem rereads_member {instanceOf : Node} {dot field : Token} (hlevel : level ≤ postfixLevel)
    (hdot : dot.kind = .dot) (hfield : field.kind = .identifier)
    (hinstance : Rereads postfixLevel instanceOf front) :
    Rereads level (.member position instanceOf field.value) (front ++ [dot, field]) := by
  refine rereads_of_readsAt (Nat.le_refl _) (Nat.le_refl _) hlevel
    fun g p next rest hg hn hahead _ => ?_
  rw [List.append_assoc] at hahead
  have hbefore := hinstance (Nat.le_refl _) g p dot _ hg hn hahead (by rw [hdot]; decide)
  have hsign := Parser.ahead_advance hahead
  rw [List.length_append]
  refine Through.again hbefore (Nat.succ_pos 1) fun b hb => ?_
  refine ⟨.member dot.position b field.value, congrArg (Node.member default · field.value) hb, ?_⟩
  rw [postfixRound, reads_kind_bind, Parser.head_of_ahead hsign, hdot]
  refine Reads.map ?_
  refine (reads_next hsign (by rw [hdot]; decide)).bind ?_
  exact (reads_eatName (Parser.ahead_advance_one hsign) hfield).map

section

variable {target : Node} {step : Step} {tokens : List Token}

/-- A step behind. -/
theorem rereads_stepAfter (hlevel : level ≤ unaryLevel) (hk : token.kind = step.kind)
    (hassignable : target.isAssignable = true) (htarget : Rereads postfixLevel target tokens) :
    Rereads level (.update position target step false) (tokens ++ [token]) := by
  refine rereads_of_readsAt unaryLevel_le (Nat.le_refl _) hlevel
    fun g p next rest hg hn hahead _ => ?_
  rw [List.append_assoc] at hahead
  have hkind : token.kind.tightness ≤ followLimit postfixLevel ∧ token.kind ≠ .endOfFile ∧
      Step.ofKind token.kind = step := by
    rw [hk]
    cases step <;> decide
  have hbefore : Through (primary (grammar (g + 1))) (postfixRound (grammar (g + 1))) p
      tokens.length target := htarget (Nat.le_refl _) g p token _ hg hn hahead hkind.1
  have hsign := Parser.ahead_advance hahead
  have hends : ∀ b : Node, b.unplaced = target.unplaced → ∃ c : Node,
      c.unplaced = (Node.update position target step false).unplaced ∧
        Reads (p.advance tokens.length) (postfixRound (grammar (g + 1)) b) 1 (.inr c) := by
    intro b hb
    refine ⟨.update b.position b step false, congrArg (Node.update default · step false) hb, ?_⟩
    have hb' : b.isAssignable = true := by
      rw [← Node.isAssignable_unplaced, hb, Node.isAssignable_unplaced, hassignable]
    have hstepped : Reads (p.advance tokens.length) (steppedAfter b) 1
        (.update b.position b step false) := by
      unfold steppedAfter
      rw [if_pos hb', ← hkind.2.2]
      exact (reads_next hsign hkind.2.1).map
    rw [postfixRound, reads_kind_bind, Parser.head_of_ahead hsign, hk]
    cases step <;> exact hstepped.map
  rw [readsAt_unaryLevel, List.length_append]
  obtain ⟨a, ha, hreads⟩ := hbefore.ends (lt_length_ahead hsign) hends
  obtain ⟨_, _, _, _, hprimary, -⟩ := hbefore
  exact ⟨a, ha, reads_unary_of_primary hprimary hreads⟩

/-- A step in front. -/
theorem rereads_stepBefore (hlevel : level ≤ unaryLevel) (hk : token.kind = step.kind)
    (hassignable : target.isAssignable = true) (htarget : Rereads postfixLevel target tokens) :
    Rereads level (.update position target step true) (token :: tokens) := by
  refine rereads_of_readsAt unaryLevel_le (Nat.le_refl _) hlevel
    fun g p next rest hg hn hahead ht => ?_
  have hkind : token.kind ≠ .endOfFile ∧ Step.ofKind token.kind = step := by
    rw [hk]
    cases step <;> decide
  have hafter := Parser.ahead_advance_one hahead
  have hbefore : Through (primary (grammar (g + 1))) (postfixRound (grammar (g + 1))) (p.advance 1)
      tokens.length target :=
    htarget (Nat.le_refl _) g (p.advance 1) next rest hg hn hafter (Nat.le_succ_of_le ht)
  have hnext := Parser.ahead_advance hafter
  obtain ⟨a, ha, hreads⟩ := hbefore.ends (m := 0) (Nat.le_of_lt (lt_length_ahead hnext))
    fun b hb => ⟨b, hb, reads_postfixRound_end b (by rwa [Parser.head_of_ahead hnext])⟩
  have ha' : a.isAssignable = true := by
    rw [← Node.isAssignable_unplaced, ha, Node.isAssignable_unplaced, hassignable]
  rw [readsAt_unaryLevel, List.length_cons, Nat.add_comm tokens.length]
  refine ⟨.update token.position a step true, congrArg (Node.update default · step true) ha, ?_⟩
  have hstepped : Reads p (steppedBefore (grammar (g + 1))) (1 + tokens.length)
      (.update token.position a step true) := by
    refine (reads_next hahead hkind.1).bind (Reads.bind (n := 0) hreads ?_)
    rw [if_pos ha', hkind.2]
    exact reads_pure
  rw [unary, reads_kind_bind, Parser.head_of_ahead hahead, hk]
  cases step <;> exact hstepped

end

/-! ### Signs and operators -/

/-- A sign. -/
theorem rereads_sign {operator : UnaryOp} {operand : Node} {tokens : List Token}
    (hlevel : level ≤ unaryLevel) (hk : token.kind = operator.kind)
    (hoperand : Rereads unaryLevel operand tokens) :
    Rereads level (.unary position operator operand) (token :: tokens) := by
  refine rereads_of_readsAt unaryLevel_le (Nat.le_refl _) hlevel
    fun g p next rest hg hn hahead ht => ?_
  obtain ⟨a, ha, hreads⟩ := hoperand.operand (p := p.advance 1) hg hn
    (Parser.ahead_advance_one hahead) ht
  rw [readsAt_unaryLevel, List.length_cons, Nat.add_comm tokens.length]
  refine ⟨.unary token.position operator a, congrArg (Node.unary default operator) ha, ?_⟩
  have hsigned : Reads p (signed (grammar (g + 1)) operator) (1 + tokens.length)
      (.unary token.position operator a) := by
    refine (reads_next hahead ?_).bind hreads.map
    rw [hk]
    cases operator <;> decide
  rw [unary, reads_kind_bind, Parser.head_of_ahead hahead, hk]
  cases operator <;> exact hsigned

/-- The operators of a level are told apart by their tokens. -/
theorem lookup_operatorsAt {operator : Operator} {kind : Kind} (hk : kind ∈ operator.kinds) :
    (operatorsAt operator.level).lookup kind = some operator := by
  have hall : ∀ kind ∈ operator.kinds, (operatorsAt operator.level).lookup kind = some operator := by
    rcases operator with operator | operator <;> cases operator <;> decide
  exact hall kind hk

/-- Operators are in between. -/
theorem level_operator_bounds (operator : Operator) :
    0 < operator.level ∧ operator.level < unaryLevel := by
  rcases operator with operator | operator <;> cases operator <;> decide

/-- An operator. -/
theorem rereads_operation {operator : Operator} {lhs rhs : Node} {left right : List Token}
    (hlevel : level ≤ operator.level) (hk : token.kind ∈ operator.kinds)
    (hlhs : Rereads operator.level lhs left) (hrhs : Rereads (operator.level + 1) rhs right) :
    Rereads level (operator.node position lhs rhs) (left ++ token :: right) := by
  obtain ⟨hpos, hlt⟩ := level_operator_bounds operator
  refine rereads_of_readsAt (Nat.le_trans (Nat.le_of_lt hlt) unaryLevel_le)
    (Nat.le_of_eq (Node.level_operator ..).symm) hlevel fun g p next rest hg hn hahead ht => ?_
  rw [Node.depth_operator, Nat.max_le] at hg
  have hlookup := lookup_operatorsAt hk
  have hlimit : followLimit operator.level = operator.level + 1 := if_neg (Nat.ne_of_gt hpos)
  rw [hlimit] at ht
  rw [List.append_assoc] at hahead
  have hleft := hlhs (Nat.le_trans (Nat.le_of_lt hlt) unaryLevel_le) g p token _ hg.1 hn hahead
    (Nat.le_of_eq (by rw [hlimit, tightness_of_lookup hpos hlookup]))
  have hsign := Parser.ahead_advance hahead
  have hafter := Parser.ahead_advance_one hsign
  have hright := hrhs (Nat.le_trans hlt unaryLevel_le) g ((p.advance left.length).advance 1) next
    rest hg.2 hn hafter (Nat.le_trans ht (Nat.le_succ _))
  obtain ⟨a, ha, hreads⟩ := readsNode_rung (Nat.succ_pos _) hlt hright (Parser.ahead_advance hafter)
    ht
  rw [readsAt_operator hpos hlt] at hleft ⊢
  rw [List.length_append, List.length_cons, Nat.add_comm right.length]
  refine Through.again hleft (by omega) fun b hb => ?_
  refine ⟨operator.node token.position b a, ?_, ?_⟩
  · cases operator with
    | binary operator =>
      change Node.binary default operator b.unplaced a.unplaced = _
      rw [hb, ha]
      rfl
    | logical operator =>
      change Node.logical default operator b.unplaced a.unplaced = _
      rw [hb, ha]
      rfl
  · rw [chainRound, reads_kind_bind, Parser.head_of_ahead hsign, hlookup]
    refine (reads_next hsign ?_).bind hreads.map
    intro hend
    have htight := tightness_of_lookup hpos hlookup
    rw [hend] at htight
    cases htight

/-- A conditional. -/
theorem rereads_choice {condition thenValue elseValue : Node} {first second third : List Token}
    {question colon : Token} (hquestion : question.kind = .question) (hcolon : colon.kind = .colon)
    (hcondition : Rereads 1 condition first) (hthen : Rereads 0 thenValue second)
    (helse : Rereads 0 elseValue third) :
    Rereads 0 (.conditional position condition thenValue elseValue)
      (first ++ question :: (second ++ colon :: third)) := by
  refine rereads_of_readsAt (Nat.zero_le _) (Nat.le_refl 0) (Nat.le_refl 0)
    fun g p next rest hg hn hahead ht => ?_
  rw [Node.depth_conditional, Nat.max_le, Nat.max_le] at hg
  rw [List.append_assoc, List.cons_append, List.append_assoc, List.cons_append] at hahead
  have hfirst := hcondition (by decide) g p question _ hg.1 hn hahead (by rw [hquestion]; decide)
  have hmark := Parser.ahead_advance hahead
  obtain ⟨a, ha, hreads⟩ := readsNode_rung Nat.one_pos (by decide) hfirst hmark
    (by rw [hquestion]; decide)
  have hsecond := Parser.ahead_advance_one hmark
  obtain ⟨b, hb, hreadsThen⟩ := hthen.item hg.2.1 hn ((p.advance first.length).advance 1) colon _
    rfl hsecond (by rw [hcolon]; rfl)
  have hmiddle := Parser.ahead_advance hsecond
  have hthird := Parser.ahead_advance_one hmiddle
  obtain ⟨c, hc, hreadsElse⟩ := helse.item hg.2.2 hn
    ((((p.advance first.length).advance 1).advance second.length).advance 1) next rest rfl hthird
    (Nat.le_zero.1 ht)
  refine ⟨.conditional question.position a b c, ?_, ?_⟩
  · change Node.conditional default a.unplaced b.unplaced c.unplaced = _
    rw [ha, hb, hc]
    rfl
  · have hlength : (first ++ question :: (second ++ colon :: third)).length =
        first.length + (1 + (second.length + (1 + third.length))) := by
      simp only [List.length_append, List.length_cons]
      omega
    rw [hlength]
    refine Reads.bind hreads (reads_check_bind.2 ?_)
    rw [Parser.head_of_ahead hmark, decide_eq_true hquestion]
    refine (reads_next hmark (by rw [hquestion]; decide)).bind (hreadsThen.bind ?_)
    exact (reads_eat hmiddle hcolon (by decide)).bind hreadsElse.map

end

end Parse

namespace Node

variable {level : Nat} {node : Node} {tokens : List Token}

/-- No expression starts with what closes a list of expressions. -/
theorem Written.starts (h : node.Written level tokens) : ∃ token rest, tokens = token :: rest ∧
    token.kind ≠ .rightParen ∧ token.kind ≠ .rightBracket := by
  -- What comes after the first part of an expression does not matter for how it starts.
  have happend : ∀ {front : List Token} (back : List Token),
      (∃ token rest, front = token :: rest ∧ token.kind ≠ .rightParen ∧
        token.kind ≠ .rightBracket) → ∃ token rest, front ++ back = token :: rest ∧
        token.kind ≠ .rightParen ∧ token.kind ≠ .rightBracket := by
    rintro _ back ⟨token, rest, rfl, hk⟩
    exact ⟨token, rest ++ back, rfl, hk⟩
  induction h with
  | number hk | text hk | verbatim hk | name hk | struct hk | array hk =>
    exact ⟨_, _, rfl, by rw [hk]; decide⟩
  | parens _ hk => exact ⟨_, _, rfl, by rw [hk]; decide⟩
  | @sign _ _ operator _ _ _ _ hk =>
    exact ⟨_, _, rfl, by rw [hk]; cases operator <;> decide⟩
  | @stepBefore _ _ _ step _ _ _ hk =>
    exact ⟨_, _, rfl, by rw [hk]; cases step <;> decide⟩
  | operation _ _ _ _ ih | choice _ _ _ _ _ ih | call _ _ _ _ _ _ ih | member _ _ _ _ ih
  | stepAfter _ _ _ _ ih => exact happend _ ih
  | index _ _ _ _ _ _ _ _ ih => exact happend _ ih

/-- A written form is read as what it is the written form of. -/
theorem Written.rereads (h : node.Written level tokens) : Parse.Rereads level node tokens := by
  induction h with
  | number hk hvalue => exact Parse.rereads_number hk hvalue
  | text hk => exact Parse.rereads_string hk
  | verbatim hk => exact Parse.rereads_string hk
  | name hk => exact Parse.rereads_name hk
  | operation hle hk _ _ ihl ihr => exact Parse.rereads_operation hle hk ihl ihr
  | sign hle hk _ ih => exact Parse.rereads_sign hle hk ih
  | choice hquestion hcolon _ _ _ ihc iht ihe =>
    exact Parse.rereads_choice hquestion hcolon ihc iht ihe
  | call hle hopening hclosing _ hparts hinside ih ihparts =>
    refine Parse.rereads_call hle hopening hclosing ih ihparts (fun part hpart => ?_) hinside
    obtain ⟨token, rest, htokens, hk, -⟩ := (hparts part hpart).starts
    exact ⟨token, rest, htokens, hk⟩
  | index hle hopening hclosing hsome htakes _ _ hinside ih ihparts =>
    exact Parse.rereads_index hle hopening hclosing hsome htakes ih ihparts hinside
  | member hle hdot hfield _ ih => exact Parse.rereads_member hle hdot hfield ih
  | stepBefore hle hk hassignable _ ih => exact Parse.rereads_stepBefore hle hk hassignable ih
  | stepAfter hle hk hassignable _ ih => exact Parse.rereads_stepAfter hle hk hassignable ih
  | struct hopening hclosing hkeys hcolons _ hinside ih =>
    exact Parse.rereads_struct hopening hclosing hkeys hcolons ih hinside
  | array hopening hclosing hparts hinside ih =>
    refine Parse.rereads_array hopening hclosing ih (fun part hpart => ?_) hinside
    obtain ⟨token, rest, htokens, -, hk⟩ := (hparts part hpart).starts
    exact ⟨token, rest, htokens, hk⟩
  | parens hlt hopening hclosing _ ih => exact Parse.rereads_parens hlt hopening hclosing ih

end Node

/-- A token of a name. -/
def Token.name (text : String) : Token :=
  { Token.ofKind .identifier with value := text }

namespace Parser

/-- An expression that is read has a written form with as few parentheses as possible, and each of
its written forms is read as the same expression, up to places and to the last token before the
end. -/
theorem expression_of_written {tokens : List Token} {node : Node} {parser : Parser}
    (h : Parser.expression.run.run (.ofTokens tokens) = (.ok node, parser)) :
    (∃ written, node.Written 0 written) ∧
      ∀ (written : List Token) (last : Token), node.Written 0 written → last.kind = .endOfFile →
        ∃ again, again.unplaced = node.unplaced ∧
          Parser.expression.run.run (.ofTokens (written ++ [last])) =
            (.ok again, (Parser.ofTokens (written ++ [last])).advance written.length) := by
  have hfits := fits_of_expression h
  refine ⟨hfits.written, fun written last hwritten hlast => ?_⟩
  have hdepth : node.depth + 1 ≤ maxNesting := by
    have hdepth := hfits.depth
    rw [Node.depthAt_zero] at hdepth
    omega
  exact hwritten.rereads.item hdepth rfl (.ofTokens (written ++ [last])) last [] rfl rfl
    (by rw [hlast]; rfl)

/-- In `(a) * +(b + c)` only the second pair of parentheses is needed. -/
theorem expression_of_written_product : ∃ node parser written again,
    Parser.expression.run.run (.ofTokens [.ofKind .leftParen, .name "a", .ofKind .rightParen,
      .ofKind .star, .ofKind .plus, .ofKind .leftParen, .name "b", .ofKind .plus, .name "c",
      .ofKind .rightParen, .ofKind .endOfFile]) = (.ok node, parser) ∧
    node.level = 11 ∧ node.depth = 1 ∧ node.Written 0 written ∧ again.unplaced = node.unplaced ∧
    Parser.expression.run.run (.ofTokens (written ++ [.ofKind .endOfFile])) =
      (.ok again, (Parser.ofTokens (written ++ [.ofKind .endOfFile])).advance written.length) := by
  obtain ⟨node, hnode, hshape⟩ := exists_ok_of_any
    (p := fun node : Node => node.level = 11 ∧ node.depth = 1)
    (x := (Parser.expression.run.run (.ofTokens [.ofKind .leftParen, .name "a",
      .ofKind .rightParen, .ofKind .star, .ofKind .plus, .ofKind .leftParen, .name "b",
      .ofKind .plus, .name "c", .ofKind .rightParen, .ofKind .endOfFile])).1) (by decide +kernel)
  have hpair : ∀ result : Except Diagnostic Node × Parser, result.1 = .ok node →
      result = (.ok node, result.2) := fun result hfst => by rw [← hfst]
  have h := hpair _ hnode
  obtain ⟨⟨written, hwritten⟩, hreads⟩ := expression_of_written h
  obtain ⟨again, hagain, hrun⟩ := hreads written (.ofKind .endOfFile) hwritten rfl
  obtain ⟨hlevel, hdepth⟩ := of_decide_eq_true hshape
  exact ⟨node, _, written, again, h, hlevel, hdepth, hwritten, hagain, hrun⟩

end Parser

namespace Script

/-- A script of one statement. -/
theorem ofTokens_of_reads {first last : Token} {tokens : List Token} {node : Node}
    (hfirst : first.kind ≠ .endOfFile) (hlast : last.kind = .endOfFile)
    (h : Parse.Reads (.ofTokens (first :: tokens ++ [last])) Parser.statement
      (first :: tokens).length node) :
    Script.ofTokens (first :: tokens ++ [last]) = .ok ⟨[node]⟩ := by
  let p : Parser := .ofTokens (first :: tokens ++ [last])
  have hahead : p.ahead = first :: tokens ++ [last] := rfl
  have hfirst' : p.head.kind ≠ .endOfFile := by rwa [Parser.head_of_ahead hahead]
  have hlast' : (p.advance (first :: tokens).length).head.kind = .endOfFile := by
    rwa [Parser.head_of_ahead (Parser.ahead_advance hahead)]
  have hrounds : Parse.Finishes (Parse.manyRound (· = .endOfFile) Parser.statement) p []
      ((first :: tokens).length + 0) [node] :=
    .again (Parse.reads_manyRound_more [] (decide_eq_false hfirst') h) (Nat.succ_pos _)
      (.done (Parse.reads_manyRound_close [node] (decide_eq_true hlast')))
  have hbody : Parse.Reads p (Parse.manyUntil (· = .endOfFile) Parser.statement)
      (first :: tokens).length [node] := hrounds.loop (by rw [hahead]; simp)
  exact congrArg Prod.fst hbody.map

end Script

end Gml
