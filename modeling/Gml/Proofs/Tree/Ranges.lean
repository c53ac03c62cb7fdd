import Gml.Proofs.Token.Tiling
import Gml.Proofs.Tree.Order
import Gml.Proofs.Tree.Read

/-!
# The tokens that a tree is read from

An action of the parser starts at a token and ends at a later one. `Parse.Takes` says what it gives in
terms of the stretch of tokens in between, and that it fails only at the place of a token. It is
closed under sequence and under loops, so that the grammar is gone through part by part: what is read
from a stretch is a tree that is laid out on it (`Parse.laidInner_grammar`).

So the statements of a script are laid out on the tokens of its text (`Script.row_of_ofTokens`).
-/

namespace Gml

/-- The parser stands at one of the tokens. -/
structure Parser.On (tokens : Array Token) (i : Nat) (parser : Parser) : Prop where
  all : parser.tokens = tokens
  current : parser.current = i
  lt : i < tokens.size

/-- The parser sees the token at which it stands. -/
theorem Parser.On.head {tokens : Array Token} {i : Nat} {parser : Parser} (h : parser.On tokens i) :
    tokens[i]? = some parser.head := by
  have hmin : min parser.current (parser.tokens.size - 1) = i := by
    have hlt := h.lt
    rw [h.current, h.all]
    omega
  rw [Parser.head, hmin, h.all, Array.getElem?_eq_getElem h.lt, Option.getD_some]

namespace Parse

open Node (Laid laid_of_row)

variable {α β : Type} {tokens : Array Token} {i j k l : Nat} {token : Token}
  {P : Nat → α → Prop} {Q : Nat → β → Prop}

/-- What an action does that starts at a token. -/
structure Takes (tokens : Array Token) (i : Nat) (x : Parse α) (P : Nat → α → Prop) : Prop where
  /-- It ends at a token that is not before, and something is known of what it gives. -/
  gives : ∀ parser a parser', parser.On tokens i → x.run.run parser = (.ok a, parser') →
    ∃ j, parser'.On tokens j ∧ i ≤ j ∧ P j a
  /-- If it fails, then at a token. -/
  fails : ∀ parser diagnostic parser', parser.On tokens i →
    x.run.run parser = (.error diagnostic, parser') →
    ∃ token ∈ tokens, token.position = diagnostic.position

/-- To give a value takes nothing. -/
theorem takes_pure {a : α} (h : P i a) : Takes tokens i (pure a) P := by
  constructor
  · rintro parser _ _ hon ⟨⟩
    exact ⟨i, hon, Nat.le_refl i, h⟩
  · rintro parser _ _ - ⟨⟩

/-- To fail at a token takes nothing. -/
theorem takes_throw {diagnostic : Diagnostic}
    (h : ∃ token ∈ tokens, token.position = diagnostic.position) :
    Takes tokens i (throw diagnostic : Parse α) P := by
  constructor
  · rintro parser _ _ - ⟨⟩
  · rintro parser _ _ - ⟨⟩
    exact h

variable {x : Parse α} {f : Token → Parse β}

/-- One action after another takes a longer stretch. -/
theorem Takes.bind {f : α → Parse β} (hx : Takes tokens i x P)
    (hf : ∀ j a, i ≤ j → P j a → Takes tokens j (f a) Q) : Takes tokens i (x >>= f) Q := by
  refine ⟨fun parser b parser' hon h => ?_, fun parser diagnostic parser' hon h => ?_⟩
  all_goals
    rw [ExceptT.run_bind, StateT.run_bind] at h
    rcases hrun : x.run.run parser with ⟨_ | a, parser₁⟩
  · rw [hrun] at h
    cases h
  · rw [hrun] at h
    obtain ⟨j, hon', hij, ha⟩ := hx.gives parser a parser₁ hon hrun
    obtain ⟨k, hon'', hjk, hb⟩ := (hf j a hij ha).gives parser₁ b parser' hon' h
    exact ⟨k, hon'', Nat.le_trans hij hjk, hb⟩
  · rw [hrun] at h
    cases h
    exact hx.fails parser _ _ hon hrun
  · rw [hrun] at h
    obtain ⟨j, hon', hij, ha⟩ := hx.gives parser a parser₁ hon hrun
    exact (hf j a hij ha).fails parser₁ diagnostic parser' hon' h

/-- What is known of a result may be weakened. -/
theorem Takes.imp {P' : Nat → α → Prop} (hx : Takes tokens i x P)
    (h : ∀ j a, i ≤ j → P j a → P' j a) : Takes tokens i x P' where
  gives parser a parser' hon hrun := by
    obtain ⟨j, hon', hij, ha⟩ := hx.gives parser a parser' hon hrun
    exact ⟨j, hon', hij, h j a hij ha⟩
  fails := hx.fails

/-- What is given may be changed. -/
theorem Takes.map {f : α → β} (hx : Takes tokens i x P) (hf : ∀ j a, P j a → Q j (f a)) :
    Takes tokens i (f <$> x) Q := by
  rw [← bind_pure_comp]
  exact hx.bind fun j a _ ha => takes_pure (hf j a ha)

/-- There is a token to start at. -/
theorem takes_token (h : ∀ token, tokens[i]? = some token → Takes tokens i x P) :
    Takes tokens i x P where
  gives parser a parser' hon hrun := (h _ hon.head).gives parser a parser' hon hrun
  fails parser diagnostic parser' hon hrun :=
    (h _ hon.head).fails parser diagnostic parser' hon hrun

/-- A look at the parser comes before an action. -/
theorem takes_get_bind {f : Parser → Parse β}
    (h : ∀ parser, parser.On tokens i → Takes tokens i (f parser) Q) :
    Takes tokens i (get >>= f) Q where
  gives parser a parser' hon hrun := (h parser hon).gives parser a parser' hon hrun
  fails parser diagnostic parser' hon hrun :=
    (h parser hon).fails parser diagnostic parser' hon hrun

/-! ### Tokens -/

/-- The next token is known. -/
theorem takes_head_bind (ht : tokens[i]? = some token) (h : Takes tokens i (f token) Q) :
    Takes tokens i (head >>= f) Q :=
  takes_get_bind fun parser hon => by
    obtain rfl := Option.some.inj (hon.head.symm.trans ht)
    exact h

/-- The kind of the next token is known. -/
theorem takes_kind_bind (ht : tokens[i]? = some token) {f : Kind → Parse β}
    (h : Takes tokens i (f token.kind) Q) : Takes tokens i (kind >>= f) Q :=
  takes_head_bind (f := fun token => f token.kind) ht h

/-- So is its place. -/
theorem takes_position_bind (ht : tokens[i]? = some token) {f : Position → Parse β}
    (h : Takes tokens i (f token.position) Q) : Takes tokens i (position >>= f) Q :=
  takes_head_bind (f := fun token => f token.position) ht h

/-- So is whether it is of a kind. -/
theorem takes_check_bind (ht : tokens[i]? = some token) {wanted : Kind} {f : Bool → Parse β}
    (h : Takes tokens i (f (token.kind = wanted)) Q) : Takes tokens i (check wanted >>= f) Q :=
  takes_head_bind (f := fun token => f (token.kind = wanted)) ht h

/-- To fail is to fail at the next token. -/
theorem takes_fail {fault : Fault} : Takes tokens i (fail fault : Parse α) P :=
  takes_token fun token ht =>
    takes_position_bind ht (takes_throw ⟨token, Array.mem_of_getElem? ht, rfl⟩)

/-- Nothing comes after a failure. -/
theorem takes_fail_bind {fault : Fault} {f : α → Parse β} : Takes tokens i (fail fault >>= f) Q :=
  (takes_fail (P := fun _ _ => False)).bind fun _ _ _ hfalse => hfalse.elim

/-- A token that is not expected. -/
theorem takes_unexpected {place : Misplaced} : Takes tokens i (unexpected place : Parse α) P :=
  takes_token fun _ ht => takes_head_bind ht takes_fail

/-- The next token is read. It is passed unless it ends the source. -/
theorem takes_next (ho : Orderly tokens) (ht : tokens[i]? = some token) :
    Takes tokens i next fun j read =>
      read = token ∧ (token.kind ≠ .endOfFile → j = i + 1) := by
  refine ⟨fun parser read parser' hon hrun => ?_, fun parser diagnostic parser' _ hrun => ?_⟩
  · obtain rfl := Option.some.inj (hon.head.symm.trans ht)
    cases (run_next parser).symm.trans hrun
    by_cases hend : parser.head.kind = .endOfFile
    · rw [if_pos hend]
      exact ⟨i, hon, Nat.le_refl i, rfl, fun hne => absurd hend hne⟩
    · rw [if_neg hend]
      -- The last token ends the source, so there is another one.
      have hlt : i + 1 < tokens.size := by
        obtain ⟨last, hlast, hkind⟩ := ho.last
        rcases Nat.lt_or_ge (i + 1) tokens.size with hlt | hge
        · exact hlt
        · have hsize := hon.lt
          obtain rfl : i = tokens.size - 1 := by omega
          rw [ht] at hlast
          rw [Option.some.inj hlast] at hend
          exact absurd hkind hend
      exact ⟨i + 1, ⟨hon.all, congrArg (· + 1) hon.current, hlt⟩, Nat.le_succ i, rfl, fun _ => rfl⟩
  · cases (run_next parser).symm.trans hrun

/-- A token comes before an action. -/
theorem takes_next_bind (ho : Orderly tokens)
    (h : ∀ j token, i ≤ j → tokens[i]? = some token → Takes tokens j (f token) Q) :
    Takes tokens i (next >>= f) Q :=
  takes_token fun _ ht => (takes_next ho ht).bind fun j _ hij hread =>
    h j _ hij (hread.1 ▸ ht)

/-- A token that may be there. -/
theorem takes_skip (ho : Orderly tokens) (wanted : Kind) :
    Takes tokens i (skip wanted) fun _ _ => True := by
  refine takes_token fun token ht => takes_check_bind ht ?_
  split
  · exact (takes_next ho ht).bind fun _ _ _ _ => takes_pure trivial
  · exact takes_pure trivial

/-- A token that is asked for is taken. -/
theorem takes_eat (ho : Orderly tokens) {wanted : Kind} (hwanted : wanted ≠ .endOfFile) :
    Takes tokens i (eat wanted) fun j read => tokens[i]? = some read ∧ j = i + 1 := by
  refine takes_token fun token ht => takes_check_bind ht ?_
  split
  next hkind =>
    refine (takes_next ho ht).imp fun j read _ hread => ?_
    obtain ⟨rfl, hj⟩ := hread
    exact ⟨ht, hj (of_decide_eq_true hkind ▸ hwanted)⟩
  next => exact takes_head_bind ht takes_fail

/-- A token that is asked for comes before an action. -/
theorem takes_eat_bind (ho : Orderly tokens) {wanted : Kind} (hwanted : wanted ≠ .endOfFile)
    (h : ∀ token, tokens[i]? = some token → Takes tokens (i + 1) (f token) Q) :
    Takes tokens i (eat wanted >>= f) Q := by
  refine (takes_eat ho hwanted).bind fun j token _ htoken => ?_
  obtain ⟨ht, rfl⟩ := htoken
  exact h token ht

/-- A name is taken. -/
theorem takes_eatName (ho : Orderly tokens) :
    Takes tokens i eatName fun j read =>
      tokens[i]? = some read ∧ j = i + 1 ∧ IsName tokens read.value := by
  refine takes_token fun token ht => takes_check_bind ht ?_
  split
  next hkind =>
    refine (takes_next ho ht).imp fun j read _ hread => ?_
    obtain ⟨rfl, hj⟩ := hread
    exact ⟨ht, hj (by rw [of_decide_eq_true hkind]; decide), read, Array.mem_of_getElem? ht,
      of_decide_eq_true hkind, rfl⟩
  next => exact takes_head_bind ht takes_fail

/-! ### Depths -/

/-- An action between two changes that leave the tokens alone. -/
theorem takes_around {before after : Parser → Parser}
    (hb : ∀ parser i, parser.On tokens i → (before parser).On tokens i)
    (ha : ∀ parser i, parser.On tokens i → (after parser).On tokens i) (hx : Takes tokens i x P) :
    Takes tokens i (ExceptT.mk do
      modify before
      let result ← x.run
      modify after
      return result) P := by
  have hafter : ∀ parser, (ExceptT.mk do
      modify before
      let result ← x.run
      modify after
      return result : Parse α).run.run parser =
        ((x.run.run (before parser)).1, after (x.run.run (before parser)).2) := fun _ => rfl
  constructor
  · intro parser a parser' hon hrun
    rw [hafter] at hrun
    rcases hinner : x.run.run (before parser) with ⟨result, parser₁⟩
    rw [hinner] at hrun
    cases hrun
    obtain ⟨j, hon', hj⟩ := hx.gives _ a parser₁ (hb parser i hon) hinner
    exact ⟨j, ha parser₁ j hon', hj⟩
  · intro parser diagnostic parser' hon hrun
    rw [hafter] at hrun
    rcases hinner : x.run.run (before parser) with ⟨result, parser₁⟩
    rw [hinner] at hrun
    cases hrun
    exact hx.fails _ diagnostic parser₁ (hb parser i hon) hinner

/-- One level further in. -/
theorem takes_nested (hx : Takes tokens i x P) : Takes tokens i (nested x) P := by
  refine takes_get_bind fun parser _ => ?_
  split
  · exact takes_fail
  · exact takes_around (fun _ _ hon => ⟨hon.all, hon.current, hon.lt⟩)
      (fun _ _ hon => ⟨hon.all, hon.current, hon.lt⟩) hx

/-- One loop further in. -/
theorem takes_inLoop (hx : Takes tokens i x P) : Takes tokens i (inLoop x) P :=
  takes_around (fun _ _ hon => ⟨hon.all, hon.current, hon.lt⟩)
    (fun _ _ hon => ⟨hon.all, hon.current, hon.lt⟩) hx

/-- A change that leaves the tokens alone. -/
theorem takes_modify {f : Parser → Parser}
    (hf : ∀ parser, parser.On tokens i → (f parser).On tokens i) :
    Takes tokens i (modify f : Parse Unit) fun j _ => j = i := by
  constructor
  · rintro parser _ _ hon ⟨⟩
    exact ⟨i, hf parser hon, Nat.le_refl i, rfl⟩
  · rintro parser _ _ - ⟨⟩

/-! ### Loops -/

/-- A loop keeps what each of its rounds keeps. -/
theorem takes_loop {step : α → Parse (α ⊕ β)} {a : α}
    (hstep : ∀ j a, i ≤ j → P j a →
      Takes tokens j (step a) fun k result => Sum.elim (P k) (Q k) result)
    (ha : P i a) : Takes tokens i (loop step a) Q := by
  have hrounds : ∀ n j a, i ≤ j → P j a → Takes tokens j (rounds step n a) Q := by
    intro n
    induction n with
    | zero => exact fun _ _ _ _ => takes_fail
    | succ n ih =>
      intro j a hij ha
      refine (hstep j a hij ha).bind fun k result hjk hresult => ?_
      cases result with
      | inl a => exact ih k a (Nat.le_trans hij hjk) hresult
      | inr b => exact takes_pure hresult
  exact takes_get_bind fun _ _ => hrounds _ i a (Nat.le_refl i) ha

/-- A property of lists that are read from stretches of tokens one after the other. -/
structure Chained (C : Nat → Nat → List α → Prop) : Prop where
  nil : ∀ i, C i i []
  append : ∀ {i j k l as bs}, C i j as → j ≤ k → C k l bs → C i l (as ++ bs)
  widen : ∀ {i j k as}, C i j as → j ≤ k → C i k as

variable {C : Nat → Nat → List α → Prop} {item : Parse α}

/-- One more item at the end. -/
theorem Chained.snoc (hC : Chained C) {as : List α} {a : α} (has : C i j as.reverse) (hjk : j ≤ k)
    (ha : C k l [a]) : C i l (a :: as).reverse := by
  rw [List.reverse_cons]
  exact hC.append has hjk ha

/-- Items up to the end. -/
theorem takes_manyUntil (hC : Chained C) {closes : Kind → Bool}
    (hitem : ∀ i, Takes tokens i item fun j a => C i j [a]) :
    Takes tokens i (manyUntil closes item) fun j items => C i j items := by
  refine takes_loop (P := fun j items => C i j items.reverse) (fun j items _ hitems => ?_) (hC.nil i)
  refine takes_token fun token ht => takes_kind_bind ht ?_
  split
  · exact takes_pure hitems
  · exact (hitem j).bind fun k a _ ha => takes_pure (hC.snoc hitems (Nat.le_refl j) ha)

/-- One round of a list. -/
theorem takes_separatedRound (ho : Orderly tokens) (hC : Chained C) {items : List α}
    (hitem : Takes tokens j item fun k a => C j k [a]) (hitems : C i j items.reverse) :
    Takes tokens j (separatedRound item items) fun k result =>
      Sum.elim (fun items => C i k items.reverse) (fun items => C i k items) result := by
  refine hitem.bind fun k a _ ha => (takes_skip ho _).bind fun l found hkl _ => ?_
  have hall := hC.widen (hC.snoc hitems (Nat.le_refl j) ha) hkl
  split
  · exact takes_pure hall
  · exact takes_pure hall

/-- A list with commas. -/
theorem takes_separated (ho : Orderly tokens) (hC : Chained C)
    (hitem : ∀ i, Takes tokens i item fun j a => C i j [a]) :
    Takes tokens i (separated item) fun j items => C i j items := by
  refine takes_loop (P := fun j items => C i j items.reverse) (fun j items _ hitems => ?_) (hC.nil i)
  exact takes_separatedRound ho hC (hitem j) hitems

/-- A list up to its end. -/
theorem takes_listUntil (ho : Orderly tokens) (hC : Chained C) {close : Kind}
    (hitem : ∀ i, Takes tokens i item fun j a => C i j [a]) :
    Takes tokens i (listUntil close item) fun j items => C i j items := by
  refine takes_loop (P := fun j items => C i j items.reverse) (fun j items _ hitems => ?_) (hC.nil i)
  refine takes_token fun token ht => takes_check_bind ht ?_
  split
  · exact takes_pure hitems
  · exact takes_separatedRound ho hC (hitem j) hitems

/-! ### Expressions

Each form of an expression is laid out on the tokens that it is read from.
-/

/-- Rows follow each other. -/
theorem chained_row : Chained (Row tokens) where
  nil i := .nil (Nat.le_refl i)
  append h hjk h' := h.append hjk h'
  widen h hjk := h.widen (Nat.le_refl _) hjk

/-- A node whose place is that of a token, with its parts on stretches before and after it. -/
theorem laid_at (ho : Orderly tokens) {node : Node} {first last m : Nat}
    (ht : tokens[m]? = some token) (him : i ≤ m) (hmj : m < j)
    (hrow : Row tokens first last node.parts) (hi : i ≤ first) (hj : last ≤ j)
    (hplaces : node.places = [token.position]) (hneat : node.Neat tokens) : node.Laid tokens i j := by
  refine laid_of_row ho ?_ hrow hi hj hneat
  rw [hplaces]
  exact List.forall_mem_singleton.2 ((standsIn_of_token ht hmj).widen him (Nat.le_refl j))

/-- A node without parts. -/
theorem laid_leaf (ho : Orderly tokens) {node : Node} (ht : tokens[i]? = some token)
    (hparts : node.parts = []) (hplaces : node.places = [token.position]) (hneat : node.Neat tokens) :
    node.Laid tokens i (i + 1) :=
  laid_at ho ht (Nat.le_refl i) (Nat.lt_succ_self i) (hparts ▸ .nil (Nat.le_refl i)) (Nat.le_refl i)
    (Nat.le_succ i) hplaces hneat

/-- An expression that is read from a stretch of tokens. -/
structure ValueIn (tokens : Array Token) (i j : Nat) (node : Node) : Prop where
  expression : node.isExpression = true
  laid : node.Laid tokens i j

/-- A stretch may be widened. -/
theorem ValueIn.widen {node : Node} (h : ValueIn tokens i j node) (hk : k ≤ i) (hl : j ≤ l) :
    ValueIn tokens k l node :=
  ⟨h.expression, h.laid.widen hk hl⟩

/-- An expression has the place of a token. -/
theorem ValueIn.exists_token {node : Node} (h : ValueIn tokens i j node) :
    ∃ token ∈ tokens, token.position = node.position :=
  h.laid.spans.position.exists_token

/-- The actions one level further in read trees that are laid out on the tokens. -/
structure LaidInner (tokens : Array Token) (inner : Inner) : Prop where
  statement : ∀ i, Takes tokens i inner.statement (Laid tokens i)
  expression : ∀ i, Takes tokens i inner.expression (ValueIn tokens i)
  operand : ∀ i, Takes tokens i inner.operand (ValueIn tokens i)

variable {inner : Inner} (ho : Orderly tokens) (hi : LaidInner tokens inner)

include hi

/-- One expression is a row. -/
theorem LaidInner.row (i : Nat) :
    Takes tokens i inner.expression fun j node => Row tokens i j [node] :=
  (hi.expression i).imp fun _ _ _ hn => .single hn.laid

include ho

/-- A field of a struct. -/
theorem takes_structField : Takes tokens i (structField inner) fun j field =>
    Row tokens i j [field.2] := by
  refine takes_token fun token ht => takes_kind_bind ht ?_
  have hrest : ∀ (key : String) (j : Nat), i ≤ j → Takes tokens j (do
      let _ ← eat .colon
      return (key, ← inner.expression)) fun k field => Row tokens i k [field.2] :=
    fun key j hij => (takes_eat ho (by decide)).bind fun k _ hjk _ =>
      (hi.expression k).bind fun l _ _ hn =>
        takes_pure (.single (hn.laid.widen (Nat.le_trans hij hjk) (Nat.le_refl l)))
  split
  · exact (takes_next ho ht).bind fun j _ hij _ =>
      (takes_pure (P := fun _ _ => True) trivial).bind fun k _ hjk _ =>
        hrest _ k (Nat.le_trans hij hjk)
  · exact (takes_next ho ht).bind fun j _ hij _ =>
      (takes_pure (P := fun _ _ => True) trivial).bind fun k _ hjk _ =>
        hrest _ k (Nat.le_trans hij hjk)
  · exact (takes_unexpected (P := fun _ _ => True)).bind fun j key hij _ => hrest key j hij

/-- A primary expression. -/
theorem takes_primary : Takes tokens i (primary inner) (ValueIn tokens i) := by
  refine takes_token fun token ht => takes_position_bind ht (takes_kind_bind ht ?_)
  have hleaf : ∀ {node : Node}, node.isExpression = true → node.parts = [] →
      node.places = [token.position] → node.Neat tokens → ValueIn tokens i (i + 1) node :=
    fun hexpression hparts hplaces hneat => ⟨hexpression, laid_leaf ho ht hparts hplaces hneat⟩
  split
  next hk =>
    refine (takes_next ho ht).bind fun j read _ hread => ?_
    obtain ⟨rfl, hj⟩ := hread
    obtain rfl := hj (by rw [hk]; decide)
    split
    next literal _ => cases literal <;> exact takes_pure (hleaf rfl rfl rfl trivial)
    next => exact takes_throw ⟨read, Array.mem_of_getElem? ht, rfl⟩
  iterate 2
    next hk =>
      refine (takes_next ho ht).bind fun j read _ hread => ?_
      obtain rfl := hread.2 (by rw [hk]; decide)
      exact takes_pure (hleaf rfl rfl rfl trivial)
  next hk =>
    refine (takes_next ho ht).bind fun j read _ hread => ?_
    obtain ⟨rfl, hj⟩ := hread
    obtain rfl := hj (by rw [hk]; decide)
    exact takes_pure (hleaf rfl rfl rfl ⟨read, Array.mem_of_getElem? ht, hk, rfl⟩)
  · exact (takes_next ho ht).bind fun j _ hij _ => (hi.expression j).bind fun k _ _ hn =>
      (takes_eat ho (by decide)).bind fun l _ hkl _ => takes_pure (hn.widen hij hkl)
  · refine (takes_next ho ht).bind fun j _ hij _ => ?_
    refine (takes_listUntil ho (C := fun i j fields => Row tokens i j (fields.map Prod.snd)) ?_
      fun _ => takes_structField ho hi).bind fun k fields hjk hf => ?_
    · exact ⟨fun i => .nil (Nat.le_refl i), fun h hjk h' => List.map_append ▸ h.append hjk h',
        fun h hjk => h.widen (Nat.le_refl _) hjk⟩
    refine (takes_eat ho (by decide)).bind fun l _ _ hl => takes_pure ⟨rfl, ?_⟩
    exact laid_at ho ht (Nat.le_refl i) (by omega) hf hij (by omega) rfl trivial
  · refine (takes_next ho ht).bind fun j _ hij _ => ?_
    refine (takes_listUntil ho chained_row hi.row).bind fun k elements hjk he => ?_
    refine (takes_eat ho (by decide)).bind fun l _ _ hl => takes_pure ⟨rfl, ?_⟩
    exact laid_at ho ht (Nat.le_refl i) (by omega) he hij (by omega) rfl trivial
  · exact takes_unexpected

/-- Arguments. -/
theorem takes_arguments : Takes tokens i (arguments inner) (Row tokens i) := by
  refine takes_loop (P := fun j items => Row tokens i j items.reverse)
    (fun j items _ hitems => ?_) (.nil (Nat.le_refl i))
  refine takes_token fun token ht => takes_check_bind ht ?_
  have hitem : ∀ k, j ≤ k → Takes tokens k (do return Sum.inl ((← inner.expression) :: items))
      fun l result => Sum.elim (fun items : List Node => Row tokens i l items.reverse)
        (Row tokens i l) result :=
    fun k hjk => (hi.row k).bind fun l node _ hn => takes_pure (chained_row.snoc hitems hjk hn)
  split
  · exact takes_pure hitems
  · split
    · exact hitem j (Nat.le_refl j)
    · exact (takes_eat ho (by decide)).bind fun k _ hjk _ => hitem k hjk

/-- A call. -/
theorem takes_callOf {callee : Node} (hc : ValueIn tokens i j callee) :
    Takes tokens j (callOf inner callee) (ValueIn tokens i) := by
  refine takes_next_bind ho fun k token hjk ht => ?_
  refine (takes_arguments ho hi).bind fun l arguments hkl ha => ?_
  refine (takes_eat ho (by decide)).bind fun m _ _ hm => takes_pure ⟨rfl, ?_⟩
  have hlt := hc.laid.lt
  exact laid_at ho ht (by omega) (by omega) (.cons hc.laid hjk ha) (Nat.le_refl i) (by omega) rfl
    trivial

/-- An element. -/
theorem takes_indexOf {container : Node} (hc : ValueIn tokens i j container) :
    Takes tokens j (indexOf inner container) (ValueIn tokens i) := by
  refine takes_next_bind ho fun k bracket hjk ht => ?_
  refine (takes_separated ho chained_row hi.row).bind fun l indices hkl hindices => ?_
  have hlt := hc.laid.lt
  split
  · refine (takes_eat ho (by decide)).bind fun m _ _ hm => takes_pure ⟨rfl, ?_⟩
    exact laid_at ho ht (by omega) (by omega) (.cons hc.laid hjk hindices) (Nat.le_refl i)
      (by omega) rfl trivial
  · exact takes_throw ⟨bracket, Array.mem_of_getElem? ht, rfl⟩

omit hi in
/-- A field. -/
theorem takes_memberOf {instanceOf : Node} (hn : ValueIn tokens i j instanceOf) :
    Takes tokens j (memberOf instanceOf) (ValueIn tokens i) := by
  refine takes_next_bind ho fun k token hjk ht => ?_
  refine (takes_eatName ho).bind fun l field hkl hl => takes_pure ⟨rfl, ?_⟩
  have hlt := hn.laid.lt
  exact laid_at ho ht (by omega) (by omega) (.single hn.laid) (Nat.le_refl i) (by omega) rfl hl.2.2

omit hi in
/-- A step after its target takes its place from it. -/
theorem takes_steppedAfter {target : Node} (htarget : ValueIn tokens i j target) :
    Takes tokens j (steppedAfter target) (ValueIn tokens i) := by
  unfold steppedAfter
  split
  · refine takes_token fun token ht => (takes_next ho ht).bind fun k read hjk _ => ?_
    refine takes_pure ⟨rfl, laid_of_row ho ?_ (.single htarget.laid) (Nat.le_refl i) hjk trivial⟩
    exact List.forall_mem_singleton.2
      (htarget.laid.spans.position.widen (Nat.le_refl i) hjk)
  · exact takes_fail_bind

/-- What stands behind. -/
theorem takes_postfixed : Takes tokens i (postfixed inner) (ValueIn tokens i) := by
  refine (takes_primary ho hi).bind fun j first hij hfirst => ?_
  refine takes_loop (P := ValueIn tokens i) (fun k operand _ hoperand => ?_) hfirst
  refine takes_token fun token ht => takes_kind_bind ht ?_
  split
  · exact (takes_callOf ho hi hoperand).bind fun _ _ _ hn => takes_pure hn
  iterate 5 exact (takes_indexOf ho hi hoperand).bind fun _ _ _ hn => takes_pure hn
  · exact (takes_memberOf ho hoperand).bind fun _ _ _ hn => takes_pure hn
  iterate 2 exact (takes_steppedAfter ho hoperand).bind fun _ _ _ hn => takes_pure hn
  · exact takes_pure hoperand

/-- A step in front. -/
theorem takes_steppedBefore : Takes tokens i (steppedBefore inner) (ValueIn tokens i) := by
  refine takes_next_bind ho fun j token hij ht => ?_
  refine (takes_postfixed ho hi).bind fun k target _ htarget => ?_
  have hlt := htarget.laid.lt
  split
  · refine takes_pure ⟨rfl, ?_⟩
    exact laid_at ho ht (Nat.le_refl i) (by omega) (.single htarget.laid) hij (Nat.le_refl k) rfl
      trivial
  · exact takes_throw htarget.exists_token

/-- A sign. -/
theorem takes_signed (operator : UnaryOp) :
    Takes tokens i (signed inner operator) (ValueIn tokens i) := by
  refine takes_next_bind ho fun j token hij ht => ?_
  refine (hi.operand j).bind fun k operand _ hoperand => takes_pure ⟨rfl, ?_⟩
  have hlt := hoperand.laid.lt
  exact laid_at ho ht (Nat.le_refl i) (by omega) (.single hoperand.laid) hij (Nat.le_refl k) rfl
    trivial

/-- What stands in front. -/
theorem takes_unary : Takes tokens i (unary inner) (ValueIn tokens i) := by
  refine takes_token fun token ht => takes_kind_bind ht ?_
  split
  · exact takes_signed ho hi .not
  · exact takes_signed ho hi .negate
  · exact takes_signed ho hi .bitNot
  · exact (takes_next ho ht).bind fun j _ hij _ =>
      (hi.operand j).imp fun k _ _ hn => hn.widen hij (Nat.le_refl k)
  iterate 2 exact takes_steppedBefore ho hi
  · exact takes_postfixed ho hi

omit hi in
/-- One level of operators. -/
theorem takes_chain {operators : List (Kind × Operator)} {operand : Parse Node}
    (hoperand : ∀ i, Takes tokens i operand (ValueIn tokens i)) :
    Takes tokens i (chain operators operand) (ValueIn tokens i) := by
  refine (hoperand i).bind fun j first _ hfirst => ?_
  refine takes_loop (P := ValueIn tokens i) (fun k lhs _ hl => ?_) hfirst
  refine takes_token fun token ht => takes_kind_bind ht ?_
  split
  · exact takes_pure hl
  next operator _ =>
    refine (takes_next ho ht).bind fun m read hkm hread => ?_
    obtain ⟨rfl, -⟩ := hread
    refine (hoperand m).bind fun n rhs _ hr => takes_pure ?_
    have hlt := hl.laid.lt
    have hlt' := hr.laid.lt
    cases operator <;>
      exact ⟨rfl, laid_at ho ht (by omega) (by omega) (.cons hl.laid hkm (.single hr.laid))
        (Nat.le_refl i) (Nat.le_refl n) rfl trivial⟩

omit hi in
/-- All levels of operators. -/
theorem takes_ladder {operand : Parse Node}
    (hoperand : ∀ i, Takes tokens i operand (ValueIn tokens i)) :
    ∀ levels i, Takes tokens i (ladder operand levels) (ValueIn tokens i)
  | [], i => hoperand i
  | _ :: tighter, _ => takes_chain ho (takes_ladder hoperand tighter)

/-- A conditional. -/
theorem takes_conditional : Takes tokens i (conditional inner) (ValueIn tokens i) := by
  refine (takes_ladder ho (fun _ => takes_unary ho hi) _ i).bind fun j condition _ hc => ?_
  refine takes_token fun token ht => takes_check_bind ht ?_
  split
  · refine (takes_next ho ht).bind fun k read hjk hread => ?_
    obtain ⟨rfl, -⟩ := hread
    refine (hi.expression k).bind fun l thenValue _ hthen => ?_
    refine (takes_eat ho (by decide)).bind fun m _ hlm _ => ?_
    refine (hi.expression m).bind fun n elseValue _ helse => takes_pure ⟨rfl, ?_⟩
    have hlt := hc.laid.lt
    have hlt' := hthen.laid.lt
    have hlt'' := helse.laid.lt
    exact laid_at ho ht (by omega) (by omega)
      (.cons hc.laid hjk (.cons hthen.laid hlm (.single helse.laid))) (Nat.le_refl i)
      (Nat.le_refl n) rfl trivial
  · exact takes_pure hc

/-! ### Parts of statements -/

omit hi ho in
/-- A node that may be missing is a row. -/
theorem row_option {value : Option Node} (hij : i ≤ j) (h : ∀ node ∈ value, node.Laid tokens i j) :
    Row tokens i j value.toList := by
  cases value with
  | none => exact .nil hij
  | some node => exact .single (h node rfl)

omit hi ho in
/-- An expression or statement that may be left out, and what comes after it. -/
theorem takes_optional {found : Bool} {item : Parse Node} {f : Option Node → Parse β}
    {P : Nat → Node → Prop} (h : Takes tokens i item P)
    (hf : ∀ j (value : Option Node), i ≤ j → (∀ node ∈ value, P j node) → Takes tokens j (f value) Q) :
    Takes tokens i (if found = true then some <$> item >>= f else pure none >>= f) Q := by
  split
  · refine (h.map (Q := fun j value => ∀ node ∈ value, P j node) fun j node hn => ?_).bind hf
    rintro _ ⟨⟩
    exact hn
  · refine (takes_pure (P := fun j value => ∀ node ∈ value, P j node) ?_).bind hf
    rintro _ ⟨⟩

/-- An assignment or a call. -/
theorem takes_simple : Takes tokens i (simple inner) (Laid tokens i) := by
  refine takes_token fun start hstart => takes_position_bind hstart ?_
  refine (takes_unary ho hi).bind fun j target _ htarget => ?_
  have hlt := htarget.laid.lt
  refine takes_token fun token ht => takes_kind_bind ht ?_
  split
  · split
    · refine (takes_next ho ht).bind fun k _ hjk _ => ?_
      refine (hi.expression k).bind fun l value _ hvalue => takes_pure ?_
      have hlt' := hvalue.laid.lt
      exact laid_at ho hstart (Nat.le_refl i) (by omega)
        (.cons htarget.laid hjk (.single hvalue.laid)) (Nat.le_refl i) (Nat.le_refl l) rfl trivial
    · exact takes_fail_bind
  · split
    iterate 2
      exact takes_pure (laid_at ho hstart (Nat.le_refl i) (by omega) (.single htarget.laid)
        (Nat.le_refl i) (Nat.le_refl j) rfl trivial)
    · exact takes_unexpected

omit hi ho in
/-- Names with their values on stretches of tokens one after the other. -/
structure BindingsIn (tokens : Array Token) (i j : Nat) (bindings : List (Binding Node)) : Prop where
  row : Row tokens i j (bindings.flatMap (·.value.toList))
  spans : ∀ binding ∈ bindings, binding.Spans (StandsIn tokens i j)
  expressions : ∀ binding ∈ bindings, ∀ value ∈ binding.value, value.isExpression = true
  order : bindings.Pairwise Binding.Before
  names : ∀ binding ∈ bindings, IsName tokens binding.name

omit hi in
/-- Names with values follow each other. -/
theorem chained_bindings : Chained (BindingsIn tokens) where
  nil i := ⟨.nil (Nat.le_refl i), List.forall_mem_nil _, List.forall_mem_nil _, .nil,
    List.forall_mem_nil _⟩
  append h hjk h' := by
    have hle := h.row.le
    have hle' := h'.row.le
    refine ⟨List.flatMap_append ▸ h.row.append hjk h'.row, ?_, ?_, ?_,
      List.forall_mem_append.2 ⟨h.names, h'.names⟩⟩
    · refine List.forall_mem_append.2 ⟨fun binding hb => ?_, fun binding hb => ?_⟩
      · exact (h.spans binding hb).imp fun _ hp => hp.widen (Nat.le_refl _) (by omega)
      · exact (h'.spans binding hb).imp fun _ hp => hp.widen (by omega) (Nat.le_refl _)
    · exact List.forall_mem_append.2 ⟨h.expressions, h'.expressions⟩
    · refine List.pairwise_append.2 ⟨h.order, h'.order, fun first hfirst second hsecond => ?_⟩
      obtain ⟨n, hbelow, habove⟩ := exists_between ho hjk (h'.spans second hsecond).1
      exact ⟨n, (h.spans first hfirst).imp hbelow, (h'.spans second hsecond).imp habove⟩
  widen h hjk :=
    ⟨h.row.widen (Nat.le_refl _) hjk,
      fun binding hb => (h.spans binding hb).imp fun _ hp => hp.widen (Nat.le_refl _) hjk,
      h.expressions, h.order, h.names⟩

/-- A name with its value. -/
theorem takes_binding : Takes tokens i (binding inner) fun j binding =>
    BindingsIn tokens i j [binding] := by
  refine (takes_eatName ho).bind fun j token _ htoken => ?_
  obtain ⟨ht, rfl, hname⟩ := htoken
  refine (takes_skip ho _).bind fun k found hjk _ => ?_
  refine takes_optional (hi.expression k) fun l value hkl hvalue => takes_pure ?_
  have hlaid : ∀ node ∈ value, node.Laid tokens i l := fun node hmem =>
    (hvalue node hmem).laid.widen (by omega) (Nat.le_refl l)
  refine ⟨?_, ?_, ?_, List.pairwise_singleton .., List.forall_mem_singleton.2 hname⟩
  · rw [List.flatMap_singleton]
    exact row_option (by omega) hlaid
  · exact List.forall_mem_singleton.2 ⟨standsIn_of_token ht (by omega),
      fun node hmem => (hlaid node hmem).spans⟩
  · exact List.forall_mem_singleton.2 fun node hmem => (hvalue node hmem).expression

/-- A declaration. -/
theorem takes_declaration :
    Takes tokens i (declaration inner) (Laid tokens i) := by
  refine takes_eat_bind ho (by decide) fun token ht => ?_
  refine (takes_separated ho (chained_bindings ho) fun _ => takes_binding ho hi).bind
    fun k bindings hjk hb => takes_pure ?_
  refine laid_of_row ho (List.forall_mem_cons.2 ⟨standsIn_of_token ht hjk, ?_⟩) hb.row
    (Nat.le_succ i) (Nat.le_refl k) ⟨hb.order, hb.names⟩
  exact List.forall_mem_map.2 fun binding hmem =>
    (hb.spans binding hmem).1.widen (Nat.le_succ i) (Nat.le_refl k)

omit hi ho in
/-- Arms on stretches of tokens one after the other. -/
structure CasesIn (tokens : Array Token) (i j : Nat) (cases : List (Case Node)) : Prop where
  row : Row tokens i j (cases.flatMap fun arm => arm.label.toList ++ arm.body)
  stands : ∀ arm ∈ cases, StandsIn tokens i j arm.position

omit hi ho in
/-- Arms follow each other. -/
theorem chained_cases : Chained (CasesIn tokens) where
  nil i := ⟨.nil (Nat.le_refl i), List.forall_mem_nil _⟩
  append h hjk h' := by
    have hle := h.row.le
    have hle' := h'.row.le
    refine ⟨List.flatMap_append ▸ h.row.append hjk h'.row,
      List.forall_mem_append.2 ⟨fun arm harm => ?_, fun arm harm => ?_⟩⟩
    · exact (h.stands arm harm).widen (Nat.le_refl _) (by omega)
    · exact (h'.stands arm harm).widen (by omega) (Nat.le_refl _)
  widen h hjk :=
    ⟨h.row.widen (Nat.le_refl _) hjk, fun arm harm => (h.stands arm harm).widen (Nat.le_refl _) hjk⟩

omit ho in
/-- Statements are a row. -/
theorem takes_statements {closes : Kind → Bool} :
    Takes tokens i (manyUntil closes inner.statement) (Row tokens i) :=
  takes_manyUntil chained_row fun i => (hi.statement i).imp fun _ _ _ hn => .single hn

/-- An arm of a switch. -/
theorem takes_switchCase : Takes tokens i (switchCase inner) fun j arm =>
    CasesIn tokens i j [arm] := by
  refine takes_token fun start hstart => takes_position_bind hstart (takes_kind_bind hstart ?_)
  have hrest : ∀ (label : Option Node) (j k : Nat), i ≤ j → j ≤ k →
      (∀ node ∈ label, node.Laid tokens j k) → Takes tokens k (do
        let _ ← eat .colon
        let body ← manyUntil (fun kind => kind ∈ [.kwCase, .kwDefault, .rightBrace, .endOfFile])
          inner.statement
        return ({ label, body, position := start.position } : Case Node)) fun l arm =>
        CasesIn tokens i l [arm] := by
    intro label j k hij hjk hlabel
    refine (takes_eat ho (by decide)).bind fun m _ hkm hm => ?_
    refine (takes_statements hi).bind fun n body hmn hbody => takes_pure ⟨?_, ?_⟩
    · rw [List.flatMap_singleton]
      exact ((row_option hjk hlabel).append hkm hbody).widen hij (Nat.le_refl n)
    · exact List.forall_mem_singleton.2 (standsIn_of_token hstart (by omega))
  split
  · refine (takes_next ho hstart).bind fun j _ hij _ => ?_
    refine ((hi.expression j).map (Q := fun k label => ∀ node ∈ label, node.Laid tokens j k)
      fun k node hn => ?_).bind fun k label hjk hlabel => hrest label j k hij hjk hlabel
    rintro _ ⟨⟩
    exact hn.laid
  · refine (takes_next ho hstart).bind fun j _ hij _ => ?_
    exact (takes_pure (P := fun _ label => label = none) rfl).bind fun k label hjk hlabel =>
      hrest label j k hij hjk (by subst hlabel; rintro _ ⟨⟩)
  · exact (takes_unexpected (P := fun _ _ => False)).bind fun _ _ _ hfalse => hfalse.elim

/-! ### Statements

So is each form of a statement.
-/

/-- A block. -/
theorem takes_block : Takes tokens i (block inner) (Laid tokens i) := by
  refine takes_eat_bind ho (by decide) fun token ht => ?_
  refine (takes_statements hi).bind fun k body hjk hbody => ?_
  refine (takes_eat ho (by decide)).bind fun l _ hkl _ => takes_pure ?_
  exact laid_at ho ht (Nat.le_refl i) (by omega) hbody (Nat.le_succ i) hkl rfl trivial

/-- A condition. -/
theorem takes_ifElse : Takes tokens i (ifElse inner) (Laid tokens i) := by
  refine takes_eat_bind ho (by decide) fun token ht => ?_
  refine (hi.expression _).bind fun k condition hjk hc => ?_
  refine (takes_skip ho _).bind fun l _ hkl _ => (hi.statement l).bind fun m thenBody hlm hthen => ?_
  refine (takes_skip ho _).bind fun n found hmn _ => ?_
  refine takes_optional (hi.statement n) fun o elseBody hno helse => takes_pure ?_
  exact laid_at ho ht (Nat.le_refl i) (by omega)
    (.cons hc.laid hkl (.cons hthen hmn (row_option hno helse))) (Nat.le_succ i) (Nat.le_refl o) rfl
    trivial

/-- A loop with a test. -/
theorem takes_whileDo : Takes tokens i (whileDo inner) (Laid tokens i) := by
  refine takes_eat_bind ho (by decide) fun token ht => ?_
  refine (hi.expression _).bind fun k condition hjk hc => (takes_skip ho _).bind fun l _ hkl _ => ?_
  refine (takes_inLoop (hi.statement l)).bind fun m body hlm hbody => takes_pure ?_
  exact laid_at ho ht (Nat.le_refl i) (by omega) (.cons hc.laid hkl (.single hbody)) (Nat.le_succ i)
    (Nat.le_refl m) rfl trivial

/-- A loop with its test last. -/
theorem takes_doUntil : Takes tokens i (doUntil inner) (Laid tokens i) := by
  refine takes_eat_bind ho (by decide) fun token ht => ?_
  refine (takes_inLoop (hi.statement _)).bind fun k body hjk hbody => ?_
  refine (takes_eat ho (by decide)).bind fun l _ hkl _ => ?_
  refine (hi.expression l).bind fun m condition hlm hc => ?_
  refine (takes_skip ho _).bind fun n _ hmn _ => takes_pure ?_
  exact laid_at ho ht (Nat.le_refl i) (by omega) (.cons hbody hkl (.single hc.laid)) (Nat.le_succ i)
    hmn rfl trivial

/-- A loop with a count. -/
theorem takes_repeatTimes :
    Takes tokens i (repeatTimes inner) (Laid tokens i) := by
  refine takes_eat_bind ho (by decide) fun token ht => ?_
  refine (hi.expression _).bind fun k count hjk hc => ?_
  refine (takes_inLoop (hi.statement k)).bind fun l body hkl hbody => takes_pure ?_
  exact laid_at ho ht (Nat.le_refl i) (by omega)
    (.cons hc.laid (Nat.le_refl k) (.single hbody)) (Nat.le_succ i) (Nat.le_refl l) rfl trivial

/-- A loop with clauses. -/
theorem takes_forLoop : Takes tokens i (forLoop inner) (Laid tokens i) := by
  refine takes_eat_bind ho (by decide) fun token ht => ?_
  refine (takes_eat ho (by decide)).bind fun k _ hjk _ => ?_
  have hinit : ∀ i, Takes tokens i (do if ← check .kwVar then declaration inner else simple inner)
      fun j node => Row tokens i j [node] := by
    intro i
    refine takes_token fun token ht => takes_check_bind ht ?_
    split
    · exact (takes_declaration ho hi).imp fun _ _ _ hn => .single hn
    · exact (takes_simple ho hi).imp fun _ _ _ hn => .single hn
  refine (takes_listUntil ho chained_row hinit).bind fun l init hkl hinit => ?_
  refine (takes_eat ho (by decide)).bind fun m _ hlm _ => ?_
  refine takes_token fun head hhead => takes_check_bind hhead ?_
  have hrest : ∀ (condition : Option Node) (n : Nat), m ≤ n →
      (∀ test ∈ condition, test.Laid tokens m n) → Takes tokens n (do
        let _ ← eat .semicolon
        let step ← listUntil .rightParen (simple inner)
        let _ ← eat .rightParen
        return .forLoop token.position init condition step (← inLoop inner.statement))
        (Laid tokens i) := by
    intro condition n hmn hcondition
    refine (takes_eat ho (by decide)).bind fun o _ hno _ => ?_
    refine (takes_listUntil ho chained_row fun _ =>
      (takes_simple ho hi).imp fun _ _ _ hn => .single hn).bind fun q step hoq hstep => ?_
    refine (takes_eat ho (by decide)).bind fun r _ hqr _ => ?_
    refine (takes_inLoop (hi.statement r)).bind fun s body hrs hbody => takes_pure ?_
    have hrow := ((hinit.append hlm (row_option hmn hcondition)).append hno hstep).append hqr
      (.single hbody)
    exact laid_at ho ht (Nat.le_refl i) (by omega) hrow (by omega) (Nat.le_refl s) rfl trivial
  split
  · exact (takes_pure (P := fun _ condition => condition = none) rfl).bind
      fun n condition hmn hcondition => hrest condition n hmn (by subst hcondition; rintro _ ⟨⟩)
  · refine ((hi.expression m).map (Q := fun n condition => ∀ test ∈ condition, test.Laid tokens m n)
      fun n node hn => ?_).bind fun n condition hmn hcondition => hrest condition n hmn hcondition
    rintro _ ⟨⟩
    exact hn.laid

/-- A switch. -/
theorem takes_switch : Takes tokens i (switch inner) (Laid tokens i) := by
  have hdepth : ∀ (f : Nat → Nat) (i : Nat), Takes tokens i (modify fun parser =>
      { parser with breakableDepth := f parser.breakableDepth } : Parse Unit) fun j _ => j = i :=
    fun _ _ => takes_modify fun _ hon => ⟨hon.all, hon.current, hon.lt⟩
  refine takes_eat_bind ho (by decide) fun token ht => ?_
  refine (hi.expression _).bind fun k subject hjk hs => ?_
  refine (takes_eat ho (by decide)).bind fun l _ hkl _ => ?_
  refine (hdepth (· + 1) l).bind fun m _ hlm _ => ?_
  refine (takes_manyUntil chained_cases fun _ => takes_switchCase ho hi).bind
    fun n cases hmn hcases => ?_
  refine (hdepth (· - 1) n).bind fun o _ hno _ => ?_
  refine (takes_eat ho (by decide)).bind fun q _ hoq _ => takes_pure ?_
  refine laid_of_row ho (List.forall_mem_cons.2 ⟨standsIn_of_token ht (by omega), ?_⟩)
    (.cons hs.laid (by omega) hcases.row) (Nat.le_succ i) (by omega) trivial
  exact List.forall_mem_map.2 fun arm harm => (hcases.stands arm harm).widen (by omega) (by omega)

/-- A loop over instances. -/
theorem takes_withEach : Takes tokens i (withEach inner) (Laid tokens i) := by
  refine takes_eat_bind ho (by decide) fun token ht => ?_
  refine (takes_skip ho _).bind fun k found hjk _ => ?_
  have hrest : ∀ (targets : List Node) (l : Nat), k ≤ l → Row tokens k l targets →
      Takes tokens l (do return .withEach token.position targets (← inLoop inner.statement))
        (Laid tokens i) := by
    intro targets l hkl htargets
    refine (takes_inLoop (hi.statement l)).bind fun m body hlm hbody => takes_pure ?_
    exact laid_at ho ht (Nat.le_refl i) (by omega)
      (htargets.append (Nat.le_refl l) (.single hbody)) (by omega) (Nat.le_refl m) rfl trivial
  split
  · refine (takes_separated ho chained_row hi.row).bind fun l targets hkl htargets => ?_
    refine (takes_eat ho (by decide)).bind fun m _ hlm _ => ?_
    exact (takes_pure (P := fun n targets => Row tokens k n targets)
      (htargets.widen (Nat.le_refl k) hlm)).bind fun n targets hmn htargets =>
        hrest targets n (by omega) htargets
  · refine (hi.row k).bind fun l target hkl htarget => ?_
    exact (takes_pure (P := fun n targets => Row tokens k n targets) htarget).bind
      fun n targets hln htargets => hrest targets n (by omega) htargets

omit hi in
/-- Global variables. -/
theorem takes_globals : Takes tokens i globals (Laid tokens i) := by
  refine takes_eat_bind ho (by decide) fun token ht => ?_
  refine (takes_separated ho (C := fun _ _ (names : List Token) =>
    ∀ name ∈ names, IsName tokens name.value)
    ⟨fun _ => List.forall_mem_nil _, fun h _ h' => List.forall_mem_append.2 ⟨h, h'⟩, fun h _ => h⟩
    fun _ => (takes_eatName ho).imp fun _ _ _ h => List.forall_mem_singleton.2 h.2.2).bind
    fun k names hjk hnames => ?_
  refine (takes_skip ho _).bind fun l _ hkl _ => takes_pure ?_
  have hleaf : Laid tokens i (i + 1) (.declareGlobal token.position (names.map Token.value)) :=
    laid_leaf ho ht rfl rfl (List.forall_mem_map.2 hnames)
  exact hleaf.widen (Nat.le_refl i) (by omega)

/-- An enumeration. -/
theorem takes_enumeration :
    Takes tokens i (enumeration inner) (Laid tokens i) := by
  refine takes_eat_bind ho (by decide) fun token ht => ?_
  refine (takes_eatName ho).bind fun k name hjk _ => ?_
  refine (takes_eat ho (by decide)).bind fun l _ hkl _ => ?_
  refine (takes_listUntil ho (chained_bindings ho) fun _ => takes_binding ho hi).bind
    fun m members hlm hmembers => ?_
  refine (takes_eat ho (by decide)).bind fun n _ hmn _ => ?_
  refine (takes_skip ho _).bind fun o _ hno _ => takes_pure ?_
  refine laid_of_row ho (List.forall_mem_cons.2 ⟨standsIn_of_token ht (by omega), ?_⟩) hmembers.row
    (by omega) (by omega) hmembers.expressions
  exact List.forall_mem_map.2 fun member hmem =>
    (hmembers.spans member hmem).1.widen (by omega) (by omega)

/-- A return. -/
theorem takes_returning : Takes tokens i (returning inner) (Laid tokens i) := by
  refine takes_eat_bind ho (by decide) fun token ht => ?_
  refine takes_token fun head hhead => takes_kind_bind hhead ?_
  have hrest : ∀ (value : Option Node) (k : Nat), i + 1 ≤ k →
      (∀ node ∈ value, node.Laid tokens (i + 1) k) → Takes tokens k (do
        let _ ← skip .semicolon
        return .returning token.position value) (Laid tokens i) := by
    intro value k hik hvalue
    refine (takes_skip ho _).bind fun l _ hkl _ => takes_pure ?_
    exact laid_at ho ht (Nat.le_refl i) (by omega) (row_option hik hvalue) (Nat.le_succ i) hkl rfl
      trivial
  split
  iterate 3
    exact (takes_pure (P := fun _ value => value = none) rfl).bind fun k value hik hvalue =>
      hrest value k hik (by subst hvalue; rintro _ ⟨⟩)
  · refine ((hi.expression _).map (Q := fun k value => ∀ node ∈ value, node.Laid tokens (i + 1) k)
      fun k node hn => ?_).bind fun k value hik hvalue => hrest value k hik hvalue
    rintro _ ⟨⟩
    exact hn.laid

/-- A statement. -/
theorem takes_statement : Takes tokens i (statement inner) (Laid tokens i) := by
  refine takes_token fun start hstart => takes_position_bind hstart (takes_kind_bind hstart ?_)
  -- Statements of one word, with or without a semicolon after it.
  have hword : ∀ {node : Node}, start.kind ≠ .endOfFile → node.parts = [] →
      node.places = [start.position] → node.Neat tokens → Takes tokens i (do
        let _ ← next
        let _ ← skip .semicolon
        return node) (Laid tokens i) := by
    intro node hkind hparts hplaces hneat
    refine (takes_next ho hstart).bind fun j _ _ hj => ?_
    obtain rfl := hj.2 hkind
    refine (takes_skip ho _).bind fun k _ hjk _ => takes_pure ?_
    exact (laid_leaf ho hstart hparts hplaces hneat).widen (Nat.le_refl i) hjk
  split
  next hk =>
    refine (takes_next ho hstart).bind fun j _ _ hj => ?_
    obtain rfl := hj.2 (by rw [hk]; decide)
    exact takes_pure (laid_leaf ho hstart rfl rfl trivial)
  · exact takes_block ho hi
  · exact takes_ifElse ho hi
  · exact takes_whileDo ho hi
  · exact takes_doUntil ho hi
  · exact takes_repeatTimes ho hi
  · exact takes_forLoop ho hi
  · exact takes_switch ho hi
  · exact takes_withEach ho hi
  · exact (takes_declaration ho hi).bind fun j _ _ hn => (takes_skip ho _).bind fun k _ hjk _ =>
      takes_pure (hn.widen (Nat.le_refl i) hjk)
  · exact takes_globals ho
  · exact takes_enumeration ho hi
  · exact takes_returning ho hi
  next hk => exact hword (by rw [hk]; decide) rfl rfl trivial
  next hk =>
    refine takes_get_bind fun parser _ => ?_
    dsimp only
    split
    · exact takes_fail_bind
    · exact hword (by rw [hk]; decide) rfl rfl trivial
  next hk =>
    refine takes_get_bind fun parser _ => ?_
    dsimp only
    split
    · exact takes_fail_bind
    · exact hword (by rw [hk]; decide) rfl rfl trivial
  · exact takes_fail
  · exact (takes_simple ho hi).bind fun j _ _ hn => (takes_skip ho _).bind fun k _ hjk _ =>
      takes_pure (hn.widen (Nat.le_refl i) hjk)

omit hi in
/-- The grammar reads trees that are laid out. -/
theorem laidInner_grammar : ∀ levels, LaidInner tokens (grammar levels)
  | 0 => ⟨fun _ => takes_fail, fun _ => takes_fail, fun _ => takes_fail⟩
  | levels + 1 =>
    have hi := laidInner_grammar levels
    ⟨fun _ => takes_nested (takes_statement ho hi), fun _ => takes_nested (takes_conditional ho hi),
      fun _ => takes_nested (takes_unary ho hi)⟩

end Parse

/-! ### Sources -/

variable {text : String} {tier : Nat} {tokens : List Token}

/-- There is no plus sign in a name. -/
theorem Span.plus_not_mem {value : String} {span rest : List Char}
    (h : Span tier .identifier value span rest) : '+' ∉ value.toList := by
  rcases h.of_unlisted (by decide) with ⟨-, first, more, hfirst, hmore, rfl⟩ | ⟨hkind, -⟩
  · rw [String.toList_ofList, List.mem_cons]
    rintro (rfl | hmem)
    · exact absurd hfirst (by decide)
    · exact absurd (hmore '+' hmem) (by decide)
  · cases hkind

/-- So it is for the tokens of a text. -/
theorem Tiles.plus_not_mem {source : Source} {done rest : List Char}
    (h : Tiles tier source done tokens rest) :
    ∀ token ∈ tokens, token.kind = .identifier → '+' ∉ token.value.toList := by
  induction h with
  | start => exact List.forall_mem_nil _
  | gap _ _ ih => exact ih
  | token _ _ hspan ih =>
    refine List.forall_mem_append.2 ⟨ih, List.forall_mem_singleton.2 ?_⟩
    rintro rfl
    exact hspan.plus_not_mem

/-- The tokens of a text are orderly. -/
theorem orderly_of_tokenize (h : tokenize text tier = .ok tokens) : Orderly tokens.toArray := by
  obtain ⟨inner, htiles, rfl⟩ := exists_tiles_of_tokenize h
  have hend := (Source.ofString text).index_position (Nat.le_refl _)
  have hincrease : (inner ++
      [Token.ending ((Source.ofString text).position (Source.ofString text).length)]).Pairwise
      fun token later => token.position.index < later.position.index := by
    refine List.pairwise_append.2 ⟨htiles.indices_increase, List.pairwise_singleton .., ?_⟩
    intro token hmem last hlast
    obtain rfl := List.mem_singleton.1 hlast
    show token.position.index < ((Source.ofString text).position _).index
    rw [hend, (Source.ofString text).length_eq]
    exact (htiles.stands token hmem).index
  constructor
  case last =>
    refine ⟨.ending ((Source.ofString text).position (Source.ofString text).length), ?_, rfl⟩
    simp
  case increase =>
    intro k l a b hkl ha hb
    rw [List.getElem?_toArray, List.getElem?_eq_some_iff] at ha hb
    obtain ⟨hk, rfl⟩ := ha
    obtain ⟨hl, rfl⟩ := hb
    exact List.pairwise_iff_getElem.1 hincrease k l hk hl hkl
  case names =>
    intro token hmem
    rw [List.mem_toArray, List.mem_append, List.mem_singleton] at hmem
    rcases hmem with hmem | rfl
    · exact htiles.plus_not_mem token hmem
    · exact nofun

namespace Script

/-- A script is a row of statements. -/
theorem takes_script {tokens : Array Token} (ho : Orderly tokens) :
    Parse.Takes tokens 0 Parser.script fun j script => Row tokens 0 j script.body :=
  (Parse.takes_statements (Parse.laidInner_grammar ho _)).bind fun _ _ _ hbody =>
    Parse.takes_pure hbody

/-- A parser starts at the first token. -/
theorem on_ofTokens (h : tokenize text tier = .ok tokens) :
    (Parser.ofTokens tokens).On tokens.toArray 0 := by
  obtain ⟨inner, -, rfl⟩ := exists_tiles_of_tokenize h
  exact ⟨rfl, rfl, by simp⟩

/-- The statements of a script are laid out on the tokens of its text. -/
theorem row_of_ofTokens {script : Script} (h : tokenize text tier = .ok tokens)
    (hscript : ofTokens tokens = .ok script) : ∃ j, Row tokens.toArray 0 j script.body := by
  rcases hrun : Parser.script.run.run (.ofTokens tokens) with ⟨result, parser⟩
  obtain rfl : result = .ok script := (congrArg Prod.fst hrun).symm.trans hscript
  obtain ⟨j, -, -, hrow⟩ :=
    (takes_script (orderly_of_tokenize h)).gives _ script parser (on_ofTokens h) hrun
  exact ⟨j, hrow⟩

/-- A script that cannot be read is refused at one of its tokens. -/
theorem token_of_ofTokens {diagnostic : Diagnostic} (h : tokenize text tier = .ok tokens)
    (hscript : ofTokens tokens = .error diagnostic) :
    ∃ token ∈ tokens, token.position = diagnostic.position := by
  rcases hrun : Parser.script.run.run (.ofTokens tokens) with ⟨result, parser⟩
  obtain rfl : result = .error diagnostic := (congrArg Prod.fst hrun).symm.trans hscript
  obtain ⟨token, hmem, hposition⟩ :=
    (takes_script (orderly_of_tokenize h)).fails _ diagnostic parser (on_ofTokens h) hrun
  exact ⟨token, List.mem_toArray.1 hmem, hposition⟩

end Script

end Gml
