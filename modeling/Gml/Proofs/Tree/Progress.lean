import Gml.Proofs.Tree.Read

/-!
# Progress of the parser

A parser on tokens of which only the last ends the source goes on with every statement and every
expression that it reads, never passes the last token, and has its counters back afterwards. The
bounds on the rounds of a loop and on the levels of the grammar are never reached: reading ends by
itself.

`Parse.Advances` says all of this of an action at a parser. It compares two actions, which have to
do the same there: two grammars that agree at the parsers of the next level are the same at this
level, so what they do anywhere else is never asked for. It is closed under sequence, and under
loops whose rounds go on (`Parse.advances_loop`), so that the grammar is gone through part by part.

The main result is `Parser.progress`.
-/

namespace Gml

namespace Parser

variable {p q r : Parser}

/-- A parser at one of its tokens, the last of which is the only one that ends the source. -/
structure Standing (p : Parser) : Prop where
  ends : ∀ i (h : i < p.tokens.size), p.tokens[i].kind = .endOfFile ↔ i + 1 = p.tokens.size
  lt : p.current < p.tokens.size

/-- The second parser stands at the same tokens on the same level of nesting, and not before. -/
structure Onward (p q : Parser) : Prop where
  tokens : q.tokens = p.tokens
  le : p.current ≤ q.current
  lt : q.current < q.tokens.size
  nesting : q.nesting = p.nesting

/-- The second parser also counts as many loops and constructs that can be left. -/
structure Kept (p q : Parser) : Prop extends Onward p q where
  loops : q.loopDepth = p.loopDepth
  breakables : q.breakableDepth = p.breakableDepth

/-- A parser keeps its counters where it stands. -/
theorem Standing.kept (h : p.Standing) : p.Kept p :=
  ⟨⟨rfl, Nat.le_refl _, h.lt, rfl⟩, rfl, rfl⟩

/-- To go on twice is to go on. -/
theorem Onward.trans (h : p.Onward q) (h' : q.Onward r) : p.Onward r :=
  ⟨h'.tokens.trans h.tokens, Nat.le_trans h.le h'.le, h'.lt, h'.nesting.trans h.nesting⟩

/-- Counters that are kept twice are kept. -/
theorem Kept.trans (h : p.Kept q) (h' : q.Kept r) : p.Kept r :=
  ⟨h.toOnward.trans h'.toOnward, h'.loops.trans h.loops, h'.breakables.trans h.breakables⟩

/-- There are as many tokens as before. -/
theorem Onward.size (h : p.Onward q) : q.tokens.size = p.tokens.size :=
  congrArg Array.size h.tokens

/-- Only the tokens matter to where a parser stands. -/
theorem Standing.of_tokens (h : p.Standing) (ht : q.tokens = p.tokens)
    (hlt : q.current < q.tokens.size) : q.Standing where
  ends i hi := by
    simp only [ht] at hi ⊢
    exact h.ends i hi
  lt := hlt

/-- A parser that goes on stands at a token again. -/
theorem Standing.onward (h : p.Standing) (hq : p.Onward q) : q.Standing :=
  h.of_tokens hq.tokens hq.lt

/-- The next token ends the source just if it is the last. -/
theorem Standing.kind_head (h : p.Standing) :
    p.head.kind = .endOfFile ↔ p.current + 1 = p.tokens.size := by
  have hlt := h.lt
  have hmin : min p.current (p.tokens.size - 1) = p.current := by omega
  rw [Parser.head, hmin, Array.getElem?_eq_getElem hlt, Option.getD_some]
  exact h.ends p.current hlt

end Parser

namespace Parse

variable {α β : Type} {s : Bool} {p q : Parser} {t : α → Nat} {u : β → Nat} {x x' : Parse α}
  {f f' : α → Parse β}

/-- What an action does at a parser, and that another does the same there. -/
structure Advances (s : Bool) (p : Parser) (t : α → Nat) (x x' : Parse α) : Prop where
  same : x'.run.run p = x.run.run p
  /-- If it succeeds, it ends at a token that is far enough, with all counters as before. -/
  gives : ∀ a q, x.run.run p = (.ok a, q) → p.Kept q ∧ t a ≤ q.current
  /-- If it fails, then not for having gone on too long. A steady action has all counters as before,
  and the others at least the nesting. -/
  fails : ∀ diagnostic q, x.run.run p = (.error diagnostic, q) →
    diagnostic.fault ≠ .endless ∧ p.Onward q ∧ (s = true → p.Kept q)

/-- An action that is known to succeed. -/
theorem advances_of_run {a : α} (h : x'.run.run p = x.run.run p) (hrun : x.run.run p = (.ok a, q))
    (hq : p.Kept q) (ht : t a ≤ q.current) : Advances s p t x x' where
  same := h
  gives b r hgives := by
    cases hrun.symm.trans hgives
    exact ⟨hq, ht⟩
  fails diagnostic r hfails := by cases hrun.symm.trans hfails

/-- To give a value reads nothing. -/
theorem advances_pure (hp : p.Standing) {a : α} (h : t a ≤ p.current) :
    Advances s p t (pure a) (pure a) :=
  advances_of_run rfl rfl hp.kept h

/-- To fail with a known fault reads nothing. -/
theorem advances_throw (hp : p.Standing) {diagnostic : Diagnostic}
    (h : diagnostic.fault ≠ .endless) : Advances s p t (throw diagnostic) (throw diagnostic) where
  same := rfl
  gives := by rintro _ _ ⟨⟩
  fails := by
    rintro _ _ ⟨⟩
    exact ⟨h, hp.kept.toOnward, fun _ => hp.kept⟩

/-- One action after another. -/
theorem Advances.bind (hx : Advances s p t x x')
    (hf : ∀ a q, p.Kept q → t a ≤ q.current → Advances s q u (f a) (f' a)) :
    Advances s p u (x >>= f) (x' >>= f') := by
  rcases hrun : x.run.run p with ⟨diagnostic | a, q⟩
  · have hbind : (x >>= f).run.run p = (.error diagnostic, q) := by
      rw [ExceptT.run_bind, StateT.run_bind, hrun]
      rfl
    refine ⟨?_, fun b r h => ?_, fun other r h => ?_⟩
    · rw [hbind, ExceptT.run_bind, StateT.run_bind, hx.same, hrun]
      rfl
    · cases hbind.symm.trans h
    · cases hbind.symm.trans h
      exact hx.fails diagnostic q hrun
  · have hbind : (x >>= f).run.run p = (f a).run.run q := by
      rw [ExceptT.run_bind, StateT.run_bind, hrun]
      rfl
    obtain ⟨hq, ht⟩ := hx.gives a q hrun
    have hnext := hf a q hq ht
    refine ⟨?_, fun b r h => ?_, fun diagnostic r h => ?_⟩
    · rw [hbind, ExceptT.run_bind, StateT.run_bind, hx.same, hrun]
      exact hnext.same
    · obtain ⟨hr, hu⟩ := hnext.gives b r (hbind.symm.trans h)
      exact ⟨hq.trans hr, hu⟩
    · obtain ⟨hfault, hr, hs⟩ := hnext.fails diagnostic r (hbind.symm.trans h)
      exact ⟨hfault, hq.toOnward.trans hr, fun h => hq.trans (hs h)⟩

/-- Less may be asked of where an action ends. -/
theorem Advances.mono {t' : α → Nat} (hx : Advances s p t x x') (h : ∀ a, t' a ≤ t a) :
    Advances s p t' x x' where
  same := hx.same
  gives a q hrun := ⟨(hx.gives a q hrun).1, Nat.le_trans (h a) (hx.gives a q hrun).2⟩
  fails := hx.fails

/-- What is given may be changed. -/
theorem Advances.map {g : α → β} (hp : p.Standing) (hx : Advances s p t x x')
    (h : ∀ a, u (g a) ≤ t a) : Advances s p u (g <$> x) (g <$> x') := by
  rw [← bind_pure_comp, ← bind_pure_comp]
  exact hx.bind fun a q hq ht =>
    advances_pure (hp.onward hq.toOnward) (Nat.le_trans (h a) ht)

/-- A steady action does all that is asked of any. -/
theorem Advances.steady (hx : Advances true p t x x') : Advances s p t x x' where
  same := hx.same
  gives := hx.gives
  fails diagnostic q hrun := by
    obtain ⟨hfault, hq, hs⟩ := hx.fails diagnostic q hrun
    exact ⟨hfault, hq, fun _ => hs rfl⟩

/-- A look at the parser comes before an action. -/
theorem advances_get_bind {f f' : Parser → Parse β} (h : Advances s p u (f p) (f' p)) :
    Advances s p u (get >>= f) (get >>= f') :=
  ⟨h.same, h.gives, h.fails⟩

/-- An action that reads at least one token. -/
abbrev Moves (s : Bool) (p : Parser) (x x' : Parse α) : Prop :=
  Advances s p (fun _ => p.current + 1) x x'

/-! ### Tokens -/

/-- A look at the next token comes before an action. -/
theorem advances_head_bind {f f' : Token → Parse β} (h : Advances s p u (f p.head) (f' p.head)) :
    Advances s p u (head >>= f) (head >>= f') :=
  ⟨h.same, h.gives, h.fails⟩

/-- So does a look at its kind. -/
theorem advances_kind_bind {f f' : Kind → Parse β}
    (h : Advances s p u (f p.head.kind) (f' p.head.kind)) :
    Advances s p u (kind >>= f) (kind >>= f') :=
  ⟨h.same, h.gives, h.fails⟩

/-- So does a look at its place. -/
theorem advances_position_bind {f f' : Position → Parse β}
    (h : Advances s p u (f p.head.position) (f' p.head.position)) :
    Advances s p u (position >>= f) (position >>= f') :=
  ⟨h.same, h.gives, h.fails⟩

/-- So does a look for a kind. -/
theorem advances_check_bind {wanted : Kind} {f f' : Bool → Parse β}
    (h : Advances s p u (f (p.head.kind = wanted)) (f' (p.head.kind = wanted))) :
    Advances s p u (check wanted >>= f) (check wanted >>= f') :=
  ⟨h.same, h.gives, h.fails⟩

/-- To fail at the next token reads nothing. -/
theorem advances_fail (hp : p.Standing) {fault : Fault} (h : fault ≠ .endless) :
    Advances s p t (fail fault) (fail fault) :=
  advances_position_bind (advances_throw hp h)

/-- So does a token that is not expected. -/
theorem advances_unexpected (hp : p.Standing) {place : Misplaced} :
    Advances s p t (unexpected place) (unexpected place) :=
  advances_head_bind (advances_fail hp (by rintro ⟨⟩))

/-- An action that fails, whatever would come after it. -/
theorem Advances.never (h : ∀ t : α → Nat, Advances s p t x x') :
    Advances s p u (x >>= f) (x' >>= f') := by
  refine (h fun _ => p.tokens.size).bind fun a q hq hle => ?_
  have hlt := hq.lt
  have hsize := hq.size
  omega

/-- Reading a token other than the last goes on. -/
theorem advances_next (hp : p.Standing) :
    Advances s p (fun _ => if p.head.kind = .endOfFile then p.current else p.current + 1)
      next next := by
  refine advances_of_run rfl (run_next p) ?_ ?_
  all_goals split
  · exact hp.kept
  next hend =>
    have hlt := hp.lt
    rw [hp.kind_head] at hend
    exact ⟨⟨rfl, Nat.le_succ _, by dsimp only; omega, rfl⟩, rfl, rfl⟩
  · exact Nat.le_refl _
  · exact Nat.le_refl _

/-- Such a token is read. -/
theorem moves_token (hp : p.Standing) (h : p.head.kind ≠ .endOfFile) : Moves s p next next := by
  simpa only [if_neg h] using advances_next (s := s) hp

/-- Reading any token does not go back. -/
theorem advances_any (hp : p.Standing) : Advances s p (fun _ => p.current) next next :=
  (advances_next hp).mono fun _ => by split <;> omega

/-- Nor does a token that may be there. -/
theorem advances_skip (hp : p.Standing) (wanted : Kind) :
    Advances s p (fun _ => p.current) (skip wanted) (skip wanted) := by
  refine advances_check_bind ?_
  split
  · exact (advances_any hp).bind fun _ q hq _ => advances_pure (hp.onward hq.toOnward) hq.le
  · exact advances_pure hp (Nat.le_refl _)

/-- A token that is asked for is read. -/
theorem moves_eat (hp : p.Standing) {wanted : Kind} (hwanted : wanted ≠ .endOfFile) :
    Moves s p (eat wanted) (eat wanted) := by
  refine advances_check_bind ?_
  split
  next hkind => exact moves_token hp (of_decide_eq_true hkind ▸ hwanted)
  next => exact advances_head_bind (advances_fail hp (by rintro ⟨⟩))

/-- So is a name. -/
theorem moves_eatName (hp : p.Standing) : Moves s p eatName eatName := by
  refine advances_check_bind ?_
  split
  next hkind => exact moves_token hp (by rw [of_decide_eq_true hkind]; decide)
  next => exact advances_head_bind (advances_fail hp (by rintro ⟨⟩))

/-! ### Depths -/

section Depths

variable {before after : Parser → Parser}

/-- An action between two changes of the counters, the second of which takes back the first. -/
theorem advances_around (hx : Advances s (before p) t x x')
    (honward : ∀ q, (before p).Onward q → p.Onward (after q))
    (hkept : ∀ q, (before p).Kept q → p.Kept (after q))
    (hcurrent : ∀ q, (after q).current = q.current) :
    Advances s p t (ExceptT.mk do
      modify before
      let result ← x.run
      modify after
      return result) (ExceptT.mk do
      modify before
      let result ← x'.run
      modify after
      return result) := by
  have hafter : ∀ y : Parse α, (ExceptT.mk do
      modify before
      let result ← y.run
      modify after
      return result : Parse α).run.run p =
        ((y.run.run (before p)).1, after (y.run.run (before p)).2) := fun _ => rfl
  constructor
  · rw [hafter, hafter, hx.same]
  · intro a q hrun
    rw [hafter] at hrun
    rcases hinner : x.run.run (before p) with ⟨result, r⟩
    rw [hinner] at hrun
    cases hrun
    obtain ⟨hr, ht⟩ := hx.gives a r hinner
    exact ⟨hkept r hr, hcurrent r ▸ ht⟩
  · intro diagnostic q hrun
    rw [hafter] at hrun
    rcases hinner : x.run.run (before p) with ⟨result, r⟩
    rw [hinner] at hrun
    cases hrun
    obtain ⟨hfault, hr, hs⟩ := hx.fails diagnostic r hinner
    exact ⟨hfault, honward r hr, fun h => hkept r (hs h)⟩

/-- The same, but a failure in between leaves the first change as it is. -/
theorem advances_between (hx : Advances false (before p) t x x')
    (honward : ∀ q, (before p).Onward q → p.Onward q)
    (hkept : ∀ q, (before p).Kept q → p.Kept (after q))
    (hcurrent : ∀ q, (after q).current = q.current)
    (hf : ∀ a q, p.Kept q → t a ≤ q.current → Advances false q u (f a) (f' a)) :
    Advances false p u (do modify before; let a ← x; modify after; f a)
      (do modify before; let a ← x'; modify after; f' a) := by
  have hpair : Advances false p t (do modify before; let a ← x; modify after; return a)
      (do modify before; let a ← x'; modify after; return a) := by
    have hbefore : ∀ y : Parse α, (do modify before; let a ← y; modify after; return a :
        Parse α).run.run p = (do let a ← y; modify after; return a : Parse α).run.run (before p) :=
      fun _ => rfl
    rcases hrun : x.run.run (before p) with ⟨diagnostic | a, r⟩
    · have hbind : (do modify before; let a ← x; modify after; return a : Parse α).run.run p =
          (.error diagnostic, r) := by
        rw [hbefore, ExceptT.run_bind, StateT.run_bind, hrun]
        rfl
      refine ⟨?_, fun b q h => ?_, fun other q h => ?_⟩
      · rw [hbind, hbefore, ExceptT.run_bind, StateT.run_bind, hx.same, hrun]
        rfl
      · cases hbind.symm.trans h
      · cases hbind.symm.trans h
        obtain ⟨hfault, hr, -⟩ := hx.fails diagnostic r hrun
        exact ⟨hfault, honward r hr, fun h => by cases h⟩
    · obtain ⟨hr, ht⟩ := hx.gives a r hrun
      refine advances_of_run (q := after r) (a := a) ?_ ?_ (hkept r hr) (hcurrent r ▸ ht)
      · rw [hbefore, hbefore, ExceptT.run_bind, StateT.run_bind, hx.same, ExceptT.run_bind,
          StateT.run_bind, hrun]
      · rw [hbefore, ExceptT.run_bind, StateT.run_bind, hrun]
        rfl
  simpa only [bind_assoc, pure_bind] using hpair.bind hf

end Depths

/-- One level further in the parser is where it was, and not too deep. -/
theorem advances_nested (hp : p.Standing)
    (h : p.nesting < maxNesting → Advances s { p with nesting := p.nesting + 1 } t x x') :
    Advances s p t (nested x) (nested x') := by
  refine advances_get_bind ?_
  split
  · exact advances_fail hp (by rintro ⟨⟩)
  next hdeep =>
    have honward : ∀ q : Parser, { p with nesting := p.nesting + 1 }.Onward q →
        p.Onward { q with nesting := q.nesting - 1 } := fun q hq =>
      ⟨hq.tokens, hq.le, hq.lt, by rw [hq.nesting]; rfl⟩
    exact advances_around (h (Nat.lt_of_not_le hdeep)) honward
      (fun q hq => ⟨honward q hq.toOnward, hq.loops, hq.breakables⟩) fun _ => rfl

/-- Inside of a loop the counters of loops are one more. -/
theorem advances_inLoop
    (h : Advances s { p with loopDepth := p.loopDepth + 1, breakableDepth := p.breakableDepth + 1 }
      t x x') : Advances s p t (inLoop x) (inLoop x') := by
  refine advances_around h (fun q hq => ⟨hq.tokens, hq.le, hq.lt, hq.nesting⟩)
    (fun q hq => ⟨⟨hq.tokens, hq.le, hq.lt, hq.nesting⟩, ?_, ?_⟩) fun _ => rfl
  · rw [hq.loops]
    rfl
  · rw [hq.breakables]
    rfl

/-! ### Loops -/

/-- A loop whose rounds go on ends. There are no more rounds left than tokens. -/
theorem advances_loop {step step' : α → Parse (α ⊕ β)} {a : α} (hp : p.Standing)
    (hstep : ∀ q a, p.Kept q →
      Advances s q (Sum.elim (fun _ => q.current + 1) u) (step a) (step' a)) :
    Advances s p u (loop step a) (loop step' a) := by
  have hrounds : ∀ n q a, p.Kept q → q.tokens.size - q.current < n →
      Advances s q u (rounds step n a) (rounds step' n a) := by
    intro n
    induction n with
    | zero =>
      intro q a hq hn
      omega
    | succ n ih =>
      intro q a hq hn
      refine (hstep q a hq).bind fun result r hr hle => ?_
      have hr' := hq.trans hr
      cases result with
      | inl a =>
        have hlt := hr.lt
        have hsize := hr.size
        simp only [Sum.elim_inl] at hle
        exact ih r a hr' (by omega)
      | inr b => exact advances_pure (hp.onward hr'.toOnward) hle
  exact advances_get_bind (hrounds _ p a hp.kept (Nat.lt_succ_self _))

section Lists

variable {item item' : Parse α} {n : Nat}

/-- Items that go on, up to a closing token. -/
theorem advances_manyUntil {closes : Kind → Bool} (hp : p.Standing)
    (hclose : ∀ q, p.Kept q → closes q.head.kind = true → n ≤ q.current)
    (hitem : ∀ q, p.Kept q → Moves s q item item') :
    Advances s p (fun _ => n) (manyUntil closes item) (manyUntil closes item') := by
  refine advances_loop hp fun q items hq => advances_kind_bind ?_
  have hq' := hp.onward hq.toOnward
  split
  next h => exact advances_pure hq' (hclose q hq h)
  next => exact (hitem q hq).bind fun a r hr hle => advances_pure (hq'.onward hr.toOnward) hle

/-- A round of a list reads its item. -/
theorem advances_separatedRound (hp : p.Standing) (hn : n ≤ p.current + 1) (items : List α)
    (hitem : Moves s p item item') :
    Advances s p (Sum.elim (fun _ => p.current + 1) fun _ => n) (separatedRound item items)
      (separatedRound item' items) := by
  refine hitem.bind fun a q hq hle => ?_
  have hq' := hp.onward hq.toOnward
  refine (advances_skip hq' _).bind fun found r hr hle' => ?_
  split
  · exact advances_pure (hq'.onward hr.toOnward) (by simp only [Sum.elim_inl]; omega)
  · exact advances_pure (hq'.onward hr.toOnward) (by simp only [Sum.elim_inr]; omega)

/-- A list with commas has an item. -/
theorem moves_separated (hp : p.Standing)
    (hitem : ∀ q, p.Kept q → Moves s q item item') :
    Moves s p (separated item) (separated item') :=
  advances_loop hp fun q items hq => advances_separatedRound (hp.onward hq.toOnward)
    (Nat.add_le_add_right hq.le 1) items (hitem q hq)

/-- A list up to its end may have none. -/
theorem advances_listUntil {close : Kind} (hp : p.Standing)
    (hitem : ∀ q, p.Kept q → Moves s q item item') :
    Advances s p (fun _ => p.current) (listUntil close item) (listUntil close item') := by
  refine advances_loop hp fun q items hq => advances_check_bind ?_
  have hq' := hp.onward hq.toOnward
  split
  · exact advances_pure hq' hq.le
  · exact advances_separatedRound hq' (Nat.le_succ_of_le hq.le) items (hitem q hq)

end Lists

/-! ### Expressions

Each form of an expression reads at least one token, if what is further in does.
-/

/-- The actions one level further in go on, wherever the parser gets to on this level. -/
structure Ready (p : Parser) (inner inner' : Inner) : Prop where
  standing : p.Standing
  statement : ∀ q, p.Onward q →
    Moves false q inner.statement inner'.statement
  expression : ∀ q, p.Onward q →
    Moves true q inner.expression inner'.expression
  operand : ∀ q, p.Onward q →
    Moves true q inner.operand inner'.operand

variable {inner inner' : Inner}

/-- Actions that go on do so further on. -/
theorem Ready.onward (hi : Ready p inner inner') (hq : p.Onward q) : Ready q inner inner' where
  standing := hi.standing.onward hq
  statement r hr := hi.statement r (hq.trans hr)
  expression r hr := hi.expression r (hq.trans hr)
  operand r hr := hi.operand r (hq.trans hr)

/-- They do so with counters kept. -/
theorem Ready.kept (hi : Ready p inner inner') (hq : p.Kept q) : Ready q inner inner' :=
  hi.onward hq.toOnward

/-- A parser is where it is. -/
theorem Ready.here (hi : Ready p inner inner') : p.Onward p :=
  hi.standing.kept.toOnward

variable (hi : Ready p inner inner')

include hi

/-- An expression is read further in. -/
theorem Ready.moves_expression :
    Moves s p inner.expression inner'.expression :=
  (hi.expression p hi.here).steady

/-- So is an operand. -/
theorem Ready.moves_operand :
    Moves s p inner.operand inner'.operand :=
  (hi.operand p hi.here).steady

/-- What comes after an action starts where the actions further in go on, too. -/
theorem Ready.bind (hx : Advances s p t x x')
    (hf : ∀ a q, p.Kept q → Ready q inner inner' → t a ≤ q.current → Advances s q u (f a) (f' a)) :
    Advances s p u (x >>= f) (x' >>= f') :=
  hx.bind fun a q hq hle => hf a q hq (hi.kept hq) hle

/-- A token that is asked for comes before an action. -/
theorem Ready.eat {wanted : Kind} {f f' : Token → Parse β} (hwanted : wanted ≠ .endOfFile)
    (hf : ∀ a q, p.Kept q → Ready q inner inner' → p.current + 1 ≤ q.current →
      Advances s q u (f a) (f' a)) :
    Advances s p u (Parse.eat wanted >>= f) (Parse.eat wanted >>= f') :=
  hi.bind (moves_eat hi.standing hwanted) hf

/-- An action after which nothing more is read. -/
theorem Ready.last {result : α → β} (hx : Advances s p t x x') (h : ∀ a, u (result a) ≤ t a) :
    Advances s p u (do return result (← x)) (do return result (← x')) :=
  hi.bind hx fun a _ _ hi hle => advances_pure hi.standing (Nat.le_trans (h a) hle)

/-- A field of a struct. -/
theorem moves_structField : Moves s p (structField inner) (structField inner') := by
  refine advances_kind_bind ?_
  have hrest : ∀ (key : String) (q : Parser), p.Kept q → Advances s q (fun _ => p.current + 1) (do
      let _ ← eat .colon
      return (key, ← inner.expression)) (do
      let _ ← eat .colon
      return (key, ← inner'.expression)) := by
    intro key q hq
    have hle := hq.le
    have hi := hi.kept hq
    refine hi.eat (by decide) fun _ r hr hi hle₁ => ?_
    exact hi.last hi.moves_expression fun _ => by omega
  split
  iterate 2
    exact (advances_any hi.standing).bind fun token q hq _ => hrest token.value q hq
  · exact .never fun _ => advances_unexpected hi.standing

omit hi in
/-- A number that cannot be read is not endless. -/
theorem ofText_ne_endless {text : String} {fault : Fault}
    (h : Literal.ofText text = .error fault) : fault ≠ .endless := by
  unfold Literal.ofText at h
  split at h
  all_goals
    split at h
    · cases h
    · cases h
      rintro ⟨⟩

/-- A primary expression. -/
theorem moves_primary : Moves s p (primary inner) (primary inner') := by
  have hp := hi.standing
  refine advances_position_bind (advances_kind_bind ?_)
  split
  next hk =>
    refine (moves_token hp (by rw [hk]; decide)).bind fun token q hq hle => ?_
    have hq' := hp.onward hq.toOnward
    split
    next => exact advances_pure hq' hle
    next hfault => exact advances_throw hq' (ofText_ne_endless hfault)
  iterate 3
    next hk =>
      exact (moves_token hp (by rw [hk]; decide)).bind fun token q hq hle =>
        advances_pure (hp.onward hq.toOnward) hle
  · refine hi.bind (advances_any hp) fun _ q hq hi hle => ?_
    refine hi.bind hi.moves_expression fun inside r hr hi hle₁ => ?_
    exact hi.last (moves_eat hi.standing (by decide)) fun _ => by omega
  · refine hi.bind (advances_any hp) fun _ q hq hi hle => ?_
    refine hi.bind (advances_listUntil hi.standing fun r hr =>
      moves_structField (hi.kept hr)) fun fields r hr hi hle₁ => ?_
    exact hi.last (moves_eat hi.standing (by decide)) fun _ => by omega
  · refine hi.bind (advances_any hp) fun _ q hq hi hle => ?_
    refine hi.bind (advances_listUntil hi.standing fun r hr =>
      (hi.kept hr).moves_expression) fun elements r hr hi hle₁ => ?_
    exact hi.last (moves_eat hi.standing (by decide)) fun _ => by omega
  · exact advances_unexpected hp

/-- Arguments, if there are any. -/
theorem advances_arguments :
    Advances s p (fun _ => p.current) (arguments inner) (arguments inner') := by
  refine advances_loop hi.standing fun q items hq => advances_check_bind ?_
  have hi := hi.kept hq
  have hitem : ∀ r, q.Kept r → Advances s r
      (Sum.elim (fun _ : List Node => q.current + 1) fun _ : List Node => p.current)
      (do return .inl ((← inner.expression) :: items))
      (do return .inl ((← inner'.expression) :: items)) := by
    intro r hr
    have hle := hr.le
    have hi := hi.kept hr
    exact hi.bind hi.moves_expression fun node o ho hi hle₁ =>
      advances_pure hi.standing (by simp only [Sum.elim_inl]; omega)
  split
  · exact advances_pure hi.standing hq.le
  · split
    · exact hitem q hi.standing.kept
    · exact (moves_eat hi.standing (by decide)).bind fun _ r hr _ => hitem r hr

/-- A call. -/
theorem moves_callOf (callee : Node) :
    Moves s p (callOf inner callee) (callOf inner' callee) := by
  refine hi.bind (advances_any hi.standing) fun _ q hq hi hle => ?_
  refine hi.bind (advances_arguments hi) fun _ r hr hi hle₁ => ?_
  exact hi.last (moves_eat hi.standing (by decide)) fun _ => by omega

/-- An element. -/
theorem moves_indexOf (container : Node) :
    Moves s p (indexOf inner container) (indexOf inner' container) := by
  refine hi.bind (advances_any hi.standing) fun _ q hq hi hle => ?_
  refine hi.bind (moves_separated hi.standing fun r hr =>
    (hi.kept hr).moves_expression) fun _ r hr hi hle₁ => ?_
  split
  · exact hi.last (moves_eat hi.standing (by decide)) fun _ => by omega
  · exact .never fun _ => advances_throw hi.standing (by rintro ⟨⟩)

omit hi in
/-- A field. -/
theorem moves_memberOf (hp : p.Standing) (instanceOf : Node) :
    Moves s p (memberOf instanceOf) (memberOf instanceOf) := by
  refine (advances_any hp).bind fun _ q hq hle => ?_
  have hq' := hp.onward hq.toOnward
  exact (moves_eatName hq').bind fun _ r hr hle₁ =>
    advances_pure (hq'.onward hr.toOnward) (by omega)

omit hi in
/-- A step behind. -/
theorem advances_steppedAfter (hp : p.Standing) (target : Node) :
    Advances s p (fun _ => p.current) (steppedAfter target) (steppedAfter target) := by
  unfold steppedAfter
  split
  · exact (advances_any hp).bind fun _ q hq hle => advances_pure (hp.onward hq.toOnward) hle
  · exact .never fun _ => advances_fail hp (by rintro ⟨⟩)

/-- What stands behind. -/
theorem moves_postfixed : Moves s p (postfixed inner) (postfixed inner') := by
  refine hi.bind (moves_primary hi) fun first q hq hi hle => ?_
  refine advances_loop hi.standing fun r operand hr => advances_kind_bind ?_
  have hi := hi.kept hr
  have hle₁ := hr.le
  split
  · exact hi.bind (moves_callOf hi operand) fun _ o ho hi hle₂ =>
      advances_pure hi.standing hle₂
  iterate 5
    exact hi.bind (moves_indexOf hi operand) fun _ o ho hi hle₂ =>
      advances_pure hi.standing hle₂
  · exact hi.bind (moves_memberOf hi.standing operand) fun _ o ho hi hle₂ =>
      advances_pure hi.standing hle₂
  iterate 2
    exact hi.bind (advances_steppedAfter hi.standing operand) fun _ o ho hi hle₂ =>
      advances_pure hi.standing (by simp only [Sum.elim_inr]; omega)
  · exact advances_pure hi.standing (by simp only [Sum.elim_inr]; omega)

/-- A step in front. -/
theorem moves_steppedBefore : Moves s p (steppedBefore inner) (steppedBefore inner') := by
  refine hi.bind (advances_any hi.standing) fun _ q hq hi hle => ?_
  refine hi.bind (moves_postfixed hi) fun target r hr hi hle₁ => ?_
  split
  · exact advances_pure hi.standing (by omega)
  · exact .never fun _ => advances_throw hi.standing (by rintro ⟨⟩)

/-- A sign. -/
theorem moves_signed (operator : UnaryOp) :
    Moves s p (signed inner operator) (signed inner' operator) := by
  refine hi.bind (advances_any hi.standing) fun _ q hq hi hle => ?_
  exact hi.last hi.moves_operand fun _ => by omega

/-- What stands in front. -/
theorem moves_unary : Moves s p (unary inner) (unary inner') := by
  refine advances_kind_bind ?_
  split
  · exact moves_signed hi .not
  · exact moves_signed hi .negate
  · exact moves_signed hi .bitNot
  · exact (advances_any hi.standing).bind fun _ q hq hle =>
      (hi.kept hq).moves_operand.mono fun _ => by omega
  iterate 2 exact moves_steppedBefore hi
  · exact moves_postfixed hi

omit hi in
/-- One level of operators. -/
theorem moves_chain {operators : List (Kind × Operator)} {operand operand' : Parse Node}
    (hp : p.Standing)
    (h : ∀ q, p.Kept q → Moves s q operand operand') :
    Moves s p (chain operators operand) (chain operators operand') := by
  refine (h p hp.kept).bind fun first q hq hle => ?_
  have hq' := hp.onward hq.toOnward
  refine advances_loop hq' fun r lhs hr => advances_kind_bind ?_
  have hr' := hq'.onward hr.toOnward
  split
  · have hle₁ := hr.le
    exact advances_pure hr' (by simp only [Sum.elim_inr]; omega)
  · refine (advances_any hr').bind fun _ o ho hle₁ => ?_
    have ho' := hr'.onward ho.toOnward
    exact (h o ((hq.trans hr).trans ho)).bind fun _ m hm hle₂ =>
      advances_pure (ho'.onward hm.toOnward) (by simp only [Sum.elim_inl]; omega)

omit hi in
/-- All levels of operators. -/
theorem moves_ladder {operand operand' : Parse Node} (hp : p.Standing)
    (h : ∀ q, p.Kept q → Moves s q operand operand') :
    ∀ (levels : List (List (Kind × Operator))) (q : Parser), p.Kept q →
      Moves s q (ladder operand levels) (ladder operand' levels)
  | [], q, hq => h q hq
  | _ :: tighter, _, hq => moves_chain (hp.onward hq.toOnward) fun r hr =>
    moves_ladder hp h tighter r (hq.trans hr)

/-- A conditional. -/
theorem moves_conditional : Moves s p (conditional inner) (conditional inner') := by
  refine hi.bind (moves_ladder hi.standing (fun q hq => moves_unary (hi.kept hq)) _ p
    hi.standing.kept) fun condition q hq hi hle => advances_check_bind ?_
  split
  · refine hi.bind (advances_any hi.standing) fun _ r hr hi hle₁ => ?_
    refine hi.bind hi.moves_expression fun thenValue o ho hi hle₂ => ?_
    refine hi.eat (by decide) fun _ m hm hi hle₃ => ?_
    exact hi.last hi.moves_expression fun _ => by omega
  · exact advances_pure hi.standing hle

/-! ### Parts of statements -/

/-- An expression that may be left out, and what comes after it. -/
theorem advances_option {n : Nat} {found : Bool} {f f' : Option Node → Parse β}
    (hf : ∀ value q, p.Kept q → Advances s q (fun _ => n) (f value) (f' value)) :
    Advances s p (fun _ => n)
      (if found = true then some <$> inner.expression >>= f else pure none >>= f)
      (if found = true then some <$> inner'.expression >>= f' else pure none >>= f') := by
  split
  · exact (hi.moves_expression.map (u := fun _ => p.current + 1) hi.standing
      fun _ => Nat.le_refl _).bind fun value q hq _ => hf value q hq
  · exact hf none p hi.standing.kept

/-- An assignment or a call. -/
theorem moves_simple : Moves s p (simple inner) (simple inner') := by
  refine advances_position_bind ?_
  refine hi.bind (moves_unary hi) fun target q hq hi hle => advances_kind_bind ?_
  split
  · split
    · refine hi.bind (advances_any hi.standing) fun _ r hr hi hle₁ => ?_
      exact hi.last hi.moves_expression fun _ => by omega
    · exact .never fun _ => advances_fail hi.standing (by rintro ⟨⟩)
  · split
    iterate 2 exact advances_pure hi.standing hle
    · exact advances_unexpected hi.standing

/-- A name with its value. -/
theorem moves_binding : Moves s p (binding inner) (binding inner') := by
  refine hi.bind (moves_eatName hi.standing) fun token q hq hi hle => ?_
  refine hi.bind (advances_skip hi.standing _) fun found r hr hi hle₁ => ?_
  refine advances_option hi fun value o ho => advances_pure (hi.kept ho).standing ?_
  have hle₂ := ho.le
  omega

/-- A declaration. -/
theorem moves_declaration : Moves s p (declaration inner) (declaration inner') := by
  refine hi.eat (by decide) fun _ q hq hi hle => ?_
  exact hi.last (moves_separated hi.standing fun r hr => moves_binding (hi.kept hr))
    fun _ => by omega

/-- Statements, if there are any. -/
theorem advances_statements {closes : Kind → Bool} : Advances false p (fun _ => p.current)
    (manyUntil closes inner.statement) (manyUntil closes inner'.statement) :=
  advances_manyUntil hi.standing (fun _ hq _ => hq.le) fun q hq => hi.statement q hq.toOnward

/-- An arm of a switch. -/
theorem moves_switchCase : Moves false p (switchCase inner) (switchCase inner') := by
  refine advances_position_bind (advances_kind_bind ?_)
  have hrest : ∀ (label : Option Node) (q : Parser), p.Kept q →
      Advances false q (fun _ => p.current + 1) (do
        let _ ← eat .colon
        let body ← manyUntil (fun kind => kind ∈ [.kwCase, .kwDefault, .rightBrace, .endOfFile])
          inner.statement
        return ({ label, body, position := p.head.position } : Case Node)) (do
        let _ ← eat .colon
        let body ← manyUntil (fun kind => kind ∈ [.kwCase, .kwDefault, .rightBrace, .endOfFile])
          inner'.statement
        return ({ label, body, position := p.head.position } : Case Node)) := by
    intro label q hq
    have hle := hq.le
    have hi := hi.kept hq
    refine hi.eat (by decide) fun _ r hr hi hle₁ => ?_
    exact hi.last (advances_statements hi) fun _ => by omega
  split
  · refine hi.bind (advances_any hi.standing) fun _ q hq hi _ => ?_
    exact (hi.moves_expression.map (u := fun _ => q.current) hi.standing
      fun _ => Nat.le_succ _).bind fun label r hr _ => hrest label r (hq.trans hr)
  · exact (advances_any hi.standing).bind fun _ q hq _ => hrest none q hq
  · exact .never fun _ => advances_unexpected hi.standing

/-! ### Statements

So does each form of a statement.
-/

/-- The body of a loop is read one loop further in. -/
theorem Ready.moves_body : Moves false p (inLoop inner.statement)
    (inLoop inner'.statement) :=
  advances_inLoop (hi.statement _ ⟨rfl, Nat.le_refl _, hi.standing.lt, rfl⟩)

/-- A block. -/
theorem moves_block : Moves false p (block inner) (block inner') := by
  refine hi.eat (by decide) fun _ q hq hi hle => ?_
  refine hi.bind (advances_statements hi) fun _ r hr hi hle₁ => ?_
  exact hi.last (moves_eat hi.standing (by decide)) fun _ => by omega

/-- A condition. -/
theorem moves_ifElse : Moves false p (ifElse inner) (ifElse inner') := by
  refine hi.eat (by decide) fun _ q hq hi hle => ?_
  refine hi.bind hi.moves_expression fun _ r hr hi hle₁ => ?_
  refine hi.bind (advances_skip hi.standing _) fun _ o ho hi hle₂ => ?_
  refine hi.bind (hi.statement o hi.here) fun _ m hm hi hle₃ => ?_
  refine hi.bind (advances_skip hi.standing _) fun _ l hl hi hle₄ => ?_
  split
  · refine ((hi.statement l hi.here).map (u := fun _ => l.current) hi.standing
      fun _ => Nat.le_succ _).bind fun _ k hk hle₅ => ?_
    exact advances_pure (hi.kept hk).standing (by omega)
  · exact advances_pure hi.standing (by omega)

/-- A loop with a test. -/
theorem moves_whileDo : Moves false p (whileDo inner) (whileDo inner') := by
  refine hi.eat (by decide) fun _ q hq hi hle => ?_
  refine hi.bind hi.moves_expression fun _ r hr hi hle₁ => ?_
  refine hi.bind (advances_skip hi.standing _) fun _ o ho hi hle₂ => ?_
  exact hi.last hi.moves_body fun _ => by omega

/-- A loop with its test last. -/
theorem moves_doUntil : Moves false p (doUntil inner) (doUntil inner') := by
  refine hi.eat (by decide) fun _ q hq hi hle => ?_
  refine hi.bind hi.moves_body fun _ r hr hi hle₁ => ?_
  refine hi.eat (by decide) fun _ o ho hi hle₂ => ?_
  refine hi.bind hi.moves_expression fun _ m hm hi hle₃ => ?_
  exact hi.last (advances_skip hi.standing _) fun _ => by omega

/-- A loop with a count. -/
theorem moves_repeatTimes : Moves false p (repeatTimes inner) (repeatTimes inner') := by
  refine hi.eat (by decide) fun _ q hq hi hle => ?_
  refine hi.bind hi.moves_expression fun _ r hr hi hle₁ => ?_
  exact hi.last hi.moves_body fun _ => by omega

/-- A loop with clauses. -/
theorem moves_forLoop : Moves false p (forLoop inner) (forLoop inner') := by
  refine hi.eat (by decide) fun start q hq hi hle => ?_
  refine hi.eat (by decide) fun _ r hr hi hle₁ => ?_
  have hinit : ∀ o, r.Kept o → Moves false o
      (do if ← check .kwVar then declaration inner else simple inner)
      (do if ← check .kwVar then declaration inner' else simple inner') := by
    intro o ho
    refine advances_check_bind ?_
    split
    · exact moves_declaration (hi.kept ho)
    · exact moves_simple (hi.kept ho)
  refine hi.bind (advances_listUntil hi.standing hinit) fun init o ho hi hle₂ => ?_
  refine hi.eat (by decide) fun _ m hm hi hle₃ => advances_check_bind ?_
  have hrest : ∀ (condition : Option Node) (l : Parser), m.Kept l →
      Advances false l (fun _ => p.current + 1) (do
        let _ ← eat .semicolon
        let step ← listUntil .rightParen (simple inner)
        let _ ← eat .rightParen
        return Node.forLoop start.position init condition step (← inLoop inner.statement)) (do
        let _ ← eat .semicolon
        let step ← listUntil .rightParen (simple inner')
        let _ ← eat .rightParen
        return Node.forLoop start.position init condition step (← inLoop inner'.statement)) := by
    intro condition l hl
    have hle₄ := hl.le
    have hi := hi.kept hl
    refine hi.eat (by decide) fun _ k hk hi hle₅ => ?_
    refine hi.bind (advances_listUntil hi.standing fun j hj => moves_simple (hi.kept hj))
      fun _ j hj hi hle₆ => ?_
    refine hi.eat (by decide) fun _ i hin hi hle₇ => ?_
    exact hi.last hi.moves_body fun _ => by omega
  split
  · exact hrest none m hi.standing.kept
  · exact (hi.moves_expression.map (u := fun _ => m.current) hi.standing
      fun _ => Nat.le_succ _).bind fun condition l hl _ => hrest condition l hl

/-- The arms of a switch are read with one more construct around them that can be left. -/
theorem moves_switch : Moves false p (switch inner) (switch inner') := by
  refine hi.eat (by decide) fun _ q hq hi hle => ?_
  refine hi.bind hi.moves_expression fun _ r hr hi hle₁ => ?_
  refine hi.eat (by decide) fun _ o ho hi hle₂ => ?_
  have hin : Ready { o with breakableDepth := o.breakableDepth + 1 } inner inner' :=
    hi.onward ⟨rfl, Nat.le_refl _, hi.standing.lt, rfl⟩
  refine advances_between (advances_manyUntil hin.standing (fun _ hm _ => hm.le) fun m hm =>
    moves_switchCase (hin.kept hm)) (fun m hm => ⟨hm.tokens, hm.le, hm.lt, hm.nesting⟩)
    (fun m hm => ⟨⟨hm.tokens, hm.le, hm.lt, hm.nesting⟩, hm.loops, ?_⟩) (fun _ => rfl)
    fun _ m hm hle₃ => ?_
  · rw [hm.breakables]
    rfl
  · have hi := hi.kept hm
    have hle₄ := hm.le
    exact hi.last (moves_eat hi.standing (by decide)) fun _ => by omega

/-- A loop over instances. -/
theorem moves_withEach : Moves false p (withEach inner) (withEach inner') := by
  refine hi.eat (by decide) fun start q hq hi hle => ?_
  refine hi.bind (advances_skip hi.standing _) fun _ r hr hi hle₁ => ?_
  have hrest : ∀ (targets : List Node) (o : Parser), r.Kept o →
      Advances false o (fun _ => p.current + 1)
        (do return Node.withEach start.position targets (← inLoop inner.statement))
        (do return Node.withEach start.position targets (← inLoop inner'.statement)) := by
    intro targets o ho
    have hle₂ := ho.le
    have hi := hi.kept ho
    exact hi.last hi.moves_body fun _ => by omega
  split
  · refine (moves_separated hi.standing fun o ho => (hi.kept ho).moves_expression).bind
      fun targets o ho _ => ?_
    exact (moves_eat (hi.kept ho).standing (by decide)).bind fun _ m hm _ =>
      hrest targets m (ho.trans hm)
  · exact hi.moves_expression.bind fun target o ho _ => hrest [target] o ho

omit hi in
/-- Global variables. -/
theorem moves_globals (hp : p.Standing) : Moves s p globals globals := by
  refine (moves_eat hp (by decide)).bind fun _ q hq hle => ?_
  have hq' := hp.onward hq.toOnward
  refine (moves_separated hq' fun r hr => moves_eatName (hq'.onward hr.toOnward)).bind
    fun _ r hr hle₁ => ?_
  have hr' := hq'.onward hr.toOnward
  exact (advances_skip hr' _).bind fun _ o ho hle₂ =>
    advances_pure (hr'.onward ho.toOnward) (by omega)

/-- An enumeration. -/
theorem moves_enumeration : Moves s p (enumeration inner) (enumeration inner') := by
  refine hi.eat (by decide) fun _ q hq hi hle => ?_
  refine hi.bind (moves_eatName hi.standing) fun _ r hr hi hle₁ => ?_
  refine hi.eat (by decide) fun _ o ho hi hle₂ => ?_
  refine hi.bind (advances_listUntil hi.standing fun m hm => moves_binding (hi.kept hm))
    fun _ m hm hi hle₃ => ?_
  refine hi.eat (by decide) fun _ l hl hi hle₄ => ?_
  exact hi.last (advances_skip hi.standing _) fun _ => by omega

/-- A return. -/
theorem moves_returning : Moves s p (returning inner) (returning inner') := by
  refine hi.eat (by decide) fun start q hq hi hle => ?_
  refine advances_kind_bind ?_
  have hrest : ∀ (value : Option Node) (r : Parser), q.Kept r →
      Advances s r (fun _ => p.current + 1) (do
        let _ ← skip .semicolon
        return Node.returning start.position value) (do
        let _ ← skip .semicolon
        return Node.returning start.position value) := by
    intro value r hr
    have hle₁ := hr.le
    have hi := hi.kept hr
    exact hi.last (advances_skip hi.standing _) fun _ => by omega
  split
  iterate 3 exact hrest none q hi.standing.kept
  · exact (hi.moves_expression.map (u := fun _ => q.current) hi.standing
      fun _ => Nat.le_succ _).bind fun value r hr _ => hrest value r hr

omit hi in
/-- A word by itself, with a semicolon that may come after it. -/
theorem moves_word (hp : p.Standing) (h : p.head.kind ≠ .endOfFile) (node : Node) : Moves s p (do
      let _ ← next
      let _ ← skip .semicolon
      return node) (do
      let _ ← next
      let _ ← skip .semicolon
      return node) := by
  refine (moves_token hp h).bind fun _ q hq hle => ?_
  have hq' := hp.onward hq.toOnward
  exact (advances_skip hq' _).bind fun _ r hr hle₁ =>
    advances_pure (hq'.onward hr.toOnward) (by omega)

/-- A statement. -/
theorem moves_statement : Moves false p (statement inner) (statement inner') := by
  have hp := hi.standing
  have hend : ∀ {x x' : Parse Node}, Moves false p x x' →
      Moves false p (do
        let node ← x
        let _ ← skip .semicolon
        return node) (do
        let node ← x'
        let _ ← skip .semicolon
        return node) := fun hx => hx.bind fun _ q hq hle =>
    have hq' := hp.onward hq.toOnward
    (advances_skip hq' _).bind fun _ r hr hle₁ => advances_pure (hq'.onward hr.toOnward) (by omega)
  refine advances_position_bind (advances_kind_bind ?_)
  split
  next hk =>
    exact (moves_token hp (by rw [hk]; decide)).bind fun _ q hq hle =>
      advances_pure (hp.onward hq.toOnward) hle
  · exact moves_block hi
  · exact moves_ifElse hi
  · exact moves_whileDo hi
  · exact moves_doUntil hi
  · exact moves_repeatTimes hi
  · exact moves_forLoop hi
  · exact moves_switch hi
  · exact moves_withEach hi
  · exact hend (moves_declaration hi)
  · exact moves_globals hp
  · exact moves_enumeration hi
  · exact moves_returning hi
  next hk => exact moves_word hp (by rw [hk]; decide) _
  next hk =>
    refine advances_get_bind ?_
    split
    · exact .never fun _ => advances_fail hp (by rintro ⟨⟩)
    · exact moves_word hp (by rw [hk]; decide) _
  next hk =>
    refine advances_get_bind ?_
    split
    · exact .never fun _ => advances_fail hp (by rintro ⟨⟩)
    · exact moves_word hp (by rw [hk]; decide) _
  · exact advances_fail hp (by rintro ⟨⟩)
  · exact hend (moves_simple hi)

/-! ### Nesting -/

omit hi

/-- The actions of a grammar with enough levels go on, and more levels change nothing. -/
theorem ready_grammar : ∀ {levels levels' : Nat} {p : Parser}, p.Standing →
    p.nesting ≤ maxNesting → maxNesting < p.nesting + levels → maxNesting < p.nesting + levels' →
    Ready p (grammar levels) (grammar levels')
  | 0, _, p, _, _, h, _ => by omega
  | _, 0, p, _, _, _, h => by omega
  | levels + 1, levels' + 1, p, hp, hle, h, h' => by
    -- What is read at this level is read by the grammars with one level less at the next.
    have hinner : ∀ q, p.Onward q → q.nesting < maxNesting →
        Ready { q with nesting := q.nesting + 1 } (grammar levels) (grammar levels') := by
      intro q hq hlt
      have hnesting := hq.nesting
      exact ready_grammar ((hp.onward hq).of_tokens rfl hq.lt) hlt (by dsimp only; omega)
        (by dsimp only; omega)
    exact ⟨hp,
      fun q hq => advances_nested (hp.onward hq) fun hlt => moves_statement (hinner q hq hlt),
      fun q hq => advances_nested (hp.onward hq) fun hlt => moves_conditional (hinner q hq hlt),
      fun q hq => advances_nested (hp.onward hq) fun hlt => moves_unary (hinner q hq hlt)⟩

end Parse

namespace Parser

variable {α : Type} {p : Parser}

/-- Reading something ends, at a token that is not before and on the same level. If it succeeds, it
has read at least one token, and all counters are as before. -/
structure Progress (p : Parser) (x : Parse α) : Prop where
  ends : ∀ diagnostic q, x.run.run p = (.error diagnostic, q) → diagnostic.fault ≠ .endless
  onward : ∀ result q, x.run.run p = (result, q) → p.Onward q ∧ q.nesting ≤ maxNesting
  moves : ∀ a q, x.run.run p = (.ok a, q) → p.Kept q ∧ p.current < q.current

/-- An action that moves makes progress. -/
theorem progress_of_advances {s : Bool} {x x' : Parse α} (hn : p.nesting ≤ maxNesting)
    (h : Parse.Moves s p x x') : p.Progress x where
  ends diagnostic q hrun := (h.fails diagnostic q hrun).1
  onward result q hrun := by
    have hq : p.Onward q := by
      cases result with
      | error diagnostic => exact (h.fails diagnostic q hrun).2.1
      | ok a => exact (h.gives a q hrun).1.toOnward
    exact ⟨hq, hq.nesting ▸ hn⟩
  moves := h.gives

/-- The actions do at a parser what those of the grammar do. -/
structure Agrees (inner : Inner) (q : Parser) : Prop where
  statement : inner.statement.run.run q = statement.run.run q
  expression : inner.expression.run.run q = expression.run.run q
  operand : inner.operand.run.run q = (Parse.grammar (maxNesting + 1)).operand.run.run q

/-- All that is read inside of something is read at a token that is not before, one level further in
and not too deep: what the actions do at any other parser does not matter. -/
structure Confined (p : Parser) : Prop where
  statement : ∀ inner : Inner,
    (∀ q, { p with nesting := p.nesting + 1 }.Onward q → q.nesting ≤ maxNesting → Agrees inner q) →
    (Parse.nested (Parse.statement inner)).run.run p = Parser.statement.run.run p
  expression : ∀ inner : Inner,
    (∀ q, { p with nesting := p.nesting + 1 }.Onward q → q.nesting ≤ maxNesting → Agrees inner q) →
    (Parse.nested (Parse.conditional inner)).run.run p = Parser.expression.run.run p
  operand : ∀ inner : Inner,
    (∀ q, { p with nesting := p.nesting + 1 }.Onward q → q.nesting ≤ maxNesting → Agrees inner q) →
    (Parse.nested (Parse.unary inner)).run.run p =
      (Parse.grammar (maxNesting + 1)).operand.run.run p
  script : ∀ item : Parse Node, (∀ q, p.Kept q → item.run.run q = Parser.statement.run.run q) →
    (Parse.manyUntil (· = .endOfFile) item).run.run p =
      (Parse.manyUntil (· = .endOfFile) Parser.statement).run.run p

/-- Actions that agree with the grammar where they are asked for go on as it does. -/
theorem ready_of_agrees (hp : p.Standing) {inner : Inner} (hlt : p.nesting < maxNesting)
    (h : ∀ q, { p with nesting := p.nesting + 1 }.Onward q → q.nesting ≤ maxNesting →
      Agrees inner q) :
    Parse.Ready { p with nesting := p.nesting + 1 } (Parse.grammar maxNesting) inner := by
  have hready : Parse.Ready { p with nesting := p.nesting + 1 } (Parse.grammar maxNesting)
      (Parse.grammar (maxNesting + 1)) :=
    Parse.ready_grammar (hp.of_tokens rfl hp.lt) hlt (by dsimp only; omega) (by dsimp only; omega)
  have hagrees : ∀ q, { p with nesting := p.nesting + 1 }.Onward q → Agrees inner q :=
    fun q hq => h q hq (hq.nesting ▸ hlt)
  refine ⟨hready.standing, fun q hq => ?_, fun q hq => ?_, fun q hq => ?_⟩
  · have hx := hready.statement q hq
    exact ⟨(hagrees q hq).statement.trans hx.same, hx.gives, hx.fails⟩
  · have hx := hready.expression q hq
    exact ⟨(hagrees q hq).expression.trans hx.same, hx.gives, hx.fails⟩
  · have hx := hready.operand q hq
    exact ⟨(hagrees q hq).operand.trans hx.same, hx.gives, hx.fails⟩

/-- The grammar of the parser goes on. -/
theorem ready (hp : p.Standing) (hn : p.nesting ≤ maxNesting) :
    Parse.Ready p (Parse.grammar (maxNesting + 1)) (Parse.grammar (maxNesting + 1)) :=
  Parse.ready_grammar hp hn (by omega) (by omega)

/-- Statements up to the end are read up to the last token. -/
theorem advances_script (hp : p.Standing) (hn : p.nesting ≤ maxNesting) {item : Parse Node}
    (h : ∀ q, p.Kept q → item.run.run q = statement.run.run q) :
    Parse.Advances false p (fun _ => p.tokens.size - 1)
      (Parse.manyUntil (· = .endOfFile) statement) (Parse.manyUntil (· = .endOfFile) item) := by
  refine Parse.advances_manyUntil hp (fun q hq hend => ?_) fun q hq => ?_
  · have hlast := (hp.onward hq.toOnward).kind_head.1 (of_decide_eq_true hend)
    rw [hq.size] at hlast
    omega
  · have hx := (ready hp hn).statement q hq.toOnward
    exact ⟨h q hq, hx.gives, hx.fails⟩

/-- So all that is read is confined. -/
theorem confined (hp : p.Standing) (hn : p.nesting ≤ maxNesting) : p.Confined where
  statement _ h := (Parse.advances_nested hp fun hlt =>
    Parse.moves_statement (ready_of_agrees hp hlt h)).same
  expression _ h := (Parse.advances_nested (s := true) hp fun hlt =>
    Parse.moves_conditional (ready_of_agrees hp hlt h)).same
  operand _ h := (Parse.advances_nested (s := true) hp fun hlt =>
    Parse.moves_unary (ready_of_agrees hp hlt h)).same
  script _ h := (advances_script hp hn h).same

/-- A parser at one of its tokens, of which only the last ends the source, makes progress with every
statement and expression. Its counters are as before, but for those of loops and of constructs that
can be left after a statement that cannot be read. A script that can be read is read up to the last
token. -/
theorem progress (p : Parser) (hp : p.Standing) (hn : p.nesting ≤ maxNesting) :
    p.Progress statement ∧ p.Progress expression ∧ p.Confined ∧
    (∀ diagnostic q, expression.run.run p = (.error diagnostic, q) → p.Kept q) ∧
    (∀ diagnostic q, script.run.run p = (.error diagnostic, q) →
      diagnostic.fault ≠ .endless ∧ p.Onward q) ∧
    ∀ read q, script.run.run p = (.ok read, q) → p.Kept q ∧ q.current + 1 = q.tokens.size := by
  have hready := ready hp hn
  have hstatement := hready.statement p hready.here
  have hexpression := hready.expression p hready.here
  have hscript : Parse.Advances false p (fun _ => p.tokens.size - 1) script script :=
    (advances_script hp hn fun _ _ => rfl).bind fun _ q hq hle =>
      Parse.advances_pure (hp.onward hq.toOnward) hle
  refine ⟨progress_of_advances hn hstatement, progress_of_advances hn hexpression,
    confined hp hn, fun diagnostic q hrun => ?_, fun diagnostic q hrun => ?_, fun read q hrun => ?_⟩
  · exact (hexpression.fails diagnostic q hrun).2.2 rfl
  · obtain ⟨hfault, hq, -⟩ := hscript.fails diagnostic q hrun
    exact ⟨hfault, hq⟩
  · obtain ⟨hq, hle⟩ := hscript.gives read q hrun
    have hlt := hq.lt
    have hsize := hq.size
    exact ⟨hq, by omega⟩

/-- In an arm of a switch, after `break;` and before `f()`. -/
def afterBreak : Parser where
  tokens := #[⟨.kwBreak, "break", ⟨1, 1, 0⟩⟩, ⟨.semicolon, ";", ⟨1, 6, 5⟩⟩,
    ⟨.identifier, "f", ⟨1, 8, 7⟩⟩, ⟨.leftParen, "(", ⟨1, 9, 8⟩⟩, ⟨.rightParen, ")", ⟨1, 10, 9⟩⟩,
    ⟨.endOfFile, "", ⟨1, 11, 10⟩⟩]
  current := 2
  breakableDepth := 1
  nesting := 3

/-- A parser in the middle of a switch makes progress. -/
theorem progress_afterBreak : afterBreak.Standing ∧ afterBreak.nesting ≤ maxNesting ∧
    afterBreak.Progress statement ∧ afterBreak.Progress expression := by
  have hp : afterBreak.Standing := ⟨by decide, by decide⟩
  have hn : afterBreak.nesting ≤ maxNesting := by decide
  obtain ⟨hstatement, hexpression, -⟩ := progress afterBreak hp hn
  exact ⟨hp, hn, hstatement, hexpression⟩

end Parser

end Gml
