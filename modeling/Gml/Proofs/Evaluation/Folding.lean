import Gml.Proofs.Evaluation.Direct
import Gml.Proofs.Machine.Step
import Gml.Proofs.Number.Quotient
import Gml.Tree.Scope

/-!
# Folding agrees with evaluation

The constant value of an expression is what its evaluation gives, where all numbers on the way are
integers that machine numbers can be. The two go their own ways: constants are 64-bit integers, and
values are machine numbers. `Constant.binary_agrees` and `Constant.unary_agrees` compare them operator
by operator, and `Node.folding_agrees` does so for whole expressions.

They also differ in what counts as true. For a constant it is every number but zero, and for a value
every number above one half. So the numbers that are tested must not be negative.
-/

namespace Gml

open Exec Number

namespace Constant

variable {x y : Float} {a b c : Int64} {m : Machine}

/-! ### Operators -/

/-- A number that fits is itself. -/
theorem toInt_of_fit {n : Int} (h : fit? n = some c) : c.toInt = n := by
  unfold fit? at h
  split at h
  next hfit =>
    cases h
    change -9223372036854775808 ≤ n ∧ n ≤ 9223372036854775807 at hfit
    exact Int64.toInt_ofInt_of_le (by omega) (by omega)
  · cases h

/-- A truth value is one or zero. -/
theorem is_ofBool (truth : Bool) : Is (if truth then 1 else 0) (ofBool truth).toInt := by
  cases truth
  · exact is_ofNat (n := 0) (by decide)
  · exact is_ofNat (n := 1) (by decide)

/-- The bits of a whole number are its own. -/
theorem bits_eq (hx : Is x a.toInt) (ha : Exact a.toInt) : bits x = a := by
  rw [hx.bits ha, Int64.ofInt_toInt]

/-- Bits give a whole number back. -/
theorem is_ofBits (ha : Exact a.toInt) : Is (ofBits a) a.toInt :=
  is_ofInt ha

/-- Numbers are ordered as the integers that they are. -/
theorem order_eq (hx : Is x a.toInt) (hy : Is y b.toInt) :
    (Value.real x).order? (.real y) = some (compare a.toInt b.toInt) := by
  unfold Value.order?
  dsimp only
  rcases Int.lt_trichotomy a.toInt b.toInt with h | h | h
  · rw [if_pos ((hx.lt_iff hy).2 h), Int.compare_eq_lt.2 h]
  · rw [if_neg (fun hlt => by have := (hx.lt_iff hy).1 hlt; omega), if_pos ((hx.beq_iff hy).2 h),
      Int.compare_eq_eq.2 h]
  · rw [if_neg (fun hlt => by have := (hx.lt_iff hy).1 hlt; omega),
      if_neg (fun heq => by have := (hx.beq_iff hy).1 heq; omega), if_pos ((hy.lt_iff hx).2 h),
      Int.compare_eq_gt.2 h]

/-- Whole numbers are compared as such. -/
theorem compares_eq (hx : Is x a.toInt) (hy : Is y b.toInt) (comparison : Comparison) :
    compares comparison (.real x) (.real y) =
      pure (comparison.holds (compare a.toInt b.toInt)) := by
  unfold compares
  rw [order_eq hx hy]

/-- The operator gives the number on every machine, and leaves the machine as it is. -/
def Returns (action : Exec Value) (n : Int) : Prop :=
  ∃ z, (∀ m, action.on m = (.ok (.real z), m)) ∧ Is z n

/-- A comparison of numbers is that of the integers. -/
theorem returns_compares (hx : Is x a.toInt) (hy : Is y b.toInt) {comparison : Comparison}
    {P : Prop} [Decidable P] (h : comparison.holds (compare a.toInt b.toInt) = true ↔ P) :
    Returns (do return .ofBool (← compares comparison (.real x) (.real y))) (ofBool P).toInt := by
  refine ⟨if decide P then 1 else 0, fun m => ?_, is_ofBool P⟩
  rw [compares_eq hx hy, Bool.eq_iff_iff.2 (h.trans (decide_eq_true_iff (p := P)).symm)]
  rfl

/-- A whole number is returned. -/
theorem returns_real {z : Float} {n : Int} (h : Is z n) : Returns (return .real z) n :=
  ⟨z, fun _ => rfl, h⟩

/-- What is returned can be used. -/
theorem Returns.bind {action : Exec Value} {f : Value → Exec Value} {n k : Int}
    (h : Returns action n) (hf : ∀ z, Is z n → Returns (f (.real z)) k) :
    Returns (action >>= f) k := by
  obtain ⟨z, hz, hn⟩ := h
  obtain ⟨w, hw, hk⟩ := hf z hn
  refine ⟨w, fun m => ?_, hk⟩
  rw [on_bind, hz m, thenOn_ok, hw m]

/-- A truth value is returned. -/
theorem returns_ofBool (truth : Bool) :
    Returns (return .ofBool truth) (ofBool truth).toInt :=
  returns_real (is_ofBool truth)

/-- An operation on bits is returned. -/
theorem returns_bits (hx : Is x a.toInt) (hy : Is y b.toInt) (ha : Exact a.toInt)
    (hb : Exact b.toInt) (f : Int64 → Int64 → Int64) (hc : Exact (f a b).toInt) :
    Returns (return .real (ofBits (f (bits x) (bits y)))) (f a b).toInt := by
  rw [bits_eq hx ha, bits_eq hy hb]
  exact returns_real (is_ofBits hc)

/-- A quotient is truncated. -/
theorem quotient_cases (h : quotient? a b = some c) :
    b.toInt ≠ 0 ∧ c.toInt = a.toInt.tdiv b.toInt := by
  obtain ⟨hb, h⟩ := Option.ite_none_left_eq_some.1 h
  exact ⟨fun h0 => hb (Int64.toInt_inj.1 h0), toInt_of_fit h⟩

/-- A remainder is what is left. -/
theorem remainder_cases (h : remainder? a b = some c) :
    b.toInt ≠ 0 ∧ c.toInt = a.toInt.tmod b.toInt := by
  obtain ⟨hsome, h⟩ := Option.ite_none_left_eq_some.1 h
  rw [Option.isNone_iff_eq_none] at hsome
  obtain ⟨d, hd⟩ := Option.ne_none_iff_exists'.1 hsome
  exact ⟨(quotient_cases hd).1, toInt_of_fit h⟩

/-- An exact quotient leaves nothing. -/
theorem exactQuotient_cases (h : exactQuotient? a b = some c) :
    b.toInt ≠ 0 ∧ b.toInt ∣ a.toInt ∧ c.toInt = a.toInt.tdiv b.toInt := by
  obtain ⟨hrest, h⟩ := Option.ite_none_right_eq_some.1 h
  obtain ⟨hne, hquotient⟩ := quotient_cases h
  exact ⟨hne, Int.dvd_of_tmod_eq_zero (remainder_cases hrest).2.symm, hquotient⟩

/-- An operator on constants gives what it gives on values. -/
theorem binary_agrees {operator : BinaryOp} (hx : Is x a.toInt) (hy : Is y b.toInt)
    (ha : Exact a.toInt) (hb : Exact b.toInt) (hc : Exact c.toInt)
    (h : binary? a b operator = some c) :
    Returns (operator.apply (.real x) (.real y)) c.toInt := by
  cases operator with
  | add =>
    rw [toInt_of_fit h] at hc ⊢
    exact returns_real (hx.add hy hc)
  | subtract =>
    rw [toInt_of_fit h] at hc ⊢
    exact returns_real (hx.sub hy hc)
  | multiply =>
    rw [toInt_of_fit h] at hc ⊢
    exact returns_real (hx.mul hy hc)
  | divide =>
    obtain ⟨hne, hrest, hquotient⟩ := exactQuotient_cases h
    rw [hquotient]
    exact returns_real (hx.div hy ha hb hne hrest)
  | intDivide =>
    obtain ⟨hne, hquotient⟩ := quotient_cases h
    rw [hquotient]
    exact returns_real (hx.truncate_div hy ha hb hne)
  | modulo =>
    obtain ⟨hne, hrest⟩ := remainder_cases h
    rw [hrest]
    exact returns_real (hx.remainder hy ha hne)
  | bitAnd =>
    cases h
    exact returns_bits hx hy ha hb (· &&& ·) hc
  | bitOr =>
    cases h
    exact returns_bits hx hy ha hb (· ||| ·) hc
  | bitXor =>
    cases h
    exact returns_bits hx hy ha hb (· ^^^ ·) hc
  | shiftLeft =>
    obtain ⟨-, h⟩ := Option.ite_none_right_eq_some.1 h
    cases h
    exact returns_bits hx hy ha hb (· <<< ·) hc
  | shiftRight =>
    obtain ⟨-, h⟩ := Option.ite_none_right_eq_some.1 h
    cases h
    exact returns_bits hx hy ha hb (· >>> ·) hc
  | equal | notEqual =>
    cases h
    apply returns_compares hx hy
    simp [Comparison.holds, Int64.toInt_inj]
  | less | greaterEqual =>
    cases h
    apply returns_compares hx hy
    simp [Comparison.holds, Int.compare_eq_lt]
  | lessEqual | greater =>
    cases h
    apply returns_compares hx hy
    simp [Comparison.holds, Int.compare_eq_gt]

/-- A number that is not negative counts as true if its constant does. -/
theorem isTrue_eq (hx : Is x a.toInt) (h : 0 ≤ a.toInt) : (Value.real x).isTrue = isTrue a := by
  change decide (0.5 < x) = decide (a ≠ 0)
  rw [decide_eq_decide, hx.half_lt_iff, ← Int64.toInt_inj.ne]
  change 0 < a.toInt ↔ a.toInt ≠ 0
  omega

/-- Unary operators agree. -/
theorem unary_agrees {operator : UnaryOp} (hx : Is x a.toInt) (ha : Exact a.toInt)
    (hc : Exact c.toInt) (hnot : operator = .not → 0 ≤ a.toInt)
    (h : unary? a operator = some c) : Returns (operator.apply (.real x)) c.toInt := by
  cases operator with
  | negate =>
    rw [toInt_of_fit h]
    exact returns_real (hx.neg ha)
  | bitNot =>
    cases h
    refine returns_real (z := ofBits (~~~ bits x)) ?_
    rw [bits_eq hx ha]
    exact is_ofBits hc
  | not =>
    cases h
    rw [← isTrue_eq hx (hnot rfl)]
    exact returns_ofBool _

end Constant

/-! ### Expressions -/

/-- Whether the first operand alone decides a logical operation. -/
def LogicalOp.decidedBy (value : Int64) : LogicalOp → Bool
  | and => !Constant.isTrue value
  | or => Constant.isTrue value
  | xor => false

namespace Node

/-- Whether an expression is made of integers, truth values and operators. -/
def isOperation : Node → Bool
  | int .. => true
  | ident _ name _ => name = "true" || name = "false"
  | unary _ _ operand => operand.isOperation
  | binary _ _ lhs rhs => lhs.isOperation && rhs.isOperation
  | logical _ _ lhs rhs => lhs.isOperation && rhs.isOperation
  | conditional _ condition thenValue elseValue =>
    condition.isOperation && thenValue.isOperation && elseValue.isOperation
  | _ => false
termination_by structural node => node

/-- The expression with its truth values looked up. -/
def tagged : Node → Node
  | ident p name _ => ident p name (.intrinsic ((intrinsic? name).getD 0))
  | unary p operator operand => unary p operator operand.tagged
  | binary p operator lhs rhs => binary p operator lhs.tagged rhs.tagged
  | logical p operator lhs rhs => logical p operator lhs.tagged rhs.tagged
  | conditional p condition thenValue elseValue =>
    conditional p condition.tagged thenValue.tagged elseValue.tagged
  | node => node
termination_by structural node => node

section Parts

variable (constants : Constants)

/-- Whether the condition holds. -/
def holds (condition : Node) : Bool :=
  (condition.constant? constants).any Constant.isTrue

/-- Whether the first operand alone decides a logical operation. -/
def decides (lhs : Node) (operator : LogicalOp) : Bool :=
  (lhs.constant? constants).any operator.decidedBy

/-- The expressions that are evaluated on the way to the value of an expression. -/
def evaluated : Node → List Node
  | unary p operator operand => unary p operator operand :: operand.evaluated
  | binary p operator lhs rhs => binary p operator lhs rhs :: lhs.evaluated ++ rhs.evaluated
  | logical p operator lhs rhs =>
    logical p operator lhs rhs :: lhs.evaluated ++
      if lhs.decides constants operator then [] else rhs.evaluated
  | conditional p condition thenValue elseValue =>
    conditional p condition thenValue elseValue :: condition.evaluated ++
      if condition.holds constants then thenValue.evaluated else elseValue.evaluated
  | node => [node]
termination_by structural node => node

/-- The expressions whose truth is asked for on the way to the value of an expression. -/
def tested : Node → List Node
  | unary _ operator operand => (if operator = .not then [operand] else []) ++ operand.tested
  | binary _ _ lhs rhs => lhs.tested ++ rhs.tested
  | logical _ operator lhs rhs =>
    lhs :: lhs.tested ++ if lhs.decides constants operator then [] else rhs :: rhs.tested
  | conditional _ condition thenValue elseValue =>
    condition :: condition.tested ++
      if condition.holds constants then thenValue.tested else elseValue.tested
  | _ => []
termination_by structural node => node

/-- An expression is one of those evaluated. -/
theorem mem_evaluated (node : Node) : node ∈ node.evaluated constants := by
  cases node <;> exact List.mem_cons_self

end Parts

variable {names : Array String} {enums : Enums}

/-- Some expressions have values that satisfy a condition, if they have any. -/
def Values (enums : Enums) (parts : List Node) (p : Int → Prop) : Prop :=
  ∀ part ∈ parts, ∀ w ∈ part.constant? { enums }, p w.toInt

-- Only the one value of a part is looked at, not every `Int64` whether it is the value.
instance (parts : List Node) (p : Int → Prop) [DecidablePred p] : Decidable (Values enums parts p) :=
  have (part : Node) : Decidable (∀ w ∈ part.constant? { enums }, p w.toInt) :=
    Option.decidableForallMem _
  inferInstanceAs (Decidable (∀ part ∈ parts, ∀ w ∈ part.constant? { enums }, p w.toInt))

/-- One part and the others. -/
theorem values_cons {part : Node} {parts : List Node} {p : Int → Prop} :
    Values enums (part :: parts) p ↔
      (∀ w ∈ part.constant? { enums }, p w.toInt) ∧ Values enums parts p :=
  List.forall_mem_cons

/-- Parts in front and behind. -/
theorem values_append {parts parts' : List Node} {p : Int → Prop} :
    Values enums (parts ++ parts') p ↔ Values enums parts p ∧ Values enums parts' p :=
  List.forall_mem_append

/-- Parts that depend on a condition. -/
theorem values_ite {c : Bool} {parts parts' : List Node} {p : Int → Prop} :
    Values enums (if c then parts else parts') p ↔
      (c = true → Values enums parts p) ∧ (c = false → Values enums parts' p) := by
  cases c <;> simp

open Constant

/-- Connectives agree. -/
theorem folding_logical {p : Position} {operator : LogicalOp} {lhs rhs : Node} {a b : Int64}
    (hlhs : Returns (lhs.tagged.evaluate names) a.toInt) (ha : 0 ≤ a.toInt)
    (hrhs : operator.decidedBy a = false →
      Returns (rhs.tagged.evaluate names) b.toInt ∧ 0 ≤ b.toInt) :
    Returns ((Node.logical p operator lhs rhs).tagged.evaluate names)
      (Constant.logical a b operator).toInt := by
  refine hlhs.bind fun x hx => ?_
  have htrue := isTrue_eq hx ha
  cases operator with
  | and =>
    dsimp only [LogicalOp.decidedBy, Constant.logical] at hrhs ⊢
    rw [htrue]
    cases hcases : isTrue a with
    | false => exact returns_ofBool false
    | true =>
      obtain ⟨hr, hb⟩ := hrhs (by rw [hcases]; rfl)
      refine hr.bind fun y hy => ?_
      rw [isTrue_eq hy hb]
      exact returns_ofBool (isTrue b)
  | or =>
    dsimp only [LogicalOp.decidedBy, Constant.logical] at hrhs ⊢
    rw [htrue]
    cases hcases : isTrue a with
    | true => exact returns_ofBool true
    | false =>
      obtain ⟨hr, hb⟩ := hrhs hcases
      refine hr.bind fun y hy => ?_
      rw [isTrue_eq hy hb]
      exact returns_ofBool (isTrue b)
  | xor =>
    obtain ⟨hr, hb⟩ := hrhs rfl
    refine hr.bind fun y hy => ?_
    rw [htrue, isTrue_eq hy hb]
    exact returns_ofBool (isTrue a != isTrue b)

/-- The constant value of an expression is the value of the expression. -/
theorem folding_agrees (names : Array String) : ∀ (node : Node) {v : Int64}, node.isOperation = true →
    node.constant? { enums } = some v → Values enums (node.evaluated { enums }) Exact →
    Values enums (node.tested { enums }) (0 ≤ ·) →
    Returns (node.tagged.evaluate names) v.toInt
  | .int p value, v, _, hv, hexact, _ => by
    have hvalue := (values_cons.1 hexact).1 v hv
    cases hv
    exact returns_real (is_ofInt hvalue)
  | .ident p name resolution, v, hop, hv, hexact, _ => by
    have hvalue := (values_cons.1 hexact).1 v hv
    obtain rfl | rfl : name = "true" ∨ name = "false" := by simpa [isOperation] using hop
    all_goals
      cases hv
      exact returns_real (is_ofInt hvalue)
  | .unary p operator operand, v, hop, hv, hexact, htested => by
    obtain ⟨a, ha, hoperator⟩ := Option.bind_eq_some_iff.1 hv
    obtain ⟨hvalue, hexact⟩ := values_cons.1 hexact
    obtain ⟨hnot, htested⟩ := values_append.1 htested
    refine (folding_agrees names operand hop ha hexact htested).bind fun x hx => ?_
    refine unary_agrees hx (hexact operand (mem_evaluated _ operand) a ha) (hvalue v hv) ?_ hoperator
    rintro rfl
    exact hnot operand List.mem_cons_self a ha
  | .binary p operator lhs rhs, v, hop, hv, hexact, htested => by
    obtain ⟨a, ha, hrest⟩ := Option.bind_eq_some_iff.1 hv
    obtain ⟨b, hb, hoperator⟩ := Option.bind_eq_some_iff.1 hrest
    obtain ⟨hvalue, hparts⟩ := values_cons.1 hexact
    obtain ⟨hexactl, hexactr⟩ := values_append.1 hparts
    obtain ⟨htestedl, htestedr⟩ := values_append.1 htested
    obtain ⟨hopl, hopr⟩ := Bool.and_eq_true_iff.1 hop
    refine (folding_agrees names lhs hopl ha hexactl htestedl).bind fun x hx => ?_
    refine (folding_agrees names rhs hopr hb hexactr htestedr).bind fun y hy => ?_
    exact binary_agrees hx hy (hexactl lhs (mem_evaluated _ lhs) a ha)
      (hexactr rhs (mem_evaluated _ rhs) b hb) (hvalue v hv) hoperator
  | .logical p operator lhs rhs, v, hop, hv, hexact, htested => by
    obtain ⟨a, ha, hrest⟩ := Option.bind_eq_some_iff.1 hv
    obtain ⟨b, hb, hoperator⟩ := Option.bind_eq_some_iff.1 hrest
    cases hoperator
    obtain ⟨-, hparts⟩ := values_cons.1 hexact
    obtain ⟨hexactl, hexactr⟩ := values_append.1 hparts
    obtain ⟨hatrue, htested⟩ := values_cons.1 htested
    obtain ⟨htestedl, htestedr⟩ := values_append.1 htested
    obtain ⟨hopl, hopr⟩ := Bool.and_eq_true_iff.1 hop
    have hdecides : lhs.decides { enums } operator = operator.decidedBy a := by
      rw [decides, ha]
      rfl
    rw [hdecides] at hexactr htestedr
    refine folding_logical (folding_agrees names lhs hopl ha hexactl htestedl) (hatrue a ha)
      fun hundecided => ?_
    obtain ⟨hbtrue, htestedr⟩ := values_cons.1 ((values_ite.1 htestedr).2 hundecided)
    exact ⟨folding_agrees names rhs hopr hb ((values_ite.1 hexactr).2 hundecided) htestedr, hbtrue b hb⟩
  | .conditional p condition thenValue elseValue, v, hop, hv, hexact, htested => by
    obtain ⟨a, ha, hrest⟩ := Option.bind_eq_some_iff.1 hv
    obtain ⟨-, hparts⟩ := values_cons.1 hexact
    obtain ⟨hexactc, hexactb⟩ := values_append.1 hparts
    obtain ⟨hatrue, htested⟩ := values_cons.1 htested
    obtain ⟨htestedc, htestedb⟩ := values_append.1 htested
    obtain ⟨hop, hope⟩ := Bool.and_eq_true_iff.1 hop
    obtain ⟨hopc, hopt⟩ := Bool.and_eq_true_iff.1 hop
    have hholds : condition.holds { enums } = isTrue a := by
      rw [holds, ha]
      rfl
    rw [hholds] at hexactb htestedb
    refine (folding_agrees names condition hopc ha hexactc htestedc).bind fun x hx => ?_
    rw [isTrue_eq hx (hatrue a ha)]
    cases htrue : isTrue a with
    | true =>
      rw [if_pos htrue] at hrest
      exact folding_agrees names thenValue hopt hrest ((values_ite.1 hexactb).1 htrue)
        ((values_ite.1 htestedb).1 htrue)
    | false =>
      rw [if_neg (by rw [htrue]; exact Bool.false_ne_true)] at hrest
      exact folding_agrees names elseValue hope hrest ((values_ite.1 hexactb).2 htrue)
        ((values_ite.1 htestedb).2 htrue)
termination_by structural node => node

end Node

end Gml
