import Gml.Proofs.Tree.Shape
import Gml.Token

/-!
# Trees in the order of their text

A node has a place of its own, and so have the names that it declares and the arms of a switch
(`Node.places`). A tree that is read from tokens takes its places from a stretch of them, and its
parts take theirs from stretches one after the other (`Node.Laid`, `Row`). So the parts of a node
stand in the order of the text (`Node.Tidy`).
-/

namespace Gml

namespace Node

/-! ### Places -/

/-- What holds within a node holds of every one. -/
theorem every_of_within {p : Node → Prop} {node : Node} (h : ∀ inner, inner.Within node → p inner) :
    node.Every p := by
  induction node using induction_parts with
  | step node ih =>
    refine (every_iff_parts p node).2 ⟨h node .self, fun part hpart => ?_⟩
    exact ih part hpart fun inner hinner => h inner (.part hpart hinner)

variable {P Q : Position → Prop} {node : Node}

/-- All places in a tree have a property. -/
def Spans (P : Position → Prop) (node : Node) : Prop :=
  node.Every fun inner => ∀ p ∈ inner.places, P p

/-- The places of a node and those of its parts. -/
theorem spans_iff_parts :
    node.Spans P ↔ (∀ p ∈ node.places, P p) ∧ ∀ part ∈ node.parts, part.Spans P :=
  every_iff_parts _ node

/-- Places may be said in a weaker way. -/
theorem Spans.imp (h : node.Spans P) (hPQ : ∀ p, P p → Q p) : node.Spans Q :=
  Every.imp (fun _ hplaces p hp => hPQ p (hplaces p hp)) h

/-- Nothing can be wrong with places of which nothing is asked. -/
theorem spans_true (node : Node) : node.Spans fun _ => True :=
  induction_parts (fun _ ih => spans_iff_parts.2 ⟨fun _ _ => trivial, ih⟩) node

/-- A node has a place. -/
theorem Spans.position (h : node.Spans P) : P node.position :=
  (spans_iff_parts.1 h).1 _ node.position_mem_places

/-- All of one tree stands before all of another. -/
def Before (first second : Node) : Prop :=
  ∃ n, first.Spans (·.index < n) ∧ second.Spans (n ≤ ·.index)

end Node

/-- All places of a name and of its value have a property. -/
def Binding.Spans (P : Position → Prop) (binding : Binding Node) : Prop :=
  P binding.position ∧ ∀ value ∈ binding.value, value.Spans P

/-- All of one name with its value stands before all of another. -/
def Binding.Before (first second : Binding Node) : Prop :=
  ∃ n, first.Spans (·.index < n) ∧ second.Spans (n ≤ ·.index)

/-- So may the places of a declaration. -/
theorem Binding.Spans.imp {P Q : Position → Prop} {binding : Binding Node} (h : binding.Spans P)
    (hPQ : ∀ p, P p → Q p) : binding.Spans Q :=
  ⟨hPQ _ h.1, fun value hvalue => (h.2 value hvalue).imp hPQ⟩

/-- The names of a list with their values, if the places of the names are known. -/
theorem Node.spans_bindings {P : Position → Prop} {bindings : List (Binding Node)}
    (hplaces : ∀ p ∈ bindings.map (·.position), P p)
    (hvalues : EveryBinding (fun inner => ∀ p ∈ inner.places, P p) bindings) :
    ∀ binding ∈ bindings, binding.Spans P := by
  intro binding hmem
  refine ⟨hplaces _ (List.mem_map_of_mem hmem), fun value hvalue => ?_⟩
  exact (everyOption_iff _ _).1 ((everyBinding_iff _ bindings).1 hvalues binding hmem) value hvalue

/-! ### Order -/

/-- One of the tokens is the name. -/
def IsName (tokens : Array Token) (name : String) : Prop :=
  ∃ token ∈ tokens, token.kind = .identifier ∧ token.value = name

namespace Node

/-- What else is known of a node: its names are tokens, declared names stand one after the other, and
members of an enumeration have expressions as values. -/
def Neat (tokens : Array Token) : Node → Prop
  | ident _ name _ | member _ _ name => IsName tokens name
  | declare _ bindings =>
    bindings.Pairwise Binding.Before ∧ ∀ binding ∈ bindings, IsName tokens binding.name
  | declareGlobal _ names => ∀ name ∈ names, IsName tokens name
  | declareEnum _ _ members =>
    ∀ member ∈ members, ∀ value ∈ member.value, value.isExpression = true
  | _ => True

/-- The parts of a node stand in the order of the text. -/
structure Tidy (tokens : Array Token) (node : Node) : Prop where
  parts : node.parts.Pairwise Before
  neat : node.Neat tokens

end Node

/-! ### Stretches of tokens -/

/-- A place of one of the tokens from one index to another. -/
def StandsIn (tokens : Array Token) (i j : Nat) (p : Position) : Prop :=
  ∃ k token, i ≤ k ∧ k < j ∧ tokens[k]? = some token ∧ token.position = p

/-- Tokens as a source has them: the last one ends the source, each stands after those before it,
and there is no sign in a name. -/
structure Orderly (tokens : Array Token) : Prop where
  last : ∃ token, tokens[tokens.size - 1]? = some token ∧ token.kind = .endOfFile
  increase : ∀ (k l : Nat) (a b : Token), k < l → tokens[k]? = some a → tokens[l]? = some b →
    a.position.index < b.position.index
  names : ∀ token ∈ tokens, token.kind = .identifier → '+' ∉ token.value.toList

variable {tokens : Array Token} {i j k l : Nat} {p : Position}

/-- A token stands in its range. -/
theorem standsIn_of_token {token : Token} (h : tokens[i]? = some token) (hj : i < j) :
    StandsIn tokens i j token.position :=
  ⟨i, token, Nat.le_refl i, hj, h, rfl⟩

/-- A range may be widened. -/
theorem StandsIn.widen (h : StandsIn tokens i j p) (hk : k ≤ i) (hl : j ≤ l) :
    StandsIn tokens k l p := by
  obtain ⟨m, token, hi, hj, htoken⟩ := h
  exact ⟨m, token, Nat.le_trans hk hi, Nat.lt_of_lt_of_le hj hl, htoken⟩

/-- What stands in a range is a token. -/
theorem StandsIn.exists_token (h : StandsIn tokens i j p) :
    ∃ token ∈ tokens, token.position = p := by
  obtain ⟨m, token, -, -, htoken, hp⟩ := h
  exact ⟨token, Array.mem_of_getElem? htoken, hp⟩

/-- Between two stretches there is a place that divides what stands in them. -/
theorem exists_between (ho : Orderly tokens) (hjk : j ≤ k) (h : StandsIn tokens k l p) :
    ∃ n, (∀ q, StandsIn tokens i j q → q.index < n) ∧
      ∀ q, StandsIn tokens k l q → n ≤ q.index := by
  obtain ⟨m, token, hk, -, htoken, -⟩ := h
  have hsize : k < tokens.size := by
    have := (Array.getElem?_eq_some_iff.1 htoken).1
    omega
  refine ⟨tokens[k].position.index, ?_, ?_⟩
  · rintro q ⟨m, token, -, hj, htoken, rfl⟩
    exact ho.increase m k token _ (by omega) htoken (Array.getElem?_eq_getElem hsize)
  · rintro q ⟨m, token, hk, -, htoken, rfl⟩
    rcases Nat.eq_or_lt_of_le hk with rfl | hlt
    · rw [Array.getElem?_eq_getElem hsize] at htoken
      exact Nat.le_of_eq (congrArg (·.position.index) (Option.some.inj htoken))
    · exact Nat.le_of_lt
        (ho.increase k m _ token hlt (Array.getElem?_eq_getElem hsize) htoken)

/-! ### Trees on stretches -/

/-- A tree takes its places from a stretch of tokens, in their order. -/
structure Node.Laid (tokens : Array Token) (i j : Nat) (node : Node) : Prop where
  spans : node.Spans (StandsIn tokens i j)
  tidy : node.Every (Node.Tidy tokens)

namespace Node

variable {node : Node}

/-- The range of a node may be widened. -/
theorem Laid.widen (h : node.Laid tokens i j) (hk : k ≤ i) (hl : j ≤ l) : node.Laid tokens k l :=
  ⟨h.spans.imp fun _ hp => hp.widen hk hl, h.tidy⟩

/-- No node is without tokens. -/
theorem Laid.lt (h : node.Laid tokens i j) : i < j := by
  obtain ⟨k, _, hi, hj, _⟩ := h.spans.position
  omega

/-- Ranges tell the order. -/
theorem Laid.before {second : Node} (ho : Orderly tokens) (h : node.Laid tokens i j)
    (hjk : j ≤ k) (h' : second.Laid tokens k l) : node.Before second := by
  obtain ⟨n, hbelow, habove⟩ := exists_between (i := i) ho hjk h'.spans.position
  exact ⟨n, h.spans.imp hbelow, h'.spans.imp habove⟩

end Node

/-- Trees on stretches of tokens one after the other. -/
inductive Row (tokens : Array Token) : Nat → Nat → List Node → Prop where
  | nil {i j : Nat} (h : i ≤ j) : Row tokens i j []
  | cons {i j k l : Nat} {node : Node} {rest : List Node} (h : node.Laid tokens i j) (hjk : j ≤ k)
    (hrest : Row tokens k l rest) : Row tokens i l (node :: rest)

namespace Row

variable {nodes rest : List Node} {node : Node}

/-- A row has a range. -/
theorem le (h : Row tokens i j nodes) : i ≤ j := by
  induction h with
  | nil h => exact h
  | cons h hjk _ ih => exact Nat.le_trans (Nat.le_of_lt h.lt) (Nat.le_trans hjk ih)

/-- It may be widened. -/
theorem widen (h : Row tokens i j nodes) (hk : k ≤ i) (hl : j ≤ l) : Row tokens k l nodes := by
  induction h generalizing k with
  | nil h => exact .nil (by omega)
  | cons h hjk _ ih => exact .cons (h.widen hk (Nat.le_refl _)) hjk (ih (Nat.le_refl _) hl)

/-- Rows may follow each other. -/
theorem append (h : Row tokens i j nodes) (hjk : j ≤ k) (h' : Row tokens k l rest) :
    Row tokens i l (nodes ++ rest) := by
  induction h with
  | nil h => exact h'.widen (by omega) (Nat.le_refl _)
  | cons h hle _ ih => exact .cons h hle (ih hjk)

/-- One node is a row. -/
theorem single (h : node.Laid tokens i j) : Row tokens i j [node] :=
  .cons h (Nat.le_refl _) (.nil (Nat.le_refl _))

/-- Nodes of a row are in its range. -/
theorem laid (h : Row tokens i j nodes) : ∀ node ∈ nodes, node.Laid tokens i j := by
  induction h with
  | nil => exact List.forall_mem_nil _
  | cons h hjk hrest ih =>
    refine List.forall_mem_cons.2 ⟨h.widen (Nat.le_refl _) (Nat.le_trans hjk hrest.le), ?_⟩
    exact fun node hmem => (ih node hmem).widen (Nat.le_trans (Nat.le_of_lt h.lt) hjk) (Nat.le_refl _)

/-- They are in order. -/
theorem pairwise (ho : Orderly tokens) (h : Row tokens i j nodes) :
    nodes.Pairwise Node.Before := by
  induction h with
  | nil => exact .nil
  | cons h hjk hrest ih =>
    exact .cons (fun node hmem => h.before ho hjk (hrest.laid node hmem)) ih

end Row

/-- A node whose parts are laid out on stretches inside of its own. -/
theorem Node.laid_of_row {node : Node} (ho : Orderly tokens)
    (hplaces : ∀ p ∈ node.places, StandsIn tokens i j p) (hrow : Row tokens k l node.parts)
    (hik : i ≤ k) (hlj : l ≤ j) (hneat : node.Neat tokens) : node.Laid tokens i j where
  spans := spans_iff_parts.2
    ⟨hplaces, fun part hpart => ((hrow.laid part hpart).widen hik hlj).spans⟩
  tidy := (every_iff_parts _ node).2
    ⟨⟨hrow.pairwise ho, hneat⟩, fun part hpart => (hrow.laid part hpart).tidy⟩

end Gml
