import Gml.Proofs.Tree.Leaves
import Gml.Proofs.Tree.Ranges

/-!
# Declarations in the order of the text

Looking up names goes through the leaves of a tree in an order of its own: the value of an assignment
comes before its target, for instance. But it comes across declarations as they stand in the text.
Where a name is looked up, the variables declared so far are those that the tree declares before the
place of the name (`Node.inTextOrder`), at whatever depth.

This is so because a tree that is read has its parts in the order of the text (`Node.Tidy`), and where
leaves come in another order there are no declarations (`Node.not_declares_of_isExpression`).
-/

namespace Gml

/-! ### Leaves by parts -/

namespace Leaf

/-- The name that a leaf looks up, with its place. -/
def use? : Leaf → Option (Position × String)
  | name p n _ => some (p, n)
  | member _ q n _ => some (q, n)
  | _ => none

/-- Whether the leaf declares a variable. -/
def isDeclaration : Leaf → Bool
  | localVar _ | globalVar _ => true
  | _ => false

/-- A declaration is no use. -/
theorem use?_of_isDeclaration {leaf : Leaf} (h : leaf.isDeclaration = true) : leaf.use? = none := by
  cases leaf <;> first | rfl | cases h

end Leaf

namespace Node

variable {joined : Bool} {node part : Node} {leaf : Leaf} {p : Position} {name : String}

/-- Leaves of several expressions. -/
theorem leavesOf_eq (nodes : List Node) : leavesOf joined nodes = nodes.flatMap (leaves joined) := by
  induction nodes with
  | nil => rfl
  | cons node rest ih => rw [leavesOf, ih, List.flatMap_cons]

/-- Leaves of one that may be missing. -/
theorem leavesOption_eq (node : Option Node) :
    leavesOption joined node = node.toList.flatMap (leaves joined) := by
  cases node <;> simp [leavesOption]

/-- Leaves of fields. -/
theorem leavesField_eq (fields : List (String × Node)) :
    leavesField joined fields = (fields.map (·.2)).flatMap (leaves joined) := by
  induction fields with
  | nil => rfl
  | cons field rest ih => simp [leavesField, ih]

/-- Leaves of arms. -/
theorem leavesCase_eq (cases : List (Case Node)) :
    leavesCase joined cases =
      (cases.flatMap fun arm => arm.label.toList ++ arm.body).flatMap (leaves joined) := by
  induction cases with
  | nil => rfl
  | cons arm rest ih => simp [leavesCase, ih, leavesOf_eq, leavesOption_eq]

/-- Leaves of declarations. -/
theorem leavesBinding_eq (bindings : List (Binding Node)) :
    leavesBinding joined bindings = bindings.flatMap fun binding =>
      binding.value.toList.flatMap (leaves joined) ++ [.localVar binding.name] := by
  induction bindings with
  | nil => rfl
  | cons binding rest ih => simp [leavesBinding, ih, leavesOption_eq]

/-- The leaves that a node has besides those of its parts. -/
def ownLeaves : Node → List Leaf
  | int p value => [.number p value]
  | ident p name resolution => [.name p name resolution]
  | declare _ bindings => bindings.map fun binding => .localVar binding.name
  | declareGlobal _ names => names.map .globalVar
  | _ => []

/-- The leaf that a member of a name is joined to. -/
def joined? : Node → Option Leaf
  | member p instanceOf field => instanceOf.name?.map fun owner => .member p owner.1 owner.2 field
  | _ => none

/-- Two names that are joined. -/
theorem leaves_of_joined? (h : node.joined? = some leaf) : node.leaves true = [leaf] := by
  cases node with
  | member p instanceOf field =>
    obtain ⟨⟨q, name⟩, hname, rfl⟩ := Option.map_eq_some_iff.1 h
    rw [leaves, hname]
    rfl
  | _ => cases h

/-- A leaf is one of the node or of a part. -/
theorem mem_leaves_iff (henum : node.enumeration? = none)
    (hjoined : joined = true → node.joined? = none) :
    leaf ∈ node.leaves joined ↔
      leaf ∈ node.ownLeaves ∨ ∃ part ∈ node.parts, leaf ∈ part.leaves joined := by
  cases node with
  | declareEnum => cases henum
  | member p instanceOf field =>
    have hleaves : (Node.member p instanceOf field).leaves joined = instanceOf.leaves joined := by
      cases joined with
      | false => exact leaves_member
      | true => exact leaves_member_of_none (Option.map_eq_none_iff.1 (hjoined rfl))
    simp [hleaves, ownLeaves, parts]
  | declare p bindings =>
    simp [leaves, leavesBinding_eq, ownLeaves, parts]
    grind
  | assign p target operator value => simp [leaves, ownLeaves, parts, or_comm]
  | _ =>
    simp [leaves, leavesOf_eq, leavesOption_eq, leavesField_eq, leavesCase_eq, ownLeaves, parts,
      or_and_right, exists_or]

/-! ### Names in a tree -/

/-- A name stands in a tree, outside of the values of enumerations. -/
inductive Uses (p : Position) (name : String) (resolution : Resolution) : Node → Prop where
  /-- The tree is the name. -/
  | name : Uses p name resolution (.ident p name resolution)
  /-- It is in one of the parts. -/
  | part {node part : Node} (hpart : part ∈ node.parts) (henum : node.enumeration? = none)
      (h : Uses p name resolution part) : Uses p name resolution node

variable {resolution : Resolution}

/-- What holds of every node holds of a name. -/
theorem Uses.every {P : Node → Prop} (h : node.Uses p name resolution) (hevery : node.Every P) :
    P (.ident p name resolution) := by
  induction h with
  | name => exact hevery
  | part hpart _ _ ih => exact ih (((every_iff_parts P _).1 hevery).2 _ hpart)

/-- A name that is used is a leaf. -/
theorem Uses.mem_leaves (h : node.Uses p name resolution) :
    .name p name resolution ∈ node.leaves false := by
  induction h with
  | name => exact List.mem_singleton.2 rfl
  | part hpart henum _ ih => exact (mem_leaves_iff henum (by nofun)).2 (.inr ⟨_, hpart, ih⟩)

/-- A member that is joined with a name has just the name as a part. -/
theorem exists_of_joined? (h : node.joined? = some leaf) :
    ∃ p name resolution, node.parts = [.ident p name resolution] ∧ leaf.use? = some (p, name) := by
  cases node with
  | member p instanceOf field =>
    obtain ⟨⟨q, name⟩, hname, rfl⟩ := Option.map_eq_some_iff.1 h
    obtain ⟨resolution, rfl⟩ := eq_ident_of_name? hname
    exact ⟨q, name, resolution, rfl, rfl⟩
  | _ => cases h

/-- A name that is used is that of a leaf. -/
theorem Uses.exists_leaf (h : node.Uses p name resolution) :
    ∃ leaf ∈ node.leaves true, leaf.use? = some (p, name) := by
  induction h with
  | name => exact ⟨_, List.mem_singleton.2 rfl, rfl⟩
  | @part node part hpart henum _ ih =>
    obtain ⟨leaf, hleaf, huse⟩ := ih
    cases hjoined : node.joined? with
    | none => exact ⟨leaf, (mem_leaves_iff henum fun _ => hjoined).2 (.inr ⟨_, hpart, hleaf⟩), huse⟩
    | some whole =>
      obtain ⟨q, other, _, hparts, hwhole⟩ := exists_of_joined? hjoined
      rw [hparts, List.mem_singleton] at hpart
      subst hpart
      obtain rfl := List.mem_singleton.1 hleaf
      exact ⟨whole, by rw [leaves_of_joined? hjoined]; exact List.mem_singleton.2 rfl,
        hwhole.trans huse⟩

/-- A leaf that is a use is a name. -/
theorem exists_uses (h : leaf ∈ node.leaves true) (huse : leaf.use? = some (p, name)) :
    ∃ resolution, node.Uses p name resolution := by
  induction node using induction_parts with
  | step node ih =>
    cases henum : node.enumeration? with
    | some declaration =>
      rw [leaves_of_enumeration? henum, List.mem_singleton] at h
      subst h
      cases node <;> cases henum
      cases huse
    | none =>
      cases hjoined : node.joined? with
      | some whole =>
        obtain ⟨q, other, resolution, hparts, hwhole⟩ := exists_of_joined? hjoined
        rw [leaves_of_joined? hjoined, List.mem_singleton] at h
        subst h
        cases hwhole.symm.trans huse
        exact ⟨resolution, .part (by rw [hparts]; exact List.mem_singleton.2 rfl) henum .name⟩
      | none =>
        rcases (mem_leaves_iff henum fun _ => hjoined).1 h with hown | ⟨part, hpart, hleaf⟩
        · cases node with
          | ident q other resolution =>
            obtain rfl := List.mem_singleton.1 hown
            cases huse
            exact ⟨resolution, .name⟩
          | int =>
            obtain rfl := List.mem_singleton.1 hown
            cases huse
          | declare =>
            obtain ⟨binding, -, rfl⟩ := List.mem_map.1 hown
            cases huse
          | declareGlobal =>
            obtain ⟨other, -, rfl⟩ := List.mem_map.1 hown
            cases huse
          | _ => cases hown
        · obtain ⟨resolution, huses⟩ := ih part hpart hleaf
          exact ⟨resolution, .part hpart henum huses⟩

/-- A name that is looked up has a place in the tree. -/
theorem Spans.use {P : Position → Prop} (hspans : node.Spans P) (h : leaf ∈ node.leaves true)
    (huse : leaf.use? = some (p, name)) : P p := by
  obtain ⟨resolution, huses⟩ := exists_uses h huse
  exact huses.every hspans p (List.mem_singleton.2 rfl)

/-! ### Declarations in a tree -/

/-- A variable is declared somewhere in a tree, by a declaration all of whose places have a property.
The declaration of a local variable is its name with its value, that of a global one a statement. -/
inductive Declares (P : Position → Prop) : Leaf → Node → Prop where
  | localVar {q : Position} {bindings : List (Binding Node)} {binding : Binding Node}
      (hmem : binding ∈ bindings) (h : binding.Spans P) :
      Declares P (.localVar binding.name) (.declare q bindings)
  | globalVar {q : Position} {names : List String} {name : String} (hmem : name ∈ names) (h : P q) :
      Declares P (.globalVar name) (.declareGlobal q names)
  /-- It is in one of the parts. -/
  | part {leaf : Leaf} {node part : Node} (hpart : part ∈ node.parts) (h : Declares P leaf part) :
      Declares P leaf node

variable {P Q : Position → Prop} {d : Leaf} {tokens : Array Token}

/-- Declarations have places. -/
theorem Spans.bindings {q : Position} {bindings : List (Binding Node)}
    (h : (Node.declare q bindings).Spans P) : ∀ binding ∈ bindings, binding.Spans P :=
  spans_bindings (List.forall_mem_cons.1 h.1).2 h.2

/-- So has what they declare. -/
theorem Declares.of_spans (h : node.Declares P d) (hspans : node.Spans Q) : node.Declares Q d := by
  induction h with
  | localVar hmem => exact .localVar hmem (hspans.bindings _ hmem)
  | globalVar hmem => exact .globalVar hmem hspans.position
  | part hpart _ ih => exact .part hpart (ih ((spans_iff_parts.1 hspans).2 _ hpart))

/-- Nothing is declared at no place. -/
theorem Declares.not_spans (h : node.Declares P d) : ¬ node.Spans fun p => ¬ P p := by
  intro hspans
  induction h with
  | localVar hmem h => exact (hspans.bindings _ hmem).1 h.1
  | globalVar hmem h => exact hspans.position h
  | part hpart _ ih => exact ih ((spans_iff_parts.1 hspans).2 _ hpart)

/-- Parts of expressions are expressions. -/
theorem isExpression_of_mem_parts (hexpression : node.isExpression = true) (hformed : node.Formed)
    (hpart : part ∈ node.parts) : part.isExpression = true := by
  cases node with
  | update p target step inFront =>
    obtain rfl := List.mem_singleton.1 hpart
    exact isExpression_of_isAssignable hformed
  | struct p fields =>
    obtain ⟨field, hfield, rfl⟩ := List.mem_map.1 hpart
    exact hformed field hfield
  | binary | logical | conditional | call | index =>
    simp only [parts, List.mem_cons, List.not_mem_nil, or_false] at hpart
    simp only [Shaped] at hformed
    grind
  | _ => simp_all [Shaped, parts, isExpression]

/-- There are no declarations in an expression. -/
theorem not_declares_of_isExpression (hexpression : node.isExpression = true)
    (hformed : node.Every Formed) : ¬ node.Declares P d := by
  intro h
  induction h with
  | localVar | globalVar => cases hexpression
  | part hpart _ ih =>
    have hparts := (every_iff_parts _ _).1 hformed
    exact ih (isExpression_of_mem_parts hexpression hparts.1 hpart) (hparts.2 _ hpart)

/-- What declares has a part that does. -/
theorem declares_iff_parts (hown : node.ownLeaves = []) :
    node.Declares P d ↔ ∃ part ∈ node.parts, part.Declares P d := by
  refine ⟨fun h => ?_, fun ⟨part, hpart, h⟩ => .part hpart h⟩
  cases h with
  | localVar hmem | globalVar hmem =>
    rw [ownLeaves, List.map_eq_nil_iff] at hown
    rw [hown] at hmem
    cases hmem
  | part hpart h => exact ⟨_, hpart, h⟩

/-- There are none in a node that has only expressions for parts and is no declaration itself. -/
theorem not_declares_of_parts (hown : node.ownLeaves = [])
    (hexpressions : ∀ part ∈ node.parts, part.isExpression = true)
    (hformed : node.Every Formed) : ¬ node.Declares P d := by
  rw [declares_iff_parts hown]
  rintro ⟨part, hpart, h⟩
  exact not_declares_of_isExpression (hexpressions part hpart)
    (((every_iff_parts _ _).1 hformed).2 part hpart) h

/-- Values of an enumeration are expressions. -/
theorem isExpression_of_enumeration? (h : node.enumeration? = some leaf)
    (hneat : node.Neat tokens) :
    ∀ part ∈ node.parts, part.isExpression = true := by
  cases node with
  | declareEnum p name members =>
    intro part hpart
    obtain ⟨member, hmember, hvalue⟩ := List.mem_flatMap.1 hpart
    exact hneat member hmember part (Option.mem_toList.1 hvalue)
  | _ => cases h

/-- The declarations among the leaves of a tree are those in the tree. -/
theorem mem_leaves_iff_declares (hformed : node.Every Formed) (htidy : node.Every (Tidy tokens))
    (hd : d.isDeclaration = true) : d ∈ node.leaves true ↔ node.Declares (fun _ => True) d := by
  induction node using induction_parts with
  | step node ih =>
    have hformed' := (every_iff_parts _ _).1 hformed
    have htidy' := (every_iff_parts _ _).1 htidy
    cases henum : node.enumeration? with
    | some declaration =>
      have hexpressions := isExpression_of_enumeration? henum htidy'.1.neat
      rw [leaves_of_enumeration? henum, List.mem_singleton]
      cases node <;> cases henum
      refine ⟨?_, fun h => (not_declares_of_parts rfl hexpressions hformed h).elim⟩
      rintro rfl
      cases hd
    | none =>
      cases hjoined : node.joined? with
      | some whole =>
        obtain ⟨q, other, _, hparts, hwhole⟩ := exists_of_joined? hjoined
        rw [leaves_of_joined? hjoined, List.mem_singleton]
        cases node with
        | member =>
          refine ⟨?_, fun h => (not_declares_of_isExpression rfl hformed h).elim⟩
          rintro rfl
          cases (Leaf.use?_of_isDeclaration hd).symm.trans hwhole
        | _ => cases hjoined
      | none =>
        rw [mem_leaves_iff henum fun _ => hjoined]
        constructor
        · rintro (hown | ⟨part, hpart, hleaf⟩)
          · cases node with
            | int | ident =>
              obtain rfl := List.mem_singleton.1 hown
              cases hd
            | declare =>
              obtain ⟨binding, hmem, rfl⟩ := List.mem_map.1 hown
              exact .localVar hmem ⟨trivial, fun value _ => value.spans_true⟩
            | declareGlobal =>
              obtain ⟨other, hmem, rfl⟩ := List.mem_map.1 hown
              exact .globalVar hmem trivial
            | _ => cases hown
          · exact .part hpart
              ((ih part hpart (hformed'.2 part hpart) (htidy'.2 part hpart)).1 hleaf)
        · intro h
          cases h with
          | localVar hmem => exact .inl (List.mem_map.2 ⟨_, hmem, rfl⟩)
          | globalVar hmem => exact .inl (List.mem_map.2 ⟨_, hmem, rfl⟩)
          | part hpart h =>
            exact .inr ⟨_, hpart, (ih _ hpart (hformed'.2 _ hpart) (htidy'.2 _ hpart)).2 h⟩

/-! ### Order -/

/-- Things have leaves, one after the other, and declare or do not declare something. If each thing
that comes before a leaf has its declaration among its leaves, and none that comes after the leaf
declares it, then the declarations before the leaf are those of the things. -/
theorem mem_before_iff {α : Type} {items : List α} {f : α → List Leaf} {D : α → Prop}
    {before after : List Leaf}
    (hself : ∀ x ∈ items, ∀ l₁ l₂, f x = l₁ ++ leaf :: l₂ → (d ∈ l₁ ↔ D x))
    (hpair : items.Pairwise fun x y => (leaf ∈ f y → (d ∈ f x ↔ D x)) ∧ (leaf ∈ f x → ¬ D y))
    (h : items.flatMap f = before ++ leaf :: after) : d ∈ before ↔ ∃ x ∈ items, D x := by
  induction items generalizing before with
  | nil => simp at h
  | cons x items ih =>
    obtain ⟨hx, hpair⟩ := List.pairwise_cons.1 hpair
    obtain ⟨hxself, hself⟩ := List.forall_mem_cons.1 hself
    have hlater {l : List Leaf} (hl : items.flatMap f = l ++ leaf :: after) :
        d ∈ f x ++ l ↔ ∃ y ∈ x :: items, D y := by
      have hmem : leaf ∈ items.flatMap f := by simp [hl]
      obtain ⟨y, hy, hleaf⟩ := List.mem_flatMap.1 hmem
      rw [List.mem_append, (hx y hy).1 hleaf, ih hself hpair hl]
      simp
    rw [List.flatMap_cons] at h
    rcases List.append_eq_append_iff.1 h with ⟨l, rfl, hl⟩ | ⟨l, hfirst, hl⟩
    · exact hlater hl
    cases l with
    | nil =>
      have hbefore := hlater (l := []) hl.symm
      rwa [hfirst, List.append_nil, List.append_nil] at hbefore
    | cons other l =>
      obtain ⟨rfl, -⟩ := List.cons.inj hl
      have hleaf : leaf ∈ f x := by simp [hfirst]
      have hnone : ∀ y ∈ items, ¬ D y := fun y hy => (hx y hy).2 hleaf
      rw [hxself before l hfirst]
      simp only [List.mem_cons, or_and_right, exists_or, exists_eq_left]
      exact ⟨.inl, fun hor => hor.resolve_right fun ⟨y, hy, hyes⟩ => hnone y hy hyes⟩

/-- Where a name is looked up, the declarations gone through are those that stand before it. -/
def InTextOrder (node : Node) : Prop :=
  ∀ before leaf after p name, node.leaves true = before ++ leaf :: after →
    leaf.use? = some (p, name) → ∀ d, d.isDeclaration = true →
      (d ∈ before ↔ node.Declares (·.index < p.index) d)

/-- A node that declares nothing is in order. -/
theorem inTextOrder_of_not_declares (hformed : node.Every Formed) (htidy : node.Every (Tidy tokens))
    (h : ∀ P d, ¬ node.Declares P d) : node.InTextOrder := by
  intro before leaf after p name hsplit _ d hd
  have hmem : d ∈ before → d ∈ node.leaves true := by
    rw [hsplit]
    exact List.mem_append_left _
  exact ⟨fun hbefore => (h _ d ((mem_leaves_iff_declares hformed htidy hd).1 (hmem hbefore))).elim,
    fun hdeclares => (h _ d hdeclares).elim⟩

/-- Trees one after the other. -/
theorem mem_before_iff_of_pairwise {nodes : List Node} {before after : List Leaf}
    (hformed : ∀ node ∈ nodes, node.Every Formed) (htidy : ∀ node ∈ nodes, node.Every (Tidy tokens))
    (hpair : nodes.Pairwise Before) (horder : ∀ node ∈ nodes, node.InTextOrder)
    (hsplit : nodes.flatMap (leaves true) = before ++ leaf :: after)
    (huse : leaf.use? = some (p, name)) (hd : d.isDeclaration = true) :
    d ∈ before ↔ ∃ node ∈ nodes, node.Declares (·.index < p.index) d := by
  refine mem_before_iff (fun node hmem l₁ l₂ h => horder node hmem l₁ leaf l₂ p name h huse d hd)
    (hpair.imp_of_mem fun {x y} hx hy hbefore => ?_) hsplit
  obtain ⟨n, hbelow, habove⟩ := hbefore
  refine ⟨fun hleaf => ?_, fun hleaf hdeclares => ?_⟩
  · have hle : n ≤ p.index := habove.use hleaf huse
    rw [mem_leaves_iff_declares (hformed x hx) (htidy x hx) hd]
    exact ⟨fun h => h.of_spans (hbelow.imp fun q hq => Nat.lt_of_lt_of_le hq hle),
      fun h => h.of_spans x.spans_true⟩
  · have hlt : p.index < n := hbelow.use hleaf huse
    exact hdeclares.not_spans (habove.imp fun q hq => Nat.not_lt.2 (Nat.le_trans (Nat.le_of_lt hlt) hq))

end Node

/-! ### Declared variables -/

namespace Binding

variable {binding : Binding Node} {leaf d : Leaf} {p : Position} {name : String}
  {tokens : Array Token}
  {P : Position → Prop}

/-- The leaves of a declared variable: it is known after its value. -/
def leaves (binding : Binding Node) : List Leaf :=
  binding.value.toList.flatMap (Node.leaves true) ++ [.localVar binding.name]

/-- A variable has a value without declarations. -/
def IsPlain (tokens : Array Token) (binding : Binding Node) : Prop :=
  ∀ value ∈ binding.value, value.isExpression = true ∧ value.Every Node.Formed ∧
    value.Every (Node.Tidy tokens)

/-- A use has a place. -/
theorem Spans.use (hspans : binding.Spans P) (h : leaf ∈ binding.leaves)
    (huse : leaf.use? = some (p, name)) : P p := by
  rcases List.mem_append.1 h with h | h
  · obtain ⟨value, hvalue, hleaf⟩ := List.mem_flatMap.1 h
    exact (hspans.2 value (Option.mem_toList.1 hvalue)).use hleaf huse
  · rw [List.mem_singleton.1 h] at huse
    cases huse

/-- An expression declares nothing. -/
theorem IsPlain.not_mem (h : binding.IsPlain tokens) (hd : d.isDeclaration = true) :
    d ∉ binding.value.toList.flatMap (Node.leaves true) := by
  intro hmem
  obtain ⟨value, hvalue, hleaf⟩ := List.mem_flatMap.1 hmem
  obtain ⟨hexpression, hformed, htidy⟩ := h value (Option.mem_toList.1 hvalue)
  exact Node.not_declares_of_isExpression hexpression hformed
    ((Node.mem_leaves_iff_declares hformed htidy hd).1 hleaf)

/-- A declaration declares its name. -/
theorem IsPlain.mem_leaves_iff (h : binding.IsPlain tokens) (hd : d.isDeclaration = true) :
    d ∈ binding.leaves ↔ d = .localVar binding.name := by
  rw [leaves, List.mem_append, List.mem_singleton]
  exact ⟨fun hor => hor.resolve_left (h.not_mem hd), .inr⟩

/-- No declaration comes before a name in the value. -/
theorem IsPlain.not_mem_before (h : binding.IsPlain tokens) (hd : d.isDeclaration = true)
    {before after : List Leaf} (hsplit : binding.leaves = before ++ leaf :: after)
    (huse : leaf.use? = some (p, name)) : d ∉ before := by
  intro hmem
  rcases List.eq_nil_or_concat after with rfl | ⟨later, last, rfl⟩
  · obtain ⟨-, hlast⟩ := List.append_inj' hsplit rfl
    cases hlast
    cases huse
  · rw [List.concat_eq_append, ← List.cons_append, ← List.append_assoc] at hsplit
    obtain ⟨hvalues, -⟩ := List.append_inj' hsplit rfl
    refine h.not_mem hd ?_
    rw [hvalues]
    exact List.mem_append_left _ hmem

end Binding

namespace Node

variable {node : Node} {q : Position} {bindings : List (Binding Node)} {tokens : Array Token}

/-- Declarations are in order. -/
theorem inTextOrder_declare (hplain : ∀ binding ∈ bindings, binding.IsPlain tokens)
    (hpair : bindings.Pairwise Binding.Before) : (Node.declare q bindings).InTextOrder := by
  intro before leaf after p name hsplit huse d hd
  rw [leaves, leavesBinding_eq] at hsplit
  have hbefore := mem_before_iff (f := Binding.leaves) (d := d)
    (D := fun binding => d = .localVar binding.name ∧ binding.Spans (·.index < p.index))
    (fun binding hmem l₁ l₂ h => ?_) (hpair.imp_of_mem fun {x y} hx hy hbefore => ?_) hsplit
  · rw [hbefore]
    constructor
    · rintro ⟨binding, hmem, rfl, hspans⟩
      exact .localVar hmem hspans
    · intro h
      cases h with
      | localVar hmem hspans => exact ⟨_, hmem, rfl, hspans⟩
      | part hpart h =>
        obtain ⟨binding, hmem, hvalue⟩ := List.mem_flatMap.1 hpart
        obtain ⟨hexpression, hformed, -⟩ := hplain binding hmem _ (Option.mem_toList.1 hvalue)
        exact (not_declares_of_isExpression hexpression hformed h).elim
  · -- A variable is not known in its own value, and its value does not stand before the name in it.
    refine ⟨fun hd' => ((hplain binding hmem).not_mem_before hd h huse hd').elim, ?_⟩
    rintro ⟨-, hspans⟩
    have hleaf : leaf ∈ binding.leaves := by simp [h]
    exact (Nat.lt_irrefl _ (hspans.use hleaf huse)).elim
  · obtain ⟨n, hbelow, habove⟩ := hbefore
    refine ⟨fun hleaf => ?_, fun hleaf hdeclares => ?_⟩
    · have hle : n ≤ p.index := habove.use hleaf huse
      rw [(hplain x hx).mem_leaves_iff hd]
      exact ⟨fun heq => ⟨heq, hbelow.imp fun q hq => Nat.lt_of_lt_of_le hq hle⟩, And.left⟩
    · have hlt : p.index < n := hbelow.use hleaf huse
      have hposition : y.position.index < p.index := hdeclares.2.1
      have hle : n ≤ y.position.index := habove.1
      omega

/-- Looking up names goes through declarations in the order of the text. -/
theorem inTextOrder (node : Node) (hformed : node.Every Formed) (htidy : node.Every (Tidy tokens)) :
    node.InTextOrder := by
  induction node using induction_parts with
  | step node ih =>
    obtain ⟨hshape, hformed'⟩ := (every_iff_parts _ _).1 hformed
    obtain ⟨hneat, htidy'⟩ := (every_iff_parts _ _).1 htidy
    have hparts (hown : node.ownLeaves = [])
        (hleaves : node.leaves true = node.parts.flatMap (leaves true)) : node.InTextOrder := by
      intro before leaf after p name hsplit huse d hd
      rw [hleaves] at hsplit
      rw [declares_iff_parts hown]
      exact mem_before_iff_of_pairwise hformed' htidy' hneat.parts
        (fun part hpart => ih part hpart (hformed' part hpart) (htidy' part hpart)) hsplit huse hd
    cases node with
    | declare q bindings =>
      have hplain : ∀ binding ∈ bindings, binding.IsPlain tokens := by
        intro binding hmem value hvalue
        have hpart : value ∈ (Node.declare q bindings).parts :=
          List.mem_flatMap.2 ⟨binding, hmem, Option.mem_toList.2 hvalue⟩
        exact ⟨hshape binding hmem value hvalue, hformed' value hpart, htidy' value hpart⟩
      exact inTextOrder_declare hplain hneat.neat.1
    | declareGlobal q names =>
      intro before leaf after p name hsplit huse d hd
      have hmem : leaf ∈ (Node.declareGlobal q names).leaves true := by simp [hsplit]
      obtain ⟨_, -, rfl⟩ := List.mem_map.1 hmem
      cases huse
    | declareEnum q name members =>
      exact inTextOrder_of_not_declares hformed htidy fun P d => not_declares_of_parts rfl
        (isExpression_of_enumeration? rfl hneat.neat) hformed
    | assign q target operator value =>
      -- The value comes first although it stands last, but neither has declarations.
      refine inTextOrder_of_not_declares hformed htidy fun P d => not_declares_of_parts rfl ?_ hformed
      have htarget := isExpression_of_isAssignable hshape.1
      simp [parts, htarget, hshape.2]
    | block | ifElse | whileDo | doUntil | repeatTimes | forLoop | switch | withEach | returning
    | exit | breaking | continuing | discard =>
      exact hparts rfl (by simp [leaves, parts, leavesOf_eq, leavesOption_eq, leavesCase_eq])
    | _ =>
      exact inTextOrder_of_not_declares hformed htidy fun P d =>
        not_declares_of_isExpression rfl hformed

end Node

end Gml
