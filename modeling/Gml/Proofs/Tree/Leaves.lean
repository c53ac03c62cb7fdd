import Gml.Proofs.Outcome
import Gml.Tree.Scope

/-!
# The leaves of a tree

Looking up the names of a tree comes across its names, its members of names, its whole numbers and
its declarations one after another. `Node.leaves` lists them in this order, and `Scope.Meets` says
what is made of one of them and what is known afterwards.

The list is all that matters: what names a tree has in the end and what is known after it come from
going through the list once (`Script.meets_of_resolve`). A tree and what becomes of it have their
leaves at the same places: a member of a name is one leaf, and so is what it becomes, which is a name
or a number.
-/

namespace Gml

/-- What looking up names comes across. -/
inductive Leaf where
  /-- A whole number. -/
  | number (position : Position) (value : Int64)
  /-- A name. -/
  | name (position : Position) (name : String) (resolution : Resolution)
  /-- A member of a name, which has a place of its own. -/
  | member (position owner : Position) (name field : String)
  /-- The declaration of a local variable. -/
  | localVar (name : String)
  /-- The declaration of a global variable. -/
  | globalVar (name : String)
  /-- The declaration of an enumeration. -/
  | enumeration (name : String) (members : List (Binding Node))

/-- The name of the enumeration that a leaf declares. -/
def Leaf.enum? : Leaf → Option String
  | enumeration enumName _ => some enumName
  | _ => none

/-- The names of the enumerations that leaves declare. -/
def enumNames (leaves : List Leaf) : List String :=
  leaves.filterMap Leaf.enum?

namespace Node

/-- The name that the node is, with its place. -/
def name? : Node → Option (Position × String)
  | ident p name _ => some (p, name)
  | _ => none

/-- Only a name is a name. -/
theorem eq_ident_of_name? {node : Node} {p : Position} {name : String}
    (h : node.name? = some (p, name)) : ∃ resolution, node = .ident p name resolution := by
  cases node with
  | ident _ _ resolution =>
    cases h
    exact ⟨resolution, rfl⟩
  | _ => cases h

/-- The enumeration that the node declares, as a leaf. -/
def enumeration? : Node → Option Leaf
  | declareEnum _ name members => some (.enumeration name members)
  | _ => none

section Leaves

variable (joined : Bool)

mutual

/-- The leaves of a node, in the order in which names are looked up. A member of a name is a leaf if
it is joined with the name, as it is before names are looked up. -/
def leaves : Node → List Leaf
  | int p value => [.number p value]
  | ident p name resolution => [.name p name resolution]
  | binary _ _ lhs rhs | logical _ _ lhs rhs => lhs.leaves ++ rhs.leaves
  | unary _ _ operand => operand.leaves
  | conditional _ condition thenValue elseValue =>
    condition.leaves ++ (thenValue.leaves ++ elseValue.leaves)
  | call _ callee arguments => callee.leaves ++ leavesOf arguments
  | index _ container _ indices => container.leaves ++ leavesOf indices
  | member p instanceOf field =>
    match instanceOf.name? with
    | some (q, name) => if joined then [.member p q name field] else instanceOf.leaves
    | none => instanceOf.leaves
  | update _ target _ _ => target.leaves
  | struct _ fields => leavesField fields
  | array _ elements => leavesOf elements
  | assign _ target _ value => value.leaves ++ target.leaves
  | block _ body => leavesOf body
  | ifElse _ condition thenBody elseBody =>
    condition.leaves ++ (thenBody.leaves ++ leavesOption elseBody)
  | whileDo _ condition body => condition.leaves ++ body.leaves
  | doUntil _ body condition => body.leaves ++ condition.leaves
  | repeatTimes _ count body => count.leaves ++ body.leaves
  | forLoop _ init condition step body =>
    leavesOf init ++ (leavesOption condition ++ (leavesOf step ++ body.leaves))
  | switch _ subject cases => subject.leaves ++ leavesCase cases
  | withEach _ targets body => leavesOf targets ++ body.leaves
  | declare _ bindings => leavesBinding bindings
  | declareGlobal _ names => names.map .globalVar
  | declareEnum _ name members => [.enumeration name members]
  | returning _ value => leavesOption value
  | discard _ expression => expression.leaves
  | _ => []
termination_by structural node => node

/-- The leaves of several nodes. -/
def leavesOf : List Node → List Leaf
  | [] => []
  | node :: rest => node.leaves ++ leavesOf rest
termination_by structural nodes => nodes

/-- The leaves of a node that may be missing. -/
def leavesOption : Option Node → List Leaf
  | none => []
  | some node => node.leaves
termination_by structural node => node

/-- The leaves of the fields of a struct. -/
def leavesField : List (String × Node) → List Leaf
  | [] => []
  | (_, value) :: rest => value.leaves ++ leavesField rest
termination_by structural fields => fields

/-- The leaves of declared variables: a variable is known after its value. -/
def leavesBinding : List (Binding Node) → List Leaf
  | [] => []
  | ⟨name, value, _⟩ :: rest => leavesOption value ++ .localVar name :: leavesBinding rest
termination_by structural bindings => bindings

/-- The leaves of the arms of a switch. -/
def leavesCase : List (Case Node) → List Leaf
  | [] => []
  | ⟨label, body, _⟩ :: rest => leavesOption label ++ (leavesOf body ++ leavesCase rest)
termination_by structural cases => cases

end

end Leaves

end Node

/-- The leaves of a script whose names are to be looked up. -/
def Script.leaves (script : Script) : List Leaf :=
  Node.leavesOf true script.body

/-- The leaves of a script whose names are looked up. -/
def Script.outcomes (script : Script) : List Leaf :=
  Node.leavesOf false script.body

/-! ### Going through leaves -/

namespace Scope

variable {context : Context} {scope scope' scope₁ : Scope} {leaves leaves' out out' : List Leaf}

/-- What becomes of a leaf, and what is known after it. -/
inductive Meets (context : Context) : Scope → Leaf → Leaf → Scope → Prop
  | number {scope : Scope} {p : Position} {value : Int64} :
    Meets context scope (.number p value) (.number p value) scope
  | name {scope : Scope} {p : Position} {name : String} {resolution : Resolution} :
    Meets context scope (.name p name resolution)
      (.name p name (scope.resolution context name)) scope
  /-- A member of `global` is a global variable. -/
  | ofGlobal {scope : Scope} {p q : Position} {field : String}
    (hlocal : "global" ∉ scope.locals) :
    Meets context scope (.member p q "global" field) (.name p field .globalVar) scope
  /-- A member of `self` is a variable of the instance. -/
  | ofSelf {scope : Scope} {p q : Position} {field : String}
    (hlocal : "self" ∉ scope.locals) :
    Meets context scope (.member p q "self" field)
      (.name p field (if field ∈ context.builtinVariables then .builtinVariable else .dynamic)) scope
  /-- A member of an enumeration is its value. -/
  | value {scope : Scope} {p q : Position} {name field : String}
    {values : Table String Int64} {value : Int64} (hlocal : name ∉ scope.locals)
    (hglobal : name ≠ "global") (hself : name ≠ "self")
    (hvalues : scope.enums.get? name = some values) (hvalue : values.get? field = some value) :
    Meets context scope (.member p q name field) (.number p value) scope
  /-- Of other members the name is looked up. -/
  | member {scope : Scope} {p q : Position} {name field : String}
    (h : name ∈ scope.locals ∨
      name ≠ "global" ∧ name ≠ "self" ∧ scope.enums.get? name = none) :
    Meets context scope (.member p q name field)
      (.name q name (scope.resolution context name)) scope
  | localVar {scope : Scope} {name : String} :
    Meets context scope (.localVar name) (.localVar name)
      { scope with locals := addName scope.locals name }
  | globalVar {scope : Scope} {name : String} :
    Meets context scope (.globalVar name) (.globalVar name)
      { scope with globals := addName scope.globals name }
  | enumeration {scope : Scope} {name : String} {members : List (Binding Node)}
    {values : Table String Int64} (h : memberValues scope.enums name members 0 {} = .ok values) :
    Meets context scope (.enumeration name members)
      (.enumeration name (Resolve.fixedMembers values members))
      { scope with enums := scope.enums.insert name values }

/-- What becomes of leaves one after another, and what is known after them. -/
inductive MeetsAll (context : Context) : Scope → List Leaf → List Leaf → Scope → Prop
  | nil {scope : Scope} : MeetsAll context scope [] [] scope
  | cons {scope scope₁ scope' : Scope} {leaf leaf' : Leaf} {leaves out : List Leaf}
    (hleaf : Meets context scope leaf leaf' scope₁) (hrest : MeetsAll context scope₁ leaves out scope') :
    MeetsAll context scope (leaf :: leaves) (leaf' :: out) scope'

/-- One leaf. -/
theorem Meets.all {leaf leaf' : Leaf} (h : Meets context scope leaf leaf' scope') :
    MeetsAll context scope [leaf] [leaf'] scope' :=
  .cons h .nil

/-- Leaves up to one of them, the leaf itself, and the leaves after it. -/
theorem MeetsAll.split (h : MeetsAll context scope leaves out scope') {i : Nat} {leaf : Leaf}
    (hi : leaves[i]? = some leaf) : ∃ leaf' scope₁ scope₂, out[i]? = some leaf' ∧
      MeetsAll context scope (leaves.take i) (out.take i) scope₁ ∧
      Meets context scope₁ leaf leaf' scope₂ ∧
      MeetsAll context scope₂ (leaves.drop (i + 1)) (out.drop (i + 1)) scope' := by
  induction h generalizing i with
  | nil => cases hi
  | @cons scope scope₁ scope' first first' leaves out hfirst hrest ih =>
    cases i with
    | zero =>
      cases hi
      exact ⟨first', scope, scope₁, rfl, .nil, hfirst, hrest⟩
    | succ i =>
      obtain ⟨leaf', scope₂, scope₃, hleaf', hbefore, hmeets, hafter⟩ := ih hi
      exact ⟨leaf', scope₂, scope₃, hleaf', .cons hfirst hbefore, hmeets, hafter⟩

variable {name : String}

/-- A name that is added. -/
theorem mem_addName {names : List String} {other : String} :
    other ∈ addName names name ↔ other ∈ names ∨ other = name := by
  unfold addName
  by_cases h : name ∈ names
  · rw [if_pos h]
    exact ⟨.inl, fun hor => hor.elim id (fun heq => heq ▸ h)⟩
  · rw [if_neg h]
    simp

/-- The local variables are those that leaves declare. -/
theorem MeetsAll.mem_locals (h : MeetsAll context scope leaves out scope') :
    name ∈ scope'.locals ↔ name ∈ scope.locals ∨ .localVar name ∈ leaves := by
  induction h with
  | nil => simp
  | cons hleaf _ ih =>
    rw [ih]
    cases hleaf <;> simp [mem_addName, or_assoc]

/-- So are the global variables. -/
theorem MeetsAll.mem_globals (h : MeetsAll context scope leaves out scope') :
    name ∈ scope'.globals ↔ name ∈ scope.globals ∨ .globalVar name ∈ leaves := by
  induction h with
  | nil => simp
  | cons hleaf _ ih =>
    rw [ih]
    cases hleaf <;> simp [mem_addName, or_assoc]

/-- As many leaves as before. -/
theorem MeetsAll.length_eq (h : MeetsAll context scope leaves out scope') :
    out.length = leaves.length := by
  induction h with
  | nil => rfl
  | cons _ _ ih => rw [List.length_cons, List.length_cons, ih]

/-- An enumeration that leaves do not declare is what it was. -/
theorem MeetsAll.get?_enums (h : MeetsAll context scope leaves out scope')
    (hname : name ∉ enumNames leaves) : scope'.enums.get? name = scope.enums.get? name := by
  induction h with
  | nil => rfl
  | @cons _ _ _ leaf _ leaves _ hleaf _ ih =>
    have hrest : name ∉ enumNames leaves := fun hmem =>
      hname (List.mem_filterMap.2 ((List.mem_filterMap.1 hmem).imp fun _ => .imp_left (.tail _)))
    rw [ih hrest]
    cases hleaf with
    | @enumeration other members values hvalues =>
      have hne : other ≠ name := fun heq => hname (by simp [enumNames, Leaf.enum?, heq])
      exact (Table.get?_insert ..).trans (if_neg hne)
    | _ => rfl

/-- More leaves. -/
theorem MeetsAll.append (h : MeetsAll context scope leaves out scope₁)
    (h' : MeetsAll context scope₁ leaves' out' scope') :
    MeetsAll context scope (leaves ++ leaves') (out ++ out') scope' := by
  induction h with
  | nil => exact h'
  | cons hleaf _ ih => exact .cons hleaf (ih h')

end Scope

/-! ### Looking up names

Looking up the names of a tree goes through its leaves one by one.
-/

namespace Resolve

open Scope

variable {α β : Type} {context : Context} {scope scope' : Scope} {p : Position} {name : String}

/-- A sequence has a scope in between. -/
theorem exists_of_run_bind {x : Resolve α} {f : α → Resolve β} {b : β}
    (h : (x >>= f).run scope = .ok (b, scope')) :
    ∃ a scope₁, x.run scope = .ok (a, scope₁) ∧ (f a).run scope₁ = .ok (b, scope') := by
  rw [StateT.run_bind] at h
  obtain ⟨⟨a, scope₁⟩, hx, hf⟩ := exists_ok_of_bind h
  exact ⟨a, scope₁, hx, hf⟩

/-- A statement is resolved as one. -/
theorem run_of_onlyStatement {site : Site} {node result : Node} {x : Resolve Node}
    (h : (Node.onlyStatement site node x).run scope = .ok (result, scope')) :
    x.run scope = .ok (result, scope') := by
  cases site with
  | statement => exact h
  | expression => cases h

/-- A requirement keeps the scope. -/
theorem eq_of_require {feature : Feature} {u : Unit}
    (h : (require context feature p).run scope = .ok (u, scope')) : scope' = scope := by
  unfold require at h
  split at h
  · cases h
    rfl
  · cases h

/-- So does a target. -/
theorem eq_of_storable {target result : Node}
    (h : (storable target).run scope = .ok (result, scope')) : result = target ∧ scope' = scope := by
  unfold storable at h
  split at h
  iterate 5 cases h
  cases h
  exact ⟨rfl, rfl⟩

/-- A local variable. -/
theorem meets_declareLocal {u : Unit}
    (h : (declareLocal context name p).run scope = .ok (u, scope')) :
    Meets context scope (.localVar name) (.localVar name) scope' := by
  unfold declareLocal at h
  split at h
  · cases h
  · cases h
    exact .localVar

/-- A global variable. -/
theorem meets_declareGlobal {u : Unit}
    (h : (declareGlobal context p name).run scope = .ok (u, scope')) :
    Meets context scope (.globalVar name) (.globalVar name) scope' := by
  unfold declareGlobal at h
  split at h
  · cases h
  · cases h
    exact .globalVar

/-- Several of them. -/
theorem meets_declareGlobals {names : List String} {u : Unit}
    (h : (names.forM (declareGlobal context p)).run scope = .ok (u, scope')) :
    MeetsAll context scope (names.map .globalVar) (names.map .globalVar) scope' := by
  induction names generalizing scope with
  | nil =>
    cases h
    exact .nil
  | cons name names ih =>
    obtain ⟨_, scope₁, hname, h⟩ := exists_of_run_bind h
    exact .cons (meets_declareGlobal hname) (ih h)

/-- The values of an enumeration. -/
theorem values_of_declareEnum {members : List (Binding Node)} {values : Table String Int64}
    (h : (declareEnum name members).run scope = .ok (values, scope')) :
    memberValues scope.enums name members 0 {} = .ok values ∧
      scope' = { scope with enums := scope.enums.insert name values } := by
  obtain ⟨_, _, hget, h⟩ := exists_of_run_bind h
  cases hget
  obtain ⟨values', _, hvalues, h⟩ := exists_of_run_bind h
  obtain ⟨values'', hvalues', hpure⟩ := exists_ok_of_bind hvalues
  cases hpure
  cases h
  exact ⟨hvalues', rfl⟩

/-- A member of a name is replaced by what the name has for it, or it stays. -/
theorem meets_shortcut {q : Position} {field : String} {short : Option Node}
    (hrun : (shortcut? context p name field).run scope = .ok (short, scope')) : scope' = scope ∧
      (short = none → Meets context scope (.member p q name field)
        (.name q name (scope.resolution context name)) scope) ∧
      ∀ node, short = some node → ∃ leaf, node.leaves false = [leaf] ∧
        Meets context scope (.member p q name field) leaf scope := by
  obtain ⟨_, _, hget, h⟩ := exists_of_run_bind hrun
  cases hget
  by_cases hlocal : name ∈ scope.locals
  · rw [if_pos hlocal] at h
    cases h
    exact ⟨rfl, fun _ => .member (.inl hlocal), nofun⟩
  rw [if_neg hlocal] at h
  by_cases hglobal : name = "global"
  · rw [if_pos hglobal] at h
    subst hglobal
    cases h
    exact ⟨rfl, nofun, by rintro _ ⟨⟩; exact ⟨_, rfl, .ofGlobal hlocal⟩⟩
  rw [if_neg hglobal] at h
  by_cases hself : name = "self"
  · rw [if_pos hself] at h
    subst hself
    cases h
    exact ⟨rfl, nofun, by rintro _ ⟨⟩; exact ⟨_, rfl, .ofSelf hlocal⟩⟩
  rw [if_neg hself] at h
  cases hvalues : scope.enums.get? name with
  | none =>
    rw [hvalues] at h
    cases h
    exact ⟨rfl, fun _ => .member (.inr ⟨hglobal, hself, hvalues⟩), nofun⟩
  | some values =>
    rw [hvalues] at h
    dsimp only at h
    cases hvalue : values.get? field with
    | none =>
      rw [hvalue] at h
      cases h
    | some value =>
      rw [hvalue] at h
      cases h
      exact ⟨rfl, nofun, by rintro _ ⟨⟩; exact ⟨_, rfl, .value hlocal hglobal hself hvalues hvalue⟩⟩

end Resolve

namespace Node

open Resolve Scope

variable {context : Context} {scope scope' : Scope}

/-- An enumeration is one leaf. -/
theorem leaves_of_enumeration? {node : Node} {leaf : Leaf} (h : node.enumeration? = some leaf) :
    node.leaves true = [leaf] := by
  cases node with
  | declareEnum =>
    cases h
    rfl
  | _ => cases h

variable {field : String} {instanceOf : Node}

/-- A field adds no leaf. -/
theorem leaves_member {p : Position} :
    (Node.member p instanceOf field).leaves false = instanceOf.leaves false := by
  rw [leaves]
  cases instanceOf.name? <;> rfl

/-- Nor does a field of what is no name. -/
theorem leaves_member_of_none {joined : Bool} {p : Position} (h : instanceOf.name? = none) :
    (Node.member p instanceOf field).leaves joined = instanceOf.leaves joined := by
  rw [leaves, h]

/-- A member of a name is one leaf. -/
theorem meets_member_ident {p q : Position} {name : String} {resolution : Resolution} {site : Site}
    {result : Node} (hrun : ((Node.member p (.ident q name resolution) field).resolve context
      site).run scope = .ok (result, scope')) :
    MeetsAll context scope [.member p q name field] (result.leaves false) scope' := by
  obtain ⟨short, _, hshort, h⟩ := exists_of_run_bind hrun
  obtain ⟨rfl, hnone, hsome⟩ := meets_shortcut (q := q) hshort
  cases short with
  | none =>
    obtain ⟨_, _, hident, h⟩ := exists_of_run_bind h
    cases hident
    cases h
    exact (hnone rfl).all
  | some node =>
    obtain ⟨leaf, hleaf, hmeets⟩ := hsome node rfl
    cases h
    rw [hleaf]
    exact hmeets.all

/-- A member of anything but a name is looked up there. -/
theorem resolve_member {p : Position} {result : Node} {site : Site}
    (hname : instanceOf.name? = none) (hrun : ((Node.member p instanceOf field).resolve context
      site).run scope = .ok (result, scope')) :
    ∃ instanceOf', (instanceOf.resolve context .expression).run scope = .ok (instanceOf', scope') ∧
      result = .member p instanceOf' field := by
  unfold resolve at hrun
  split at hrun
  · cases hname
  · obtain ⟨_, _, hshort, h⟩ := exists_of_run_bind hrun
    cases hshort
    obtain ⟨instanceOf', _, hinstance, h⟩ := exists_of_run_bind h
    cases h
    exact ⟨instanceOf', hinstance, rfl⟩

mutual

/-- Looking up the names of a node goes through its leaves. -/
theorem meets_resolve : ∀ (node : Node) {site : Site} {scope scope' : Scope} {result : Node},
    (node.resolve context site).run scope = .ok (result, scope') →
    MeetsAll context scope (node.leaves true) (result.leaves false) scope'
  | .int .., _, _, _, _, h => by
    cases h
    exact Meets.number.all
  | .real .., _, _, _, _, h => by
    cases h
    exact .nil
  | .string p value verbatim, _, _, _, _, h => by
    unfold resolve at h
    split at h
    · obtain ⟨_, _, hrequire, h⟩ := exists_of_run_bind h
      cases eq_of_require hrequire
      cases h
      exact .nil
    · cases h
      exact .nil
  | .ident .., _, _, _, _, h => by
    cases h
    exact Meets.name.all
  | .binary _ _ lhs rhs, _, _, _, _, h | .logical _ _ lhs rhs, _, _, _, _, h => by
    obtain ⟨_, _, hl, h⟩ := exists_of_run_bind h
    obtain ⟨_, _, hr, h⟩ := exists_of_run_bind h
    cases h
    exact (meets_resolve lhs hl).append (meets_resolve rhs hr)
  | .unary _ _ operand, _, _, _, _, h => by
    obtain ⟨_, _, ho, h⟩ := exists_of_run_bind h
    cases h
    have := meets_resolve operand ho
    exact this
  | .conditional _ condition thenValue elseValue, _, _, _, _, h => by
    obtain ⟨_, _, hc, h⟩ := exists_of_run_bind h
    obtain ⟨_, _, ht, h⟩ := exists_of_run_bind h
    obtain ⟨_, _, he, h⟩ := exists_of_run_bind h
    cases h
    exact (meets_resolve condition hc).append
      ((meets_resolve thenValue ht).append (meets_resolve elseValue he))
  | .call _ callee arguments, _, _, _, _, h => by
    obtain ⟨_, _, hc, h⟩ := exists_of_run_bind h
    obtain ⟨_, _, ha, h⟩ := exists_of_run_bind h
    cases h
    exact (meets_resolve callee hc).append (meets_resolveAll arguments ha)
  | .index _ container _ indices, _, _, _, _, h => by
    obtain ⟨_, _, hc, h⟩ := exists_of_run_bind h
    obtain ⟨_, _, hi, h⟩ := exists_of_run_bind h
    cases h
    exact (meets_resolve container hc).append (meets_resolveAll indices hi)
  | .member p instanceOf field, _, _, _, _, hrun => by
    cases hname : instanceOf.name? with
    | some owner =>
      obtain ⟨resolution, rfl⟩ := eq_ident_of_name? hname
      exact meets_member_ident hrun
    | none =>
      obtain ⟨_, hinstance, rfl⟩ := resolve_member hname hrun
      rw [leaves_member_of_none hname, leaves_member]
      exact meets_resolve instanceOf hinstance
  | .update _ target _ _, _, _, _, _, h => by
    obtain ⟨_, _, ht, h⟩ := exists_of_run_bind h
    obtain ⟨_, _, hs, h⟩ := exists_of_run_bind h
    cases h
    obtain ⟨rfl, rfl⟩ := eq_of_storable hs
    have := meets_resolve target ht
    exact this
  | .struct _ fields, _, _, _, _, h => by
    obtain ⟨_, _, hrequire, h⟩ := exists_of_run_bind h
    obtain ⟨_, _, hf, h⟩ := exists_of_run_bind h
    cases h
    cases eq_of_require hrequire
    exact meets_resolveFields fields hf
  | .array _ elements, _, _, _, _, h => by
    obtain ⟨_, _, hrequire, h⟩ := exists_of_run_bind h
    obtain ⟨_, _, he, h⟩ := exists_of_run_bind h
    cases h
    cases eq_of_require hrequire
    exact meets_resolveAll elements he
  | .assign _ target _ value, _, _, _, _, h => by
    obtain ⟨_, _, hv, h⟩ := exists_of_run_bind (run_of_onlyStatement h)
    obtain ⟨_, _, ht, h⟩ := exists_of_run_bind h
    obtain ⟨_, _, hs, h⟩ := exists_of_run_bind h
    cases h
    obtain ⟨rfl, rfl⟩ := eq_of_storable hs
    exact (meets_resolve value hv).append (meets_resolve target ht)
  | .block _ body, _, _, _, _, h => by
    obtain ⟨_, _, hb, h⟩ := exists_of_run_bind (run_of_onlyStatement h)
    cases h
    exact meets_resolveAll body hb
  | .ifElse _ condition thenBody elseBody, _, _, _, _, h => by
    obtain ⟨_, _, hc, h⟩ := exists_of_run_bind (run_of_onlyStatement h)
    obtain ⟨_, _, ht, h⟩ := exists_of_run_bind h
    obtain ⟨_, _, he, h⟩ := exists_of_run_bind h
    cases h
    exact (meets_resolve condition hc).append
      ((meets_resolve thenBody ht).append (meets_resolveOptional elseBody he))
  | .whileDo _ condition body, _, _, _, _, h => by
    obtain ⟨_, _, hc, h⟩ := exists_of_run_bind (run_of_onlyStatement h)
    obtain ⟨_, _, hb, h⟩ := exists_of_run_bind h
    cases h
    exact (meets_resolve condition hc).append (meets_resolve body hb)
  | .doUntil _ body condition, _, _, _, _, h => by
    obtain ⟨_, _, hb, h⟩ := exists_of_run_bind (run_of_onlyStatement h)
    obtain ⟨_, _, hc, h⟩ := exists_of_run_bind h
    cases h
    exact (meets_resolve body hb).append (meets_resolve condition hc)
  | .repeatTimes _ count body, _, _, _, _, h => by
    obtain ⟨_, _, hc, h⟩ := exists_of_run_bind (run_of_onlyStatement h)
    obtain ⟨_, _, hb, h⟩ := exists_of_run_bind h
    cases h
    exact (meets_resolve count hc).append (meets_resolve body hb)
  | .forLoop _ init condition step body, _, _, _, _, h => by
    obtain ⟨_, _, hi, h⟩ := exists_of_run_bind (run_of_onlyStatement h)
    obtain ⟨_, _, hc, h⟩ := exists_of_run_bind h
    obtain ⟨_, _, hs, h⟩ := exists_of_run_bind h
    obtain ⟨_, _, hb, h⟩ := exists_of_run_bind h
    cases h
    exact (meets_resolveAll init hi).append ((meets_resolveOptional condition hc).append
      ((meets_resolveAll step hs).append (meets_resolve body hb)))
  | .switch _ subject cases, _, _, _, _, h => by
    obtain ⟨_, _, hs, h⟩ := exists_of_run_bind (run_of_onlyStatement h)
    obtain ⟨_, _, hc, h⟩ := exists_of_run_bind h
    cases h
    exact (meets_resolve subject hs).append (meets_resolveCases cases hc)
  | .withEach _ targets body, _, _, _, _, h => by
    obtain ⟨_, _, ht, h⟩ := exists_of_run_bind (run_of_onlyStatement h)
    obtain ⟨_, _, hb, h⟩ := exists_of_run_bind h
    cases h
    exact (meets_resolveAll targets ht).append (meets_resolve body hb)
  | .declare _ bindings, _, _, _, _, h => by
    obtain ⟨_, _, hb, h⟩ := exists_of_run_bind (run_of_onlyStatement h)
    cases h
    exact meets_resolveVariables bindings hb
  | .declareGlobal _ names, _, _, _, _, h => by
    obtain ⟨_, _, hn, h⟩ := exists_of_run_bind (run_of_onlyStatement h)
    cases h
    exact meets_declareGlobals hn
  | .declareEnum _ name members, _, _, _, _, h => by
    obtain ⟨_, _, hv, h⟩ := exists_of_run_bind (run_of_onlyStatement h)
    obtain ⟨hvalues, rfl⟩ := values_of_declareEnum hv
    cases h
    exact (Meets.enumeration hvalues).all
  | .returning _ value, _, _, _, _, h => by
    obtain ⟨_, _, hv, h⟩ := exists_of_run_bind (run_of_onlyStatement h)
    cases h
    exact meets_resolveOptional value hv
  | .exit _, _, _, _, _, h | .breaking _, _, _, _, _, h | .continuing _, _, _, _, _, h => by
    cases run_of_onlyStatement h
    exact .nil
  | .discard _ expression, _, _, _, _, h => by
    obtain ⟨_, _, he, h⟩ := exists_of_run_bind (run_of_onlyStatement h)
    cases h
    have := meets_resolve expression he
    exact this
termination_by structural node => node

/-- Several expressions. -/
theorem meets_resolveAll : ∀ (nodes : List Node) {site : Site} {scope scope' : Scope}
    {results : List Node}, (resolveAll context site nodes).run scope = .ok (results, scope') →
    MeetsAll context scope (leavesOf true nodes) (leavesOf false results) scope'
  | [], _, _, _, _, h => by
    cases h
    exact .nil
  | node :: rest, _, _, _, _, h => by
    obtain ⟨_, _, hn, h⟩ := exists_of_run_bind h
    obtain ⟨_, _, hr, h⟩ := exists_of_run_bind h
    cases h
    exact (meets_resolve node hn).append (meets_resolveAll rest hr)
termination_by structural nodes => nodes

/-- One that may be missing. -/
theorem meets_resolveOptional : ∀ (node : Option Node) {site : Site} {scope scope' : Scope}
    {result : Option Node},
    (resolveOptional context site node).run scope = .ok (result, scope') →
    MeetsAll context scope (leavesOption true node) (leavesOption false result) scope'
  | none, _, _, _, _, h => by
    cases h
    exact .nil
  | some node, _, _, _, _, h => by
    obtain ⟨_, _, hn, h⟩ := exists_of_run_bind h
    cases h
    exact meets_resolve node hn
termination_by structural node => node

/-- Fields. -/
theorem meets_resolveFields : ∀ (fields : List (String × Node)) {scope scope' : Scope}
    {results : List (String × Node)},
    (resolveFields context fields).run scope = .ok (results, scope') →
    MeetsAll context scope (leavesField true fields) (leavesField false results) scope'
  | [], _, _, _, h => by
    cases h
    exact .nil
  | (_, value) :: rest, _, _, _, h => by
    obtain ⟨_, _, hv, h⟩ := exists_of_run_bind h
    obtain ⟨_, _, hr, h⟩ := exists_of_run_bind h
    cases h
    exact (meets_resolve value hv).append (meets_resolveFields rest hr)
termination_by structural fields => fields

/-- Declarations. -/
theorem meets_resolveVariables : ∀ (bindings : List (Binding Node)) {scope scope' : Scope}
    {results : List (Binding Node)},
    (resolveVariables context bindings).run scope = .ok (results, scope') →
    MeetsAll context scope (leavesBinding true bindings) (leavesBinding false results) scope'
  | [], _, _, _, h => by
    cases h
    exact .nil
  | ⟨_, value, _⟩ :: rest, _, _, _, h => by
    obtain ⟨_, _, hv, h⟩ := exists_of_run_bind h
    obtain ⟨_, _, hn, h⟩ := exists_of_run_bind h
    obtain ⟨_, _, hr, h⟩ := exists_of_run_bind h
    cases h
    exact (meets_resolveOptional value hv).append
      (.cons (meets_declareLocal hn) (meets_resolveVariables rest hr))
termination_by structural bindings => bindings

/-- Arms. -/
theorem meets_resolveCases : ∀ (cases : List (Case Node)) {scope scope' : Scope}
    {results : List (Case Node)},
    (resolveCases context cases).run scope = .ok (results, scope') →
    MeetsAll context scope (leavesCase true cases) (leavesCase false results) scope'
  | [], _, _, _, h => by
    cases h
    exact .nil
  | ⟨label, body, _⟩ :: rest, _, _, _, h => by
    obtain ⟨_, _, hl, h⟩ := exists_of_run_bind h
    obtain ⟨_, _, hb, h⟩ := exists_of_run_bind h
    obtain ⟨_, _, hr, h⟩ := exists_of_run_bind h
    cases h
    exact (meets_resolveOptional label hl).append
      ((meets_resolveAll body hb).append (meets_resolveCases rest hr))
termination_by structural cases => cases

end

end Node

/-! ### Scripts -/

namespace Script

open Resolve Scope

/-- The enumerations at top level. -/
def hoisted (script : Script) : List Leaf :=
  script.body.filterMap Node.enumeration?

/-- Enumerations are leaves. -/
theorem hoisted_sublist (script : Script) : script.hoisted.Sublist script.leaves := by
  obtain ⟨body⟩ := script
  induction body with
  | nil => exact .slnil
  | cons node body ih =>
    have hleaves : leaves ⟨node :: body⟩ = node.leaves true ++ leaves ⟨body⟩ := rfl
    rw [hleaves, hoisted, List.filterMap_cons]
    cases hnode : node.enumeration? with
    | none => exact ih.trans (List.sublist_append_right _ _)
    | some leaf =>
      rw [Node.leaves_of_enumeration? hnode]
      exact ih.cons_cons leaf

/-- They are met in front. -/
theorem meets_declareEnums {context : Context} {body : List Node} {scope scope' : Scope} {u : Unit}
    (h : (declareEnums body).run scope = .ok (u, scope')) :
    ∃ out, MeetsAll context scope (body.filterMap Node.enumeration?) out scope' := by
  induction body generalizing scope with
  | nil =>
    cases h
    exact ⟨[], .nil⟩
  | cons node body ih =>
    cases node with
    | declareEnum p name members =>
      obtain ⟨_, _, hdeclare, h⟩ := exists_of_run_bind h
      obtain ⟨hvalues, rfl⟩ := values_of_declareEnum hdeclare
      obtain ⟨out, hout⟩ := ih h
      exact ⟨_, .cons (.enumeration hvalues) hout⟩
    | _ => exact ih h

/-- Enumerations at top level are gone through before everything else, and once more in their
places. -/
theorem meets_of_resolve {context : Context} {script resolved : Script}
    (h : script.resolve context = .ok resolved) : ∃ scope scope' out,
      MeetsAll context { enums := context.enums } script.hoisted out scope ∧ scope.locals = [] ∧
      MeetsAll context scope script.leaves resolved.outcomes scope' := by
  obtain ⟨⟨body, scope'⟩, hrun, h⟩ := exists_ok_of_bind h
  cases h
  obtain ⟨_, scope, hhoist, hbody⟩ := exists_of_run_bind hrun
  obtain ⟨out, hout⟩ := meets_declareEnums hhoist
  refine ⟨scope, scope', out, hout, ?_, Node.meets_resolveAll script.body hbody⟩
  refine List.eq_nil_iff_forall_not_mem.2 fun name hname => ?_
  rcases hout.mem_locals.1 hname with hmem | hmem
  · exact List.not_mem_nil hmem
  · obtain ⟨node, -, hnode⟩ := List.mem_filterMap.1 hmem
    cases node <;> cases hnode

end Script

end Gml
