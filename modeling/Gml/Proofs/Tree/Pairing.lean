import Gml.Proofs.Tree.Every
import Gml.Tree.Scope

/-!
# Two lookups side by side

The names of one tree are looked up in two contexts. The two runs go through the tree in the same
way, and a context is only asked about single nodes: about a name, a member of a name, a declared
name or a literal that not every tier has. So whatever relation the two runs have at each of these
(`Node.Paired`), they have it for the whole tree, as long as it is a relation that goes on from one
action to the next (`Resolve.Pairing`).
-/

namespace Gml

/-- A relation between two lookups that holds where both do the same and goes on from one action to
the next, as long as these give the same. -/
structure Resolve.Pairing where
  /-- The relation. -/
  rel : {α : Type} → Resolve α → Resolve α → Prop
  pure : ∀ {α : Type} (a : α), rel (Pure.pure a : Resolve α) (Pure.pure a)
  fail : ∀ {α : Type} (fault : Fault) (p : Position),
    rel (Resolve.fail fault p : Resolve α) (Resolve.fail fault p)
  bind : ∀ {α β : Type} {x x' : Resolve α} {f f' : α → Resolve β},
    rel x x' → (∀ a, rel (f a) (f' a)) → rel (x >>= f) (x' >>= f')

namespace Node

open Resolve

variable {R : Pairing} {c c' : Context}

/-- What two contexts are asked about a node itself is answered in relation. -/
def Paired (R : Pairing) (c c' : Context) : Node → Prop
  | string p _ true => R.rel (require c .rawStrings p) (require c' .rawStrings p)
  | struct p _ => R.rel (require c .structLiterals p) (require c' .structLiterals p)
  | array p _ => R.rel (require c .arrayLiterals p) (require c' .arrayLiterals p)
  | ident p name resolution =>
    R.rel ((ident p name resolution).resolve c .expression)
      ((ident p name resolution).resolve c' .expression)
  | member p (ident _ name _) field => R.rel (shortcut? c p name field) (shortcut? c' p name field)
  | declare _ bindings => ∀ binding ∈ bindings,
    R.rel (declareLocal c binding.name binding.position)
      (declareLocal c' binding.name binding.position)
  | declareGlobal p names => ∀ name ∈ names,
    R.rel (Resolve.declareGlobal c p name) (Resolve.declareGlobal c' p name)
  | declareEnum _ name members =>
    R.rel (Resolve.declareEnum name members) (Resolve.declareEnum name members)
  | _ => True

/-- A target is paired. -/
theorem rel_storable (target : Node) : R.rel (storable target) (storable target) := by
  unfold storable
  split
  case h_6 => exact R.pure _
  all_goals exact R.fail _ _

/-- So is a statement. -/
theorem rel_onlyStatement {node : Node} {x x' : Resolve Node} (h : R.rel x x') (site : Site) :
    R.rel (onlyStatement site node x) (onlyStatement site node x') := by
  cases site with
  | statement => exact h
  | expression => exact R.fail _ _

/-- So are actions for names. -/
theorem rel_forM {x x' : String → Resolve Unit} (names : List String)
    (h : ∀ name ∈ names, R.rel (x name) (x' name)) : R.rel (names.forM x) (names.forM x') := by
  induction names with
  | nil => exact R.pure _
  | cons name names ih =>
    rw [List.forall_mem_cons] at h
    exact R.bind h.1 fun _ => ih h.2

mutual

/-- Looking up the names of a node in two contexts. -/
theorem rel_resolve : ∀ (node : Node) (site : Site), node.Every (Paired R c c') →
    R.rel (node.resolve c site) (node.resolve c' site)
  | .int .., _, _ | .real .., _, _ => R.pure _
  | .ident .., _, h => h
  | .string p value verbatim, _, h => by
    unfold resolve
    cases verbatim with
    | true => exact R.bind h fun _ => R.pure _
    | false => exact R.pure _
  | .binary _ _ lhs rhs, _, h | .logical _ _ lhs rhs, _, h => by
    refine R.bind (rel_resolve lhs _ h.2.1) fun _ => ?_
    exact R.bind (rel_resolve rhs _ h.2.2) fun _ => R.pure _
  | .unary _ _ operand, _, h => R.bind (rel_resolve operand _ h.2) fun _ => R.pure _
  | .conditional _ condition thenValue elseValue, _, h => by
    refine R.bind (rel_resolve condition _ h.2.1) fun _ => ?_
    refine R.bind (rel_resolve thenValue _ h.2.2.1) fun _ => ?_
    exact R.bind (rel_resolve elseValue _ h.2.2.2) fun _ => R.pure _
  | .call _ callee arguments, _, h => by
    refine R.bind (rel_resolve callee _ h.2.1) fun _ => ?_
    exact R.bind (rel_resolveAll arguments _ h.2.2) fun _ => R.pure _
  | .index _ container _ indices, _, h => by
    refine R.bind (rel_resolve container _ h.2.1) fun _ => ?_
    exact R.bind (rel_resolveAll indices _ h.2.2) fun _ => R.pure _
  | .member p instanceOf field, _, h => by
    have hinstance := rel_resolve instanceOf .expression h.2
    have hrest (short : Option Node) : R.rel
        (match short with
          | some node => return node
          | none => return .member p (← instanceOf.resolve c .expression) field)
        (match short with
          | some node => return node
          | none => return .member p (← instanceOf.resolve c' .expression) field) := by
      cases short with
      | some node => exact R.pure _
      | none => exact R.bind hinstance fun _ => R.pure _
    unfold resolve
    split
    · exact R.bind h.1 hrest
    · exact R.bind (R.pure _) hrest
  | .update _ target _ _, _, h => by
    refine R.bind (rel_resolve target _ h.2) fun _ => ?_
    exact R.bind (rel_storable _) fun _ => R.pure _
  | .struct _ fields, _, h => by
    refine R.bind h.1 fun _ => ?_
    exact R.bind (rel_resolveFields fields h.2) fun _ => R.pure _
  | .array _ elements, _, h => by
    refine R.bind h.1 fun _ => ?_
    exact R.bind (rel_resolveAll elements _ h.2) fun _ => R.pure _
  | .assign _ target _ value, site, h => by
    refine rel_onlyStatement (R.bind (rel_resolve value _ h.2.2) fun _ => ?_) site
    refine R.bind (rel_resolve target _ h.2.1) fun _ => ?_
    exact R.bind (rel_storable _) fun _ => R.pure _
  | .block _ body, site, h =>
    rel_onlyStatement (R.bind (rel_resolveAll body _ h.2) fun _ => R.pure _) site
  | .ifElse _ condition thenBody elseBody, site, h => by
    refine rel_onlyStatement (R.bind (rel_resolve condition _ h.2.1) fun _ => ?_) site
    refine R.bind (rel_resolve thenBody _ h.2.2.1) fun _ => ?_
    exact R.bind (rel_resolveOptional elseBody _ h.2.2.2) fun _ => R.pure _
  | .whileDo _ condition body, site, h => by
    refine rel_onlyStatement (R.bind (rel_resolve condition _ h.2.1) fun _ => ?_) site
    exact R.bind (rel_resolve body _ h.2.2) fun _ => R.pure _
  | .doUntil _ body condition, site, h => by
    refine rel_onlyStatement (R.bind (rel_resolve body _ h.2.1) fun _ => ?_) site
    exact R.bind (rel_resolve condition _ h.2.2) fun _ => R.pure _
  | .repeatTimes _ count body, site, h => by
    refine rel_onlyStatement (R.bind (rel_resolve count _ h.2.1) fun _ => ?_) site
    exact R.bind (rel_resolve body _ h.2.2) fun _ => R.pure _
  | .forLoop _ init condition step body, site, h => by
    refine rel_onlyStatement (R.bind (rel_resolveAll init _ h.2.1) fun _ => ?_) site
    refine R.bind (rel_resolveOptional condition _ h.2.2.1) fun _ => ?_
    refine R.bind (rel_resolveAll step _ h.2.2.2.1) fun _ => ?_
    exact R.bind (rel_resolve body _ h.2.2.2.2) fun _ => R.pure _
  | .switch _ subject cases, site, h => by
    refine rel_onlyStatement (R.bind (rel_resolve subject _ h.2.1) fun _ => ?_) site
    exact R.bind (rel_resolveCases cases h.2.2) fun _ => R.pure _
  | .withEach _ targets body, site, h => by
    refine rel_onlyStatement (R.bind (rel_resolveAll targets _ h.2.1) fun _ => ?_) site
    exact R.bind (rel_resolve body _ h.2.2) fun _ => R.pure _
  | .declare _ bindings, site, h =>
    rel_onlyStatement (R.bind (rel_resolveVariables bindings h.1 h.2) fun _ => R.pure _) site
  | .declareGlobal _ names, site, h =>
    rel_onlyStatement (R.bind (rel_forM names h) fun _ => R.pure _) site
  | .declareEnum _ _ _, site, h =>
    rel_onlyStatement (R.bind h.1 fun _ => R.pure _) site
  | .returning _ value, site, h =>
    rel_onlyStatement (R.bind (rel_resolveOptional value _ h.2) fun _ => R.pure _) site
  | .discard _ expression, site, h =>
    rel_onlyStatement (R.bind (rel_resolve expression _ h.2) fun _ => R.pure _) site
  | .exit .., site, _ | .breaking .., site, _ | .continuing .., site, _ =>
    rel_onlyStatement (R.pure _) site
termination_by structural node => node

/-- Several expressions are paired. -/
theorem rel_resolveAll : ∀ (nodes : List Node) (site : Site), EveryOf (Paired R c c') nodes →
    R.rel (resolveAll c site nodes) (resolveAll c' site nodes)
  | [], _, _ => R.pure _
  | node :: rest, site, h => by
    refine R.bind (rel_resolve node site h.1) fun _ => ?_
    exact R.bind (rel_resolveAll rest site h.2) fun _ => R.pure _
termination_by structural nodes => nodes

/-- So is one that may be missing. -/
theorem rel_resolveOptional : ∀ (node : Option Node) (site : Site),
    EveryOption (Paired R c c') node →
    R.rel (resolveOptional c site node) (resolveOptional c' site node)
  | none, _, _ => R.pure _
  | some node, site, h => R.bind (rel_resolve node site h) fun _ => R.pure _
termination_by structural node => node

/-- So are fields. -/
theorem rel_resolveFields : ∀ fields : List (String × Node), EveryField (Paired R c c') fields →
    R.rel (resolveFields c fields) (resolveFields c' fields)
  | [], _ => R.pure _
  | (_, value) :: rest, h => by
    refine R.bind (rel_resolve value _ h.1) fun _ => ?_
    exact R.bind (rel_resolveFields rest h.2) fun _ => R.pure _
termination_by structural fields => fields

/-- So are declarations. -/
theorem rel_resolveVariables : ∀ bindings : List (Binding Node),
    (∀ binding ∈ bindings, R.rel (declareLocal c binding.name binding.position)
      (declareLocal c' binding.name binding.position)) →
    EveryBinding (Paired R c c') bindings →
    R.rel (resolveVariables c bindings) (resolveVariables c' bindings)
  | [], _, _ => R.pure _
  | ⟨_, value, _⟩ :: rest, hnames, h => by
    rw [List.forall_mem_cons] at hnames
    refine R.bind (rel_resolveOptional value _ h.1) fun _ => ?_
    refine R.bind hnames.1 fun _ => ?_
    exact R.bind (rel_resolveVariables rest hnames.2 h.2) fun _ => R.pure _
termination_by structural bindings => bindings

/-- So are arms. -/
theorem rel_resolveCases : ∀ cases : List (Case Node), EveryCase (Paired R c c') cases →
    R.rel (resolveCases c cases) (resolveCases c' cases)
  | [], _ => R.pure _
  | ⟨label, body, _⟩ :: rest, h => by
    refine R.bind (rel_resolveOptional label _ h.1) fun _ => ?_
    refine R.bind (rel_resolveAll body _ h.2.1) fun _ => ?_
    exact R.bind (rel_resolveCases rest h.2.2) fun _ => R.pure _
termination_by structural cases => cases

end

end Node

namespace Script

open Resolve

variable {R : Pairing} {c c' : Context}

/-- So are enumerations. -/
theorem rel_declareEnums {nodes : List Node} (h : Node.EveryOf (Node.Paired R c c') nodes) :
    R.rel (declareEnums nodes) (declareEnums nodes) := by
  induction nodes with
  | nil => exact R.pure _
  | cons node rest ih =>
    cases node with
    | declareEnum => exact R.bind h.1.1 fun _ => ih h.2
    | _ => exact ih h.2

/-- Looking up the names of a script in two contexts. -/
theorem rel_lookup {body : List Node} (h : Node.EveryOf (Node.Paired R c c') body) :
    R.rel (declareEnums body >>= fun _ => Node.resolveAll c .statement body)
      (declareEnums body >>= fun _ => Node.resolveAll c' .statement body) :=
  R.bind (rel_declareEnums h) fun _ => Node.rel_resolveAll body .statement h

end Script

end Gml
