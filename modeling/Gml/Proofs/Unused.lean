import Gml.Compile
import Gml.Proofs.Tree.Enumerations
import Gml.Proofs.Tree.Pairing
import Gml.Proofs.Tree.Ranges

/-!
# Names that a source does not have

A context is only asked about names that the source has. So what it says about another name makes no
difference: two contexts that differ in nothing but this name compile the source to the same
(`compile_of_unused`).

The two lookups are run side by side, from scopes that may differ in the enumeration of that name
and in nothing else (`Resolve.unheeding`).
-/

namespace Gml

variable {n : String} {c c' : Context}

/-! ### What differs in a name only -/

/-- Contexts that say the same about all names but one. -/
structure Context.SameBut (n : String) (c c' : Context) : Prop where
  versionTier : c.versionTier = c'.versionTier
  encoding : c.encoding = c'.encoding
  builtinFunctions : ∀ name, name ≠ n →
    (name ∈ c.builtinFunctions ↔ name ∈ c'.builtinFunctions)
  builtinVariables : ∀ name, name ≠ n →
    (name ∈ c.builtinVariables ↔ name ∈ c'.builtinVariables)
  symbols : ∀ name, name ≠ n → c.symbols.get? name = c'.symbols.get? name
  enums : ∀ name, name ≠ n → c.enums.get? name = c'.enums.get? name

namespace Context.SameBut

/-- A context is the same as itself. -/
theorem refl (n : String) (c : Context) : c.SameBut n c :=
  ⟨rfl, rfl, fun _ _ => Iff.rfl, fun _ _ => Iff.rfl, fun _ _ => rfl, fun _ _ => rfl⟩

/-- A name that is added is the only new one. -/
theorem mem_addName_iff {names : List String} {name : String} (hname : name ≠ n) :
    name ∈ addName names n ↔ name ∈ names := by
  unfold addName
  split
  · exact Iff.rfl
  · simp [hname]

/-- A function with the name makes no difference. -/
theorem withFunctions (h : c.SameBut n c') : c.SameBut n (c'.withFunctions [n]) :=
  { h with
    builtinFunctions := fun name hname =>
      (h.builtinFunctions name hname).trans (mem_addName_iff hname).symm }

/-- Nor does a variable. -/
theorem withVariables (h : c.SameBut n c') : c.SameBut n (c'.withVariables [n]) :=
  { h with
    builtinVariables := fun name hname =>
      (h.builtinVariables name hname).trans (mem_addName_iff hname).symm }

/-- Nor does a symbol. -/
theorem withSymbol (h : c.SameBut n c') (symbol : Symbol) :
    c.SameBut n (c'.withSymbol n symbol) := by
  refine { h with symbols := fun name hname => ?_ }
  rw [h.symbols name hname]
  exact ((Table.get?_insert ..).trans (if_neg hname.symm)).symm

/-- Nor does an enumeration. -/
theorem withEnum (h : c.SameBut n c') (members : List (String × Int64)) :
    c.SameBut n (c'.withEnum n members) := by
  refine { h with enums := fun name hname => ?_ }
  rw [h.enums name hname]
  exact ((Table.get?_insert ..).trans (if_neg hname.symm)).symm

end Context.SameBut

/-- Scopes that are the same but for the enumeration of a name. -/
structure Scope.SameBut (n : String) (scope scope' : Scope) : Prop where
  locals : scope.locals = scope'.locals
  globals : scope.globals = scope'.globals
  enums : ∀ name, name ≠ n → scope.enums.get? name = scope'.enums.get? name

/-- None of the names that a node itself has is a certain one. -/
def Node.Avoids (n : String) : Node → Prop
  | ident _ name _ | member _ _ name => name ≠ n
  | declare _ bindings => ∀ binding ∈ bindings, binding.name ≠ n
  | declareGlobal _ names => ∀ name ∈ names, name ≠ n
  | _ => True

namespace Scope.SameBut

variable {scope scope' : Scope}

/-- Other names are resolved in the same way. -/
theorem resolution_eq (h : scope.SameBut n scope') (hc : c.SameBut n c') {name : String}
    (hname : name ≠ n) : scope.resolution c name = scope'.resolution c' name := by
  simp only [Scope.resolution, h.locals, h.globals, hc.builtinFunctions name hname,
    hc.builtinVariables name hname, hc.symbols name hname]

/-- An enumeration may be added on both sides. -/
theorem insert (h : scope.SameBut n scope') (name : String) (values : Table String Int64) :
    SameBut n { scope with enums := scope.enums.insert name values }
      { scope' with enums := scope'.enums.insert name values } := by
  refine ⟨h.locals, h.globals, fun other hother => ?_⟩
  rw [Table.get?_insert, Table.get?_insert, h.enums other hother]

/-- Constants that do not mention the name are the same. -/
theorem constant?_eq (h : scope.SameBut n scope') {node : Node} (hnode : n ∉ node.mentions)
    (values : Table String Int64) :
    node.constant? { enums := scope.enums, values } =
      node.constant? { enums := scope'.enums, values } := by
  have hne : ∀ name ∈ node.mentions, name ≠ n := fun _ hmem heq => hnode (heq ▸ hmem)
  refine Option.ext fun v => ⟨Node.constant?_of_agree ?_, Node.constant?_of_agree ?_⟩
  · intro name hmem members hmembers
    rw [← h.enums name (hne name hmem), hmembers]
  · intro name hmem members hmembers
    rw [h.enums name (hne name hmem), hmembers]

/-- Members have the same values. -/
theorem memberValues_eq (h : scope.SameBut n scope') (enumeration : String)
    {members : List (Binding Node)}
    (hmembers : ∀ member ∈ members, ∀ value ∈ member.value, n ∉ value.mentions) (next : Int64)
    (values : Table String Int64) :
    memberValues scope.enums enumeration members next values =
      memberValues scope'.enums enumeration members next values := by
  induction members generalizing next values with
  | nil => rfl
  | cons member members ih =>
    rw [List.forall_mem_cons] at hmembers
    obtain ⟨name, _ | expression, p⟩ := member
    · exact ih hmembers.2 _ _
    · unfold memberValues
      dsimp only
      rw [h.constant?_eq (hmembers.1 expression rfl)]
      cases expression.constant? { enums := scope'.enums, values } with
      | none => rfl
      | some value => exact ih hmembers.2 _ _

end Scope.SameBut

/-- Other names are taken or not. -/
theorem Context.SameBut.isTaken_eq (h : c.SameBut n c') {name : String} (hname : name ≠ n) :
    Scope.isTaken c name = Scope.isTaken c' name := by
  simp only [Scope.isTaken, h.builtinFunctions name hname]

/-! ### Lookups side by side -/

namespace Resolve

/-- From scopes that are the same but for a name, two actions give the same or fail in the same way,
and the scopes stay so. -/
def Unheeding (n : String) {α : Type} (x x' : Resolve α) : Prop :=
  ∀ scope scope', Scope.SameBut n scope scope' →
    (∃ diagnostic, x.run scope = .error diagnostic ∧ x'.run scope' = .error diagnostic) ∨
    ∃ a after after', x.run scope = .ok (a, after) ∧ x'.run scope' = .ok (a, after') ∧
      Scope.SameBut n after after'

variable {α β : Type}

/-- To give a value does not heed a name. -/
theorem unheeding_pure (a : α) : Unheeding n (pure a : Resolve α) (pure a) :=
  fun scope scope' h => .inr ⟨a, scope, scope', rfl, rfl, h⟩

/-- Nor does a failure. -/
theorem unheeding_fail (fault : Fault) (p : Position) :
    Unheeding n (fail fault p : Resolve α) (fail fault p) :=
  fun _ _ _ => .inl ⟨⟨fault, p⟩, rfl, rfl⟩

/-- Nor does a sequence. -/
theorem Unheeding.bind {x x' : Resolve α} {f f' : α → Resolve β} (hx : Unheeding n x x')
    (hf : ∀ a, Unheeding n (f a) (f' a)) : Unheeding n (x >>= f) (x' >>= f') := by
  intro scope scope' h
  simp only [StateT.run_bind]
  rcases hx scope scope' h with ⟨diagnostic, heq, heq'⟩ | ⟨a, after, after', heq, heq', hafter⟩
  · rw [heq, heq']
    exact .inl ⟨diagnostic, rfl, rfl⟩
  · rw [heq, heq']
    exact hf a after after' hafter

/-- Not heeding a name goes on from one action to the next. -/
def unheeding (n : String) : Pairing where
  rel := Unheeding n
  pure := unheeding_pure
  fail := unheeding_fail
  bind := Unheeding.bind

/-- To look at the scope does not heed a name. -/
theorem unheeding_get {f f' : Scope → Resolve α}
    (h : ∀ scope scope', Scope.SameBut n scope scope' → Unheeding n (f scope) (f' scope')) :
    Unheeding n (get >>= f) (get >>= f') :=
  fun scope scope' hscope => h scope scope' hscope scope scope' hscope

/-- Nor does a change of the scope. -/
theorem unheeding_modify {f : Scope → Scope}
    (h : ∀ scope scope', Scope.SameBut n scope scope' → Scope.SameBut n (f scope) (f scope')) :
    Unheeding n (modify f) (modify f) :=
  fun scope scope' hscope => .inr ⟨(), f scope, f scope', rfl, rfl, h scope scope' hscope⟩

/-- Nor does a result that is known. -/
theorem unheeding_lift (x : Except Diagnostic α) :
    Unheeding n (liftM x : Resolve α) (liftM x) := by
  intro scope scope' h
  cases x with
  | error diagnostic => exact .inl ⟨diagnostic, rfl, rfl⟩
  | ok a => exact .inr ⟨a, scope, scope', rfl, rfl, h⟩

/-- Nor does a requirement. -/
theorem unheeding_require (hc : c.SameBut n c') (feature : Feature) (p : Position) :
    Unheeding n (require c feature p) (require c' feature p) := by
  have heq : require c feature p = require c' feature p := by
    rw [require, require, Context.supports, Context.supports, hc.versionTier]
  rw [heq]
  unfold require
  split
  · exact unheeding_pure _
  · exact unheeding_fail _ _

/-- Nor does a shortcut with other names. -/
theorem unheeding_shortcut? (hc : c.SameBut n c') (p : Position) {name field : String}
    (hname : name ≠ n) (hfield : field ≠ n) :
    Unheeding n (shortcut? c p name field) (shortcut? c' p name field) := by
  refine unheeding_get fun scope scope' h => ?_
  simp only [h.locals, h.enums name hname, hc.builtinVariables field hfield]
  split
  · exact unheeding_pure _
  split
  · exact unheeding_pure _
  split
  · exact unheeding_pure _
  split
  · exact unheeding_pure _
  split
  · exact unheeding_pure _
  · exact unheeding_fail _ _

/-- A name is declared if it is not taken. -/
theorem unheeding_declare (hc : c.SameBut n c') {name : String} (hname : name ≠ n)
    (fault : Fault) (p : Position) {f : Scope → Scope}
    (hf : ∀ scope scope', Scope.SameBut n scope scope' → Scope.SameBut n (f scope) (f scope')) :
    Unheeding n
      (do
        if Scope.isTaken c name then
          fail fault p
        modify f)
      (do
        if Scope.isTaken c' name then
          fail fault p
        modify f) := by
  rw [hc.isTaken_eq hname]
  split
  · exact (unheeding_fail fault p).bind fun _ => unheeding_modify hf
  · exact unheeding_modify hf

/-- An enumeration of other names does not heed it. -/
theorem unheeding_declareEnum (name : String) {members : List (Binding Node)}
    (h : ∀ member ∈ members, ∀ value ∈ member.value, n ∉ value.mentions) :
    Unheeding n (declareEnum name members) (declareEnum name members) := by
  refine unheeding_get fun scope scope' hscope => ?_
  rw [hscope.memberValues_eq name h]
  refine (unheeding_lift _).bind fun values => ?_
  refine (unheeding_modify fun scope scope' hscope => ?_).bind fun _ => unheeding_pure _
  exact hscope.insert name values

end Resolve

namespace Node

open Resolve

/-- A constant mentions only names that its nodes have. -/
theorem not_mem_mentions {node : Node} (h : node.Every (Avoids n)) : n ∉ node.mentions := by
  fun_induction mentions node with
  | case1 p instanceOf field =>
    cases instanceOf with
    | ident => exact fun hmem => h.2 (List.mem_singleton.1 hmem).symm
    | _ => exact List.not_mem_nil
  | case2 p operator operand ih => exact ih h.2
  | case3 p operator lhs rhs ihl ihr | case4 p operator lhs rhs ihl ihr =>
    exact List.not_mem_append (ihl h.2.1) (ihr h.2.2)
  | case5 p condition thenValue elseValue ihc iht ihe =>
    exact List.not_mem_append (ihc h.2.1) (List.not_mem_append (iht h.2.2.1) (ihe h.2.2.2))
  | case6 => exact List.not_mem_nil

/-- An expression without the name is paired. -/
theorem paired_of_avoids (hc : c.SameBut n c') {node : Node} (h : node.Every (Avoids n)) :
    node.Paired (unheeding n) c c' := by
  unfold Paired
  split
  case h_1 | h_2 | h_3 => exact unheeding_require hc _ _
  case h_4 p name resolution =>
    exact unheeding_get fun scope scope' hscope => by
      rw [hscope.resolution_eq hc h]
      exact unheeding_pure _
  case h_5 p q name resolution field => exact unheeding_shortcut? hc p h.2 h.1
  case h_6 p bindings =>
    intro binding hmem
    refine unheeding_declare hc (h.1 binding hmem) _ _ fun scope scope' hscope => ?_
    exact ⟨by rw [hscope.locals], hscope.globals, hscope.enums⟩
  case h_7 p names =>
    intro name hmem
    refine unheeding_declare hc (h name hmem) _ _ fun scope scope' hscope => ?_
    exact ⟨hscope.locals, by rw [hscope.globals], hscope.enums⟩
  case h_8 p name members =>
    refine unheeding_declareEnum name fun member hmember value hvalue => not_mem_mentions ?_
    exact (everyOption_iff _ _).1 ((everyBinding_iff _ _).1 h.2 member hmember) value hvalue
  case h_9 => trivial

/-- So is all that is inside. -/
theorem every_paired_of_avoids (hc : c.SameBut n c') {node : Node} (h : node.Every (Avoids n)) :
    node.Every (Paired (unheeding n) c c') := by
  induction node using induction_parts with
  | step node ih =>
    obtain ⟨-, hparts⟩ := (every_iff_parts _ node).1 h
    refine (every_iff_parts _ node).2 ⟨paired_of_avoids hc h, fun part hpart => ?_⟩
    exact ih part hpart (hparts part hpart)

/-- A name that is not a token is avoided. -/
theorem Neat.avoids {tokens : Array Token} (htokens : ¬ IsName tokens n) {node : Node}
    (h : node.Neat tokens) : node.Avoids n := by
  have hname {name : String} (hname : IsName tokens name) : name ≠ n :=
    fun heq => htokens (heq ▸ hname)
  cases node with
  | ident | member => exact hname h
  | declare p bindings => exact fun binding hmem => hname (h.2 binding hmem)
  | declareGlobal p names => exact fun name hmem => hname (h name hmem)
  | _ => trivial

end Node

/-! ### Scripts -/

namespace Script

/-- A script that avoids a name is resolved without it. -/
theorem resolve_of_avoids (hc : c.SameBut n c') {script : Script}
    (h : ∀ node ∈ script.body, node.Every (Node.Avoids n)) :
    script.resolve c = script.resolve c' := by
  have hpaired : Node.EveryOf (Node.Paired (Resolve.unheeding n) c c') script.body :=
    (Node.everyOf_iff _ _).2 fun node hmem => Node.every_paired_of_avoids hc (h node hmem)
  have hscope : Scope.SameBut n { enums := c.enums } { enums := c'.enums } := ⟨rfl, rfl, hc.enums⟩
  unfold Script.resolve
  dsimp only
  rcases rel_lookup hpaired _ _ hscope with
    ⟨diagnostic, heq, heq'⟩ | ⟨body, after, after', heq, heq', -⟩
  · rw [heq, heq']
  · rw [heq, heq']
    rfl

/-- A text avoids a name that is not one of its tokens. -/
theorem avoids_of_parse {text : String} {tier : Nat} {script : Script}
    (hparse : Script.parse text tier = .ok script)
    (h : ∀ tokens, tokenize text tier = .ok tokens → ∀ token ∈ tokens,
      token.kind = .identifier → token.value ≠ n) :
    ∀ node ∈ script.body, node.Every (Node.Avoids n) := by
  obtain ⟨tokens, htokens, hscript⟩ := exists_ok_of_bind hparse
  obtain ⟨j, hrow⟩ := row_of_ofTokens htokens hscript
  have hname : ¬ IsName tokens.toArray n := by
    rintro ⟨token, hmem, hkind, hvalue⟩
    exact h tokens htokens token (List.mem_toArray.1 hmem) hkind hvalue
  exact fun node hmem => (hrow.laid node hmem).tidy.imp fun _ htidy => htidy.neat.avoids hname

end Script

/-- What a context says about a name that is no identifier of the source makes no difference. -/
theorem compile_of_unused {text : String} {context context' : Context} {n : String}
    (hn : ∀ tokens, tokenize text context.versionTier = .ok tokens → ∀ token ∈ tokens,
      token.kind = .identifier → token.value ≠ n)
    (h : context.SameBut n context') : compile text context = compile text context' := by
  unfold compile compileToCode
  rw [← h.versionTier, ← h.encoding]
  cases hparse : Script.parse text context.versionTier with
  | error diagnostic => rfl
  | ok script =>
    change ((script.resolve context >>= _) >>= _) = ((script.resolve context' >>= _) >>= _)
    rw [Script.resolve_of_avoids h (Script.avoids_of_parse hparse hn)]

/-- A name that only occurs in a text, and that comes to mean a function, a variable, a script and
an enumeration. -/
theorem compile_of_unused_text :
    let text := "enum Size \x7b big = Base.top \x7d var x = Size.big + self.hp; y = [x, \"Spare\"];"
    let context : Context := (Context.withVariables {} ["hp"]).withEnum "Base" [("top", 4)]
    let other : Context := (((context.withFunctions ["Spare"]).withVariables ["Spare"]).withSymbol
      "Spare" ⟨.script, 3⟩).withEnum "Spare" [("hp", 1)]
    ∃ assembly, compile text context = .ok assembly ∧ compile text other = .ok assembly := by
  intro text context other
  have hall : ((tokenize text context.versionTier).toOption.all fun tokens => tokens.all
      fun token => token.kind ≠ .identifier || token.value ≠ "Spare") = true := by decide +kernel
  have hsame : context.SameBut "Spare" other :=
    (((Context.SameBut.refl "Spare" context).withFunctions.withVariables).withSymbol _).withEnum _
  obtain ⟨assembly, hok, -⟩ := exists_ok_of_any (p := fun _ => true)
    (x := compile text context) (by decide +kernel)
  refine ⟨assembly, hok, ?_⟩
  rw [← hok, ← compile_of_unused ?_ hsame]
  intro tokens htokens token hmem hkind hvalue
  rw [htokens] at hall
  have htoken := List.all_eq_true.1 hall token hmem
  simp [hkind, hvalue] at htoken

end Gml
