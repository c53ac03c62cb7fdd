import Gml.Compile
import Gml.Proofs.Token.Layout
import Gml.Proofs.Tree.Order
import Gml.Proofs.Tree.Pairing

/-!
# One source in two tiers

The version tier is read in two places. For the lexer it only matters whether a single quote opens a
text (`Cursor.tokens_of_tiers`), and when names are looked up it only matters whether raw strings,
struct literals and array literals are refused (`Node.GatesIn.paired`). What comes after that does
not know of it. So a source without single quotes that compiles in a tier gives the same in every
later one, and what compiles only in a later one is refused for one of these literals
(`compile_of_tiers`).

`Resolve.Alike` is about two runs of an action from the same scope: they are the same, or the first
one is refused at a place that is known, and then so is the second, if both tiers refuse the same.
-/

namespace Gml

variable {t t' : Nat}

/-! ### Tokens -/

/-- A single quote has the same meaning in two tiers, or does not occur. -/
def SameQuotes (t t' : Nat) (chars : List Char) : Prop :=
  (t < literalTier ↔ t' < literalTier) ∨ '\'' ∉ chars

/-- Part of a text has the same quotes. -/
theorem SameQuotes.subset {chars others : List Char} (h : SameQuotes t t' chars)
    (hsubset : ∀ c ∈ others, c ∈ chars) : SameQuotes t t' others :=
  h.imp_right fun hnot hmem => hnot (hsubset _ hmem)

/-- A lexeme is read in the same way. -/
theorem Lexeme.read?_of_tiers {chars : List Char} (h : SameQuotes t t' chars) :
    Lexeme.read? t chars = Lexeme.read? t' chars := by
  cases chars with
  | nil => rfl
  | cons c rest =>
    have hquote : (c = '\'' && decide (t < literalTier)) =
        (c = '\'' && decide (t' < literalTier)) := by
      rcases h with hiff | hnot
      · simp only [hiff]
      · have hne : c ≠ '\'' := fun hc => hnot (by simp [hc])
        simp [hne]
    simp only [Lexeme.read?, hquote]

namespace Cursor

/-- A gap only leaves characters out. -/
theorem mem_rest_of_skipGap (cursor : Cursor) : ∀ c ∈ cursor.skipGap.rest, c ∈ cursor.rest := by
  fun_induction skipGap cursor with
  | case1 => simp
  | case2 cursor h ih =>
    intro c hc
    have hmem := ih c hc
    rw [rest_advance] at hmem
    exact List.mem_of_mem_drop hmem

/-- Tokens are the same. -/
theorem tokens_of_tiers {source : Source} {cursor : Cursor} (h : SameQuotes t t' cursor.rest) :
    cursor.tokens t source = cursor.tokens t' source := by
  fun_induction Cursor.tokens t source cursor with
  | case1 cursor position hrest => exact (tokens_of_end hrest).symm
  | case2 cursor position c rest hrest hread =>
    have hquotes := h.subset cursor.mem_rest_of_skipGap
    rw [hrest] at hquotes
    rw [Lexeme.read?_of_tiers hquotes] at hread
    exact (tokens_of_none hrest hread).symm
  | case3 cursor position c rest hrest lexeme hread ih =>
    have hquotes := h.subset cursor.mem_rest_of_skipGap
    have hlater : SameQuotes t t' (cursor.skipGap.advance lexeme.length).rest := by
      rw [rest_advance]
      exact hquotes.subset fun _ hmem => List.mem_of_mem_drop hmem
    rw [← hrest, Lexeme.read?_of_tiers hquotes] at hread
    rw [ih hlater, tokens_of_some hread]
    rfl

end Cursor

/-- A text is parsed in the same way. -/
theorem parse_of_tiers {text : String} (h : SameQuotes t t' text.toList) :
    Script.parse text t = Script.parse text t' := by
  have hquotes : SameQuotes t t' (Source.ofString text).chars :=
    h.imp_right fun hnot hmem => by
      rcases Source.mem_chars hmem with heq | hmem
      · cases heq
      · exact hnot hmem
  have htokens : tokenize text t = tokenize text t' := Cursor.tokens_of_tiers hquotes
  unfold Script.parse
  rw [htokens]

/-! ### Names -/

/-- A context in another tier. -/
def Context.atTier (context : Context) (tier : Nat) : Context :=
  { context with versionTier := tier }

namespace Resolve

variable {α β : Type} {S : Position → Prop} {same : Prop}

/-- The second tier has the features of the first, and only those if they are the same. -/
structure Extends (same : Prop) (t t' : Nat) : Prop where
  keeps : literalTier ≤ t → literalTier ≤ t'
  adds : same → literalTier ≤ t' → literalTier ≤ t

/-- What an action does in two tiers: the same, or the first tier refuses a feature at a known
place. If the tiers have the same features, the second one then does, too. -/
def Alike (S : Position → Prop) (same : Prop) (t t' : Nat) (x x' : Resolve α) : Prop :=
  Extends same t t' → ∀ scope, x.run scope = x'.run scope ∨
    ∃ feature p, S p ∧ x.run scope = .error ⟨.unavailable feature t, p⟩ ∧
      (same → x'.run scope = .error ⟨.unavailable feature t', p⟩)

/-- What does not look at the tier is alike. -/
theorem alike_refl (x : Resolve α) : Alike S same t t' x x :=
  fun _ _ => .inl rfl

/-- So is a sequence. -/
theorem Alike.bind {x x' : Resolve α} {f f' : α → Resolve β} (hx : Alike S same t t' x x')
    (hf : ∀ a, Alike S same t t' (f a) (f' a)) : Alike S same t t' (x >>= f) (x' >>= f') := by
  intro htiers scope
  simp only [StateT.run_bind]
  rcases hx htiers scope with heq | ⟨feature, p, hp, hfails, hsame⟩
  · rw [heq]
    cases x'.run scope with
    | error => exact .inl rfl
    | ok result => exact hf result.1 htiers result.2
  · refine .inr ⟨feature, p, hp, ?_, fun h => ?_⟩
    · rw [hfails]
      rfl
    · rw [hsame h]
      rfl

/-- So is a requirement at a gate. -/
theorem alike_require {context : Context} {feature : Feature} {p : Position} (hp : S p) :
    Alike S same t t' (require (context.atTier t) feature p)
      (require (context.atTier t') feature p) := by
  have hmin : feature.minTier = literalTier := by cases feature <;> rfl
  have hsupports (tier : Nat) : (context.atTier tier).supports feature = true ↔
      literalTier ≤ tier := by
    rw [Context.supports, hmin, decide_eq_true_eq]
    rfl
  intro htiers scope
  by_cases ht : literalTier ≤ t
  · left
    rw [require, require, if_pos ((hsupports t).2 ht), if_pos ((hsupports t').2 (htiers.keeps ht))]
  · right
    refine ⟨feature, p, hp, ?_, fun hsame => ?_⟩
    · rw [require, if_neg fun h => ht ((hsupports t).1 h)]
      rfl
    · rw [require, if_neg fun h => ht (htiers.adds hsame ((hsupports t').1 h))]
      rfl

/-- Doing alike goes on from one action to the next. -/
def alike (S : Position → Prop) (same : Prop) (t t' : Nat) : Pairing where
  rel := Alike S same t t'
  pure _ := alike_refl _
  fail _ _ := alike_refl _
  bind := Alike.bind

end Resolve

namespace Node

open Resolve

/-- A literal that not every tier has. -/
def isGated : Node → Bool
  | string _ _ verbatim => verbatim
  | struct .. | array .. => true
  | _ => false

/-- All literals of a node that not every tier has stand at one of some places. -/
def GatesIn (S : Position → Prop) (node : Node) : Prop :=
  ∀ inner : Node, inner.Within node → inner.isGated = true → S inner.position

variable {S : Position → Prop} {same : Prop} {context : Context}

/-- An expression is paired with itself. -/
theorem GatesIn.paired {node : Node} (h : node.GatesIn S) :
    node.Every (Paired (alike S same t t') (context.atTier t) (context.atTier t')) := by
  refine every_of_within fun inner hinner => ?_
  have hgate := h inner hinner
  unfold Paired
  split
  case h_1 | h_2 | h_3 => exact alike_require (hgate rfl)
  case h_6 | h_7 => exact fun _ _ => alike_refl _
  case h_9 => trivial
  all_goals exact alike_refl _

end Node

/-! ### Scripts -/

/-- A script is resolved in the same way. -/
theorem Script.resolve_of_tiers {S : Position → Prop} {same : Prop} (context : Context)
    {script : Script} (htiers : Resolve.Extends same t t')
    (hgates : ∀ node ∈ script.body, node.GatesIn S) :
    script.resolve (context.atTier t) = script.resolve (context.atTier t') ∨
    ∃ feature p, S p ∧
      script.resolve (context.atTier t) = .error ⟨.unavailable feature t, p⟩ ∧
      (same → script.resolve (context.atTier t') = .error ⟨.unavailable feature t', p⟩) := by
  have halike : Resolve.Alike S same t t'
      (declareEnums script.body >>= fun _ =>
        Node.resolveAll (context.atTier t) .statement script.body)
      (declareEnums script.body >>= fun _ =>
        Node.resolveAll (context.atTier t') .statement script.body) :=
    rel_lookup ((Node.everyOf_iff _ _).2 fun node hmem => (hgates node hmem).paired)
  have hscope : (context.atTier t).enums = (context.atTier t').enums := rfl
  unfold Script.resolve
  rcases halike htiers { enums := (context.atTier t').enums } with
    heq | ⟨feature, p, hp, hfails, hsame⟩
  · left
    rw [hscope]
    dsimp only
    rw [heq]
  · refine .inr ⟨feature, p, hp, ?_, fun h => ?_⟩
    · rw [hscope]
      dsimp only
      rw [hfails]
      rfl
    · dsimp only
      rw [hsame h]
      rfl

/-- Compilation in two tiers is the same, or the first tier refuses a literal. -/
theorem compile_cases_of_tiers {text : String} {same : Prop} (context : Context)
    (hquotes : SameQuotes t t' text.toList) (htiers : Resolve.Extends same t t') :
    compile text (context.atTier t) = compile text (context.atTier t') ∨
    ∃ script node feature, Script.parse text t = .ok script ∧ script.Contains node ∧
      node.isGated = true ∧
      compile text (context.atTier t) = .error ⟨.unavailable feature t, node.position⟩ ∧
      (same → compile text (context.atTier t') =
        .error ⟨.unavailable feature t', node.position⟩) := by
  have hparse : Script.parse text (context.atTier t).versionTier =
      Script.parse text (context.atTier t').versionTier := parse_of_tiers hquotes
  unfold compile compileToCode
  rw [hparse]
  cases hscript : Script.parse text (context.atTier t').versionTier with
  | error diagnostic => exact .inl rfl
  | ok script =>
    have hgates : ∀ statement ∈ script.body, statement.GatesIn fun p =>
        ∃ node, script.Contains node ∧ node.isGated = true ∧ node.position = p :=
      fun statement hmem inner hinner hgated => ⟨inner, ⟨statement, hmem, hinner⟩, hgated, rfl⟩
    rcases Script.resolve_of_tiers context htiers hgates with
      heq | ⟨feature, p, ⟨node, hcontains, hgated, rfl⟩, hfails, hsame⟩
    · left
      change ((script.resolve (context.atTier t) >>= _) >>= _) =
        ((script.resolve (context.atTier t') >>= _) >>= _)
      rw [heq]
      rfl
    · refine .inr ⟨script, node, feature, hparse.trans hscript, hcontains, hgated, ?_, fun h => ?_⟩
      · change ((script.resolve (context.atTier t) >>= _) >>= _) = _
        rw [hfails]
        rfl
      · change ((script.resolve (context.atTier t') >>= _) >>= _) = _
        rw [hsame h]
        rfl

/-- Two compilations give the same, or fail at the same stage and place. -/
def SameOutcome (x x' : Except Diagnostic Assembly) : Prop :=
  (∃ assembly, x = .ok assembly ∧ x' = .ok assembly) ∨
    ∃ d d', x = .error d ∧ x' = .error d' ∧ d.stage = d'.stage ∧ d.position = d'.position

/-- An outcome is the same as itself. -/
theorem SameOutcome.refl (x : Except Diagnostic Assembly) : SameOutcome x x := by
  cases x with
  | ok assembly => exact .inl ⟨assembly, rfl, rfl⟩
  | error d => exact .inr ⟨d, d, rfl, rfl, rfl, rfl⟩

/-- A later tier never changes what compiles. Tiers with the same features have the same outcome;
and of two others the later one gives the same for a source without single quotes, or the earlier
one refuses one of its literals. -/
theorem compile_of_tiers (text : String) (context : Context) (t t' : Nat) :
    ((t < literalTier ↔ t' < literalTier) →
      SameOutcome (compile text (context.atTier t)) (compile text (context.atTier t'))) ∧
    ('\'' ∉ text.toList → t < literalTier → literalTier ≤ t' →
      (∀ assembly, compile text (context.atTier t) = .ok assembly →
        compile text (context.atTier t') = .ok assembly) ∧
      ∀ assembly, compile text (context.atTier t') = .ok assembly →
        compile text (context.atTier t) = .ok assembly ∨
        ∃ diagnostic script node, compile text (context.atTier t) = .error diagnostic ∧
          diagnostic.stage = .resolution ∧ Script.parse text t = .ok script ∧
          script.Contains node ∧ node.isGated = true ∧ diagnostic.position = node.position) := by
  constructor
  · intro hiff
    have htiers : Resolve.Extends True t t' := ⟨fun _ => by omega, fun _ _ => by omega⟩
    rcases compile_cases_of_tiers context (.inl hiff) htiers with
      heq | ⟨script, node, feature, -, -, -, hfails, hsame⟩
    · rw [heq]
      exact .refl _
    · exact .inr ⟨_, _, hfails, hsame trivial, rfl, rfl⟩
  · intro hquote ht ht'
    have htiers : Resolve.Extends False t t' := ⟨fun _ => ht', False.elim⟩
    rcases compile_cases_of_tiers context (.inr hquote) htiers with
      heq | ⟨script, node, feature, hparse, hcontains, hgated, hfails, -⟩
    · rw [heq]
      exact ⟨fun _ h => h, fun _ h => .inl h⟩
    · rw [hfails]
      exact ⟨nofun, fun _ _ => .inr ⟨_, script, node, rfl, rfl, hparse, hcontains, hgated, rfl⟩⟩

/-- An array that one tier refuses and the next takes. -/
theorem compile_of_tiers_array :
    ∃ assembly diagnostic script node,
      compile "x = [1, 2];" (Context.atTier {} 2) = .ok assembly ∧
      compile "x = [1, 2];" (Context.atTier {} 1) = .error diagnostic ∧
      diagnostic.stage = .resolution ∧ Script.parse "x = [1, 2];" 1 = .ok script ∧
      script.Contains node ∧ node.isGated = true ∧ diagnostic.position = node.position ∧
      SameOutcome (compile "x = [1, 2];" (Context.atTier {} 2))
        (compile "x = [1, 2];" (Context.atTier {} 5)) := by
  obtain ⟨assembly, hok, -⟩ := exists_ok_of_any (p := fun _ => true)
    (x := compile "x = [1, 2];" (Context.atTier {} 2)) (by decide +kernel)
  have hfails : (compile "x = [1, 2];" (Context.atTier {} 1)).isOk = false := by decide +kernel
  have hsame := (compile_of_tiers "x = [1, 2];" {} 2 5).1 (by decide)
  rcases ((compile_of_tiers "x = [1, 2];" {} 1 2).2 (by decide) (by decide) (by decide)).2 assembly
    hok with hlow | ⟨diagnostic, script, node, hlow, hstage, hparse, hnode⟩
  · rw [hlow] at hfails
    cases hfails
  · exact ⟨assembly, diagnostic, script, node, hok, hlow, hstage, hparse, hnode.1, hnode.2.1,
      hnode.2.2, hsame⟩

end Gml
