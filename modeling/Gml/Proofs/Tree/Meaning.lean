import Gml.Proofs.Tree.Scoping

/-!
# What names mean by the text

A name means what the text before it says. It is a local variable if a declaration of it ends before
it, anywhere in the script and at any depth; otherwise its meaning is fixed, or it is a global variable
if a statement that declares it stands before it, or it is what the context knows it as
(`Script.meaning`). Looking up names comes to the same (`Script.names_mean_by_text`), although it goes
through the tree in an order of its own.

A name in front of a member may be replaced together with the member (`Leaf.Shortened`). This takes
an enumeration that is known there: `Script.enumsBefore` lists those of the context, of the top level
and of the text before.
-/

namespace Gml

/-! ### Arguments -/

/-- The number of the argument that a name is written for. -/
def writtenArgument? (name : String) : Option Nat :=
  (List.range maxArguments).find? fun n => name = s!"argument{n}"

/-- More digits give no smaller number. -/
theorem le_foldl_digits (n : Nat) (digits : List Char) :
    n ≤ digits.foldl (fun n c => n * 10 + (c.toNat - '0'.toNat)) n := by
  induction digits generalizing n with
  | nil => exact Nat.le_refl n
  | cons c digits ih =>
    have hstep : n ≤ n * 10 + (c.toNat - '0'.toNat) := by omega
    exact Nat.le_trans hstep (ih _)

/-- There are ten digits. -/
theorem exists_digit {c : Char} (h : c.isDigit = true) : ∃ k < 10, c = Char.ofNat (48 + k) := by
  obtain ⟨hlow, hhigh⟩ := Bool.and_eq_true_iff.1 h
  have hlow : 48 ≤ c.toNat := of_decide_eq_true hlow
  have hhigh : c.toNat ≤ 57 := of_decide_eq_true hhigh
  refine ⟨c.toNat - 48, by omega, ?_⟩
  rw [show 48 + (c.toNat - 48) = c.toNat by omega, Char.ofNat_toNat]

/-- A name with one digit is an argument. -/
theorem isSome_writtenArgument?_single : ∀ k < 10,
    (writtenArgument? (.ofList ("argument".toList ++ [Char.ofNat (48 + k)]))).isSome := by
  decide +kernel

/-- So is one with two. -/
theorem isSome_writtenArgument?_pair : ∀ l < 6,
    (writtenArgument? (.ofList ("argument".toList ++ ['1', Char.ofNat (48 + l)]))).isSome := by
  decide +kernel

/-- The value of a digit. -/
theorem toNat_digit : ∀ k < 10, (Char.ofNat (48 + k)).toNat - '0'.toNat = k := by
  decide

/-- A number without a sign is written in one way. -/
theorem isSome_writtenArgument? {digits : List Char} {index : UInt8} (hplus : '+' ∉ digits)
    (h : argumentNumber? digits = some index) :
    (writtenArgument? (.ofList ("argument".toList ++ digits))).isSome := by
  have hhead : digits.head? ≠ some '+' := fun heq => hplus (List.mem_of_mem_head? heq)
  unfold argumentNumber? at h
  rw [if_neg hhead] at h
  dsimp only at h
  split at h
  · cases h
  next hzero =>
    split at h
    · cases h
    next hnumber =>
      simp only [Bool.or_eq_true, not_or, Bool.not_eq_true, Bool.not_eq_false',
        decide_eq_true_eq, Nat.not_le] at hnumber
      obtain ⟨⟨hempty, hdigits⟩, hlt⟩ := hnumber
      rw [List.all_eq_true] at hdigits
      match digits with
      | [] => cases hempty
      | [c] =>
        obtain ⟨k, hk, rfl⟩ := exists_digit (hdigits c List.mem_cons_self)
        exact isSome_writtenArgument?_single k hk
      | c :: c' :: rest =>
        obtain ⟨k, hk, rfl⟩ := exists_digit (hdigits c List.mem_cons_self)
        obtain ⟨l, hl, rfl⟩ := exists_digit (hdigits c' (by simp))
        have hk0 : k ≠ 0 := by
          rintro rfl
          simp at hzero
        simp only [List.foldl_cons, toNat_digit k hk, toNat_digit l hl] at hlt
        unfold maxArguments at hlt
        cases rest with
        | cons c'' rest =>
          -- A third digit makes it too large.
          have hle := Nat.lt_of_le_of_lt (le_foldl_digits _ rest) hlt
          dsimp only at hle
          omega
        | nil =>
          rw [List.foldl_nil] at hlt
          obtain rfl : k = 1 := by omega
          exact isSome_writtenArgument?_pair l (by omega)


/-- A written argument is understood. -/
theorem argumentOf?_written : ∀ n < maxArguments,
    argumentOf? s!"argument{n}" = some (UInt8.ofNat n) := by
  decide +kernel

/-- Without a sign in it, a name stands for the argument that it is written for. -/
theorem argumentOf?_eq {name : String} (hplus : '+' ∉ name.toList) :
    argumentOf? name = (writtenArgument? name).map UInt8.ofNat := by
  cases hwritten : writtenArgument? name with
  | some n =>
    have hlt := List.mem_range.1 (List.mem_of_find?_eq_some hwritten)
    have hname : name = s!"argument{n}" := by simpa using List.find?_some hwritten
    rw [hname]
    exact argumentOf?_written n hlt
  | none =>
    rw [Option.map_none, Option.eq_none_iff_forall_ne_some]
    intro index h
    unfold argumentOf? at h
    dsimp only at h
    split at h
    next hword =>
      obtain ⟨digits, hdigits⟩ := List.isPrefixOf_iff_prefix.1 hword
      rw [← hdigits, List.drop_left] at h
      rw [← hdigits] at hplus
      have hsome := isSome_writtenArgument? (fun hmem => hplus (List.mem_append_right _ hmem)) h
      rw [hdigits, String.ofList_toList, hwritten] at hsome
      cases hsome
    · cases h

/-! ### Meanings -/

/-- What a name refers to, if it is known whether it is a local or a global variable. -/
def Resolution.ofName (context : Context) (name : String) (isLocal isGlobal : Prop)
    [Decidable isLocal] [Decidable isGlobal] : Resolution :=
  if isLocal then .localVar
  else if let some value := intrinsic? name then .intrinsic value
  else if name = "argument" then .argumentArray
  else if let some n := writtenArgument? name then .argument (UInt8.ofNat n)
  else if isGlobal then .globalVar
  else if name ∈ context.builtinFunctions then .builtinFunction
  else if name ∈ context.builtinVariables then .builtinVariable
  else if let some symbol := context.symbols.get? name then .userSymbol symbol.reference
  else .dynamic

/-- A name means what the scope says. -/
theorem Scope.resolution_eq {context : Context} {scope : Scope} {name : String}
    (hplus : '+' ∉ name.toList) : scope.resolution context name =
      .ofName context name (name ∈ scope.locals) (name ∈ scope.globals) := by
  unfold Scope.resolution Resolution.ofName
  rw [argumentOf?_eq hplus]
  cases writtenArgument? name <;> rfl

/-- Only that matters. -/
theorem Resolution.ofName_congr {context : Context} {name : String} {a a' b b' : Prop}
    [Decidable a] [Decidable a'] [Decidable b] [Decidable b'] (ha : a ↔ a') (hb : b ↔ b') :
    ofName context name a b = ofName context name a' b' := by
  simp only [ofName, ha, hb]

namespace Script

/-- A variable is declared somewhere in a script, by a declaration that ends before a place. Names
inside of the declaration of a local variable stand in its value, and there are none inside of a
declaration of global variables, so that only places in the tree count. -/
def Declares (script : Script) (d : Leaf) (p : Position) : Prop :=
  ∃ statement ∈ script.body, statement.Declares (·.index < p.index) d

/-- A name stands in a script, outside of the values of enumerations. -/
def Uses (script : Script) (p : Position) (name : String) (resolution : Resolution) : Prop :=
  ∃ statement ∈ script.body, statement.Uses p name resolution

open Classical in
/-- What a name at a place of a script means. -/
noncomputable def meaning (script : Script) (context : Context) (p : Position) (name : String) :
    Resolution :=
  .ofName context name (script.Declares (.localVar name) p) (script.Declares (.globalVar name) p)

open Classical in
/-- A scope gives a name its meaning if it knows the variables that are declared before it. -/
theorem resolution_eq_meaning {script : Script} (context : Context) {scope : Scope} {p : Position}
    {name : String} (hplus : '+' ∉ name.toList)
    (hlocal : name ∈ scope.locals ↔ script.Declares (.localVar name) p)
    (hglobal : name ∈ scope.globals ↔ script.Declares (.globalVar name) p) :
    scope.resolution context name = script.meaning context p name := by
  rw [Scope.resolution_eq hplus]
  exact Resolution.ofName_congr hlocal hglobal

end Script

/-! ### Members of names -/

/-- The enumerations that are known after leaves, given those that are known before them. -/
def enumsAfter (enums : Enums) : List Leaf → Except Diagnostic Enums
  | [] => return enums
  | .enumeration name members :: rest => do
    let values ← Scope.memberValues enums name members 0 {}
    enumsAfter (enums.insert name values) rest
  | _ :: rest => enumsAfter enums rest

/-- Going through leaves leads to the enumerations that are known after them. -/
theorem Scope.MeetsAll.enumsAfter {context : Context} {scope scope' : Scope}
    {leaves out : List Leaf} (h : MeetsAll context scope leaves out scope') :
    enumsAfter scope.enums leaves = .ok scope'.enums := by
  induction h with
  | nil => rfl
  | cons hleaf _ ih =>
    cases hleaf with
    | enumeration hvalues =>
      rw [Gml.enumsAfter, hvalues]
      exact ih
    | _ => exact ih

/-- Leaves are gone through one after another. -/
theorem enumsAfter_append (enums : Enums) (leaves leaves' : List Leaf) :
    enumsAfter enums (leaves ++ leaves') = enumsAfter enums leaves >>= (enumsAfter · leaves') := by
  induction leaves generalizing enums with
  | nil => rfl
  | cons leaf leaves ih =>
    cases leaf with
    | enumeration name members =>
      rw [List.cons_append, enumsAfter, enumsAfter]
      cases Scope.memberValues enums name members 0 {} with
      | error => rfl
      | ok values => exact ih (enums.insert name values)
    | _ => exact ih enums

/-- The enumerations that are known where a leaf of a script stands: those of the context, those at top
level, and those that are declared before it. -/
def Script.enumsBefore (script : Script) (context : Context) (i : Nat) : Except Diagnostic Enums :=
  enumsAfter context.enums (script.hoisted ++ script.leaves.take i)

/-- What a member of a name is replaced by, if not even the name is kept. -/
inductive Leaf.Shortened (context : Context) (enums : Enums) : Leaf → Leaf → Prop where
  /-- A member of `global` is a global variable. -/
  | ofGlobal {p q : Position} {field : String} :
      Shortened context enums (.member p q "global" field) (.name p field .globalVar)
  /-- A member of `self` is a variable of the instance. -/
  | ofSelf {p q : Position} {field : String} :
      Shortened context enums (.member p q "self" field)
        (.name p field (if field ∈ context.builtinVariables then .builtinVariable else .dynamic))
  /-- A member of an enumeration is its value. -/
  | value {p q : Position} {name field : String} {values : Table String Int64} {value : Int64}
      (hglobal : name ≠ "global") (hself : name ≠ "self")
      (hvalues : enums.get? name = some values) (hvalue : values.get? field = some value) :
      Shortened context enums (.member p q name field) (.number p value)

/-- Apart from `global` and `self`, only a known enumeration is replaced. -/
theorem Leaf.Shortened.isSome_get? {context : Context} {enums : Enums} {leaf leaf' : Leaf}
    {p : Position} {name : String} (h : leaf.Shortened context enums leaf')
    (huse : leaf.use? = some (p, name)) (hglobal : name ≠ "global") (hself : name ≠ "self") :
    (enums.get? name).isSome = true := by
  cases h with
  | ofGlobal =>
    cases huse
    exact absurd rfl hglobal
  | ofSelf =>
    cases huse
    exact absurd rfl hself
  | value _ _ hvalues _ =>
    cases huse
    rw [hvalues]
    rfl

/-! ### Scripts -/

namespace Script

open Scope Node

variable {text : String} {tier : Nat} {context : Context} {script resolved : Script} {i : Nat}
  {leaf leaf' d : Leaf} {p : Position} {name : String}

/-- All leaves are those of the statements. -/
theorem leaves_eq (script : Script) : script.leaves = script.body.flatMap (Node.leaves true) :=
  leavesOf_eq script.body

/-- The statements of a script that is read stand in the order of the text. -/
theorem ordered_of_parse (h : Script.parse text tier = .ok script) :
    ∃ tokens, Orderly tokens ∧
      (∀ node ∈ script.body, node.Every Formed ∧ node.Every (Tidy tokens)) ∧
      script.body.Pairwise Node.Before := by
  have hactions := actions_of_parse h
  obtain ⟨tokens, htokens, h⟩ := exists_ok_of_bind h
  obtain ⟨j, hrow⟩ := row_of_ofTokens htokens h
  have ho := orderly_of_tokenize htokens
  refine ⟨_, ho, fun node hmem => ⟨?_, (hrow.laid node hmem).tidy⟩, hrow.pairwise ho⟩
  exact (hactions node hmem).every.imp fun _ hread => hread.formed

/-- Where a name is looked up, the declarations gone through are those that end before it. -/
theorem mem_take_leaves_iff (hparse : Script.parse text tier = .ok script)
    (hi : script.leaves[i]? = some leaf) (huse : leaf.use? = some (p, name))
    (hd : d.isDeclaration = true) : d ∈ script.leaves.take i ↔ script.Declares d p := by
  obtain ⟨tokens, -, hbody, hpair⟩ := ordered_of_parse hparse
  obtain ⟨hlt, rfl⟩ := List.getElem?_eq_some_iff.1 hi
  have hsplit : script.body.flatMap (Node.leaves true) =
      script.leaves.take i ++ script.leaves[i] :: script.leaves.drop (i + 1) := by
    rw [← leaves_eq, ← List.drop_eq_getElem_cons hlt, List.take_append_drop]
  exact mem_before_iff_of_pairwise (fun node hmem => (hbody node hmem).1)
    (fun node hmem => (hbody node hmem).2) hpair
    (fun node hmem => node.inTextOrder (hbody node hmem).1 (hbody node hmem).2) hsplit huse hd

/-- A name that is used is a leaf. -/
theorem exists_leaf_of_uses {resolution : Resolution} (h : script.Uses p name resolution) :
    ∃ (i : Nat) (leaf : Leaf), script.leaves[i]? = some leaf ∧ leaf.use? = some (p, name) := by
  obtain ⟨statement, hmem, huses⟩ := h
  obtain ⟨leaf, hleaf, huse⟩ := huses.exists_leaf
  have hwhole : leaf ∈ script.leaves := by
    rw [leaves_eq]
    exact List.mem_flatMap.2 ⟨statement, hmem, hleaf⟩
  obtain ⟨i, hi⟩ := List.mem_iff_getElem?.1 hwhole
  exact ⟨i, leaf, hi, huse⟩

/-- So it has an outcome. -/
theorem exists_outcome_of_uses {resolution : Resolution} (h : script.Uses p name resolution) :
    ∃ i : Nat, script.outcomes[i]? = some (.name p name resolution) := by
  obtain ⟨statement, hmem, huses⟩ := h
  refine List.mem_iff_getElem?.1 ?_
  rw [outcomes, leavesOf_eq]
  exact List.mem_flatMap.2 ⟨statement, hmem, huses.mem_leaves⟩

/-- A name has no plus sign. -/
theorem plus_not_mem_of_leaf (hparse : Script.parse text tier = .ok script)
    (hi : script.leaves[i]? = some leaf) (huse : leaf.use? = some (p, name)) :
    '+' ∉ name.toList := by
  have hmem := List.mem_of_getElem? hi
  rw [leaves_eq] at hmem
  obtain ⟨statement, hstatement, hleaf⟩ := List.mem_flatMap.1 hmem
  obtain ⟨resolution, huses⟩ := exists_uses hleaf huse
  obtain ⟨tokens, ho, hbody, -⟩ := ordered_of_parse hparse
  obtain ⟨token, htoken, hkind, rfl⟩ := (huses.every (hbody statement hstatement).2).neat
  exact ho.names token htoken hkind

/-- What becomes of a leaf in a script that is read. -/
theorem exists_outcome (hparse : Script.parse text tier = .ok script)
    (hresolve : script.resolve context = .ok resolved) (hi : script.leaves[i]? = some leaf) :
    ∃ enums leaf', script.enumsBefore context i = .ok enums ∧ resolved.outcomes[i]? = some leaf' ∧
      (∀ p name, leaf.use? = some (p, name) → leaf' = .name p name (script.meaning context p name) ∨
        leaf.Shortened context enums leaf' ∧ ¬ script.Declares (.localVar name) p) ∧
      (leaf.use? = none → leaf'.use? = none) := by
  obtain ⟨scope, scope', out, hhoisted, hlocals, hleaves⟩ := meets_of_resolve hresolve
  obtain ⟨leaf', scope₁, scope₂, hleaf', hbefore, hmeets, -⟩ := hleaves.split hi
  have hglobals : ∀ other, other ∉ scope.globals := by
    intro other hother
    rcases hhoisted.mem_globals.1 hother with hmem | hmem
    · exact List.not_mem_nil hmem
    · obtain ⟨node, -, hnode⟩ := List.mem_filterMap.1 hmem
      cases node <;> cases hnode
  have henums : script.enumsBefore context i = .ok scope₁.enums := by
    have hfirst : enumsAfter context.enums script.hoisted = .ok scope.enums := hhoisted.enumsAfter
    rw [enumsBefore, enumsAfter_append, hfirst]
    exact hbefore.enumsAfter
  refine ⟨scope₁.enums, leaf', henums, hleaf', fun p name huse => ?_, fun huse => ?_⟩
  · have hlocal : name ∈ scope₁.locals ↔ script.Declares (.localVar name) p := by
      rw [hbefore.mem_locals, hlocals, ← mem_take_leaves_iff hparse hi huse rfl]
      exact ⟨fun hor => hor.resolve_left List.not_mem_nil, .inr⟩
    have hglobal : name ∈ scope₁.globals ↔ script.Declares (.globalVar name) p := by
      rw [hbefore.mem_globals, ← mem_take_leaves_iff hparse hi huse rfl]
      exact ⟨fun hor => hor.resolve_left (hglobals name), .inr⟩
    have hmeaning :=
      resolution_eq_meaning context (plus_not_mem_of_leaf hparse hi huse) hlocal hglobal
    cases hmeets with
    | name | member =>
      cases huse
      rw [hmeaning]
      exact .inl rfl
    | ofGlobal hhidden =>
      cases huse
      exact .inr ⟨.ofGlobal, fun h => hhidden (hlocal.2 h)⟩
    | ofSelf hhidden =>
      cases huse
      exact .inr ⟨.ofSelf, fun h => hhidden (hlocal.2 h)⟩
    | value hhidden hnoGlobal hnoSelf hvalues hvalue =>
      cases huse
      exact .inr ⟨.value hnoGlobal hnoSelf hvalues hvalue, fun h => hhidden (hlocal.2 h)⟩
    | _ => cases huse
  · cases hmeets <;> first | rfl | cases huse

/-- Names mean what the text before them says. Each name of a script whose names are looked up comes
from the name at its place and has its meaning, or it replaces a member of `global` or `self`. Each
name of the script is among its leaves; there it gets its meaning, or it is replaced together with its
member, which happens only where it is not declared as a local variable and is `global`, `self` or an
enumeration that is known there and has this member. -/
theorem names_mean_by_text (hparse : Script.parse text tier = .ok script)
    (hresolve : script.resolve context = .ok resolved) :
    (∀ p name resolution, resolved.Uses p name resolution → ∃ (i : Nat) (leaf : Leaf) (enums : Enums),
      script.leaves[i]? = some leaf ∧ resolved.outcomes[i]? = some (.name p name resolution) ∧
        script.enumsBefore context i = .ok enums ∧
        (leaf.use? = some (p, name) ∧ resolution = script.meaning context p name ∨
          leaf.Shortened context enums (.name p name resolution))) ∧
    (∀ p name resolution, script.Uses p name resolution → ∃ (i : Nat) (leaf : Leaf),
      script.leaves[i]? = some leaf ∧ leaf.use? = some (p, name)) ∧
    ∀ (i : Nat) (leaf : Leaf) p name, script.leaves[i]? = some leaf → leaf.use? = some (p, name) →
      ∃ (enums : Enums) (leaf' : Leaf), script.enumsBefore context i = .ok enums ∧
        resolved.outcomes[i]? = some leaf' ∧
        (leaf' = .name p name (script.meaning context p name) ∨
          leaf.Shortened context enums leaf' ∧ ¬ script.Declares (.localVar name) p) := by
  refine ⟨?_, fun p name resolution => exists_leaf_of_uses, ?_⟩
  · intro p name resolution huses
    obtain ⟨i, hi'⟩ := exists_outcome_of_uses huses
    obtain ⟨_, _, _, -, -, hleaves⟩ := meets_of_resolve hresolve
    have hlt : i < script.leaves.length := by
      rw [← hleaves.length_eq]
      exact (List.getElem?_eq_some_iff.1 hi').1
    have hi : script.leaves[i]? = some script.leaves[i] := List.getElem?_eq_getElem hlt
    obtain ⟨enums, leaf', henums, hleaf', hmeaning, hnone⟩ := exists_outcome hparse hresolve hi
    cases hi'.symm.trans hleaf'
    refine ⟨i, script.leaves[i], enums, hi, hi', henums, ?_⟩
    cases huse : script.leaves[i].use? with
    | none => cases hnone huse
    | some use =>
      obtain ⟨q, other⟩ := use
      rcases hmeaning q other huse with heq | ⟨hshort, -⟩
      · cases heq
        exact .inl ⟨rfl, rfl⟩
      · exact .inr hshort
  · intro i leaf p name hi huse
    obtain ⟨enums, leaf', henums, hleaf', hmeaning, -⟩ := exists_outcome hparse hresolve hi
    exact ⟨enums, leaf', henums, hleaf', hmeaning p name huse⟩

end Script

/-- The name that a leaf is, with its meaning. -/
def Leaf.tag? : Leaf → Option (String × Resolution)
  | name _ other resolution => some (other, resolution)
  | _ => none

/-- The name and the field of a leaf that is a member. -/
def Leaf.member? : Leaf → Option (String × String)
  | member _ _ owner field => some (owner, field)
  | _ => none

/-- A loop whose step comes before its body, and declarations in both of a `do` loop and a block. Of two
members the one of an enumeration is replaced, while `inst.hp` stays and `inst` gets its meaning. -/
theorem Script.names_mean_by_text_loops :
    let text := "for (var i = i; i < n; i += j) { var j = i; globalvar g; n = g; }
      do { var k = k, m = k; } until (k > m); g = argument3 + n + self.k + E.B + inst.hp;
      enum E { A, B }"
    let tags : List (String × Resolution) :=
      [("i", .dynamic), ("i", .localVar), ("n", .dynamic), ("j", .dynamic), ("i", .localVar),
        ("i", .localVar), ("g", .globalVar), ("n", .dynamic), ("k", .dynamic), ("k", .localVar),
        ("k", .localVar), ("m", .localVar), ("argument3", .argument 3), ("n", .dynamic),
        ("k", .dynamic), ("inst", .dynamic), ("g", .globalVar)]
    ∃ script resolved, Script.parse text literalTier = .ok script ∧
      script.resolve {} = .ok resolved ∧ resolved.outcomes.filterMap Leaf.tag? = tags ∧
      (∀ p name resolution, resolved.Uses p name resolution →
        ∃ (i : Nat) (leaf : Leaf) (enums : Enums),
          script.leaves[i]? = some leaf ∧ resolved.outcomes[i]? = some (.name p name resolution) ∧
            script.enumsBefore {} i = .ok enums ∧
            (leaf.use? = some (p, name) ∧ resolution = script.meaning {} p name ∨
              leaf.Shortened {} enums (.name p name resolution))) ∧
      ∃ (i : Nat) (p q : Position), script.leaves[i]? = some (.member p q "inst" "hp") ∧
        resolved.outcomes[i]? = some (.name q "inst" (script.meaning {} q "inst")) := by
  intro text tags
  obtain ⟨script, hparse, hchecks⟩ := exists_ok_of_any
    (p := fun script => (script.leaves[21]?.bind Leaf.member?) = some ("inst", "hp") ∧
      ((script.enumsBefore {} 21).toOption.any fun enums => (enums.get? "inst").isNone) ∧
      (script.resolve {}).toOption.any fun resolved : Script =>
        resolved.outcomes.filterMap Leaf.tag? = tags)
    (x := Script.parse text literalTier) (by decide +kernel)
  obtain ⟨hleaf, henums, hresolve⟩ := of_decide_eq_true hchecks
  obtain ⟨resolved, hresolve, htags⟩ := exists_ok_of_any hresolve
  obtain ⟨hnames, -, hleaves⟩ := Script.names_mean_by_text hparse hresolve
  refine ⟨script, resolved, hparse, hresolve, of_decide_eq_true htags, hnames, 21, ?_⟩
  obtain ⟨leaf, hi, hmember⟩ := Option.bind_eq_some_iff.1 hleaf
  cases leaf with
  | member p q name field =>
    cases hmember
    refine ⟨p, q, hi, ?_⟩
    obtain ⟨enums, leaf', hbefore, hleaf', hor⟩ := hleaves 21 _ q "inst" hi rfl
    obtain ⟨known, hknown, hnone⟩ := exists_ok_of_any henums
    cases hbefore.symm.trans hknown
    rcases hor with rfl | ⟨hshort, -⟩
    · exact hleaf'
    · have hsome := hshort.isSome_get? rfl (by decide) (by decide)
      rw [Option.isNone_iff_eq_none.1 hnone] at hsome
      cases hsome
  | _ => cases hmember

end Gml
