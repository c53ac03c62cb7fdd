import Gml.Proofs.Tree.Leaves
import Gml.Proofs.Tree.Resolved

/-!
# Values of enumerations

The values of an enumeration are worked out where it is declared, and at top level once more before
everything else. Both times they may refer to other enumerations.

From its declaration on, a member has the value that the declaration shows
(`enumeration_values_agree`). Before it, this takes more: the enumeration must stand at top level, and
what is worked out beforehand must be what is worked out in its place. It is, if no value refers to an
enumeration that both the script and the context have (`Script.Steady`): such a reference means the
enumeration of the context at first and the one of the script in the end.
-/

namespace Gml

/-! ### Constants -/

namespace Node

/-- The names whose members a constant refers to. -/
def mentions : Node → List String
  | member _ instanceOf _ => instanceOf.name?.toList.map Prod.snd
  | unary _ _ operand => operand.mentions
  | binary _ _ lhs rhs | logical _ _ lhs rhs => lhs.mentions ++ rhs.mentions
  | conditional _ condition thenValue elseValue =>
    condition.mentions ++ (thenValue.mentions ++ elseValue.mentions)
  | _ => []
termination_by structural node => node

end Node

/-- The names whose members the values of an enumeration refer to. -/
def memberMentions (members : List (Binding Node)) : List String :=
  members.flatMap fun member => (member.value.map Node.mentions).getD []

/-- What some enumerations are in one table they are in another, too. -/
def Enums.AgreeOn (names : List String) (enums enums' : Enums) : Prop :=
  ∀ name ∈ names, ∀ values, enums.get? name = some values → enums'.get? name = some values

namespace Node

open Enums

variable {enums enums' : Enums} {values : Table String Int64}

/-- A constant stays what it is if the enumerations do that it refers to. -/
theorem constant?_of_agree {node : Node} {v : Int64} (h : AgreeOn node.mentions enums enums')
    (hv : node.constant? { enums, values } = some v) :
    node.constant? { enums := enums', values } = some v := by
  fun_induction Node.constant? { enums, values } node generalizing v with
  | case1 | case2 | case3 => exact hv
  | case4 p q name resolution field =>
    obtain ⟨members, hmembers, hv⟩ := Option.bind_eq_some_iff.1 hv
    exact Option.bind_eq_some_iff.2 ⟨members, h name List.mem_cons_self members hmembers, hv⟩
  | case5 p operator operand ih =>
    obtain ⟨a, ha, hv⟩ := Option.bind_eq_some_iff.1 hv
    exact Option.bind_eq_some_iff.2 ⟨a, ih h ha, hv⟩
  | case6 p operator lhs rhs ihl ihr | case7 p operator lhs rhs ihl ihr =>
    obtain ⟨hl, hr⟩ := List.forall_mem_append.1 h
    obtain ⟨a, ha, hv⟩ := Option.bind_eq_some_iff.1 hv
    obtain ⟨b, hb, hv⟩ := Option.bind_eq_some_iff.1 hv
    exact Option.bind_eq_some_iff.2
      ⟨a, ihl hl ha, Option.bind_eq_some_iff.2 ⟨b, ihr hr hb, hv⟩⟩
  | case8 p condition thenValue elseValue ihc iht ihe =>
    obtain ⟨hc, h⟩ := List.forall_mem_append.1 h
    obtain ⟨ht, he⟩ := List.forall_mem_append.1 h
    obtain ⟨a, ha, hv⟩ := Option.bind_eq_some_iff.1 hv
    refine Option.bind_eq_some_iff.2 ⟨a, ihc hc ha, ?_⟩
    by_cases htrue : Constant.isTrue a = true
    · rw [if_pos htrue] at hv ⊢
      exact iht ht hv
    · rw [if_neg htrue] at hv ⊢
      exact ihe he hv
  | case9 => cases hv

end Node

/-! ### Values of members -/

namespace Scope

open Enums

variable {enums enums' : Enums} {enumeration : String} {members : List (Binding Node)} {next : Int64}
  {values values' : Table String Int64}

/-- Members only depend on what they mention. -/
theorem memberValues_of_agree (h : AgreeOn (memberMentions members) enums enums')
    (hvalues : memberValues enums enumeration members next values = .ok values') :
    memberValues enums' enumeration members next values = .ok values' := by
  induction members generalizing next values with
  | nil => exact hvalues
  | cons member members ih =>
    obtain ⟨hmember, hmembers⟩ := List.forall_mem_append.1 h
    obtain ⟨name, _ | expression, p⟩ := member
    · exact ih hmembers hvalues
    · unfold memberValues at hvalues ⊢
      dsimp only at hvalues ⊢
      cases hv : expression.constant? { enums, values } with
      | none =>
        rw [hv] at hvalues
        cases hvalues
      | some v =>
        rw [hv] at hvalues
        rw [Node.constant?_of_agree hmember hv]
        exact ih hmembers hvalues

/-- Exactly the members get values. -/
theorem isSome_get?_memberValues
    (h : memberValues enums enumeration members next values = .ok values') (name : String) :
    (values'.get? name).isSome = true ↔
      (values.get? name).isSome = true ∨ ∃ member ∈ members, member.name = name := by
  induction members generalizing next values with
  | nil =>
    cases h
    simp
  | cons member members ih =>
    have hrest : ∀ v, memberValues enums enumeration members (v + 1) (values.insert member.name v) =
        .ok values' → ((values'.get? name).isSome = true ↔ (values.get? name).isSome = true ∨
          ∃ other ∈ member :: members, other.name = name) := by
      intro v h
      rw [ih h, Table.get?_insert]
      by_cases heq : member.name = name <;> simp [heq]
    unfold memberValues at h
    split at h
    · exact hrest _ h
    · split at h
      · exact hrest _ h
      · cases h

end Scope

/-! ### What a declaration shows -/

/-- The whole number that the node is. -/
def Node.int? : Node → Option Int64
  | int _ value => some value
  | _ => none

/-- The whole number that a declaration shows for a member. -/
def shownValue? (members : List (Binding Node)) (name : String) : Option Int64 :=
  (members.find? (·.name = name)).bind fun member => member.value.bind Node.int?

/-- A declaration shows the values that were worked out. -/
theorem shownValue?_fixedMembers {enums : Enums} {enumeration : String}
    {members : List (Binding Node)} {values : Table String Int64}
    (h : Scope.memberValues enums enumeration members 0 {} = .ok values) (name : String) :
    shownValue? (Resolve.fixedMembers values members) name = values.get? name := by
  have hdomain := Scope.isSome_get?_memberValues h name
  have hshown : shownValue? (Resolve.fixedMembers values members) name =
      (members.find? (·.name = name)).map fun member => (values.get? member.name).getD 0 := by
    rw [shownValue?, Resolve.fixedMembers, List.find?_map]
    change ((members.find? (·.name = name)).map _).bind _ = _
    cases members.find? (·.name = name) <;> rfl
  rw [hshown]
  cases hfind : members.find? (·.name = name) with
  | none =>
    simp only [List.find?_eq_none, decide_eq_true_eq] at hfind
    have hnone : ¬ (values.get? name).isSome = true := by
      rw [hdomain]
      rintro (h | ⟨member, hmem, heq⟩)
      · cases h
      · exact hfind member hmem heq
    exact (Option.not_isSome_iff_eq_none.1 hnone).symm
  | some member =>
    have hname : member.name = name := by simpa using List.find?_some hfind
    obtain ⟨v, hv⟩ := Option.isSome_iff_exists.1
      (hdomain.2 (.inr ⟨member, List.mem_of_find?_eq_some hfind, hname⟩))
    rw [Option.map_some, hname, hv, Option.getD_some]

/-- A table has the values that a declaration shows. -/
def Enums.Has (enums : Enums) (name : String) (shown : List (Binding Node)) : Prop :=
  ∃ values, enums.get? name = some values ∧ ∀ field, values.get? field = shownValue? shown field

/-! ### Declarations among leaves -/

section Names

variable {leaves : List Leaf} {name : String} {members : List (Binding Node)} {j : Nat}

/-- Names of more leaves. -/
theorem enumNames_append (leaves leaves' : List Leaf) :
    enumNames (leaves ++ leaves') = enumNames leaves ++ enumNames leaves' :=
  List.filterMap_append

/-- A name has names in front and behind. -/
theorem enumNames_split (hj : leaves[j]? = some (.enumeration name members)) :
    enumNames leaves =
      enumNames (leaves.take j) ++ name :: enumNames (leaves.drop (j + 1)) := by
  obtain ⟨hlt, hget⟩ := List.getElem?_eq_some_iff.1 hj
  calc enumNames leaves = enumNames (leaves.take j ++ leaves.drop j) := by
        rw [List.take_append_drop]
    _ = enumNames (leaves.take j) ++ enumNames (leaves[j] :: leaves.drop (j + 1)) := by
        rw [enumNames_append, List.drop_eq_getElem_cons hlt]
    _ = enumNames (leaves.take j) ++ name :: enumNames (leaves.drop (j + 1)) := by
        rw [hget]
        rfl

/-- An enumeration that is declared has its name. -/
theorem mem_enumNames (h : .enumeration name members ∈ leaves) : name ∈ enumNames leaves :=
  List.mem_filterMap.2 ⟨_, h, rfl⟩

/-- Only an enumeration has one. -/
theorem Leaf.eq_enumeration_of_enum? {leaf : Leaf} (h : leaf.enum? = some name) :
    ∃ members, leaf = .enumeration name members := by
  cases leaf with
  | enumeration other members =>
    cases h
    exact ⟨members, rfl⟩
  | _ => cases h

/-- A name comes from an enumeration. -/
theorem exists_of_mem_enumNames (h : name ∈ enumNames leaves) :
    ∃ members, .enumeration name members ∈ leaves := by
  obtain ⟨leaf, hmem, hleaf⟩ := List.mem_filterMap.1 h
  obtain ⟨members, rfl⟩ := Leaf.eq_enumeration_of_enum? hleaf
  exact ⟨members, hmem⟩

/-- An enumeration that is declared once has the members of that declaration. -/
theorem members_unique (hnodup : (enumNames leaves).Nodup) {members' : List (Binding Node)}
    (h : .enumeration name members ∈ leaves) (h' : .enumeration name members' ∈ leaves) :
    members' = members := by
  induction leaves with
  | nil => cases h
  | cons leaf rest ih =>
    rcases List.mem_cons.1 h with rfl | hrest <;> rcases List.mem_cons.1 h' with heq | hrest'
    · cases heq
      rfl
    · exact absurd (mem_enumNames hrest') (List.nodup_cons.1 hnodup).1
    · subst heq
      exact absurd (mem_enumNames hrest) (List.nodup_cons.1 hnodup).1
    · exact ih (hnodup.sublist ((List.sublist_cons_self leaf rest).filterMap _)) hrest hrest'

end Names

namespace Scope

variable {context : Context} {scope scope' : Scope} {leaves out : List Leaf} {name : String}
  {members : List (Binding Node)} {j : Nat}

/-- A declaration shows the values that hold from then on. -/
theorem MeetsAll.declared (h : MeetsAll context scope leaves out scope')
    (hj : leaves[j]? = some (.enumeration name members)) :
    ∃ scope₁ values, MeetsAll context scope (leaves.take j) (out.take j) scope₁ ∧
      memberValues scope₁.enums name members 0 {} = .ok values ∧
      out[j]? = some (.enumeration name (Resolve.fixedMembers values members)) ∧
      MeetsAll context { scope₁ with enums := scope₁.enums.insert name values }
        (leaves.drop (j + 1)) (out.drop (j + 1)) scope' := by
  obtain ⟨leaf, scope₁, scope₂, hleaf, hbefore, hmeets, hafter⟩ := h.split hj
  cases hmeets with
  | enumeration hvalues => exact ⟨scope₁, _, hbefore, hvalues, hleaf, hafter⟩

/-- After its only declaration an enumeration has the values that the declaration shows. -/
theorem MeetsAll.has (h : MeetsAll context scope leaves out scope')
    (hnodup : (enumNames leaves).Nodup) (hj : leaves[j]? = some (.enumeration name members)) :
    ∃ shown, out[j]? = some (.enumeration name shown) ∧ scope'.enums.Has name shown := by
  obtain ⟨scope₁, values, -, hvalues, hout, hafter⟩ := h.declared hj
  refine ⟨_, hout, values, ?_, fun field => (shownValue?_fixedMembers hvalues field).symm⟩
  rw [enumNames_split hj] at hnodup
  rw [hafter.get?_enums (List.nodup_cons.1 (List.nodup_append.1 hnodup).2.1).1]
  exact (Table.get?_insert ..).trans (if_pos rfl)

end Scope

/-! ### Declarations at top level -/

/-- The names whose members the values of a leaf refer to. -/
def Leaf.mentions : Leaf → List String
  | enumeration _ members => memberMentions members
  | _ => []

namespace Script

open Scope

/-- No value of an enumeration refers to an enumeration that both the script and the context have. -/
def Steady (context : Context) (script : Script) : Prop :=
  ∀ leaf ∈ script.leaves, ∀ name ∈ leaf.mentions, name ∈ enumNames script.leaves →
    context.enums.get? name = none

instance (context : Context) (script : Script) : Decidable (script.Steady context) :=
  inferInstanceAs (Decidable (∀ leaf ∈ script.leaves, ∀ name ∈ leaf.mentions,
    name ∈ enumNames script.leaves → context.enums.get? name = none))

variable {context : Context} {script : Script} {scope scope' : Scope} {out : List Leaf}
  {name : String} {members : List (Binding Node)}

/-- What is worked out beforehand for an enumeration is worked out wherever the enumerations that it
refers to are what they are then. -/
theorem hoisted_values (hnodup : (enumNames script.leaves).Nodup) (hsteady : script.Steady context)
    (h : MeetsAll context { enums := context.enums } script.hoisted out scope)
    (hmem : .enumeration name members ∈ script.hoisted) :
    ∃ values, scope.enums.get? name = some values ∧
      ∀ enums : Enums, Enums.AgreeOn (memberMentions members) scope.enums enums →
        memberValues enums name members 0 {} = .ok values := by
  have hsub := script.hoisted_sublist.filterMap Leaf.enum?
  have hhoisted : (enumNames script.hoisted).Nodup := hnodup.sublist hsub
  obtain ⟨j, hj⟩ := List.mem_iff_getElem?.1 hmem
  obtain ⟨scope₁, values, hbefore, hvalues, -, hafter⟩ := h.declared hj
  rw [enumNames_split hj] at hhoisted
  obtain ⟨-, hlater, hdisjoint⟩ := List.nodup_append.1 hhoisted
  have hfound : ∀ other ∈ memberMentions members, ∀ found, scope₁.enums.get? other = some found →
      other ∉ name :: enumNames (script.hoisted.drop (j + 1)) := by
    intro other hother found hget hmem'
    have hdeclared : other ∈ enumNames script.leaves :=
      hsub.subset (by rw [← enumNames, enumNames_split hj]; exact List.mem_append_right _ hmem')
    rw [hbefore.get?_enums fun hearlier => hdisjoint other hearlier other hmem' rfl] at hget
    cases (hsteady _ (script.hoisted_sublist.subset hmem) other hother hdeclared).symm.trans hget
  refine ⟨values, ?_, fun enums hagree => memberValues_of_agree
    (fun other hother found hget => hagree other hother found ?_) hvalues⟩
  · rw [hafter.get?_enums (List.nodup_cons.1 hlater).1]
    exact (Table.get?_insert ..).trans (if_pos rfl)
  · have hnot := hfound other hother found hget
    rw [List.mem_cons, not_or] at hnot
    rw [hafter.get?_enums hnot.2]
    exact (Table.get?_insert ..).trans ((if_neg (Ne.symm hnot.1)).trans hget)

/-- An enumeration that does not change its values on the way through a script: it stands at top level
or it is not declared there at all. -/
def Keeps (script : Script) (name : String) : Prop :=
  name ∈ enumNames script.hoisted ∨ name ∉ enumNames script.leaves

section Again

variable (hnodup : (enumNames script.leaves).Nodup) (hsteady : script.Steady context)
  (h : MeetsAll context { enums := context.enums } script.hoisted out scope)

include hnodup hsteady h

/-- In its place an enumeration at top level gets the values that it got beforehand. -/
theorem get?_enums_of_again {scope₁ : Scope} {values : Table String Int64}
    (hstart : ∀ name, script.Keeps name → scope₁.enums.get? name = scope.enums.get? name)
    (hmem : .enumeration name members ∈ script.leaves) (hkeeps : script.Keeps name)
    (hvalues : memberValues scope₁.enums name members 0 {} = .ok values) :
    scope.enums.get? name = some values := by
  have hname : name ∈ enumNames script.hoisted :=
    hkeeps.resolve_right (not_not_intro (mem_enumNames hmem))
  obtain ⟨members', hmem'⟩ := exists_of_mem_enumNames hname
  obtain rfl := members_unique hnodup hmem (script.hoisted_sublist.subset hmem')
  obtain ⟨values', hget, hagain⟩ := hoisted_values hnodup hsteady h hmem'
  have hagree : Enums.AgreeOn (memberMentions members') scope.enums scope₁.enums := by
    intro other hother found hfound
    by_cases hkeeps' : script.Keeps other
    · exact (hstart other hkeeps').trans hfound
    · obtain ⟨hhoisted, hdeclared⟩ := not_or.1 hkeeps'
      rw [h.get?_enums hhoisted] at hfound
      cases (hsteady _ hmem other hother (Classical.not_not.1 hdeclared)).symm.trans hfound
  rw [hagain scope₁.enums hagree] at hvalues
  cases hvalues
  exact hget

/-- Once the enumerations at top level are known, going through leaves does not change them. -/
theorem get?_enums_of_keeps {leaves out' : List Leaf} {scope₁ scope₂ : Scope}
    (hmeets : MeetsAll context scope₁ leaves out' scope₂)
    (hleaves : ∀ leaf ∈ leaves, leaf ∈ script.leaves)
    (hstart : ∀ name, script.Keeps name → scope₁.enums.get? name = scope.enums.get? name) :
    ∀ name, script.Keeps name → scope₂.enums.get? name = scope.enums.get? name := by
  induction hmeets with
  | nil => exact hstart
  | @cons scope₁ _ _ leaf _ leaves _ hleaf _ ih =>
    obtain ⟨hmem, hrest⟩ := List.forall_mem_cons.1 hleaves
    refine ih hrest fun other hother => ?_
    cases hleaf with
    | @enumeration name members values hvalues =>
      refine (Table.get?_insert ..).trans ?_
      by_cases heq : name = other
      · subst heq
        rw [if_pos rfl, get?_enums_of_again hnodup hsteady h hstart hmem hother hvalues]
      · rw [if_neg heq]
        exact hstart other hother
    | _ => exact hstart other hother

end Again

end Script

/-! ### One value for each member -/

section Main

open Scope

variable {context : Context} {script resolved : Script} {name : String}
  {members : List (Binding Node)} {i j : Nat}

/-- Where an enumeration is known, it has the values that its declaration shows. -/
theorem exists_meets_of_resolve (h : script.resolve context = .ok resolved)
    (hnodup : (enumNames script.leaves).Nodup)
    (hj : script.leaves[j]? = some (.enumeration name members)) :
    ∃ shown, resolved.outcomes[j]? = some (.enumeration name shown) ∧
      ∀ i leaf, script.leaves[i]? = some leaf →
        j < i ∨ name ∈ enumNames script.hoisted ∧ script.Steady context →
        ∃ scope leaf' scope', resolved.outcomes[i]? = some leaf' ∧
          Meets context scope leaf leaf' scope' ∧ scope.enums.Has name shown ∧
          ∀ other ∈ scope.locals, .localVar other ∈ script.leaves.take i := by
  obtain ⟨scope, scope', out, hhoisted, hlocals, hleaves⟩ := Script.meets_of_resolve h
  obtain ⟨scopeⱼ, values, hbeforeⱼ, hvalues, hout, -⟩ := hleaves.declared hj
  refine ⟨_, hout, fun i leaf hi hknown => ?_⟩
  obtain ⟨leaf', scope₁, scope₂, hleaf', hbefore, hmeets, -⟩ := hleaves.split hi
  refine ⟨scope₁, leaf', scope₂, hleaf', hmeets, ?_, fun other hother => ?_⟩
  · rcases hknown with hlt | ⟨hname, hsteady⟩
    · have hnodup' : (enumNames (script.leaves.take i)).Nodup :=
        hnodup.sublist ((List.take_sublist i _).filterMap _)
      obtain ⟨shown, hshown, hhas⟩ :=
        hbefore.has hnodup' ((List.getElem?_take_of_lt hlt).trans hj)
      rw [List.getElem?_take_of_lt hlt, hout] at hshown
      cases hshown
      exact hhas
    · have hstartⱼ := Script.get?_enums_of_keeps hnodup hsteady hhoisted hbeforeⱼ
        (fun _ => List.mem_of_mem_take) fun _ _ => rfl
      have hstart := Script.get?_enums_of_keeps hnodup hsteady hhoisted hbefore
        (fun _ => List.mem_of_mem_take) fun _ _ => rfl
      have hget := Script.get?_enums_of_again hnodup hsteady hhoisted hstartⱼ
        (List.mem_of_getElem? hj) (.inl hname) hvalues
      exact ⟨values, (hstart name (.inl hname)).trans hget,
        fun field => (shownValue?_fixedMembers hvalues field).symm⟩
  · rw [hbefore.mem_locals, hlocals] at hother
    exact hother.resolve_left List.not_mem_nil

/-- A member of an enumeration has one value. The declaration of an enumeration shows a value for each
member. Every reference to a member after the declaration is replaced by this value, unless a local
variable hides the enumeration, and every value of another enumeration that refers to the member is
worked out with it. So is everything before the declaration, if that stands at top level and the
script is steady. -/
theorem enumeration_values_agree (h : script.resolve context = .ok resolved)
    (hnodup : (enumNames script.leaves).Nodup)
    (hj : script.leaves[j]? = some (.enumeration name members)) :
    ∃ shown, resolved.outcomes[j]? = some (.enumeration name shown) ∧ ∀ i,
      j < i ∨ name ∈ enumNames script.hoisted ∧ script.Steady context →
      (∀ p q field, script.leaves[i]? = some (.member p q name field) →
        .localVar name ∉ script.leaves.take i → name ≠ "global" → name ≠ "self" →
        ∃ value, shownValue? shown field = some value ∧
          resolved.outcomes[i]? = some (.number p value)) ∧
      ∀ other others, script.leaves[i]? = some (.enumeration other others) →
        ∃ enums : Enums, enums.Has name shown ∧ ∃ values shown',
          memberValues enums other others 0 {} = .ok values ∧
          resolved.outcomes[i]? = some (.enumeration other shown') ∧
          ∀ field, shownValue? shown' field = values.get? field := by
  obtain ⟨shown, hshown, hmeets⟩ := exists_meets_of_resolve h hnodup hj
  refine ⟨shown, hshown, fun i hknown => ⟨fun p q field hi hlocal hglobal hself => ?_, ?_⟩⟩
  · obtain ⟨scope, leaf, scope', hleaf, hmeets, ⟨values, hvalues, hfields⟩, hlocals⟩ :=
      hmeets i _ hi hknown
    cases hmeets with
    | ofGlobal => exact absurd rfl hglobal
    | ofSelf => exact absurd rfl hself
    | value _ _ _ hvalues' hvalue =>
      rw [hvalues] at hvalues'
      cases hvalues'
      exact ⟨_, (hfields field).symm.trans hvalue, hleaf⟩
    | member hkept =>
      rcases hkept with hmem | ⟨-, -, hnone⟩
      · exact absurd (hlocals name hmem) hlocal
      · cases hvalues.symm.trans hnone
  · intro other others hi
    obtain ⟨scope, leaf, scope', hleaf, hmeets, hhas, -⟩ := hmeets i _ hi hknown
    cases hmeets with
    | enumeration hvalues =>
      exact ⟨scope.enums, hhas, _, _, hvalues, hleaf, shownValue?_fixedMembers hvalues⟩

end Main

/-! ### At fixed scripts -/

namespace Leaf

/-- The name and the field of a leaf that refers to a member of a name. -/
def reference? : Leaf → Option (String × String)
  | member _ _ owner field => some (owner, field)
  | _ => none

/-- The whole number that a leaf is. -/
def number? : Leaf → Option Int64
  | number _ value => some value
  | _ => none

/-- The whole number that a declaration of an enumeration shows for a member. -/
def shown? (field : String) : Leaf → Option Int64
  | enumeration _ members => shownValue? members field
  | _ => none

/-- Only a member refers to one. -/
theorem eq_member_of_reference? {leaf : Leaf} {owner field : String}
    (h : leaf.reference? = some (owner, field)) : ∃ p q, leaf = .member p q owner field := by
  cases leaf with
  | member p q =>
    cases h
    exact ⟨p, q, rfl⟩
  | _ => cases h

end Leaf

/-- One that is declared later and used in another. -/
theorem enumeration_values_agree_nested : ∃ (script resolved : Script) (p q : Position)
    (members shown : List (Binding Node)) (value : Int64),
    Script.parse "a = State.Jump; { enum Far { Leap = State.Jump + 1 } }
      enum State { Idle, Walk = Weapon.Bow, Run, Jump = Run * 2 }" literalTier = .ok script ∧
    script.resolve { enums := .ofList [("Weapon", .ofList [("Bow", 4)])] } = .ok resolved ∧
    (enumNames script.leaves).Nodup ∧ script.leaves[3]? = some (.enumeration "State" members) ∧
    script.leaves[0]? = some (.member p q "State" "Jump") ∧
    resolved.outcomes[3]? = some (.enumeration "State" shown) ∧
    shownValue? shown "Jump" = some value ∧ resolved.outcomes[0]? = some (.number p value) := by
  obtain ⟨script, hparse, hscript⟩ := exists_ok_of_any
    (p := fun script => decide ((enumNames script.leaves).Nodup ∧
      "State" ∈ enumNames script.hoisted ∧
      script.Steady { enums := .ofList [("Weapon", .ofList [("Bow", 4)])] } ∧
      script.leaves[3]?.bind Leaf.enum? = some "State" ∧
      script.leaves[0]?.bind Leaf.reference? = some ("State", "Jump")) &&
      (script.resolve { enums := .ofList [("Weapon", .ofList [("Bow", 4)])] }).toOption.any
        fun _ => true)
    (x := Script.parse "a = State.Jump; { enum Far { Leap = State.Jump + 1 } }
      enum State { Idle, Walk = Weapon.Bow, Run, Jump = Run * 2 }" literalTier)
    (by decide +kernel)
  obtain ⟨hfacts, hresolve⟩ := Bool.and_eq_true_iff.1 hscript
  obtain ⟨hnodup, hhoisted, hsteady, hj, hi⟩ := of_decide_eq_true hfacts
  obtain ⟨resolved, hresolve, -⟩ := exists_ok_of_any hresolve
  obtain ⟨declaration, hj, henum⟩ := Option.bind_eq_some_iff.1 hj
  obtain ⟨members, rfl⟩ := Leaf.eq_enumeration_of_enum? henum
  obtain ⟨reference, hi, hreference⟩ := Option.bind_eq_some_iff.1 hi
  obtain ⟨p, q, rfl⟩ := Leaf.eq_member_of_reference? hreference
  obtain ⟨shown, hshown, hagree⟩ := enumeration_values_agree hresolve hnodup hj
  obtain ⟨value, hvalue, hnumber⟩ := (hagree 0 (.inr ⟨hhoisted, hsteady⟩)).1 p q "Jump" hi
    (by simp) (by decide) (by decide)
  exact ⟨script, resolved, p, q, members, shown, value, hparse, hresolve, hnodup, hj, hi, hshown,
    hvalue, hnumber⟩

/-- What is worked out beforehand refers to the enumeration of the context, and the declaration to that
of the script. -/
theorem hoisted_value_differs :
    ((Script.parse "x = A.X; enum A { X = B.Y } enum B { Y = 2 } y = A.X;" literalTier).toOption.map
      fun script => (enumNames script.leaves, script.leaves.map Leaf.reference?)) =
      some (["A", "B"], [some ("A", "X"), none, none, none, some ("A", "X"), none]) ∧
    ((Script.ofSource "x = A.X; enum A { X = B.Y } enum B { Y = 2 } y = A.X;"
      { enums := .ofList [("B", .ofList [("Y", 1)])] }).toOption.map fun resolved =>
        (resolved.outcomes.map Leaf.number?, resolved.outcomes.map (Leaf.shown? "X"))) =
      some ([some 1, none, none, none, some 2, none],
        [none, none, some 2, none, none, none]) := by
  decide +kernel

end Gml
