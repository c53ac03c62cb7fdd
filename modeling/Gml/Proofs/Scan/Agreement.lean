import Gml.Proofs.Outcome
import Gml.Proofs.Scan.Plain
import Gml.Proofs.Tree.Rereading
import Gml.Tree.Scope

/-!
# Scans agree with declarations

A plain declaration of an enumeration is read, and its members are given values, whatever else is
declared. A scan of the text finds the same values (`Plain.Declaration.scan_agrees`): both count on
from the last value that was written out. A value that has to be worked out is found by the
declaration alone, and the members that come after it are counted differently
(`Scan.enums_of_sum`).
-/

namespace Gml

open Text Lexeme

namespace Parse

variable {p : Parser} {inner : Inner} {name equals : Token} {rest : List Token}

/-- A member without a value. -/
theorem reads_binding_bare {next : Token} (hahead : p.ahead = name :: next :: rest)
    (hkind : name.kind = .identifier) (hne : next.kind ≠ .assign) :
    Reads p (binding inner) 1 ⟨name.value, none, name.position⟩ := by
  refine Reads.bind (n := 0) (reads_eatName hahead hkind) ?_
  refine Reads.bind (n := 0) (reads_skip_none (Parser.ahead_advance_one hahead) hne) ?_
  exact reads_pure

/-- A member with a value. -/
theorem reads_binding_valued {n : Nat} {node : Node} (hahead : p.ahead = name :: equals :: rest)
    (hkind : name.kind = .identifier) (hequals : equals.kind = .assign)
    (h : Reads (p.advance 2) inner.expression n node) :
    Reads p (binding inner) (n + 2) ⟨name.value, some node, name.position⟩ := by
  have hafter := Parser.ahead_advance_one hahead
  rw [Nat.add_comm, Nat.add_assoc 1 1 n]
  refine (reads_eatName hahead hkind).bind ((reads_skip hafter hequals (by decide)).bind ?_)
  exact Reads.bind (n := 0) (reads_some h) reads_pure

/-- An enumeration is read if its members are, and nothing else comes after it. -/
theorem reads_enumeration {word opening closing last : Token} {inside : List Token}
    {members : List (Binding Node)}
    (hahead : p.ahead = word :: name :: opening :: (inside ++ closing :: last :: rest))
    (hword : word.kind = .kwEnum) (hname : name.kind = .identifier)
    (hopening : opening.kind = .leftBrace) (hclosing : closing.kind = .rightBrace)
    (hlast : last.kind = .endOfFile)
    (h : Reads (p.advance 3) (listUntil .rightBrace (binding inner)) inside.length members) :
    Reads p (enumeration inner) (inside.length + 4)
      (.declareEnum word.position name.value members) := by
  have hname' := Parser.ahead_advance_one hahead
  have hopening' := Parser.ahead_advance_one hname'
  have hinside := Parser.ahead_advance (Parser.ahead_advance_one hopening')
  have hend : last.kind ≠ .semicolon := by
    rw [hlast]
    decide
  have hcount : inside.length + 4 = 1 + (1 + (1 + (inside.length + (1 + (0 + 0))))) := by omega
  rw [hcount]
  refine (reads_eat hahead hword (by decide)).bind ((reads_eatName hname' hname).bind ?_)
  refine (reads_eat hopening' hopening (by decide)).bind (h.bind ?_)
  refine (reads_eat hinside hclosing (by decide)).bind ?_
  exact (reads_skip_none (Parser.ahead_advance_one hinside) hend).bind reads_pure

/-- An enumeration as a statement. -/
theorem reads_statement_enumeration {n : Nat} {node : Node} (hkind : p.head.kind = .kwEnum)
    (h : Reads p (enumeration inner) n node) : Reads p (statement inner) n node := by
  refine reads_position_bind.2 (reads_kind_bind.2 ?_)
  rw [hkind]
  exact h

end Parse

namespace Plain

/-! ### Tokens -/

namespace Value

/-- The tokens of a number. -/
def shapes (value : Value) : List (Kind × String) :=
  if value.negative then [(.minus, .ofList ['-']), (.number, .ofList value.number)]
  else [(.number, .ofList value.number)]

end Value

/-- The tokens from the equals sign on. -/
def Assigned.shapes (assigned : Assigned) : List (Kind × String) :=
  (.assign, .ofList ['=']) :: assigned.value.shapes

/-- The tokens of a member. -/
def Member.shapes (member : Member) : List (Kind × String) :=
  (.identifier, member.name.text) :: (member.assigned.map Assigned.shapes).getD []

namespace Declaration

/-- The tokens between commas. -/
def entryShapes (declaration : Declaration) : List (List (Kind × String)) :=
  declaration.members.map Member.shapes ++ (declaration.ending.map fun _ => []).toList

/-- The tokens of a declaration. -/
def shapes (declaration : Declaration) : List (Kind × String) :=
  (.kwEnum, .ofList ['e', 'n', 'u', 'm']) :: (.identifier, declaration.name.text) ::
    (.leftBrace, .ofList ['\x7b']) ::
      (joined (.comma, .ofList [',']) declaration.entryShapes ++ [(.rightBrace, .ofList ['\x7d'])])

end Declaration

variable {tier : Nat} {shapes : List (Kind × String)} {rest : List Char}

/-- Blanks may come first. -/
theorem Blanks.spaced (blanks : Blanks) (h : Spaced tier shapes rest) :
    Spaced tier shapes (blanks.chars ++ rest) := by
  obtain ⟨chars, hblank⟩ := blanks
  induction chars with
  | nil => exact h
  | cons c chars ih =>
    rw [List.forall_mem_cons] at hblank
    exact .blank hblank.1 (ih hblank.2)

/-- A name is one token. -/
theorem Name.spaced (name : Name) (hstops : Stops isNameChar rest) (h : Spaced tier shapes rest) :
    Spaced tier ((.identifier, name.text) :: shapes) (name.chars ++ rest) := by
  have hspelled := @spelled_word tier _ _ name.starts name.goesOn
  rw [name.free] at hspelled
  exact .token hspelled hstops h

/-- A mark that no longer operator starts with. -/
theorem spaced_mark {kind : Kind} {mark : Char} (hmem : (mark, kind) ∈ Kind.singleOperators)
    (hslash : mark ≠ '/') (hdot : mark ≠ '.')
    (hdouble : ∀ entry ∈ Kind.doubleOperators, entry.1.1 ≠ mark) (h : Spaced tier shapes rest) :
    Spaced tier ((kind, .ofList [mark]) :: shapes) (mark :: rest) := by
  refine .token (spelled_single hmem hslash hdot) (fun b _ => ?_) h
  refine List.any_eq_false.2 fun entry hentry => ?_
  have hne := hdouble entry hentry
  simp only [decide_eq_true_eq]
  intro heq
  exact hne (congrArg Prod.fst heq)

/-- No longer operator goes on with a character of a name. -/
theorem not_glued_of_isNameChar {mark c : Char} (h : isNameChar c = true) :
    (Kind.doubleOperators.any fun entry => entry.1 = (mark, c)) = false := by
  have htable : ∀ entry ∈ Kind.doubleOperators, isNameChar entry.1.2 = false := by decide
  refine List.any_eq_false.2 fun entry hentry => ?_
  have hfalse := htable entry hentry
  simp only [decide_eq_true_eq]
  intro heq
  rw [heq, h] at hfalse
  cases hfalse

namespace Value

variable (value : Value)

/-- A number is one token. -/
theorem spelled_number :
    Spelled tier .number (.ofList value.number) value.number gluesNumber := by
  have hhex := value.isHexDigit_digits
  unfold number
  rcases hbase : value.base with _ | _ | _ | _
  · refine spelled_decimal value.ne_nil fun c hc => ?_
    have hall := value.all c hc
    rwa [hbase] at hall
  · exact spelled_dollar value.ne_nil hhex
  · exact spelled_hex (.inl rfl) value.ne_nil hhex
  · exact spelled_hex (.inr rfl) value.ne_nil hhex

/-- So a value is read. -/
theorem spaced (hstops : Stops gluesNumber rest) (h : Spaced tier shapes rest) :
    Spaced tier (value.shapes ++ shapes) (value.chars ++ rest) := by
  have hnumber : Spaced tier ((.number, .ofList value.number) :: shapes) (value.number ++ rest) :=
    .token value.spelled_number hstops h
  unfold Value.shapes chars
  split
  · have hminus : Spelled tier .minus (.ofList ['-']) ['-'] _ :=
      spelled_single (by decide) (by decide) (by decide)
    have hall : Spaced tier ((.minus, .ofList ['-']) :: (.number, .ofList value.number) :: shapes)
        (['-'] ++ (value.number ++ rest)) := by
      refine .token hminus ?_ hnumber
      exact value.stops_number (fun c => not_glued_of_isNameChar) (by decide) rest
    exact hall
  · exact hnumber

end Value

/-- So is an assignment. -/
theorem Assigned.spaced (assigned : Assigned) (hstops : Stops gluesNumber rest)
    (h : Spaced tier shapes rest) :
    Spaced tier (assigned.shapes ++ shapes) (assigned.chars ++ rest) := by
  have hspelled : Spelled tier .assign (.ofList ['=']) ['='] _ :=
    spelled_single (by decide) (by decide) (by decide)
  have hafter := assigned.after.stops (fun _ => gluesNumber_of_isBlank) hstops
  have hvalue := assigned.value.spaced hafter (assigned.after.spaced h)
  have hequals := assigned.before.stops hspelled.apart (assigned.value.stops
    (fun _ => not_glued_of_isNameChar) (by decide) (by decide) (assigned.after.chars ++ rest))
  have hall : Spaced tier ((.assign, .ofList ['=']) :: (assigned.value.shapes ++ shapes)) _ :=
    .token hspelled hequals (assigned.before.spaced hvalue)
  simpa [Assigned.chars, Assigned.shapes] using hall

/-- So is a member. -/
theorem Member.spaced (member : Member) (hstops : Stops gluesNumber rest)
    (h : Spaced tier shapes rest) :
    Spaced tier (member.shapes ++ shapes) (member.chars ++ rest) := by
  have hname : Stops isNameChar rest := hstops.of_gluesNumber fun c hc => by simp [gluesNumber, hc]
  have htail : Spaced tier ((member.assigned.map Assigned.shapes).getD [] ++ shapes)
      ((member.assigned.map Assigned.chars).getD [] ++ rest) := by
    rcases member.assigned with _ | assigned
    · exact h
    · exact assigned.spaced hstops h
  have hnext : Stops isNameChar (member.after.chars ++
      ((member.assigned.map Assigned.chars).getD [] ++ rest)) := by
    refine member.after.stops (fun _ => isNameChar_of_isBlank) ?_
    rcases member.assigned with _ | assigned
    · exact hname
    · exact stops_cons (by decide) _
  have hall := member.before.spaced (member.name.spaced hnext (member.after.spaced htail))
  simpa [Member.chars, Member.tail, Member.shapes] using hall

/-- What is written between commas. -/
theorem spaced_joined {ι : Type} {chars : ι → List Char} {tokens : ι → List (Kind × String)}
    {list : List ι}
    (hitem : ∀ item ∈ list, ∀ (shapes : List (Kind × String)) (rest : List Char),
      Stops gluesNumber rest → Spaced tier shapes rest →
        Spaced tier (tokens item ++ shapes) (chars item ++ rest))
    (hstops : Stops gluesNumber rest) (h : Spaced tier shapes rest) :
    Spaced tier (joined (.comma, .ofList [',']) (list.map tokens) ++ shapes)
      (joined ',' (list.map chars) ++ rest) := by
  induction list with
  | nil => exact h
  | cons item others ih =>
    rw [List.forall_mem_cons] at hitem
    cases others with
    | nil => exact hitem.1 shapes rest hstops h
    | cons next others =>
      have hrest := @spaced_mark tier _ _ .comma ',' (by decide) (by decide) (by decide)
        (by decide) (ih hitem.2)
      have hall := hitem.1 _ _ (stops_cons (by decide) _) hrest
      simpa [joined] using hall

namespace Declaration

variable (declaration : Declaration)

/-- The body of a declaration is read entry by entry. -/
theorem spaced_body (hstops : Stops gluesNumber rest) (h : Spaced tier shapes rest) :
    Spaced tier (joined (.comma, .ofList [',']) declaration.entryShapes ++ shapes)
      (declaration.body ++ rest) := by
  let list : List (Member ⊕ Blanks) :=
    declaration.members.map .inl ++ (declaration.ending.map .inr).toList
  have hchars : declaration.entries = list.map (Sum.elim Member.chars Blanks.chars) := by
    simp [list, entries, Function.comp_def]
    cases declaration.ending <;> rfl
  have hshapes : declaration.entryShapes = list.map (Sum.elim Member.shapes fun _ => []) := by
    simp [list, entryShapes, Function.comp_def]
    cases declaration.ending <;> rfl
  rw [body, hchars, hshapes]
  refine spaced_joined (fun item _ shapes rest hstops h => ?_) hstops h
  rcases item with member | blanks
  · exact member.spaced hstops h
  · exact blanks.spaced h

/-- A plain declaration is written with its tokens and white space. -/
theorem spaced : Spaced tier declaration.shapes declaration.chars := by
  have hclose : Spaced tier [(.rightBrace, .ofList ['\x7d'])] ['\x7d'] :=
    spaced_mark (by decide) (by decide) (by decide) (by decide) .nil
  have hbody := declaration.spaced_body (stops_cons (by decide) []) hclose
  have hopen := @spaced_mark tier _ _ .leftBrace '\x7b' (by decide) (by decide) (by decide)
    (by decide) hbody
  have hname := declaration.name.spaced (declaration.stops_space (fun _ => isNameChar_of_isBlank)
    (by decide) _) (declaration.space.spaced hopen)
  have hgap : Stops isNameChar declaration.tail :=
    declaration.stops_tail fun _ => isNameChar_of_isBlank
  have hword : Spelled tier .kwEnum (.ofList ['e', 'n', 'u', 'm']) ['e', 'n', 'u', 'm'] isNameChar :=
    @spelled_word tier 'e' ['n', 'u', 'm'] (.inl (by decide)) (List.all_eq_true.1 rfl)
  exact .token hword hgap (declaration.gap.spaced hname)

end Declaration

/-! ### Numbers -/

namespace Value

variable (value : Value)

/-- The number without its sign. -/
def size : Nat :=
  numberOf value.base.size value.digits

/-- A value is not too large. -/
theorem size_lt : value.size < 9223372036854775808 := by
  have hfits := value.fits
  change (value.size : Int) ≤ 9223372036854775807 at hfits
  omega

/-- Digits are read as they should be. -/
theorem ofHexDigits?_digits (hbase : value.base.size = 16) :
    Literal.ofHexDigits? value.digits = some (.int (Int64.ofNat value.size)) := by
  have hall : value.digits.all isHexDigit = true := List.all_eq_true.2 value.isHexDigit_digits
  have hsize : ¬ UInt64.size ≤ numberOf 16 value.digits := by
    have hlt := value.size_lt
    rw [size, hbase] at hlt
    have hword : UInt64.size = 18446744073709551616 := rfl
    omega
  simp [Literal.ofHexDigits?, value.ne_nil, hall, hsize, size, hbase]

/-- Decimal digits are not taken for others. -/
theorem hexDigits?_decimal {digits : List Char} (hall : ∀ c ∈ digits, c.isDigit = true) :
    Literal.hexDigits? digits = none := by
  unfold Literal.hexDigits?
  split
  · exact absurd (hall '$' (by simp)) (by decide)
  · exact absurd (hall 'x' (by simp)) (by decide)
  · exact absurd (hall 'X' (by simp)) (by decide)
  · rfl

/-- Decimal digits are read as they should be. -/
theorem ofDecimal?_digits (hbase : value.base.size = 10)
    (hall : ∀ c ∈ value.digits, c.isDigit = true) :
    Literal.ofDecimal? value.digits = some (.int (Int64.ofNat value.size)) := by
  have hwhole : value.digits.takeWhile Char.isDigit = value.digits := by
    have hnil : Stops Char.isDigit [] := nofun
    have h := hnil.takeWhile_append hall
    rwa [List.append_nil] at h
  have hfits := value.fits
  rw [hbase] at hfits
  simp [Literal.ofDecimal?, hwhole, value.ne_nil, hfits, size, hbase]

/-- A number is read as what it is, without its sign. -/
theorem ofText_number :
    Literal.ofText (.ofList value.number) = .ok (.int (Int64.ofNat value.size)) := by
  unfold Literal.ofText
  rw [String.toList_ofList]
  rcases hbase : value.base with _ | _ | _ | _
  · have hnumber : value.number = value.digits := by simp [number, hbase, Base.mark]
    have hall : ∀ c ∈ value.digits, c.isDigit = true := by
      intro c hc
      have h := value.all c hc
      rwa [hbase] at h
    rw [hnumber, hexDigits?_decimal hall, value.ofDecimal?_digits (by rw [hbase]; rfl) hall]
  all_goals
    have hhex : Literal.hexDigits? value.number = some value.digits := by
      simp [number, hbase, Base.mark, Literal.hexDigits?]
    rw [hhex]
    dsimp only
    rw [value.ofHexDigits?_digits (by rw [hbase]; rfl)]

/-- A size stays positive. -/
theorem toInt_size : (Int64.ofNat value.size).toInt = value.size :=
  Int64.toInt_ofNat_of_lt value.size_lt

/-- A number with its sign is the constant that it stands for. -/
theorem constant_negated : Constant.unary? (Int64.ofNat value.size) .negate =
    some (Int64.ofInt (-value.size)) := by
  have hlt := value.size_lt
  have hfits : Int64.minValue.toInt ≤ -(value.size : Int) ∧
      -(value.size : Int) ≤ Int64.maxValue.toInt := by
    change (-9223372036854775808 : Int) ≤ _ ∧ _ ≤ (9223372036854775807 : Int)
    omega
  change Constant.fit? (-(Int64.ofNat value.size).toInt) = _
  rw [toInt_size, Constant.fit?, if_pos hfits]

/-- The expression that a number is read as. -/
def node : Node :=
  if value.negative then .unary default .negate (.int default (Int64.ofNat value.size))
  else .int default (Int64.ofNat value.size)

/-- Only a number is a number. -/
theorem exists_int_of_unplaced {node : Node} {n : Int64}
    (h : node.unplaced = (Node.int default n).unplaced) : ∃ position, node = .int position n := by
  cases node with
  | int position m =>
    simp only [Node.unplaced, Node.int.injEq, true_and] at h
    exact ⟨position, by rw [h]⟩
  | _ => simp [Node.unplaced] at h

/-- Wherever a number stands, it is a constant. -/
theorem constant?_of_unplaced {node : Node} (h : node.unplaced = value.node.unplaced)
    (constants : Constants) : node.constant? constants = some value.toInt64 := by
  unfold Value.node at h
  unfold toInt64
  split at h
  next hnegative =>
    cases node with
    | unary position operator operand =>
      simp only [Node.unplaced, Node.unary.injEq, true_and] at h
      obtain ⟨rfl, hoperand⟩ := h
      obtain ⟨place, rfl⟩ := exists_int_of_unplaced hoperand
      rw [if_pos hnegative]
      exact value.constant_negated
    | _ => simp [Node.unplaced] at h
  next hnegative =>
    obtain ⟨place, rfl⟩ := exists_int_of_unplaced h
    rw [if_neg hnegative]
    rfl

/-- A value is not deep. -/
theorem depth_node : value.node.depth ≤ 1 := by
  unfold node
  split
  · exact Nat.le_refl _
  · exact Nat.zero_le _

/-- The tokens of a number are a written form of it. -/
theorem written {tokens : List Token} (h : tokens.map Token.shape = value.shapes) :
    value.node.Written 0 tokens := by
  have hnumber : ∀ {level : Nat} {token : Token},
      token.shape = (.number, .ofList value.number) →
      (Node.int default (Int64.ofNat value.size)).Written level [token] := by
    intro level token hshape
    obtain ⟨hkind, hvalue⟩ := Prod.mk.inj hshape
    have hread : Literal.ofText token.value = .ok (.int (Int64.ofNat value.size)) := by
      rw [hvalue, ofText_number]
    exact .number hkind hread
  unfold shapes at h
  unfold node
  split at h
  next hnegative =>
    obtain ⟨sign, others, rfl, hsign, hothers⟩ := List.map_eq_cons_iff.1 h
    obtain ⟨token, rest, rfl, htoken, hrest⟩ := List.map_eq_cons_iff.1 hothers
    obtain rfl := List.map_eq_nil_iff.1 hrest
    rw [if_pos hnegative]
    exact .sign (Nat.zero_le _) (congrArg Prod.fst hsign) (hnumber htoken)
  next hnegative =>
    obtain ⟨token, rest, rfl, htoken, hrest⟩ := List.map_eq_cons_iff.1 h
    obtain rfl := List.map_eq_nil_iff.1 hrest
    rw [if_neg hnegative]
    exact hnumber htoken

end Value

/-! ### Members -/

/-- What a declared name and its value mean: the name, and the constant that the value is. -/
def meaning (binding : Binding Node) : String × (Constants → Option (Option Int64)) :=
  (binding.name, fun constants => binding.value.map (·.constant? constants))

/-- What a member means. -/
def Member.meaning (member : Member) : String × (Constants → Option (Option Int64)) :=
  (member.name.text, fun _ => member.value?.map some)

open Parse in
/-- A member is read as it is written. -/
theorem Member.readsItem (member : Member) {tokens : List Token}
    (h : tokens.map Token.shape = member.shapes) :
    ReadsItem 1 (binding (grammar maxNesting)) tokens (Plain.meaning · = member.meaning) := by
  intro p next rest hlevel hahead hnext
  obtain ⟨name, others, rfl, hname, hothers⟩ := List.map_eq_cons_iff.1 h
  obtain ⟨hkind, hvalue⟩ := Prod.mk.inj hname
  rcases hassigned : member.assigned with _ | assigned
  · rw [hassigned] at hothers
    obtain rfl := List.map_eq_nil_iff.1 hothers
    have hne : next.kind ≠ .assign := by
      intro heq
      rw [heq] at hnext
      cases hnext
    refine ⟨_, ?_, reads_binding_bare hahead hkind hne⟩
    simp [Plain.meaning, Member.meaning, hvalue, Member.value?, hassigned]
  · rw [hassigned] at hothers
    obtain ⟨equals, number, rfl, hequals, hnumber⟩ := List.map_eq_cons_iff.1 hothers
    have hdepth := assigned.value.depth_node
    have hitem : ReadsItem 1 (grammar maxNesting).expression number _ :=
      (assigned.value.written hnumber).rereads.item (g := 127) (by omega) rfl
    obtain ⟨node, hnode, hreads⟩ := hitem (p.advance 2) next rest hlevel
      (@Parser.ahead_advance p [name, equals] _ hahead) hnext
    refine ⟨_, ?_, reads_binding_valued hahead hkind (congrArg Prod.fst hequals) hreads⟩
    have hconstant := assigned.value.constant?_of_unplaced hnode
    simp [Plain.meaning, Member.meaning, hvalue, Member.value?, hassigned, hconstant]

/-- The scan gives members the same values as the tree. -/
theorem memberValues_eq (enums : Enums) (enumeration : String) :
    ∀ {bindings : List (Binding Node)} {members : List Member},
      bindings.map meaning = members.map Member.meaning → ∀ found : Scan.Members,
        Scope.memberValues enums enumeration bindings found.next found.members =
          .ok (members.foldl (fun found member => found.put member.name.text member.value?)
            found).members := by
  intro bindings members
  induction members generalizing bindings with
  | nil =>
    intro h found
    obtain rfl := List.map_eq_nil_iff.1 h
    rfl
  | cons member members ih =>
    intro h found
    obtain ⟨binding, others, rfl, hbinding, hothers⟩ := List.map_eq_cons_iff.1 h
    obtain ⟨hname, hvalue⟩ := Prod.mk.inj hbinding
    have hconstant := congrFun hvalue { enums, values := found.members }
    have hput := ih hothers (found.put member.name.text member.value?)
    rw [List.foldl_cons, ← hput]
    rcases hmember : member.value? with _ | value
    · rw [hmember, Option.map_none, Option.map_eq_none_iff] at hconstant
      simp only [Scope.memberValues, hconstant]
      rw [hname]
      rfl
    · rw [hmember, Option.map_some, Option.map_eq_some_iff] at hconstant
      obtain ⟨expression, hexpression, hfolds⟩ := hconstant
      simp only [Scope.memberValues, hexpression, hfolds]
      rw [hname]
      rfl

open Parse in
/-- The members are read up to the closing brace. -/
theorem finishes_members {closing : Token} {rest : List Token}
    (hclosing : closing.kind = .rightBrace) (ending : Option Blanks) :
    ∀ (members : List Member) {p : Parser} {tokens : List Token} (items : List (Binding Node)),
      p.nesting = 1 →
      tokens.map Token.shape = joined (.comma, .ofList [','])
        (members.map Member.shapes ++ (ending.map fun _ => []).toList) →
      p.ahead = tokens ++ closing :: rest →
      ∃ bindings, bindings.map meaning = members.map Member.meaning ∧
        Finishes (listRound .rightBrace (binding (grammar maxNesting))) p items tokens.length
          (items.reverse ++ bindings)
  | [], p, tokens, items, _, hshapes, hahead => by
    have hnil : tokens = [] := by
      cases ending <;> exact List.map_eq_nil_iff.1 hshapes
    subst hnil
    refine ⟨[], rfl, .done ?_⟩
    rw [List.append_nil]
    exact reads_listRound_close items (by rw [Parser.head_of_ahead hahead, hclosing])
  | member :: members, p, tokens, items, hlevel, hshapes, hahead => by
    -- A member starts with a name, so the list does not end before it.
    have hopen : ∀ {front back : List Token}, front.map Token.shape = member.shapes →
        p.ahead = front ++ back → p.head.kind ≠ .rightBrace := by
      intro front back hfront hahead
      obtain ⟨name, others, rfl, hname, -⟩ := List.map_eq_cons_iff.1 hfront
      have hkind : name.kind = .identifier := congrArg Prod.fst hname
      rw [Parser.head_of_ahead hahead, hkind]
      decide
    by_cases hlast : members.map Member.shapes ++ (ending.map fun _ => []).toList = []
    · have hmembers : members = [] := by
        rw [List.append_eq_nil_iff, List.map_eq_nil_iff] at hlast
        exact hlast.1
      subst hmembers
      rw [List.map_cons, List.cons_append, hlast] at hshapes
      obtain ⟨binding, hbinding, hreads⟩ := member.readsItem hshapes p closing rest hlevel hahead
        (by rw [hclosing]; rfl)
      refine ⟨[binding], by rw [List.map_singleton, hbinding]; rfl, .done ?_⟩
      have hround := reads_separatedRound_last items hreads (Parser.ahead_advance hahead)
        (by rw [hclosing]; decide)
      rw [List.reverse_cons] at hround
      exact reads_listRound (hopen hshapes hahead) hround
    · rw [List.map_cons, List.cons_append, joined_cons hlast, List.map_eq_append_iff] at hshapes
      obtain ⟨front, back, rfl, hfront, hback⟩ := hshapes
      obtain ⟨comma, others, rfl, hcomma, hothers⟩ := List.map_eq_cons_iff.1 hback
      have hkind : comma.kind = .comma := congrArg Prod.fst hcomma
      rw [List.append_assoc, List.cons_append] at hahead
      obtain ⟨binding, hbinding, hreads⟩ := member.readsItem hfront p comma _ hlevel hahead
        (by rw [hkind]; rfl)
      have hround := reads_listRound (hopen hfront hahead)
        (reads_separatedRound_more items hreads (Parser.ahead_advance hahead) hkind)
      have hnext : (p.advance (front.length + 1)).ahead = others ++ closing :: rest := by
        rw [← Parser.advance_advance]
        exact Parser.ahead_advance_one (Parser.ahead_advance hahead)
      obtain ⟨bindings, hbindings, hfinishes⟩ := finishes_members hclosing ending members
        (p := p.advance (front.length + 1)) (binding :: items) hlevel hothers hnext
      refine ⟨binding :: bindings, by rw [List.map_cons, hbinding, hbindings]; rfl, ?_⟩
      rw [List.reverse_cons, List.append_assoc] at hfinishes
      rw [List.length_append, List.length_cons, ← Nat.add_assoc, Nat.add_right_comm]
      exact .again hround (Nat.succ_pos _) hfinishes

namespace Declaration

variable (declaration : Declaration)

/-- The tokens of a declaration. -/
theorem exists_tokens {tokens : List Token} (h : tokens.map Token.shape = declaration.shapes) :
    ∃ word name opening inside closing,
      tokens = word :: name :: opening :: (inside ++ [closing]) ∧ word.kind = .kwEnum ∧
      name.shape = (.identifier, declaration.name.text) ∧ opening.kind = .leftBrace ∧
      inside.map Token.shape = joined (.comma, .ofList [',']) declaration.entryShapes ∧
      closing.kind = .rightBrace := by
  obtain ⟨word, afterWord, rfl, hword, hafterWord⟩ := List.map_eq_cons_iff.1 h
  obtain ⟨name, afterName, rfl, hname, hafterName⟩ := List.map_eq_cons_iff.1 hafterWord
  obtain ⟨opening, others, rfl, hopening, hothers⟩ := List.map_eq_cons_iff.1 hafterName
  obtain ⟨inside, back, rfl, hinside, hback⟩ := List.map_eq_append_iff.1 hothers
  obtain ⟨closing, rest, rfl, hclosing, hrest⟩ := List.map_eq_cons_iff.1 hback
  obtain rfl := List.map_eq_nil_iff.1 hrest
  exact ⟨word, name, opening, inside, closing, rfl, congrArg Prod.fst hword, hname,
    congrArg Prod.fst hopening, hinside, congrArg Prod.fst hclosing⟩

open Parse in
/-- The tokens of a plain declaration are read as it is written. -/
theorem ofTokens_of_shapes {tokens : List Token} {last : Token}
    (h : tokens.map Token.shape = declaration.shapes) (hlast : last.kind = .endOfFile) :
    ∃ position members, members.map meaning = declaration.members.map Member.meaning ∧
      Script.ofTokens (tokens ++ [last]) =
        .ok ⟨[.declareEnum position declaration.name.text members]⟩ := by
  obtain ⟨word, name, opening, inside, closing, rfl, hword, hname, hopening, hinside, hclosing⟩ :=
    declaration.exists_tokens h
  obtain ⟨hname, hvalue⟩ := Prod.mk.inj hname
  let tokens := word :: name :: opening :: (inside ++ [closing])
  let p : Parser := { Parser.ofTokens (tokens ++ [last]) with nesting := 1 }
  have hahead : p.ahead = word :: name :: opening :: (inside ++ closing :: [last]) := by
    simp [p, tokens, Parser.ahead, Parser.ofTokens]
  have hrest : (p.advance 3).ahead = inside ++ closing :: [last] :=
    @Parser.ahead_advance p [word, name, opening] _ hahead
  obtain ⟨members, hmembers, hfinishes⟩ :=
    finishes_members hclosing declaration.ending declaration.members [] rfl hinside hrest
  have hlist : Reads (p.advance 3) (listUntil .rightBrace (binding (grammar maxNesting)))
      inside.length members := hfinishes.loop (by rw [hrest, List.length_append]; omega)
  have hreads := reads_enumeration hahead hword hname hopening hclosing hlast hlist
  have hstatement : Reads (.ofTokens (tokens ++ [last])) Parser.statement (inside.length + 4) _ :=
    reads_nested (by decide : 0 < maxNesting) (reads_statement_enumeration hword hreads)
  have hcount : tokens.length = inside.length + 4 := by simp [tokens]
  refine ⟨word.position, members, hmembers, Script.ofTokens_of_reads ?_ hlast ?_⟩
  · rw [hword]
    decide
  · rw [← hvalue, hcount]
    exact hstatement

/-- The members of a plain declaration have the same values in every scope. -/
theorem run_declareEnum {members : List (Binding Node)}
    (h : members.map meaning = declaration.members.map Member.meaning) (scope : Scope) :
    (Resolve.declareEnum declaration.name.text members).run scope =
      .ok (declaration.found.members,
        { scope with
          enums := scope.enums.insert declaration.name.text declaration.found.members }) := by
  have hvalues : Scope.memberValues scope.enums declaration.name.text members 0 {} =
      .ok declaration.found.members := memberValues_eq _ _ h {}
  change ((Scope.memberValues scope.enums declaration.name.text members 0 {}).bind fun values =>
    .ok (values, scope)).bind _ = _
  rw [hvalues]
  rfl

/-- A plain declaration is read in every tier, and the values that its members have in every scope
are those that a scan of the text finds. -/
theorem scan_agrees (tier : Nat) : ∃ position members values,
    Script.parse declaration.text tier =
      .ok ⟨[.declareEnum position declaration.name.text members]⟩ ∧
    (∀ scope : Scope, (Resolve.declareEnum declaration.name.text members).run scope =
      .ok (values, { scope with enums := scope.enums.insert declaration.name.text values })) ∧
    ∀ scan : Scan, (scan.addText declaration.text).enums =
      scan.enums.insert declaration.name.text values := by
  have hspaced : Spaced tier declaration.shapes declaration.text.toList := by
    rw [text, String.toList_ofList]
    exact declaration.spaced
  obtain ⟨tokens, last, hshapes, hlast, htokens⟩ := tokenize_of_spaced hspaced
  obtain ⟨position, members, hmembers, hparse⟩ := declaration.ofTokens_of_shapes hshapes hlast
  refine ⟨position, members, declaration.found.members, ?_, declaration.run_declareEnum hmembers,
    declaration.enums_addText⟩
  rw [Script.parse, htokens]
  exact hparse

/-- The value of the second member is written out, and the third counts on from it. -/
theorem scan_agrees_mixed : ∃ declaration : Declaration,
    declaration.text = "enum N \x7b A, B = -5, C , \x7d" ∧ ∃ position members values,
      Script.parse declaration.text 0 =
        .ok ⟨[.declareEnum position declaration.name.text members]⟩ ∧
      (∀ scope : Scope, (Resolve.declareEnum declaration.name.text members).run scope =
        .ok (values, { scope with enums := scope.enums.insert declaration.name.text values })) ∧
      ∀ scan : Scan, (scan.addText declaration.text).enums =
        scan.enums.insert declaration.name.text values := by
  let nothing : Blanks := ⟨[], List.forall_mem_nil _⟩
  let space : Blanks := ⟨[' '], List.forall_mem_singleton.2 rfl⟩
  let minusFive : Value := ⟨true, .decimal, ['5'], by decide, List.forall_mem_singleton.2 rfl,
    by decide⟩
  let declaration : Declaration :=
    { gap := space
      gap_ne_nil := by decide
      name := ⟨'N', [], by decide, List.forall_mem_nil _, by decide⟩
      space := space
      members :=
        [⟨space, ⟨'A', [], by decide, List.forall_mem_nil _, by decide⟩, nothing, none⟩,
          ⟨space, ⟨'B', [], by decide, List.forall_mem_nil _, by decide⟩, space,
            some ⟨space, minusFive, nothing⟩⟩,
          ⟨space, ⟨'C', [], by decide, List.forall_mem_nil _, by decide⟩, space, none⟩]
      ending := some space }
  exact ⟨declaration, by decide, declaration.scan_agrees 0⟩

end Declaration

end Plain

/-- A sum is no plain value: the scan passes over its member, and the next one is the first. -/
theorem Scan.enums_of_sum : ∃ script scope,
    Script.parse "enum N \x7b A = 1 + 2, B \x7d" 0 = .ok script ∧
    (Script.declareEnums script.body).run {} = .ok ((), scope) ∧
    scope.enums = ⟨[("N", ⟨[("A", 3), ("B", 4)]⟩)]⟩ ∧
    (Scan.addText {} "enum N \x7b A = 1 + 2, B \x7d").enums = ⟨[("N", ⟨[("B", 0)]⟩)]⟩ := by
  obtain ⟨script, hparse, hscript⟩ := exists_ok_of_any
    (p := fun script => ((Script.declareEnums script.body).run {}).toOption.any
      (·.2.enums = ⟨[("N", ⟨[("A", 3), ("B", 4)]⟩)]⟩))
    (x := Script.parse "enum N \x7b A = 1 + 2, B \x7d" 0) (by decide +kernel)
  obtain ⟨⟨_, scope⟩, hrun, henums⟩ := exists_ok_of_any hscript
  exact ⟨script, scope, hparse, hrun, of_decide_eq_true henums, by decide +kernel⟩

end Gml
