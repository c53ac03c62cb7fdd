import Gml.Proofs.Token.Layout
import Gml.Scan

/-!
# Plain declarations of enumerations

A declaration is plain if each of its members is a name, alone or with a whole number that is
written out, in decimal or in hexadecimal, with or without a minus sign. White space may stand
around the names and numbers, and a comma after the last member.

A scan reads a plain declaration as it is written: `Plain.Declaration.enums_addText` says what it
finds.
-/

namespace Gml

open Text Lexeme

namespace Plain

/-! ### Declarations -/

/-- White space. -/
structure Blanks where
  chars : List Char
  blank : ∀ c ∈ chars, isBlank c = true

/-- A name, which is no word of the language. -/
structure Name where
  first : Char
  more : List Char
  starts : first.isAlpha = true ∨ first = '_'
  goesOn : ∀ c ∈ more, isNameChar c = true
  free : Kind.ofWord? (.ofList (first :: more)) = none

/-- The characters of a name. -/
def Name.chars (name : Name) : List Char :=
  name.first :: name.more

/-- A name as a text. -/
def Name.text (name : Name) : String :=
  .ofList name.chars

/-- The base of a number, told by what stands before its digits. -/
inductive Base where
  | decimal
  | dollar
  | lowerX
  | upperX
  deriving DecidableEq, Repr

namespace Base

/-- What stands before the digits. -/
def mark : Base → List Char
  | decimal => []
  | dollar => ['$']
  | lowerX => ['0', 'x']
  | upperX => ['0', 'X']

/-- The base as a number. -/
def size : Base → Nat
  | decimal => 10
  | _ => 16

/-- Whether a character is a digit. -/
def isDigit : Base → Char → Bool
  | decimal => Char.isDigit
  | _ => isHexDigit

end Base

/-- A whole number of 63 bits, with or without a minus sign. -/
structure Value where
  negative : Bool
  base : Base
  digits : List Char
  ne_nil : digits ≠ []
  all : ∀ c ∈ digits, base.isDigit c = true
  fits : (numberOf base.size digits : Int) ≤ Int64.maxValue.toInt

namespace Value

/-- A number without its sign. -/
def number (value : Value) : List Char :=
  value.base.mark ++ value.digits

/-- The characters of a number. -/
def chars (value : Value) : List Char :=
  if value.negative then '-' :: value.number else value.number

/-- The number that it is. -/
def toInt64 (value : Value) : Int64 :=
  let size := numberOf value.base.size value.digits
  if value.negative then Int64.ofInt (-size) else Int64.ofNat size

end Value

/-- A number after an equals sign, with white space around it. -/
structure Assigned where
  before : Blanks
  value : Value
  after : Blanks

/-- The characters from the equals sign on. -/
def Assigned.chars (assigned : Assigned) : List Char :=
  '=' :: (assigned.before.chars ++ (assigned.value.chars ++ assigned.after.chars))

/-- A member, with white space around it. -/
structure Member where
  before : Blanks
  name : Name
  after : Blanks
  assigned : Option Assigned

namespace Member

/-- What comes after the name. -/
def tail (member : Member) : List Char :=
  member.after.chars ++ (member.assigned.map Assigned.chars).getD []

/-- The characters of a member. -/
def chars (member : Member) : List Char :=
  member.before.chars ++ (member.name.chars ++ member.tail)

/-- The value that a member is given. -/
def value? (member : Member) : Option Int64 :=
  member.assigned.map (·.value.toInt64)

end Member

/-- Lists with a comma between any two of them. -/
def joined {α : Type} (comma : α) : List (List α) → List α
  | [] => []
  | [entry] => entry
  | entry :: next :: rest => entry ++ comma :: joined comma (next :: rest)

/-- A comma stands before the next entry. -/
theorem joined_cons {α : Type} {comma : α} {entry : List α} {list : List (List α)}
    (h : list ≠ []) : joined comma (entry :: list) = entry ++ comma :: joined comma list := by
  obtain ⟨next, rest, rfl⟩ := List.exists_cons_of_ne_nil h
  rfl

/-- A plain declaration of an enumeration. -/
structure Declaration where
  /-- White space after the first word. -/
  gap : Blanks
  gap_ne_nil : gap.chars ≠ []
  /-- The name. -/
  name : Name
  /-- White space after the name. -/
  space : Blanks
  /-- The members. -/
  members : List Member
  /-- White space after the last comma, if one comes after the last member. -/
  ending : Option Blanks

namespace Declaration

/-- The parts between commas. -/
def entries (declaration : Declaration) : List (List Char) :=
  declaration.members.map Member.chars ++ (declaration.ending.map Blanks.chars).toList

/-- What stands between the braces. -/
def body (declaration : Declaration) : List Char :=
  joined ',' declaration.entries

/-- The characters after the first word. -/
def tail (declaration : Declaration) : List Char :=
  declaration.gap.chars ++ (declaration.name.chars ++
    (declaration.space.chars ++ '\x7b' :: (declaration.body ++ ['\x7d'])))

/-- The characters of a declaration. -/
def chars (declaration : Declaration) : List Char :=
  ['e', 'n', 'u', 'm'] ++ declaration.tail

/-- A declaration as a text. -/
def text (declaration : Declaration) : String :=
  .ofList declaration.chars

end Declaration

end Plain

/-! ### Words -/

/-- A name is made of word characters. -/
theorem isWord_of_isNameChar {c : Char} (h : isNameChar c = true) : isWord c = true :=
  of_ascii (P := fun c => isNameChar c = true → isWord c = true) (by decide +kernel)
    (toNat_lt_of_isNameChar h) h

/-- Ranges that are apart share no character. -/
theorem not_contains_of_apart {ranges others : List Range} {code : Nat}
    (h : ∀ range ∈ ranges, ∀ other ∈ others, range.2 < other.1 ∨ other.2 < range.1)
    (hcode : Range.contains ranges code = true) : Range.contains others code = false := by
  by_cases hother : Range.contains others code = true
  · obtain ⟨range, hrange, hlow, hhigh⟩ := Range.contains_iff_member.1 hcode
    obtain ⟨other, hmem, hlow', hhigh'⟩ := Range.contains_iff_member.1 hother
    rcases h range hrange other hmem with hlt | hlt
    · omega
    · omega
  · exact Bool.eq_false_iff.2 hother

/-- A blank is no word character. -/
theorem isWord_of_isBlank {c : Char} (h : isBlank c = true) : isWord c = false :=
  not_contains_of_apart (by decide +kernel) h

/-- Nor is it a digit. -/
theorem isDigit_of_isBlank {c : Char} (h : isBlank c = true) : Text.isDigit c = false :=
  not_contains_of_apart (by decide +kernel) h

/-- A digit is a digit in every sense. -/
theorem isDigit_of_isDigit {c : Char} (h : c.isDigit = true) : Text.isDigit c = true :=
  of_ascii (P := fun c => c.isDigit = true → Text.isDigit c = true) (by decide +kernel)
    (toNat_lt_of_isNameChar (isNameChar_of_isHexDigit (isHexDigit_of_isDigit h))) h

/-- A run of characters is dropped. -/
theorem Stops.dropWhile_append {p : Char → Bool} {chars rest : List Char} (h : Stops p rest)
    (hall : ∀ c ∈ chars, p c = true) : (chars ++ rest).dropWhile p = rest := by
  rw [List.dropWhile_append_of_pos hall]
  cases rest with
  | nil => rfl
  | cons c rest => simp [h c rfl]

namespace Plain

variable {p : Char → Bool} {rest : List Char}

/-- Blanks may come first. -/
theorem Blanks.stops (blanks : Blanks) (hp : ∀ c, isBlank c = true → p c = false)
    (h : Stops p rest) : Stops p (blanks.chars ++ rest) := by
  obtain ⟨chars, hblank⟩ := blanks
  cases chars with
  | nil => exact h
  | cons c chars =>
    rintro _ ⟨⟩
    exact hp c (hblank c List.mem_cons_self)

/-- Blanks are skipped. -/
theorem Blanks.skip (blanks : Blanks) (h : Stops isBlank rest) :
    Scan.skipBlanks (blanks.chars ++ rest) = rest :=
  h.dropWhile_append blanks.blank

/-- One character stops it. -/
theorem stops_cons {c : Char} (h : p c = false) (rest : List Char) : Stops p (c :: rest) := by
  rintro _ ⟨⟩
  exact h

namespace Name

variable (name : Name)

/-- A name starts with a name character. -/
theorem isNameChar_first : isNameChar name.first = true := by
  rcases name.starts with h | h
  · simp [isNameChar, Char.isAlphanum, h]
  · simp [isNameChar, h]

/-- A name stops blanks. -/
theorem stops_blank (rest : List Char) : Stops isBlank (name.chars ++ rest) :=
  stops_cons (isBlank_of_isNameChar name.isNameChar_first) _

/-- A name is found where it starts. -/
theorem name?_append (h : Stops isWord rest) :
    Scan.name? (name.chars ++ rest) = some (name.chars, rest) := by
  have hstarts : Scan.startsName name.first = true := by
    simpa [Scan.startsName] using name.starts
  have hword : ∀ c ∈ name.more, isWord c = true := fun c hc =>
    isWord_of_isNameChar (name.goesOn c hc)
  simp only [chars, List.cons_append, Scan.name?, hstarts, if_true, h.takeWhile_append hword,
    h.dropWhile_append hword]

end Name

namespace Value

variable (value : Value)

/-- A number as the scan knows it. -/
def literal : Scan.Literal :=
  { negative := value.negative, base := value.base.size, digits := value.digits }

/-- The digits of a number are digits. -/
theorem isHexDigit_digits : ∀ c ∈ value.digits, isHexDigit c = true := by
  intro c hc
  have h := value.all c hc
  rcases hbase : value.base with _ | _ | _ | _ <;> rw [hbase] at h
  · exact isHexDigit_of_isDigit h
  all_goals exact h

/-- A literal has its value. -/
theorem value?_literal : value.literal.value? = some value.toInt64 := by
  have hall : value.digits.all isHexDigit = true := List.all_eq_true.2 value.isHexDigit_digits
  have hdigits : (guard (value.literal.digits.all isHexDigit = true) : Option Unit) = some () :=
    if_pos hall
  have hfits : (guard ((numberOf value.literal.base value.literal.digits : Int) ≤
      Int64.maxValue.toInt) : Option Unit) = some () := if_pos value.fits
  rw [Scan.Literal.value?, hdigits, Option.bind_eq_bind, Option.bind_some]
  dsimp only
  rw [hfits]
  rfl

end Value

/-- The literal that a text without a sign is. -/
def unsigned? (negative : Bool) (text : List Char) : Option Scan.Literal :=
  match text with
  | '$' :: rest | '0' :: 'x' :: rest | '0' :: 'X' :: rest =>
    (Scan.digits? isHexDigit rest).map fun digits => { negative, base := 16, digits }
  | text => (Scan.digits? Text.isDigit text).map fun digits => { negative, base := 10, digits }

/-- A minus sign comes first. -/
theorem literal?_minus (text : List Char) : Scan.literal? ('-' :: text) = unsigned? true text := rfl

/-- Without one a number is positive. -/
theorem literal?_unsigned {text : List Char} (h : Stops (· = '-') text) :
    Scan.literal? text = unsigned? false text := by
  unfold Scan.literal?
  split
  next negative others hsign =>
    split at hsign
    · simpa using h '-' rfl
    · cases hsign
      rfl

/-- Digits are found before blanks. -/
theorem digits?_append {digits : List Char} (hsome : digits ≠ []) (hall : ∀ c ∈ digits, p c = true)
    (hp : ∀ c, isBlank c = true → p c = false) (blanks : Blanks) :
    Scan.digits? p (digits ++ blanks.chars) = some digits := by
  have hstops : Stops p blanks.chars := by
    intro c hc
    exact hp c (blanks.blank c (List.mem_of_mem_head? hc))
  have hblank : blanks.chars.all isBlank = true := List.all_eq_true.2 blanks.blank
  have hguard : (guard ((!digits.isEmpty && blanks.chars.all isBlank) = true) : Option Unit) =
      some () := if_pos (by simp [hsome, hblank])
  rw [Scan.digits?, hstops.takeWhile_append hall, hstops.dropWhile_append hall, hguard]
  rfl

/-- A blank is no digit of any base. -/
theorem isHexDigit_of_isBlank {c : Char} (h : isBlank c = true) : isHexDigit c = false := by
  by_cases hhex : isHexDigit c = true
  · rw [isBlank_of_isHexDigit hhex] at h
    cases h
  · exact Bool.eq_false_iff.2 hhex

/-- Digits that no mark stands before are decimal. -/
theorem unsigned?_decimal {text : List Char}
    (h : ∀ c ∈ text, c.isDigit = true ∨ isBlank c = true) (negative : Bool) :
    unsigned? negative text =
      (Scan.digits? Text.isDigit text).map fun digits => { negative, base := 10, digits } := by
  unfold unsigned?
  split
  · exact absurd (h '$' (by simp)) (by decide)
  · exact absurd (h 'x' (by simp)) (by decide)
  · exact absurd (h 'X' (by simp)) (by decide)
  · rfl

namespace Value

variable (value : Value)

/-- A number has few kinds of characters. -/
theorem mem_number {c : Char} (hc : c ∈ value.number) : isNameChar c = true ∨ c = '$' := by
  rcases List.mem_append.1 hc with hmark | hdigit
  · have htable : ∀ base : Base, (base.mark.all fun c => isNameChar c || c == '$') = true := by
      intro base
      cases base <;> rfl
    simpa using List.all_eq_true.1 (htable value.base) c hmark
  · exact .inl (isNameChar_of_isHexDigit (value.isHexDigit_digits c hdigit))

/-- A number is not empty. -/
theorem number_ne_nil : value.number ≠ [] := by
  simp [number, value.ne_nil]

/-- A number starts with what neither a sign nor white space is. -/
theorem stops_number (hname : ∀ c, isNameChar c = true → p c = false) (hdollar : p '$' = false)
    (rest : List Char) : Stops p (value.number ++ rest) := by
  obtain ⟨c, more, hnumber⟩ := List.exists_cons_of_ne_nil value.number_ne_nil
  have hc : c ∈ value.number := by simp [hnumber]
  rw [hnumber]
  refine stops_cons ?_ _
  rcases value.mem_number hc with h | rfl
  · exact hname c h
  · exact hdollar

/-- A number is read with its base. -/
theorem unsigned?_number (negative : Bool) (blanks : Blanks) :
    unsigned? negative (value.number ++ blanks.chars) =
      some { negative, base := value.base.size, digits := value.digits } := by
  have hhex := digits?_append value.ne_nil value.isHexDigit_digits (fun _ => isHexDigit_of_isBlank)
    blanks
  unfold number
  rcases hbase : value.base with _ | _ | _ | _
  · have hall : ∀ c ∈ value.digits, c.isDigit = true := by
      intro c hc
      have h := value.all c hc
      rwa [hbase] at h
    have hdigits := digits?_append value.ne_nil (fun c hc => isDigit_of_isDigit (hall c hc))
      (fun _ => isDigit_of_isBlank) blanks
    have hplain : ∀ c ∈ value.digits ++ blanks.chars, c.isDigit = true ∨ isBlank c = true := by
      intro c hc
      exact (List.mem_append.1 hc).imp (hall c) (blanks.blank c)
    change unsigned? negative (value.digits ++ blanks.chars) = _
    rw [unsigned?_decimal hplain, hdigits]
    rfl
  all_goals
    change (Scan.digits? isHexDigit (value.digits ++ blanks.chars)).map _ = _
    rw [hhex]
    rfl

/-- A number is found with its sign. -/
theorem literal?_append (blanks : Blanks) :
    Scan.literal? (value.chars ++ blanks.chars) = some value.literal := by
  rcases hnegative : value.negative with _ | _
  · have hchars : value.chars = value.number := by simp [chars, hnegative]
    have hstops : Stops (· = '-') (value.number ++ blanks.chars) := by
      refine value.stops_number (fun c hc => ?_) (by decide) _
      by_cases hminus : c = '-'
      · subst hminus
        exact absurd hc (by decide)
      · simp [hminus]
    rw [hchars, literal?_unsigned hstops, unsigned?_number]
    simp [literal, hnegative]
  · have hchars : value.chars = '-' :: value.number := by simp [chars, hnegative]
    rw [hchars, List.cons_append, literal?_minus, unsigned?_number]
    simp [literal, hnegative]

end Value

/-- A value stops what it cannot start with. -/
theorem Value.stops (value : Value) (hname : ∀ c, isNameChar c = true → p c = false)
    (hdollar : p '$' = false) (hminus : p '-' = false) (rest : List Char) :
    Stops p (value.chars ++ rest) := by
  unfold chars
  split
  · exact stops_cons hminus _
  · exact value.stops_number hname hdollar rest

namespace Member

variable (member : Member)

/-- So does the rest of a member. -/
theorem stops_tail (hp : ∀ c, isBlank c = true → p c = false) (hequals : p '=' = false) :
    Stops p member.tail := by
  unfold tail
  refine member.after.stops hp ?_
  rcases member.assigned with _ | assigned
  · exact nofun
  · exact stops_cons hequals _

/-- A member is found, with the literal that it is given. -/
theorem member?_chars : Scan.member? member.chars =
    some (member.name.text, member.assigned.map (·.value.literal)) := by
  have hname := member.name.name?_append (member.stops_tail (fun _ => isWord_of_isBlank)
    (by decide +kernel))
  have hblank : Stops isBlank ((member.assigned.map Assigned.chars).getD []) := by
    rcases member.assigned with _ | assigned
    · exact nofun
    · exact stops_cons (by decide) _
  have hskip : Scan.skipBlanks member.chars = member.name.chars ++ member.tail :=
    member.before.skip (member.name.stops_blank _)
  have htail : Scan.skipBlanks member.tail = (member.assigned.map Assigned.chars).getD [] :=
    member.after.skip hblank
  unfold Scan.member?
  rw [hskip, hname]
  simp only [Option.bind_eq_bind, Option.bind_some, htail]
  rcases member.assigned with _ | assigned
  · rfl
  · have hliteral : Scan.literal? (Scan.skipBlanks (assigned.before.chars ++
        (assigned.value.chars ++ assigned.after.chars))) = some assigned.value.literal := by
      have hstops := assigned.value.stops (fun _ => isBlank_of_isNameChar) (by decide) (by decide)
        assigned.after.chars
      rw [assigned.before.skip hstops, assigned.value.literal?_append]
    change ((Scan.literal? (Scan.skipBlanks (assigned.before.chars ++
        (assigned.value.chars ++ assigned.after.chars)))).bind fun literal =>
      some (String.ofList member.name.chars, some literal)) = _
    rw [hliteral]
    rfl

end Member

end Plain

namespace Scan.Members

/-- Adds a member with its value, or the next one. -/
def put (found : Members) (name : String) (value : Option Int64) : Members :=
  { members := found.members.insert name (value.getD found.next)
    next := value.getD found.next + 1 }

/-- A member is added. -/
theorem add_member (found : Members) (member : Plain.Member) :
    found.add member.chars = found.put member.name.text member.value? := by
  unfold add
  rw [member.member?_chars]
  rcases hassigned : member.assigned with _ | assigned
  · simp [put, Plain.Member.value?, hassigned]
  · simp [put, Plain.Member.value?, hassigned, assigned.value.value?_literal]

/-- White space alone is no member. -/
theorem add_blanks (found : Members) (blanks : Plain.Blanks) : found.add blanks.chars = found := by
  have hskip : skipBlanks blanks.chars = [] := by
    have hnil : Stops isBlank [] := nofun
    have h := blanks.skip hnil
    rwa [List.append_nil] at h
  have hnone : member? blanks.chars = none := by
    unfold member?
    rw [hskip]
    rfl
  unfold add
  rw [hnone]

end Scan.Members

namespace Plain

/-! ### Parts between commas -/

/-- A character is put before the first entry. -/
theorem entries_cons {c : Char} {text entry : List Char} {more : List (List Char)} (hne : c ≠ ',')
    (h : Scan.entries text = entry :: more) :
    Scan.entries (c :: text) = (c :: entry) :: more := by
  rw [Scan.entries, h]
  exact hne

/-- The text before a comma is a part of its own. -/
theorem entries_append {entry : List Char} (h : ',' ∉ entry) (rest : List Char) :
    Scan.entries (entry ++ ',' :: rest) = entry :: Scan.entries rest := by
  induction entry with
  | nil => rfl
  | cons c entry ih =>
    rw [List.mem_cons, not_or] at h
    exact entries_cons (Ne.symm h.1) (ih h.2)

/-- One entry. -/
theorem entries_single {entry : List Char} (h : ',' ∉ entry) : Scan.entries entry = [entry] := by
  induction entry with
  | nil => rfl
  | cons c entry ih =>
    rw [List.mem_cons, not_or] at h
    exact entries_cons (Ne.symm h.1) (ih h.2)

/-- Entries that are joined are taken apart. -/
theorem entries_joined : ∀ {list : List (List Char)}, list ≠ [] → (∀ entry ∈ list, ',' ∉ entry) →
    Scan.entries (joined ',' list) = list
  | [entry], _, h => entries_single (h entry List.mem_cons_self)
  | entry :: next :: rest, _, h => by
    rw [joined, entries_append (h entry List.mem_cons_self),
      entries_joined (List.cons_ne_nil next rest) fun other hother =>
        h other (List.mem_cons_of_mem _ hother)]

/-! ### What a declaration is written with -/

/-- The characters of a plain member. -/
def IsOrdinary (c : Char) : Prop :=
  isBlank c = true ∨ isNameChar c = true ∨ c ∈ ['=', '-', '$']

instance : DecidablePred IsOrdinary := fun c =>
  inferInstanceAs (Decidable (isBlank c = true ∨ isNameChar c = true ∨ c ∈ ['=', '-', '$']))

/-- Names are ordinary. -/
theorem Name.isOrdinary (name : Name) : ∀ c ∈ name.chars, IsOrdinary c :=
  List.forall_mem_cons.2
    ⟨.inr (.inl name.isNameChar_first), fun c hc => .inr (.inl (name.goesOn c hc))⟩

/-- Blanks are ordinary. -/
theorem Blanks.isOrdinary (blanks : Blanks) : ∀ c ∈ blanks.chars, IsOrdinary c :=
  fun c hc => .inl (blanks.blank c hc)

/-- Values are ordinary. -/
theorem Value.isOrdinary (value : Value) : ∀ c ∈ value.chars, IsOrdinary c := by
  have hnumber : ∀ c ∈ value.number, IsOrdinary c := by
    intro c hc
    rcases value.mem_number hc with h | rfl
    · exact .inr (.inl h)
    · decide
  unfold chars
  split
  · exact List.forall_mem_cons.2 ⟨by decide, hnumber⟩
  · exact hnumber

/-- Members are ordinary. -/
theorem Member.isOrdinary (member : Member) : ∀ c ∈ member.chars, IsOrdinary c := by
  have hassigned : ∀ c ∈ (member.assigned.map Assigned.chars).getD [], IsOrdinary c := by
    rcases member.assigned with _ | assigned
    · exact List.forall_mem_nil _
    · refine List.forall_mem_cons.2 ⟨by decide, ?_⟩
      simp only [List.forall_mem_append]
      exact ⟨assigned.before.isOrdinary, assigned.value.isOrdinary, assigned.after.isOrdinary⟩
  simp only [chars, tail, List.forall_mem_append]
  exact ⟨member.before.isOrdinary, member.name.isOrdinary, member.after.isOrdinary, hassigned⟩

/-- Joined entries hold nothing else but commas. -/
theorem mem_joined {α : Type} {comma a : α} : ∀ {list : List (List α)}, a ∈ joined comma list →
    a = comma ∨ ∃ entry ∈ list, a ∈ entry
  | [entry], h => .inr ⟨entry, List.mem_cons_self, h⟩
  | entry :: next :: rest, h => by
    rw [joined, List.mem_append, List.mem_cons] at h
    rcases h with h | h | h
    · exact .inr ⟨entry, List.mem_cons_self, h⟩
    · exact .inl h
    · exact (mem_joined h).imp_right fun ⟨other, hother, hmem⟩ =>
        ⟨other, List.mem_cons_of_mem _ hother, hmem⟩

namespace Declaration

variable (declaration : Declaration)

/-- Entries are ordinary. -/
theorem isOrdinary_entries : ∀ entry ∈ declaration.entries, ∀ c ∈ entry, IsOrdinary c := by
  simp only [entries, List.forall_mem_append, List.forall_mem_map]
  refine ⟨fun member _ => member.isOrdinary, ?_⟩
  rcases declaration.ending with _ | blanks
  · exact List.forall_mem_nil _
  · exact List.forall_mem_singleton.2 blanks.isOrdinary

/-- A body is ordinary except for commas. -/
theorem mem_body {c : Char} (h : c ∈ declaration.body) : c = ',' ∨ IsOrdinary c :=
  (mem_joined h).imp_right fun ⟨entry, hentry, hc⟩ =>
    declaration.isOrdinary_entries entry hentry c hc

/-- Nothing else is in a body. -/
theorem not_mem_body {c : Char} (hcomma : c ≠ ',') (h : ¬ IsOrdinary c) : c ∉ declaration.body :=
  fun hmem => (declaration.mem_body hmem).elim hcomma h

/-- There is no slash in a declaration. -/
theorem slash_not_mem : '/' ∉ declaration.chars := by
  have hbody := declaration.not_mem_body (c := '/') (by decide) (by decide)
  have hname : '/' ∉ declaration.name.chars := fun h =>
    absurd (declaration.name.isOrdinary _ h) (by decide)
  have hgap : '/' ∉ declaration.gap.chars := fun h =>
    absurd (declaration.gap.isOrdinary _ h) (by decide)
  have hspace : '/' ∉ declaration.space.chars := fun h =>
    absurd (declaration.space.isOrdinary _ h) (by decide)
  simp [chars, tail, hbody, hname, hgap, hspace]

/-! ### What a scan finds -/

/-- The members with their values, in order. -/
def found : Scan.Members :=
  declaration.members.foldl (fun found member => found.put member.name.text member.value?) {}

/-- The members of a body are found. -/
theorem membersOf_body : Scan.membersOf declaration.body = declaration.found.members := by
  have hentries : (Scan.entries declaration.body).foldl Scan.Members.add {} =
      declaration.entries.foldl Scan.Members.add {} := by
    by_cases hnil : declaration.entries = []
    · simp only [body, hnil]
      rfl
    · rw [body, entries_joined hnil fun entry hentry hcomma =>
        absurd (declaration.isOrdinary_entries entry hentry _ hcomma) (by decide)]
  have hmembers : ∀ (members : List Member) (found : Scan.Members),
      (members.map Member.chars).foldl Scan.Members.add found =
        members.foldl (fun found member => found.put member.name.text member.value?) found := by
    intro members
    induction members with
    | nil => exact fun _ => rfl
    | cons member members ih =>
      intro found
      rw [List.map_cons, List.foldl_cons, List.foldl_cons, Scan.Members.add_member, ih]
  unfold Scan.membersOf
  rw [hentries, entries, List.foldl_append, hmembers]
  rcases declaration.ending with _ | blanks
  · rfl
  · exact congrArg Scan.Members.members (Scan.Members.add_blanks _ blanks)

/-- Space stops at the brace. -/
theorem stops_space (hp : ∀ c, isBlank c = true → p c = false) (hbrace : p '\x7b' = false)
    (rest : List Char) : Stops p (declaration.space.chars ++ '\x7b' :: rest) :=
  declaration.space.stops hp (stops_cons hbrace rest)

/-- There is a gap. -/
theorem exists_gap : ∃ c more, declaration.gap.chars = c :: more ∧ isBlank c = true := by
  obtain ⟨c, more, hgap⟩ := List.exists_cons_of_ne_nil declaration.gap_ne_nil
  exact ⟨c, more, hgap, declaration.gap.blank c (by simp [hgap])⟩

/-- A gap stops a word. -/
theorem stops_tail (hp : ∀ c, isBlank c = true → p c = false) : Stops p declaration.tail := by
  obtain ⟨c, more, hgap, hblank⟩ := declaration.exists_gap
  rw [tail, hgap]
  exact stops_cons (hp c hblank) _

/-- The name of a declaration is found. -/
theorem declaredName?_tail : Scan.declaredName? declaration.tail =
    some (declaration.name.chars,
      declaration.space.chars ++ '\x7b' :: (declaration.body ++ ['\x7d'])) := by
  have hblank : declaration.tail.head?.any isBlank = true := by
    obtain ⟨c, more, hgap, hc⟩ := declaration.exists_gap
    simp [tail, hgap, hc]
  have hstops := declaration.stops_space (fun _ => isWord_of_isBlank) (by decide +kernel)
    (declaration.body ++ ['\x7d'])
  unfold Scan.declaredName?
  rw [if_pos hblank, tail, declaration.gap.skip (declaration.name.stops_blank _)]
  exact declaration.name.name?_append hstops

/-- The name and the body of a declaration are found. -/
theorem declaration?_tail : Scan.declaration? declaration.tail =
    some (declaration.name.chars, declaration.body, []) := by
  have hskip : Scan.skipBlanks (declaration.space.chars ++
      '\x7b' :: (declaration.body ++ ['\x7d'])) = '\x7b' :: (declaration.body ++ ['\x7d']) :=
    declaration.space.skip (stops_cons (by decide) _)
  have hclose : Stops (· ≠ '\x7d') ['\x7d'] := stops_cons (by decide) []
  have hbody : ∀ c ∈ declaration.body, decide (c ≠ '\x7d') = true := by
    intro c hc
    refine decide_eq_true ?_
    rintro rfl
    exact declaration.not_mem_body (by decide) (by decide) hc
  unfold Scan.declaration?
  rw [declaredName?_tail]
  simp only [Option.bind_eq_bind, Option.bind_some, hskip, hclose.dropWhile_append hbody,
    hclose.takeWhile_append hbody]

/-- It is the only one, and nothing comes after it. -/
theorem declarations_chars :
    Scan.declarations declaration.chars = [(declaration.name.chars, declaration.body)] := by
  have hstops : Stops isWord declaration.tail :=
    declaration.stops_tail fun _ => isWord_of_isBlank
  have hword : ∀ c ∈ ['n', 'u', 'm'], isWord c = true :=
    List.all_eq_true.1 (by decide +kernel)
  have hchars : declaration.chars = 'e' :: (['n', 'u', 'm'] ++ declaration.tail) := rfl
  have hfirst : isWord 'e' = true := by decide +kernel
  rw [hchars, Scan.declarations, if_pos hfirst, hstops.takeWhile_append hword, if_pos rfl,
    hstops.dropWhile_append hword]
  split
  next name body after hsome =>
    rw [declaration?_tail] at hsome
    cases hsome
    rw [Scan.declarations]
  next hnone =>
    rw [declaration?_tail] at hnone
    cases hnone

end Declaration

/-- Without a slash there are no comments. -/
theorem withoutComments_eq {text : List Char} (h : '/' ∉ text) :
    Scan.withoutComments text = text := by
  induction text with
  | nil => rw [Scan.withoutComments]
  | cons c text ih =>
    rw [List.mem_cons, not_or] at h
    rw [Scan.withoutComments, ih h.2]
    · exact fun _ heq => absurd heq.symm h.1
    · exact fun _ heq => absurd heq.symm h.1

/-- Calls change nothing about the enumerations. -/
theorem enums_addCalls (names : List String) (scan : Scan) :
    (names.foldl Scan.addCall scan).enums = scan.enums := by
  induction names generalizing scan with
  | nil => rfl
  | cons name names ih =>
    rw [List.foldl_cons, ih]
    unfold Scan.addCall
    split <;> rfl

/-- A scan of a plain declaration finds it, with each member that has a value and the next ones
counted from there. -/
theorem Declaration.enums_addText (declaration : Declaration) (scan : Scan) :
    (scan.addText declaration.text).enums =
      scan.enums.insert declaration.name.text declaration.found.members := by
  have htext : declaration.text.toList = declaration.chars := String.toList_ofList
  unfold Scan.addText
  dsimp only
  rw [htext, withoutComments_eq declaration.slash_not_mem, enums_addCalls, declarations_chars,
    List.foldl_cons, List.foldl_nil]
  change scan.enums.insert _ (Scan.membersOf declaration.body) = _
  rw [membersOf_body]
  rfl

end Plain

end Gml
