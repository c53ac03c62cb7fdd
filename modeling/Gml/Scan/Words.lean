import Gml.Text.Blank
import Gml.Text.Digit
import Gml.Text.Numeral
import Gml.Text.Word

/-!
# Words of a text

What can be told of a script from its words alone, without reading it as a script: which names stand
before a parenthesis, and what enumerations are declared. A word is a longest run of word
characters, and a name is a word that starts with a letter or an underscore of ASCII.

Comments are blanked out first. What looks like a comment counts as one, also within a string.
-/

namespace Gml.Scan

open Text

/-! ### Comments -/

/-- The text after the end of a comment, if it ends. -/
def afterComment? : List Char → Option (List Char)
  | '*' :: '/' :: rest => some rest
  | _ :: rest => afterComment? rest
  | [] => none

/-- A comment has an end. -/
theorem length_afterComment? {text rest : List Char} (h : afterComment? text = some rest) :
    rest.length < text.length := by
  fun_induction afterComment? text with
  | case1 =>
    cases h
    simp only [List.length_cons]
    omega
  | case2 _ _ _ ih =>
    have := ih h
    simp only [List.length_cons]
    omega
  | case3 => simp at h

/-- To drop characters makes nothing longer. -/
theorem length_dropWhile_le (p : Char → Bool) (text : List Char) :
    (text.dropWhile p).length ≤ text.length :=
  (List.dropWhile_suffix p).sublist.length_le

/-- The text with a blank in place of each comment. A comment that does not end is none. -/
def withoutComments : List Char → List Char
  | [] => []
  | '/' :: '/' :: rest => ' ' :: withoutComments (rest.dropWhile (· ≠ '\n'))
  | '/' :: '*' :: rest =>
    match _h : afterComment? rest with
    | some rest => ' ' :: withoutComments rest
    | none => '/' :: withoutComments ('*' :: rest)
  | char :: rest => char :: withoutComments rest
termination_by text => text.length
decreasing_by
  · have := length_dropWhile_le (· ≠ '\n') rest
    simp only [List.length_cons]
    omega
  · have := length_afterComment? _h
    simp only [List.length_cons]
    omega
  · simp
  · simp

/-! ### Names and calls -/

/-- Whether a name can start with a character. -/
def startsName (char : Char) : Bool :=
  char.isAlpha || char = '_'

/-- The text without the blanks at its start. -/
def skipBlanks (text : List Char) : List Char :=
  text.dropWhile isBlank

/-- The name at the start of a text, and the text after it. -/
def name? : List Char → Option (List Char × List Char)
  | [] => none
  | first :: rest =>
    if startsName first then some (first :: rest.takeWhile isWord, rest.dropWhile isWord)
    else none

/-- The words of a text, each with the text after it. -/
def words : List Char → List (List Char × List Char)
  | [] => []
  | char :: rest =>
    if isWord char then
      (char :: rest.takeWhile isWord, rest.dropWhile isWord) :: words (rest.dropWhile isWord)
    else words rest
termination_by text => text.length
decreasing_by
  · have := length_dropWhile_le isWord rest
    simp only [List.length_cons]
    omega
  · simp

/-- The name that a word calls, if a parenthesis comes after it. -/
def called? (word after : List Char) : Option String := do
  guard (word.head?.any startsName)
  guard ((skipBlanks after).head? = some '(')
  return String.ofList word

/-- The names that stand before a parenthesis. -/
def calledNames (text : List Char) : List String :=
  (words text).filterMap fun (word, after) => called? word after

/-! ### Enumerations -/

/-- The name that a declaration gives after its first word, and the text after the name. -/
def declaredName? (text : List Char) : Option (List Char × List Char) :=
  if text.head?.any isBlank then name? (skipBlanks text) else none

/-- The name and the body of a declaration whose first word has been read, and the text after it. -/
def declaration? (text : List Char) : Option (List Char × List Char × List Char) := do
  let (name, rest) ← declaredName? text
  match skipBlanks rest with
  | '\x7b' :: rest =>
    match rest.dropWhile (· ≠ '\x7d') with
    | [] => none
    | _ :: after => some (name, rest.takeWhile (· ≠ '\x7d'), after)
  | _ => none

/-- A name has characters. -/
theorem length_name? {text name rest : List Char} (h : name? text = some (name, rest)) :
    rest.length < text.length := by
  cases text with
  | nil => simp [name?] at h
  | cons first tail =>
    have := length_dropWhile_le isWord tail
    grind [name?]

/-- So has a declaration. -/
theorem length_declaration? {text name body after : List Char}
    (h : declaration? text = some (name, body, after)) : after.length < text.length := by
  simp only [declaration?, Option.bind_eq_bind, Option.bind_eq_some_iff] at h
  obtain ⟨⟨found, rest⟩, hname, h⟩ := h
  have h₁ : rest.length < (skipBlanks text).length := by
    unfold declaredName? at hname
    split at hname
    · exact length_name? hname
    · cases hname
  have h₂ := length_dropWhile_le isBlank text
  have h₃ := length_dropWhile_le isBlank rest
  simp only [skipBlanks] at h h₁
  split at h
  · rename_i tail heq
    have h₄ := length_dropWhile_le (· ≠ '\x7d') tail
    rw [heq] at h₃
    simp only [List.length_cons] at h₃
    split at h
    · simp at h
    · rename_i _ last hlast
      rw [hlast] at h₄
      simp only [List.length_cons] at h₄
      simp only [Option.some.injEq, Prod.mk.injEq] at h
      rw [← h.2.2]
      omega
  · simp at h

/-- The enumerations of a text, each with the text of its members. -/
def declarations : List Char → List (List Char × List Char)
  | [] => []
  | char :: rest =>
    if isWord char then
      if char :: rest.takeWhile isWord = ['e', 'n', 'u', 'm'] then
        match _h : declaration? (rest.dropWhile isWord) with
        | some (name, body, after) => (name, body) :: declarations after
        | none => declarations (rest.dropWhile isWord)
      else declarations (rest.dropWhile isWord)
    else declarations rest
termination_by text => text.length
decreasing_by
  · have h₁ := length_declaration? _h
    have h₂ := length_dropWhile_le isWord rest
    simp only [List.length_cons]
    omega
  · have := length_dropWhile_le isWord rest
    simp only [List.length_cons]
    omega
  · have := length_dropWhile_le isWord rest
    simp only [List.length_cons]
    omega
  · simp

/-! ### Members -/

/-- The parts of a text between commas. -/
def entries : List Char → List (List Char)
  | [] => [[]]
  | ',' :: rest => [] :: entries rest
  | char :: rest =>
    match entries rest with
    | [] => [[char]]
    | entry :: more => (char :: entry) :: more

/-- A number as it is written for a member. -/
structure Literal where
  /-- Whether it has a minus sign. -/
  negative : Bool
  /-- The base of its digits. -/
  base : Nat
  /-- Its digits. -/
  digits : List Char
  deriving DecidableEq, Repr, Inhabited

/-- The number that a literal stands for. A number beyond 63 bits, or one in digits other than those
of ASCII, cannot be told. -/
def Literal.value? (literal : Literal) : Option Int64 := do
  guard (literal.digits.all isHexDigit)
  let size := numberOf literal.base literal.digits
  guard ((size : Int) ≤ Int64.maxValue.toInt)
  return if literal.negative then Int64.ofInt (-size) else Int64.ofNat size

/-- A run of digits at the start of a text that has nothing else but blanks after it. -/
def digits? (isDigit : Char → Bool) (text : List Char) : Option (List Char) := do
  let digits := text.takeWhile isDigit
  guard (!digits.isEmpty && (text.dropWhile isDigit).all isBlank)
  return digits

/-- The literal that a text is, up to blanks at its end. -/
def literal? (text : List Char) : Option Literal :=
  let (negative, text) :=
    match text with
    | '-' :: rest => (true, rest)
    | text => (false, text)
  match text with
  | '$' :: rest | '0' :: 'x' :: rest | '0' :: 'X' :: rest =>
    (digits? isHexDigit rest).map fun digits => { negative, base := 16, digits }
  | text => (digits? isDigit text).map fun digits => { negative, base := 10, digits }

/-- The member that an entry declares, with the literal of its value if it has one. -/
def member? (entry : List Char) : Option (String × Option Literal) := do
  let (name, rest) ← name? (skipBlanks entry)
  match skipBlanks rest with
  | [] => return (String.ofList name, none)
  | '=' :: rest => return (String.ofList name, some (← literal? (skipBlanks rest)))
  | _ => none

end Gml.Scan
