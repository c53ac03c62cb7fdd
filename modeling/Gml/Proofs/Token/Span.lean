import Gml.Proofs.Token.Piece

/-!
# What tokens look like

`Span` says what a token looks like, in terms of the characters that it is written with and of those
that come after it; `Quoted` is the part of it about text literals. Where several tokens are
possible, a rule says what must not follow, so that at most one of them applies. `Lexeme.read?` gives
such tokens: `Lexeme.read?_of_span` and `Lexeme.exists_span`.
-/

namespace Gml

open Text Lexeme

/-! ### Text literals -/

/-- A text literal after its opening quote: what it is written with, closing quote included, what
comes after it, and the characters that it stands for. A literal without a closing quote runs to the
end of the source, but leaves the line feed at the very end alone. -/
inductive Quoted (escapes : Bool) (quote : Char) : List Char → List Char → List Char → Prop where
  | close {rest : List Char} : Quoted escapes quote [quote] rest []
  | stop {rest : List Char} : rest = [] ∨ rest = ['\n'] → Quoted escapes quote [] rest []
  | char {c : Char} {text rest value : List Char} : c ≠ quote → (escapes = true → c ≠ '\\') →
      c :: (text ++ rest) ≠ ['\n'] → Quoted escapes quote text rest value →
      Quoted escapes quote (c :: text) rest (c :: value)
  /-- The characters after a backslash belong together. The line feed at the very end may be one of
  them. -/
  | escape {marks here text rest value : List Char} : escapes = true →
      Lexeme.escape (marks ++ (text ++ rest)) = (here, marks.length) →
      Quoted escapes quote text rest value →
      Quoted escapes quote ('\\' :: (marks ++ text)) rest (here ++ value)

variable {rest chars : List Char} {kind : Kind}

/-- The first character of a text. -/
theorem escapedText_cons {quote c : Char} (h : c :: chars ≠ ['\n']) :
    escapedText quote (c :: chars) =
      if c = quote then ([], 1)
      else if c = '\\' then
        ((escape chars).1 ++ (escapedText quote (chars.drop (escape chars).2)).1,
          (escape chars).2 + (escapedText quote (chars.drop (escape chars).2)).2 + 1)
      else (c :: (escapedText quote chars).1, (escapedText quote chars).2 + 1) := by
  rw [escapedText]
  rintro rfl rfl
  exact h rfl

/-- The first character of a raw text. -/
theorem rawText_cons {quote c : Char} (h : c :: chars ≠ ['\n']) :
    rawText quote (c :: chars) =
      if c = quote then ([], 1)
      else (c :: (rawText quote chars).1, (rawText quote chars).2 + 1) := by
  rw [rawText]
  rintro rfl rfl
  exact h rfl

/-- A quoted text is read. -/
theorem Quoted.escapedText_eq {quote : Char} {text value : List Char}
    (hquote : isQuote quote = true) (h : Quoted true quote text rest value) :
    escapedText quote (text ++ rest) = (value, text.length) := by
  have hne : quote ≠ '\n' ∧ quote ≠ '\\' := by
    constructor
    all_goals
      rintro rfl
      simp [isQuote] at hquote
  induction h with
  | close =>
    rw [List.singleton_append, escapedText_cons (by simp [hne.1]), if_pos rfl]
    rfl
  | stop hrest => rcases hrest with rfl | rfl <;> simp [escapedText]
  | char hc hescape hlast _ ih =>
    rw [List.cons_append, escapedText_cons hlast, if_neg hc, if_neg (hescape rfl), ih]
    rfl
  | @escape marks here text rest value _ hescape _ ih =>
    rw [List.cons_append, escapedText_cons (by simp), if_neg hne.2.symm, if_pos rfl,
      List.append_assoc, hescape, List.drop_left, ih]
    simp

/-- So is a raw one. -/
theorem Quoted.rawText_eq {quote : Char} {text value : List Char} (hquote : isQuote quote = true)
    (h : Quoted false quote text rest value) :
    rawText quote (text ++ rest) = (value, text.length) := by
  have hne : quote ≠ '\n' := by
    rintro rfl
    simp [isQuote] at hquote
  induction h with
  | close =>
    rw [List.singleton_append, rawText_cons (by simp [hne]), if_pos rfl]
    rfl
  | stop hrest => rcases hrest with rfl | rfl <;> rfl
  | char hc _ hlast _ ih =>
    rw [List.cons_append, rawText_cons hlast, if_neg hc, ih]
    rfl
  | escape hfalse => cases hfalse

/-- An escape is part of the text. -/
theorem length_escape_le (chars : List Char) : (escape chars).2 ≤ chars.length := by
  have hhex (letter : Char) (most : Nat) (rest : List Char) :
      (hexEscape letter most rest).2 ≤ rest.length + 1 := by
    have hle := (List.takeWhile_prefix isHexDigit (l := rest.take most)).length_le
    rw [List.length_take] at hle
    unfold hexEscape
    dsimp only
    split
    · simp
    · simp only
      omega
  unfold escape
  split
  case h_10 => exact hhex _ _ _
  case h_11 => exact hhex _ _ _
  case h_12 c rest _ _ _ _ _ _ _ _ _ _ =>
    have hle := (List.takeWhile_prefix isOctalDigit (l := rest.take 2)).length_le
    rw [List.length_take] at hle
    split
    · simp only [List.length_cons]
      omega
    · simp
  all_goals simp

/-- A text has an end. -/
theorem exists_escapedText (quote : Char) (chars : List Char) :
    ∃ text rest, chars = text ++ rest ∧ text.length = (escapedText quote chars).2 ∧
      Quoted true quote text rest (escapedText quote chars).1 := by
  fun_induction escapedText quote chars with
  | case1 => exact ⟨[], [], rfl, rfl, .stop (.inl rfl)⟩
  | case2 => exact ⟨[], ['\n'], rfl, rfl, .stop (.inr rfl)⟩
  | case3 rest => exact ⟨[quote], rest, rfl, rfl, .close⟩
  | case4 chars here n hescape later m hlater hlast hquote ih =>
    obtain ⟨text, rest, hdrop, hlength, hquoted⟩ := ih
    rw [hlater] at hlength hquoted
    have hmarks : (chars.take n).length = n := by
      have hle := length_escape_le chars
      rw [hescape] at hle
      rw [List.length_take]
      omega
    have hchars : chars = chars.take n ++ (text ++ rest) := by rw [← hdrop, List.take_append_drop]
    refine ⟨'\\' :: (chars.take n ++ text), rest, ?_, ?_, .escape rfl ?_ hquoted⟩
    · rw [List.cons_append, List.append_assoc, ← hchars]
    · rw [List.length_cons, List.length_append, hmarks, hlength]
    · rw [← hchars, hmarks, hescape]
  | case5 c chars hlast hquote hescape later m hlater ih =>
    obtain ⟨text, rest, rfl, hlength, hquoted⟩ := ih
    rw [hlater] at hlength hquoted
    refine ⟨c :: text, rest, rfl, by rw [List.length_cons, hlength], ?_⟩
    refine .char hquote (fun _ => hescape) (fun heq => ?_) hquoted
    exact hlast (List.cons.inj heq).1 (List.cons.inj heq).2

/-- So has a raw one. -/
theorem exists_rawText (quote : Char) (chars : List Char) :
    ∃ text rest, chars = text ++ rest ∧ text.length = (rawText quote chars).2 ∧
      Quoted false quote text rest (rawText quote chars).1 := by
  fun_induction rawText quote chars with
  | case1 => exact ⟨[], [], rfl, rfl, .stop (.inl rfl)⟩
  | case2 => exact ⟨[], ['\n'], rfl, rfl, .stop (.inr rfl)⟩
  | case3 rest => exact ⟨[quote], rest, rfl, rfl, .close⟩
  | case4 c chars hlast hquote later m hlater ih =>
    obtain ⟨text, rest, rfl, hlength, hquoted⟩ := ih
    rw [hlater] at hlength hquoted
    refine ⟨c :: text, rest, rfl, by rw [List.length_cons, hlength], ?_⟩
    refine .char hquote nofun (fun heq => ?_) hquoted
    exact hlast (List.cons.inj heq).1 (List.cons.inj heq).2

/-! ### Tokens -/

/-- Signs that make one token with an opening bracket before them. -/
def bracketSigns : List (Char × Kind) :=
  [('?', .mapIndex), ('@', .arrayRefIndex), ('#', .gridIndex), ('|', .listIndex)]

/-- What a token is, the text or value that it has, the characters that it is written with, and
those that come after it. -/
inductive Span (tier : Nat) : Kind → String → List Char → List Char → Prop where
  /-- A hexadecimal number after a dollar sign. -/
  | dollar {digits rest : List Char} : digits ≠ [] → (∀ c ∈ digits, isHexDigit c = true) →
      Stops isHexDigit rest → Span tier .number (.ofList ('$' :: digits)) ('$' :: digits) rest
  /-- A hexadecimal number after `0x`. -/
  | hex {x : Char} {digits rest : List Char} : x = 'x' ∨ x = 'X' → digits ≠ [] →
      (∀ c ∈ digits, isHexDigit c = true) → Stops isHexDigit rest →
      Span tier .number (.ofList ('0' :: x :: digits)) ('0' :: x :: digits) rest
  /-- A decimal number without a point. A zero may also start a hexadecimal number. -/
  | whole {digits rest : List Char} : digits ≠ [] → (∀ c ∈ digits, c.isDigit = true) →
      Stops (fun c => c.isDigit || c = '.') rest →
      (digits = ['0'] → ∀ x c others, rest = x :: c :: others → x = 'x' ∨ x = 'X' →
        isHexDigit c = false) →
      Span tier .number (.ofList digits) digits rest
  /-- A decimal number with a point, and digits before or after it. -/
  | point {digits fraction rest : List Char} : digits ≠ [] ∨ fraction ≠ [] →
      (∀ c ∈ digits, c.isDigit = true) → (∀ c ∈ fraction, c.isDigit = true) →
      Stops Char.isDigit rest →
      Span tier .number (.ofList (digits ++ '.' :: fraction)) (digits ++ '.' :: fraction) rest
  /-- A text with escapes. -/
  | string {quote : Char} {text rest value : List Char} :
      quote = '"' ∨ quote = '\'' ∧ tier < literalTier → Quoted true quote text rest value →
      Span tier .string (.ofList value) (quote :: text) rest
  /-- A text without escapes. -/
  | raw {quote : Char} {text rest value : List Char} : quote = '"' ∨ quote = '\'' →
      Quoted false quote text rest value →
      Span tier .rawString (.ofList value) ('@' :: quote :: text) rest
  /-- A name or a word of the language. -/
  | word {first : Char} {more rest : List Char} : first.isAlpha = true ∨ first = '_' →
      (∀ c ∈ more, isNameChar c = true) → Stops isNameChar rest →
      Span tier ((Kind.ofWord? (.ofList (first :: more))).getD .identifier)
        (.ofList (first :: more)) (first :: more) rest
  /-- An operator of two characters. -/
  | double {a b : Char} {kind : Kind} {rest : List Char} : ((a, b), kind) ∈ Kind.doubleOperators →
      Span tier kind (.ofList [a, b]) [a, b] rest
  /-- An operator of one character, which is not the start of a longer one. -/
  | single {a : Char} {kind : Kind} {rest : List Char} : (a, kind) ∈ Kind.singleOperators →
      (∀ b ∈ rest.head?, ∀ kind, ((a, b), kind) ∉ Kind.doubleOperators) →
      (a = '.' → Stops Char.isDigit rest) → Span tier kind (.ofList [a]) [a] rest
  /-- An opening bracket with a sign. -/
  | sign {a : Char} {kind : Kind} {rest : List Char} : (a, kind) ∈ bracketSigns →
      (a = '@' → Stops isQuote rest) → Span tier kind (.ofList ['[', a]) ['[', a] rest
  /-- An opening bracket alone. A quote after the sign `@` makes it the start of a text. -/
  | bracket {rest : List Char} :
      (∀ a kind others, rest = a :: others → (a, kind) ∈ bracketSigns →
        a = '@' ∧ ¬ Stops isQuote others) →
      Span tier .leftBracket (.ofList ['[']) ['['] rest

/-- A span is not empty. -/
theorem Span.ne_nil {tier : Nat} {value : String} {span : List Char}
    (h : Span tier kind value span rest) : span ≠ [] := by
  cases h <;> simp_all

/-- A whole number is read. -/
theorem decimalDigits_whole {digits : List Char} (hall : ∀ c ∈ digits, c.isDigit = true)
    (hstops : Stops (fun c => c.isDigit || c = '.') rest) :
    decimalDigits (digits ++ rest) = digits := by
  have hdigit : Stops Char.isDigit rest := fun c hc => (Bool.or_eq_false_iff.1 (hstops c hc)).1
  unfold decimalDigits
  dsimp only
  rw [hdigit.takeWhile_append hall, List.drop_left]
  split
  next others =>
    have hpoint := hstops '.' rfl
    simp at hpoint
  next => rfl

/-- So is one with a point. -/
theorem decimalDigits_point {digits fraction : List Char} (hdigits : ∀ c ∈ digits, c.isDigit = true)
    (hfraction : ∀ c ∈ fraction, c.isDigit = true) (hstops : Stops Char.isDigit rest) :
    decimalDigits (digits ++ '.' :: (fraction ++ rest)) = digits ++ '.' :: fraction := by
  have hpoint : Stops Char.isDigit ('.' :: (fraction ++ rest)) := by
    rintro _ ⟨⟩
    decide
  unfold decimalDigits
  dsimp only
  rw [hpoint.takeWhile_append hdigits, List.drop_left]
  change digits ++ '.' :: (fraction ++ rest).takeWhile Char.isDigit = _
  rw [hstops.takeWhile_append hfraction]

section

variable {tier : Nat} {kind : Kind} {value : String} {span rest : List Char} {c : Char}

/-- So is a number after a dollar sign. -/
theorem read?_dollar {digits : List Char} (hne : digits ≠ [])
    (hall : ∀ c ∈ digits, isHexDigit c = true) (hstops : Stops isHexDigit rest) :
    read? tier ('$' :: digits ++ rest) = some (ofChars .number '$' digits) := by
  obtain ⟨d, ds, rfl⟩ := List.exists_cons_of_ne_nil hne
  have hd : isHexDigit d = true := hall d List.mem_cons_self
  have htake := hstops.takeWhile_append hall
  rw [List.cons_append, read?]
  simp only [List.cons_append] at htake ⊢
  simp [hd, htake]

/-- So is one after `0x`. -/
theorem read?_hex {x : Char} {digits : List Char} (hx : x = 'x' ∨ x = 'X') (hne : digits ≠ [])
    (hall : ∀ c ∈ digits, isHexDigit c = true) (hstops : Stops isHexDigit rest) :
    read? tier ('0' :: x :: digits ++ rest) = some (ofChars .number '0' (x :: digits)) := by
  obtain ⟨d, ds, rfl⟩ := List.exists_cons_of_ne_nil hne
  have hd : isHexDigit d = true := hall d List.mem_cons_self
  have htake := hstops.takeWhile_append hall
  rw [List.cons_append, read?]
  simp only [List.cons_append] at htake ⊢
  simp [hx, hd, htake]

/-- A decimal number, if it is not a hexadecimal one. -/
theorem read?_decimal
    (hc : c.isDigit = true ∨ c = '.' ∧ (rest[0]?.getD Cursor.beyond).isDigit = true)
    (hhex : ¬ (c = '0' ∧ (rest[0]?.getD Cursor.beyond = 'x' ∨ rest[0]?.getD Cursor.beyond = 'X') ∧
      isHexDigit (rest[1]?.getD Cursor.beyond) = true)) :
    read? tier (c :: rest) = some (ofChars .number c ((decimalDigits (c :: rest)).drop 1)) := by
  have hdollar : c ≠ '$' := by
    rintro rfl
    simp at hc
  rw [read?]
  simp only [Bool.and_eq_true, Bool.or_eq_true, decide_eq_true_eq, and_assoc, hdollar, hhex, hc,
    if_true, if_false, false_and]

/-- A string is read. -/
theorem read?_string (hc : c = '"' ∨ c = '\'' ∧ tier < literalTier) :
    read? tier (c :: rest) = some (ofText .string 0 (escapedText c rest)) := by
  rcases hc with rfl | ⟨rfl, htier⟩
  · simp [read?]
  · simp [read?, htier]

/-- So is a raw string. -/
theorem read?_raw (hc : isQuote c = true) :
    read? tier ('@' :: c :: rest) = some (ofText .rawString 1 (rawText c rest)) := by
  simp [read?, hc]

/-- The codes of letters. -/
theorem toNat_of_isAlpha (hc : c.isAlpha = true) :
    (65 ≤ c.toNat ∧ c.toNat ≤ 90) ∨ (97 ≤ c.toNat ∧ c.toNat ≤ 122) := by
  rcases Bool.or_eq_true_iff.1 hc with hupper | hlower
  · exact .inl (of_decide_eq_true hupper)
  · obtain ⟨hmin, hmax⟩ := Bool.and_eq_true_iff.1 hlower
    exact .inr ⟨of_decide_eq_true hmin, of_decide_eq_true hmax⟩

/-- The codes of digits. -/
theorem toNat_of_isDigit (hc : c.isDigit = true) : 48 ≤ c.toNat ∧ c.toNat ≤ 57 :=
  Char.isDigit_iff_toNat.1 hc

/-- A letter is no digit. -/
theorem isDigit_of_isAlpha (hc : c.isAlpha = true) : c.isDigit = false := by
  refine Bool.eq_false_iff.2 fun hdigit => ?_
  have halpha := toNat_of_isAlpha hc
  have hrange := toNat_of_isDigit hdigit
  omega

/-- A word is read. -/
theorem read?_word (hc : c.isAlpha = true ∨ c = '_') :
    read? tier (c :: rest) = some (ofWord c rest) := by
  have hdigit : c.isDigit = false := by
    rcases hc with hc | rfl
    · exact isDigit_of_isAlpha hc
    · decide
  have hne : c ≠ '$' ∧ c ≠ '0' ∧ c ≠ '.' ∧ c ≠ '"' ∧ c ≠ '\'' ∧ c ≠ '@' := by
    refine ⟨?_, ?_, ?_, ?_, ?_, ?_⟩
    all_goals
      rintro rfl
      revert hc
      decide
  obtain ⟨hdollar, hzero, hpoint, hdouble, hsingle, hat⟩ := hne
  simp [read?, hdollar, hzero, hpoint, hdouble, hsingle, hat, hdigit, hc]

/-- A character that no number, text or word starts with, except for numbers with a point. -/
def isSign (c : Char) : Bool :=
  c ≠ '$' && !c.isDigit && !isQuote c && c ≠ '@' && !c.isAlpha && c ≠ '_'

/-- An operator is read. -/
theorem read?_operator (hc : isSign c = true)
    (hpoint : c = '.' → (rest[0]?.getD Cursor.beyond).isDigit = false) :
    read? tier (c :: rest) =
      operator? c (rest[0]?.getD Cursor.beyond) (rest[1]?.getD Cursor.beyond) := by
  have hzero : c ≠ '0' := by
    rintro rfl
    revert hc
    decide
  have hnumber : ¬ (c = '.' ∧ (rest[0]?.getD Cursor.beyond).isDigit = true) := by
    rintro ⟨heq, hdigit⟩
    rw [hpoint heq] at hdigit
    cases hdigit
  simp only [isSign, isQuote, Bool.and_eq_true, decide_eq_true_eq, Bool.not_eq_true',
    Bool.or_eq_false_iff, decide_eq_false_iff_not] at hc
  obtain ⟨⟨⟨⟨⟨hdollar, hdigit⟩, hdouble, hsingle⟩, hat⟩, halpha⟩, hunder⟩ := hc
  simp only [read?, Bool.and_eq_true, Bool.or_eq_true, decide_eq_true_eq, hdollar, hzero, hdigit,
    hdouble, hsingle, hat, halpha, hunder, hnumber, false_and, or_false, if_false,
    Bool.false_eq_true]

end

/-! ### Reading what is written -/

/-- What is looked up is there. -/
theorem mem_of_lookup {α β : Type} [BEq α] [LawfulBEq α] {a : α} {b : β} {entries : List (α × β)}
    (h : entries.lookup a = some b) : (a, b) ∈ entries := by
  obtain ⟨front, back, rfl, -⟩ := List.lookup_eq_some_iff.1 h
  exact List.mem_append_right front List.mem_cons_self

/-- The kinds of tokens without a fixed text, apart from numbers and texts with escapes. -/
def Kind.unlisted : List Kind :=
  [.identifier, .rawString, .endOfFile]

/-- Such a token is a name or a text without escapes. -/
theorem Span.of_unlisted {tier : Nat} {value : String} {span : List Char}
    (h : Span tier kind value span rest) (hkind : kind ∈ Kind.unlisted) :
    (kind = .identifier ∧ ∃ first more, (first.isAlpha = true ∨ first = '_') ∧
        (∀ c ∈ more, isNameChar c = true) ∧ value = .ofList (first :: more)) ∨
      kind = .rawString ∧ ∃ quote text chars, (quote = '"' ∨ quote = '\'') ∧
        Quoted false quote text rest chars ∧ value = .ofList chars ∧ span = '@' :: quote :: text := by
  have hsingle : ∀ entry ∈ Kind.singleOperators, entry.2 ∉ Kind.unlisted := by decide
  have hdouble : ∀ entry ∈ Kind.doubleOperators, entry.2 ∉ Kind.unlisted := by decide
  have hsign : ∀ entry ∈ bracketSigns, entry.2 ∉ Kind.unlisted := by decide
  have hword : ∀ entry ∈ Kind.words, entry.2 ∉ Kind.unlisted := by decide
  cases h with
  | raw hquote hquoted => exact .inr ⟨rfl, _, _, _, hquote, hquoted, rfl, rfl⟩
  | @word first more _ hfirst hmore =>
    cases hlookup : Kind.ofWord? (.ofList (first :: more)) with
    | none => exact .inl ⟨rfl, first, more, hfirst, hmore, rfl⟩
    | some kind =>
      rw [hlookup] at hkind
      exact absurd hkind (hword _ (mem_of_lookup hlookup))
  | double hmem => exact absurd hkind (hdouble _ hmem)
  | single hmem => exact absurd hkind (hsingle _ hmem)
  | sign hmem => exact absurd hkind (hsign _ hmem)
  | _ => exact absurd hkind (by decide)

/-- Two signs have one kind. -/
theorem lookup_double {a b : Char} (h : ((a, b), kind) ∈ Kind.doubleOperators) :
    Kind.doubleOperators.lookup (a, b) = some kind := by
  have htable : ∀ entry ∈ Kind.doubleOperators,
      Kind.doubleOperators.lookup entry.1 = some entry.2 := by decide
  exact htable _ h

/-- Two signs are one operator. -/
theorem operator?_double {a b afterNext : Char} (h : ((a, b), kind) ∈ Kind.doubleOperators) :
    operator? a b afterNext = some (ofChars kind a [b]) := by
  have htable : ∀ entry ∈ Kind.doubleOperators, entry.1.1 ≠ '[' := by decide
  simp only [operator?, if_neg (htable _ h), lookup_double h]

/-- One sign is one operator. -/
theorem operator?_single {a next afterNext : Char} (h : (a, kind) ∈ Kind.singleOperators)
    (hlookup : Kind.doubleOperators.lookup (a, next) = none) :
    operator? a next afterNext = some (ofChars kind a []) := by
  have htable : ∀ entry ∈ Kind.singleOperators, entry.1 ≠ '[' ∧
      Kind.singleOperators.lookup entry.1 = some entry.2 := by decide
  obtain ⟨hbracket, hsingle⟩ := htable _ h
  simp only [operator?, if_neg hbracket, hlookup, hsingle, Option.map_some]

/-- Nothing is an operator together with what lies beyond the end. -/
theorem lookup_doubleOperators {a : Char}
    (h : ∀ b ∈ rest.head?, ∀ kind, ((a, b), kind) ∉ Kind.doubleOperators) :
    Kind.doubleOperators.lookup (a, rest[0]?.getD Cursor.beyond) = none := by
  have hbeyond : ∀ entry ∈ Kind.doubleOperators, entry.1.2 ≠ Cursor.beyond := by decide
  cases hlookup : Kind.doubleOperators.lookup (a, rest[0]?.getD Cursor.beyond) with
  | none => rfl
  | some kind =>
    have hmem := mem_of_lookup hlookup
    cases rest with
    | nil => exact absurd rfl (hbeyond _ hmem)
    | cons b rest => exact absurd hmem (h b rfl kind)

/-- Digits in front keep a zero from starting a hexadecimal number. -/
theorem not_hex_of_digit {c d : Char} (hd : d.isDigit = true ∨ d = '.') :
    ¬ (c = '0' ∧ ((d :: rest)[0]?.getD Cursor.beyond = 'x' ∨
      (d :: rest)[0]?.getD Cursor.beyond = 'X') ∧
      isHexDigit ((d :: rest)[1]?.getD Cursor.beyond) = true) := by
  rintro ⟨-, hx, -⟩
  simp only [List.getElem?_cons_zero, Option.getD_some] at hx
  rcases hx with rfl | rfl
  all_goals
    revert hd
    decide

/-- A token is read as it is written. -/
theorem Lexeme.read?_of_span {tier : Nat} {value : String} {span : List Char}
    (h : Span tier kind value span rest) :
    ∃ lexeme, read? tier (span ++ rest) = some lexeme ∧ lexeme.kind = kind ∧
      lexeme.value = value ∧ lexeme.length = span.length := by
  cases h with
  | dollar hne hall hstops => exact ⟨_, read?_dollar hne hall hstops, rfl, rfl, rfl⟩
  | hex hx hne hall hstops => exact ⟨_, read?_hex hx hne hall hstops, rfl, rfl, rfl⟩
  | @whole digits rest hne hall hstops hhex =>
    obtain ⟨d, ds, rfl⟩ := List.exists_cons_of_ne_nil hne
    have hread : read? tier (d :: (ds ++ rest)) = some (ofChars .number d ds) := by
      rw [read?_decimal (.inl (hall d List.mem_cons_self)), ← List.cons_append,
        decimalDigits_whole hall hstops, List.drop_one, List.tail_cons]
      cases ds with
      | nil =>
        rintro ⟨rfl, hx, hnext⟩
        rw [List.nil_append] at hx hnext
        rcases rest with _ | ⟨x, _ | ⟨c, others⟩⟩
        · revert hx
          decide
        · have hbeyond : isHexDigit Cursor.beyond = false := by decide
          simp [hbeyond] at hnext
        · have hnot := hhex rfl x c others rfl hx
          rw [List.getElem?_cons_succ, List.getElem?_cons_zero, Option.getD_some, hnot] at hnext
          cases hnext
      | cons e es => exact not_hex_of_digit (.inl (hall e (by simp)))
    exact ⟨_, hread, rfl, rfl, rfl⟩
  | @point digits fraction rest hne hdigits hfraction hstops =>
    have hdecimal := decimalDigits_point hdigits hfraction hstops
    cases digits with
    | nil =>
      obtain ⟨d, ds, rfl⟩ := List.exists_cons_of_ne_nil (hne.resolve_left (by simp))
      have hread : read? tier ('.' :: d :: (ds ++ rest)) =
          some (ofChars .number '.' (d :: ds)) := by
        have hfirst : '.'.isDigit = true ∨ '.' = '.' ∧
            ((d :: (ds ++ rest))[0]?.getD Cursor.beyond).isDigit = true :=
          .inr ⟨rfl, hfraction d List.mem_cons_self⟩
        rw [List.nil_append] at hdecimal
        rw [read?_decimal hfirst (by simp), ← List.cons_append, hdecimal]
        rfl
      exact ⟨_, hread, rfl, rfl, rfl⟩
    | cons d ds =>
      have hread : read? tier (d :: (ds ++ '.' :: (fraction ++ rest))) =
          some (ofChars .number d (ds ++ '.' :: fraction)) := by
        rw [read?_decimal (.inl (hdigits d List.mem_cons_self)), ← List.cons_append, hdecimal]
        · rfl
        · cases ds with
          | nil => exact not_hex_of_digit (.inr rfl)
          | cons e es => exact not_hex_of_digit (.inl (hdigits e (by simp)))
      exact ⟨_, by simpa using hread, rfl, rfl, rfl⟩
  | @string quote text rest value hquote hquoted =>
    have hisQuote : isQuote quote = true := by
      rcases hquote with rfl | ⟨rfl, -⟩ <;> decide
    have hread : read? tier (quote :: (text ++ rest)) =
        some (ofText .string 0 (value, text.length)) := by
      rw [read?_string hquote, hquoted.escapedText_eq hisQuote]
    exact ⟨_, hread, rfl, rfl, Nat.add_comm 1 _⟩
  | @raw quote text rest value hquote hquoted =>
    have hisQuote : isQuote quote = true := by
      rcases hquote with rfl | rfl <;> decide
    have hread : read? tier ('@' :: quote :: (text ++ rest)) =
        some (ofText .rawString 1 (value, text.length)) := by
      rw [read?_raw hisQuote, hquoted.rawText_eq hisQuote]
    exact ⟨_, hread, rfl, rfl, Nat.add_comm 2 _⟩
  | @word first more rest hfirst hall hstops =>
    have hread : read? tier (first :: (more ++ rest)) = some (ofChars
        ((Kind.ofWord? (.ofList (first :: more))).getD .identifier) first more) := by
      rw [read?_word hfirst, ofWord]
      simp only [hstops.takeWhile_append hall]
    exact ⟨_, hread, rfl, rfl, rfl⟩
  | @double a b kind rest hmem =>
    have htable : ∀ entry ∈ Kind.doubleOperators, isSign entry.1.1 = true ∧ entry.1.1 ≠ '.' := by
      decide
    obtain ⟨hsign, hpoint⟩ := htable _ hmem
    have hread : read? tier (a :: b :: rest) = some (ofChars kind a [b]) :=
      (read?_operator hsign fun heq => absurd heq hpoint).trans (operator?_double hmem)
    exact ⟨_, hread, rfl, rfl, rfl⟩
  | @single a kind rest hmem hdouble hpoint =>
    have htable : ∀ entry ∈ Kind.singleOperators, isSign entry.1 = true := by decide
    have hread : read? tier (a :: rest) = some (ofChars kind a []) := by
      rw [read?_operator (htable _ hmem) fun heq => (hpoint heq).next (by decide),
        operator?_single hmem (lookup_doubleOperators hdouble)]
    exact ⟨_, hread, rfl, rfl, rfl⟩
  | @sign a kind rest hmem hquote =>
    have hread : read? tier ('[' :: a :: rest) = some (ofChars kind '[' [a]) := by
      rw [read?_operator (by decide) (by simp)]
      simp only [bracketSigns, List.mem_cons, Prod.mk.injEq, List.not_mem_nil, or_false] at hmem
      rcases hmem with ⟨rfl, rfl⟩ | ⟨rfl, rfl⟩ | ⟨rfl, rfl⟩ | ⟨rfl, rfl⟩
      · rfl
      · have hnext : isQuote (rest[0]?.getD Cursor.beyond) = false := (hquote rfl).next (by decide)
        simp [operator?, bracket, hnext]
      · rfl
      · rfl
    exact ⟨_, hread, rfl, rfl, rfl⟩
  | @bracket rest hnone =>
    have hread : read? tier ('[' :: rest) = some (ofChars .leftBracket '[' []) := by
      rw [read?_operator (by decide) (by simp)]
      rcases rest with _ | ⟨a, others⟩
      · rfl
      · have hsign (kind : Kind) (hmem : (a, kind) ∈ bracketSigns) : a = '@' :=
          (hnone a kind others rfl hmem).1
        by_cases hat : a = '@'
        · subst hat
          obtain ⟨-, hquote⟩ := hnone '@' .arrayRefIndex others rfl (by decide)
          have hnext : isQuote (others[0]?.getD Cursor.beyond) = true :=
            Bool.of_not_eq_false fun hnot => hquote (stops_of_next hnot)
          simp [operator?, bracket, hnext]
        · have hne : a ≠ '?' ∧ a ≠ '#' ∧ a ≠ '|' := by
            refine ⟨?_, ?_, ?_⟩
            · exact fun heq => hat (hsign .mapIndex (by rw [heq]; decide))
            · exact fun heq => hat (hsign .gridIndex (by rw [heq]; decide))
            · exact fun heq => hat (hsign .listIndex (by rw [heq]; decide))
          simp [operator?, bracket, hat, hne]
    exact ⟨_, hread, rfl, rfl, rfl⟩

/-! ### Finding what is read -/

section

variable {tier : Nat} {c : Char} {rest : List Char}

/-- A token comes next. -/
def Starts (tier : Nat) (chars : List Char) : Prop :=
  ∃ kind value span rest, chars = span ++ rest ∧ Span tier kind value span rest

/-- A number starts here. -/
theorem starts_decimal
    (hc : c.isDigit = true ∨ c = '.' ∧ (rest[0]?.getD Cursor.beyond).isDigit = true)
    (hhex : ¬ (c = '0' ∧ (rest[0]?.getD Cursor.beyond = 'x' ∨ rest[0]?.getD Cursor.beyond = 'X') ∧
      isHexDigit (rest[1]?.getD Cursor.beyond) = true)) : Starts tier (c :: rest) := by
  rcases hc with hc | ⟨rfl, hnext⟩
  · obtain ⟨more, back, rfl, hmore, hstops⟩ := exists_run Char.isDigit rest
    have hall : ∀ d ∈ c :: more, d.isDigit = true := List.forall_mem_cons.2 ⟨hc, hmore⟩
    by_cases hpoint : back.head? = some '.'
    · obtain ⟨others, rfl⟩ := List.head?_eq_some_iff.1 hpoint
      obtain ⟨fraction, back, rfl, hfraction, hstops⟩ := exists_run Char.isDigit others
      exact ⟨_, _, _, back, by simp, .point (.inl (List.cons_ne_nil c more)) hall hfraction hstops⟩
    · refine ⟨_, _, _, back, rfl, .whole (List.cons_ne_nil c more) hall (fun d hd => ?_) ?_⟩
      · have hne : d ≠ '.' := fun heq => hpoint (heq ▸ hd)
        simp [hstops d hd, hne]
      · rintro heq x d others rfl hx
        obtain ⟨rfl, rfl⟩ := List.cons.inj heq
        exact Bool.of_not_eq_true fun hd => hhex ⟨rfl, hx, hd⟩
  · obtain ⟨fraction, back, rfl, hne, hall, hstops⟩ := exists_run_of_next hnext (by decide)
    have hspan : Span tier .number _ ([] ++ '.' :: fraction) back :=
      .point (.inr hne) (by simp) hall hstops
    exact ⟨_, _, _, back, rfl, hspan⟩

/-- A bracket starts here. -/
theorem starts_bracket : Starts tier ('[' :: rest) := by
  by_cases hsign : ∃ a kind others, rest = a :: others ∧ (a, kind) ∈ bracketSigns ∧
      (a = '@' → Stops isQuote others)
  · obtain ⟨a, kind, others, rfl, hmem, hquote⟩ := hsign
    exact ⟨_, _, _, others, rfl, .sign hmem hquote⟩
  · refine ⟨_, _, _, rest, rfl, .bracket fun a kind others hrest hmem => ?_⟩
    have hnot : ¬ (a = '@' → Stops isQuote others) :=
      fun hquote => hsign ⟨a, kind, others, hrest, hmem, hquote⟩
    exact Classical.not_imp.1 hnot

/-- An operator starts here. -/
theorem starts_operator (hpoint : c = '.' → (rest[0]?.getD Cursor.beyond).isDigit = false)
    (h : operator? c (rest[0]?.getD Cursor.beyond) (rest[1]?.getD Cursor.beyond) ≠ none) :
    Starts tier (c :: rest) := by
  by_cases hbracket : c = '['
  · exact hbracket ▸ starts_bracket
  rw [operator?, if_neg hbracket] at h
  cases hdouble : Kind.doubleOperators.lookup (c, rest[0]?.getD Cursor.beyond) with
  | some kind =>
    have hbeyond : ∀ entry ∈ Kind.doubleOperators, entry.1.2 ≠ Cursor.beyond := by decide
    have hmem := mem_of_lookup hdouble
    obtain ⟨others, hrest⟩ := exists_of_next rfl (hbeyond _ hmem)
    rw [hrest] at hmem ⊢
    exact ⟨_, _, _, others, rfl, .double hmem⟩
  | none =>
    rw [hdouble] at h
    cases hsingle : Kind.singleOperators.lookup c with
    | none => simp [hsingle] at h
    | some kind =>
      refine ⟨_, _, _, rest, rfl, .single (mem_of_lookup hsingle) ?_ fun heq => ?_⟩
      · intro b hb kind hmem
        obtain ⟨others, rfl⟩ := List.head?_eq_some_iff.1 hb
        cases hdouble.symm.trans (lookup_double hmem)
      · exact stops_of_next (hpoint heq)

/-- What is read starts here. -/
theorem starts_of_read? {chars : List Char} (h : read? tier chars ≠ none) : Starts tier chars := by
  cases chars with
  | nil => exact absurd rfl h
  | cons c rest =>
    by_cases hdollar : c = '$' ∧ isHexDigit (rest[0]?.getD Cursor.beyond) = true
    · obtain ⟨rfl, hnext⟩ := hdollar
      obtain ⟨digits, back, rfl, hne, hall, hstops⟩ := exists_run_of_next hnext (by decide)
      exact ⟨_, _, _, back, rfl, .dollar hne hall hstops⟩
    by_cases hhex : c = '0' ∧
        (rest[0]?.getD Cursor.beyond = 'x' ∨ rest[0]?.getD Cursor.beyond = 'X') ∧
        isHexDigit (rest[1]?.getD Cursor.beyond) = true
    · obtain ⟨rfl, hx, hnext⟩ := hhex
      rcases rest with _ | ⟨x, rest⟩
      · exact absurd hx (by decide)
      · obtain ⟨digits, back, rfl, hne, hall, hstops⟩ := exists_run_of_next hnext (by decide)
        exact ⟨_, _, _, back, rfl, .hex hx hne hall hstops⟩
    by_cases hdecimal : c.isDigit = true ∨ c = '.' ∧ (rest[0]?.getD Cursor.beyond).isDigit = true
    · exact starts_decimal hdecimal hhex
    by_cases hstring : c = '"' ∨ c = '\'' ∧ tier < literalTier
    · obtain ⟨text, back, rfl, -, hquoted⟩ := exists_escapedText c rest
      exact ⟨_, _, _, back, rfl, .string hstring hquoted⟩
    by_cases hraw : c = '@' ∧ isQuote (rest[0]?.getD Cursor.beyond) = true
    · obtain ⟨rfl, hquote⟩ := hraw
      rcases rest with _ | ⟨quote, rest⟩
      · exact absurd hquote (by decide)
      · obtain ⟨text, back, rfl, -, hquoted⟩ := exists_rawText quote rest
        exact ⟨_, _, _, back, rfl, .raw (by simpa [isQuote] using hquote) hquoted⟩
    by_cases hword : c.isAlpha = true ∨ c = '_'
    · obtain ⟨more, back, rfl, hall, hstops⟩ := exists_run isNameChar rest
      exact ⟨_, _, _, back, rfl, .word hword hall hstops⟩
    have hread : read? tier (c :: rest) =
        operator? c (rest[0]?.getD Cursor.beyond) (rest[1]?.getD Cursor.beyond) := by
      simp only [read?, Bool.and_eq_true, Bool.or_eq_true, decide_eq_true_eq, and_assoc, hdollar,
        hhex, hdecimal, hstring, hraw, hword, if_false]
    rw [hread] at h
    refine starts_operator (fun heq => Bool.of_not_eq_true fun hnext => ?_) h
    exact hdecimal (.inr ⟨heq, hnext⟩)

end

/-- A token that is read is written so. -/
theorem Lexeme.exists_span {tier : Nat} {lexeme : Lexeme} (h : read? tier chars = some lexeme) :
    ∃ span rest, chars = span ++ rest ∧ span.length = lexeme.length ∧
      Span tier lexeme.kind lexeme.value span rest := by
  obtain ⟨kind, value, span, rest, rfl, hspan⟩ := starts_of_read? (by rw [h]; exact nofun)
  obtain ⟨other, hread, rfl, rfl, hlength⟩ := read?_of_span hspan
  cases hread.symm.trans h
  exact ⟨span, rest, rfl, hlength.symm, hspan⟩

end Gml
