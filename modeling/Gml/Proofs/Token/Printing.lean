import Gml.Proofs.Token.Layout
import Mathlib.Data.List.Forall2

/-!
# Printing tokens

A token is printed with the text that it has, and a text literal as a literal that stands for its
characters (`Printed`). What is printed is a token again if white space comes after it, whatever came
after it in the text that the token is from: numbers, words and operators have nothing to be glued to
then (`Span.spelled`), and a literal ends with its closing quote (`spelled_string`, `spelled_raw`).

So printing the tokens of a text and reading them again gives the same tokens
(`tokenize_of_printed`).
-/

namespace Gml

open Text Lexeme

/-! ### Printed tokens -/

/-- How a character is written inside of a text literal in double quotes. -/
def escaped (c : Char) : List Char :=
  if c = '\\' then ['\\', '\\']
  else if c = '"' then ['\\', '"']
  else if c = '\n' then ['\\', 'n']
  else if c = '\r' then ['\\', 'r']
  else [c]

/-- What a token of a kind with a value is printed with. A text without escapes may stand in either
of the quotes, if it does not hold it. -/
inductive Printed : Kind → String → List Char → Prop where
  | string {value : String} :
      Printed .string value ('"' :: (value.toList.flatMap escaped ++ ['"']))
  | raw {value : String} {quote : Char} : isQuote quote = true → quote ∉ value.toList →
      Printed .rawString value ('@' :: quote :: (value.toList ++ [quote]))
  | plain {kind : Kind} {value : String} : kind ≠ .string → kind ≠ .rawString →
      Printed kind value value.toList

namespace Token

/-- What a token may be printed with. -/
def Prints (token : Token) (chars : List Char) : Prop :=
  Printed token.kind token.value chars

/-- What a token is printed with if double quotes are used where they can be. -/
def print (token : Token) : List Char :=
  let chars := token.value.toList
  if token.kind = .string then '"' :: (chars.flatMap escaped ++ ['"'])
  else if token.kind = .rawString then
    let quote := if '"' ∈ chars then '\'' else '"'
    '@' :: quote :: (chars ++ [quote])
  else chars

end Token

variable {tier : Nat} {kind : Kind} {value : String} {chars span rest : List Char}

/-! ### Text literals -/

/-- One character after a backslash that stands for one character. -/
theorem Quoted.mark {quote c d : Char} {text rest value : List Char}
    (h : ∀ chars, Lexeme.escape (d :: chars) = ([c], 1)) (hquoted : Quoted true quote text rest value) :
    Quoted true quote ('\\' :: d :: text) rest (c :: value) :=
  @Quoted.escape true quote [d] [c] text rest value rfl (h _) hquoted

/-- Escapes are read back. -/
theorem quoted_escaped (value rest : List Char) :
    Quoted true '"' (value.flatMap escaped ++ ['"']) rest value := by
  induction value with
  | nil => exact .close
  | cons c value ih =>
    rw [List.flatMap_cons, List.append_assoc]
    by_cases hback : c = '\\'
    · subst hback
      exact .mark (fun _ => rfl) ih
    by_cases hquote : c = '"'
    · subst hquote
      exact .mark (fun _ => rfl) ih
    by_cases hfeed : c = '\n'
    · subst hfeed
      exact .mark (fun _ => rfl) ih
    by_cases hreturn : c = '\r'
    · subst hreturn
      exact .mark (fun _ => rfl) ih
    · rw [escaped, if_neg hback, if_neg hquote, if_neg hfeed, if_neg hreturn]
      exact .char hquote (fun _ => hback) (by simp) ih

/-- They have no carriage return. -/
theorem noReturn_escaped (c : Char) : '\r' ∉ escaped c := by
  unfold escaped
  repeat' split
  all_goals simp_all [eq_comm]

/-- A text literal can be printed whatever its characters are. -/
theorem spelled_string (value : List Char) (glues : Char → Bool)
    (hapart : ∀ c, isBlank c = true → glues c = false) :
    Spelled tier .string (.ofList value) ('"' :: (value.flatMap escaped ++ ['"'])) glues := by
  refine ⟨fun rest _ => .string (.inl rfl) (quoted_escaped value rest), fun done rest _ => ?_, ?_,
    hapart⟩
  · exact not_inGap (by decide) (by decide) (by decide) done _
  · simp only [List.mem_cons, List.mem_append, List.mem_flatMap, not_or, not_exists, not_and]
    exact ⟨by decide, fun c _ => noReturn_escaped c, by decide, List.not_mem_nil⟩

/-- A raw text is read back. -/
theorem quoted_raw {quote : Char} {value : List Char} (h : quote ∉ value) (rest : List Char) :
    Quoted false quote (value ++ [quote]) rest value := by
  induction value with
  | nil => exact .close
  | cons c value ih =>
    refine .char (List.ne_of_not_mem_cons h).symm nofun (by simp) ?_
    exact ih (List.not_mem_of_not_mem_cons h)

/-- A text without escapes holds all its characters as they are, but not the quote around it. -/
theorem Quoted.not_mem_raw {quote : Char} {text rest value : List Char}
    (h : Quoted false quote text rest value) : quote ∉ value ∧ ∀ c ∈ value, c ∈ text := by
  induction h with
  | close | stop => exact ⟨List.not_mem_nil, nofun⟩
  | char hc _ _ _ ih =>
    refine ⟨List.not_mem_cons_of_ne_of_not_mem hc.symm ih.1, ?_⟩
    intro d hd
    rcases List.mem_cons.1 hd with rfl | hd
    · exact List.mem_cons_self
    · exact List.mem_cons_of_mem _ (ih.2 d hd)
  | escape hfalse => cases hfalse

/-- A raw text is read as one token. -/
theorem spelled_raw {quote : Char} {value : List Char} (hquote : isQuote quote = true)
    (hvalue : quote ∉ value) (hreturn : '\r' ∉ value) (glues : Char → Bool)
    (hapart : ∀ c, isBlank c = true → glues c = false) :
    Spelled tier .rawString (.ofList value) ('@' :: quote :: (value ++ [quote])) glues := by
  have hquotes : quote = '"' ∨ quote = '\'' := by simpa [isQuote] using hquote
  have hne : '\r' ≠ quote := by
    rintro rfl
    exact absurd hquote (by decide)
  refine ⟨fun rest _ => .raw hquotes (quoted_raw hvalue rest), fun done rest _ => ?_, ?_, hapart⟩
  · exact not_inGap (by decide) (by decide) (by decide) done _
  · simp only [List.mem_cons, List.mem_append, not_or]
    exact ⟨by decide, hne, hreturn, hne, List.not_mem_nil⟩

/-! ### Other tokens -/

/-- A white space or nothing comes next. -/
abbrev Spacious (rest : List Char) : Prop :=
  Stops (fun c => !isBlank c) rest

/-- Space starts with a blank. -/
theorem Stops.blank (h : Spacious rest) {c : Char} (hc : c ∈ rest.head?) : isBlank c = true := by
  simpa using h c hc

/-- Space stops what is not blank. -/
theorem Stops.of_spacious {p : Char → Bool} (h : Spacious rest)
    (hp : ∀ c, p c = true → isBlank c = false) : Stops p rest := by
  refine fun c hc => Bool.eq_false_iff.2 fun hpc => ?_
  exact absurd ((hp c hpc).symm.trans (h.blank hc)) (by decide)

/-- A digit is not blank. -/
theorem isBlank_of_isDigit {c : Char} (h : c.isDigit = true) : isBlank c = false :=
  isBlank_of_isHexDigit (isHexDigit_of_isDigit h)

/-- Nor is a quote. -/
theorem isBlank_of_isQuote {c : Char} (h : isQuote c = true) : isBlank c = false := by
  have hc : c = '"' ∨ c = '\'' := by simpa [isQuote] using h
  rcases hc with rfl | rfl <;> decide

/-- What is no text literal is the same token if white space comes after it. -/
theorem Span.respaced (h : Span tier kind value span rest) (hstring : kind ≠ .string)
    (hraw : kind ≠ .rawString) {others : List Char} (hothers : Spacious others) :
    Span tier kind value span others := by
  cases h with
  | dollar hne hall => exact .dollar hne hall (.of_spacious hothers fun _ => isBlank_of_isHexDigit)
  | hex hx hne hall => exact .hex hx hne hall (.of_spacious hothers fun _ => isBlank_of_isHexDigit)
  | whole hne hall =>
    refine .whole hne hall (.of_spacious hothers fun c hc => ?_) ?_
    · rcases Bool.or_eq_true_iff.1 hc with hc | hc
      · exact isBlank_of_isDigit hc
      · rw [of_decide_eq_true hc]
        decide
    · rintro - x c others rfl hx
      have hblank := hothers x rfl
      rcases hx with rfl | rfl <;> exact absurd hblank (by decide)
  | point hne hdigits hfraction =>
    exact .point hne hdigits hfraction (.of_spacious hothers fun _ => isBlank_of_isDigit)
  | string => exact absurd rfl hstring
  | raw => exact absurd rfl hraw
  | word hfirst hmore =>
    exact .word hfirst hmore (.of_spacious hothers fun _ => isBlank_of_isNameChar)
  | double hmem => exact .double hmem
  | single hmem =>
    have hdouble : ∀ entry ∈ Kind.doubleOperators, isBlank entry.1.2 = false := by decide
    refine .single hmem (fun b hb other hother => ?_) fun _ =>
      .of_spacious hothers fun _ => isBlank_of_isDigit
    exact absurd ((hdouble _ hother).symm.trans (hothers.blank hb)) (by decide)
  | sign hmem => exact .sign hmem fun _ => .of_spacious hothers fun _ => isBlank_of_isQuote
  | bracket =>
    have hsigns : ∀ entry ∈ bracketSigns, isBlank entry.1 = false := by decide
    refine .bracket ?_
    rintro a other others rfl hmem
    exact absurd ((hsigns _ hmem).symm.trans (hothers.blank rfl)) (by decide)

/-- A token does not start as a gap does. A slash may be all of it or stand before `=`. -/
theorem Span.starts (h : Span tier kind value span rest) : ∃ c more, span = c :: more ∧
    isBlank c = false ∧ c ≠ '#' ∧ (c = '/' → more = [] ∨ more = ['=']) := by
  have hsingle : ∀ entry ∈ Kind.singleOperators, isBlank entry.1 = false ∧ entry.1 ≠ '#' := by
    decide
  have hdouble : ∀ entry ∈ Kind.doubleOperators, isBlank entry.1.1 = false ∧ entry.1.1 ≠ '#' ∧
      (entry.1.1 = '/' → entry.1.2 = '=') := by decide
  have hname {c : Char} {more : List Char} (hc : isNameChar c = true) : isBlank c = false ∧
      c ≠ '#' ∧ (c = '/' → more = [] ∨ more = ['=']) := by
    refine ⟨isBlank_of_isNameChar hc, ?_, ?_⟩
    all_goals
      rintro rfl
      exact absurd hc (by decide)
  cases h with
  | @dollar digits => exact ⟨'$', digits, rfl, by decide, by decide, fun h => absurd h (by decide)⟩
  | hex => exact ⟨'0', _, rfl, hname (by decide)⟩
  | whole hne hall =>
    obtain ⟨c, more, rfl⟩ := List.exists_cons_of_ne_nil hne
    exact ⟨c, more, rfl, hname (isNameChar_of_isHexDigit
      (isHexDigit_of_isDigit (hall c List.mem_cons_self)))⟩
  | @point digits fraction _ _ hdigits =>
    cases digits with
    | nil => exact ⟨'.', fraction, rfl, by decide, by decide, fun h => absurd h (by decide)⟩
    | cons c more =>
      exact ⟨c, _, rfl, hname (isNameChar_of_isHexDigit
        (isHexDigit_of_isDigit (hdigits c List.mem_cons_self)))⟩
  | @string quote text _ _ hquote =>
    refine ⟨quote, text, rfl, ?_⟩
    rcases hquote with rfl | ⟨rfl, -⟩ <;>
      exact ⟨by decide, by decide, fun h => absurd h (by decide)⟩
  | raw => exact ⟨'@', _, rfl, by decide, by decide, fun h => absurd h (by decide)⟩
  | @word first more _ hfirst =>
    refine ⟨first, more, rfl, hname ?_⟩
    rcases hfirst with h | rfl
    · simp [isNameChar, Char.isAlphanum, h]
    · decide
  | @double a b _ _ hmem =>
    obtain ⟨hblank, hhash, hslash⟩ := hdouble _ hmem
    exact ⟨a, [b], rfl, hblank, hhash, fun h => .inr (congrArg (List.cons · []) (hslash h))⟩
  | @single a _ _ hmem =>
    exact ⟨a, [], rfl, (hsingle _ hmem).1, (hsingle _ hmem).2, fun _ => .inl rfl⟩
  | @sign a => exact ⟨'[', [a], rfl, by decide, by decide, fun h => absurd h (by decide)⟩
  | bracket => exact ⟨'[', [], rfl, by decide, by decide, fun h => absurd h (by decide)⟩

/-- A token is no gap. -/
theorem Span.not_inGap (h : Span tier kind value span rest) (done : List Char) {others : List Char}
    (hothers : Spacious others) : ¬ InGap done (span ++ others) := by
  obtain ⟨c, more, rfl, hblank, hhash, hslash⟩ := h.starts
  by_cases hc : c = '/'
  · subst hc
    -- What comes after the slash is white space or `=`, so that no comment starts there.
    have hnext : ∀ d ∈ (more ++ others).head?, d ≠ '/' ∧ d ≠ '*' := by
      intro d hd
      rcases hslash rfl with rfl | rfl
      · have hd' := hothers.blank hd
        constructor
        all_goals
          rintro rfl
          exact absurd hd' (by decide)
      · obtain rfl := Option.some.inj hd
        decide
    rintro ⟨piece, back, heq, hpiece⟩
    obtain ⟨-, htail⟩ : '/' = '/' ∧ more ++ others = (piece ++ back).tail := by
      rw [← heq]
      exact ⟨rfl, rfl⟩
    cases hpiece with
    | blank hd =>
      obtain ⟨rfl, -⟩ := List.cons.inj heq
      cases hd
    | lineComment => exact (hnext '/' (by rw [htail]; rfl)).1 rfl
    | comment => exact (hnext '*' (by rw [htail]; rfl)).2 rfl
    | openComment => exact (hnext '*' (by rw [htail]; rfl)).2 rfl
    | directive => cases heq
  · exact Gml.not_inGap hblank hc hhash done (more ++ others)

/-- A token before space is itself. -/
theorem Span.spelled (h : Span tier kind value span rest) (hstring : kind ≠ .string)
    (hraw : kind ≠ .rawString) (hreturn : '\r' ∉ span) :
    Spelled tier kind value span fun c => !isBlank c :=
  ⟨fun _ hothers => h.respaced hstring hraw hothers, fun done _ hothers => h.not_inGap done hothers,
    hreturn, fun c hc => by rw [hc]; rfl⟩

/-! ### Texts -/

/-- Each token of a text is written in it. -/
theorem Tiles.span_of_mem {source : Source} {done : List Char} {tokens : List Token}
    (h : Tiles tier source done tokens rest) : ∀ token ∈ tokens, ∃ span others,
      Span tier token.kind token.value span others ∧ ∀ c ∈ span, c ∈ source.chars := by
  induction h with
  | start => exact nofun
  | gap _ _ ih => exact ih
  | @token done span rest tokens kind value htiles _ hspan ih =>
    intro token hmem
    rcases List.mem_append.1 hmem with hmem | hmem
    · exact ih token hmem
    · obtain rfl := List.mem_singleton.1 hmem
      refine ⟨span, rest, hspan, fun c hc => ?_⟩
      rw [← htiles.append_eq]
      simp [hc]

/-- A raw string has a quote that is not in it. -/
theorem Span.of_rawString (h : Span tier .rawString value span rest) :
    ∃ quote, isQuote quote = true ∧ quote ∉ value.toList ∧ ∀ c ∈ value.toList, c ∈ span := by
  rcases h.of_unlisted (by decide) with ⟨hkind, -⟩ | ⟨-, quote, text, chars, hquote, hquoted, rfl, rfl⟩
  · cases hkind
  · have hisQuote : isQuote quote = true := by rcases hquote with rfl | rfl <;> decide
    obtain ⟨hnot, hmem⟩ := hquoted.not_mem_raw
    rw [String.toList_ofList]
    exact ⟨quote, hisQuote, hnot, fun c hc => by simp [hmem c hc]⟩

/-- A token of a text can be printed. -/
theorem Token.prints_print {token : Token} (h : Span tier token.kind token.value span rest) :
    token.Prints token.print := by
  obtain ⟨kind, value, position⟩ := token
  unfold Token.Prints Token.print
  dsimp only at h ⊢
  split
  next hstring =>
    subst hstring
    exact .string
  next hstring =>
    split
    next hraw =>
      subst hraw
      obtain ⟨quote, hquote, hnot, -⟩ := h.of_rawString
      have hquotes : quote = '"' ∨ quote = '\'' := by simpa [isQuote] using hquote
      split
      next hmem =>
        obtain rfl : quote = '\'' := hquotes.resolve_left (by rintro rfl; exact hnot hmem)
        exact .raw hquote hnot
      next hmem => exact .raw (by decide) hmem
    next hraw => exact .plain hstring hraw

/-- However a token of a text is printed, it is the same token if white space comes after it. -/
theorem Printed.spelled (h : Printed kind value chars) (hspan : Span tier kind value span rest)
    (hreturn : '\r' ∉ span) : Spelled tier kind value chars fun c => !isBlank c := by
  have hapart : ∀ c, isBlank c = true → (!isBlank c) = false := fun c hc => by rw [hc]; rfl
  cases h with
  | string =>
    have hspelled := @spelled_string tier value.toList _ hapart
    rwa [String.ofList_toList] at hspelled
  | raw hquote hnot =>
    obtain ⟨-, -, -, hmem⟩ := hspan.of_rawString
    have hspelled := @spelled_raw tier _ value.toList hquote hnot
      (fun hc => hreturn (hmem _ hc)) _ hapart
    rwa [String.ofList_toList] at hspelled
  | plain hstring hraw =>
    rw [hspan.value_eq hstring hraw, String.toList_ofList] at *
    exact hspan.spelled hstring hraw hreturn

/-- Printed tokens with single spaces between them. -/
theorem spaced_printed {tokens : List Token} {words : List (List Char)}
    (h : List.Forall₂ (fun token chars => Spelled tier token.kind token.value chars fun c => !isBlank c)
      tokens words) : Spaced tier (tokens.map Token.shape) ([' '].intercalate words) := by
  induction h with
  | nil => exact .nil
  | @cons token chars tokens words hspelled hrest ih =>
    cases hrest with
    | nil =>
      rw [List.intercalate_singleton, ← List.append_nil chars]
      exact .token hspelled nofun .nil
    | cons =>
      rw [List.intercalate_cons_cons, List.append_assoc]
      have hblank : isBlank ' ' = true := by decide
      refine .token hspelled ?_ (.blank hblank ih)
      rintro _ ⟨⟩
      decide

/-- All tokens but the one at the end are written in the text. -/
theorem tiles_of_tokenize {text : String} {tokens : List Token}
    (h : tokenize text tier = .ok tokens) : ∃ position,
      Tiles tier (Source.ofString text) (Source.ofString text).chars
        (tokens.filter (·.kind ≠ .endOfFile)) [] ∧
      tokens = tokens.filter (·.kind ≠ .endOfFile) ++ [.ending position] := by
  obtain ⟨inner, htiles, rfl⟩ := exists_tiles_of_tokenize h
  have hfilter (last : Position) : (inner ++ [Token.ending last]).filter
      (fun token => decide (token.kind ≠ .endOfFile)) = inner := by
    rw [List.filter_append, List.filter_eq_self.2 fun token hmem =>
      decide_eq_true (htiles.stands token hmem).kind]
    exact List.append_nil _
  rw [hfilter]
  exact ⟨_, htiles, rfl⟩

/-- Every token of a text can be printed. -/
theorem prints_of_tokenize {text : String} {tokens : List Token}
    (h : tokenize text tier = .ok tokens) :
    List.Forall₂ Token.Prints (tokens.filter (·.kind ≠ .endOfFile))
      ((tokens.filter (·.kind ≠ .endOfFile)).map Token.print) := by
  obtain ⟨position, htiles, -⟩ := tiles_of_tokenize h
  refine List.forall₂_map_right_iff.2 (List.forall₂_same.2 fun token hmem => ?_)
  obtain ⟨span, rest, hspan, -⟩ := htiles.span_of_mem token hmem
  exact Token.prints_print hspan

/-- The tokens of a text can be printed with single spaces between them, and reading what is printed
gives tokens of the same kinds with the same values. -/
theorem tokenize_of_printed {text : String} {tier : Nat} {tokens : List Token}
    (h : tokenize text tier = .ok tokens) :
    (∃ words, List.Forall₂ Token.Prints (tokens.filter (·.kind ≠ .endOfFile)) words) ∧
    ∀ words, List.Forall₂ Token.Prints (tokens.filter (·.kind ≠ .endOfFile)) words →
      ∃ again, tokenize (.ofList ([' '].intercalate words)) tier = .ok again ∧
        again.map (fun token => (token.kind, token.value)) =
          tokens.map (fun token => (token.kind, token.value)) := by
  obtain ⟨last, htiles, htokens⟩ := tiles_of_tokenize h
  refine ⟨⟨_, prints_of_tokenize h⟩, fun words hwords => ?_⟩
  have hspelled : List.Forall₂ (fun token chars =>
      Spelled tier token.kind token.value chars fun c => !isBlank c)
      (tokens.filter (·.kind ≠ .endOfFile)) words := by
    refine List.Forall₂.imp ?_ ((List.forall₂_and_left _ words).2 ⟨htiles.span_of_mem, hwords⟩)
    rintro token chars ⟨⟨span, rest, hspan, hmem⟩, hprinted⟩
    exact hprinted.spelled hspan fun hreturn => Source.noReturn text (hmem _ hreturn)
  have hspaced : Spaced tier ((tokens.filter (·.kind ≠ .endOfFile)).map Token.shape)
      (String.ofList ([' '].intercalate words)).toList := by
    rw [String.toList_ofList]
    exact spaced_printed hspelled
  obtain ⟨found, position, hfound, hagain⟩ := tokenize_eq_of_spaced hspaced
  refine ⟨_, hagain, ?_⟩
  rw [htokens, List.map_append, List.map_append]
  exact congrArg (· ++ _) hfound

/-- A raw text that holds a double quote, a text with escapes, and operators that would be others or
a comment if they stood side by side. -/
theorem tokenize_of_printed_operators :
    let shapes : List (Kind × String) := [(.slash, "/"), (.starAssign, "*="), (.leftBracket, "["),
      (.rawString, "a\""), (.string, "A\n"), (.endOfFile, "")]
    (∃ tokens, tokenize "/ *= [ @'a\"' \"\\x41\\n\"" 2 = .ok tokens ∧
      tokens.map (fun token => (token.kind, token.value)) = shapes) ∧
    ∃ again, tokenize "/ *= [ @'a\"' \"A\\n\"" 2 = .ok again ∧
      again.map (fun token => (token.kind, token.value)) = shapes := by
  intro shapes
  obtain ⟨tokens, htokens, hall⟩ := exists_ok_of_any
    (p := fun tokens => tokens.map (fun token => (token.kind, token.value)) = shapes ∧
      String.ofList ([' '].intercalate ((tokens.filter (·.kind ≠ .endOfFile)).map Token.print)) =
        "/ *= [ @'a\"' \"A\\n\"")
    (x := tokenize "/ *= [ @'a\"' \"\\x41\\n\"" 2) (by decide +kernel)
  obtain ⟨hshapes, hprinted⟩ := of_decide_eq_true hall
  refine ⟨⟨tokens, htokens, hshapes⟩, ?_⟩
  rw [← hprinted, ← hshapes]
  exact (tokenize_of_printed htokens).2 _ (prints_of_tokenize htokens)

end Gml
