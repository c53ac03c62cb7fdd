import Gml.Proofs.Token.Tiling

/-!
# Tokens with white space between them

A text without comments is made of tokens and white space (`Spaced`). Whether characters are read as
a token depends on what comes right after them; for each token this is a class of characters that it
would be glued to (`Spelled`), and white space is never among them. So it does not matter how much
white space there is, nor how lines end, and `tokenize` gives just the tokens of such a text
(`tokenize_of_spaced`).
-/

namespace Gml

open Text Lexeme

variable {tier : Nat} {kind : Kind} {chars rest : List Char} {glues : Char → Bool}

/-! ### Characters -/

variable {c : Char} {digits : List Char}

/-- What holds of all characters of ASCII. -/
theorem of_ascii {P : Char → Prop} (h : ∀ n < 128, P (Char.ofNat n)) (hc : c.toNat < 128) :
    P c := by
  rw [← Char.ofNat_toNat c]
  exact h _ hc

/-- Name characters have small codes. -/
theorem toNat_lt_of_isNameChar (h : isNameChar c = true) : c.toNat < 128 := by
  simp only [isNameChar, Bool.or_eq_true, decide_eq_true_eq] at h
  rcases h with h | rfl
  · rcases Bool.or_eq_true_iff.1 h with halpha | hdigit
    · have hrange := toNat_of_isAlpha halpha
      omega
    · have hrange := toNat_of_isDigit hdigit
      omega
  · decide

/-- A digit may be part of a name. -/
theorem isNameChar_of_isHexDigit (h : isHexDigit c = true) : isNameChar c = true := by
  have hlt : c.toNat < 128 := by
    simp only [isHexDigit, Char.isDigit, Bool.or_eq_true, Bool.and_eq_true, decide_eq_true_eq,
      Char.le_def, ge_iff_le, UInt32.le_iff_toNat_le] at h
    change ((48 ≤ c.toNat ∧ c.toNat ≤ 57) ∨ (97 ≤ c.toNat ∧ c.toNat ≤ 102)) ∨
      (65 ≤ c.toNat ∧ c.toNat ≤ 70) at h
    omega
  exact of_ascii (P := fun c => isHexDigit c = true → isNameChar c = true) (by decide) hlt h

/-- A decimal digit is a digit. -/
theorem isHexDigit_of_isDigit (h : c.isDigit = true) : isHexDigit c = true := by
  simp [isHexDigit, h]

/-- A name character is not blank. -/
theorem isBlank_of_isNameChar (h : isNameChar c = true) : isBlank c = false :=
  of_ascii (P := fun c => isNameChar c = true → isBlank c = false) (by decide)
    (toNat_lt_of_isNameChar h) h

/-- Nor is a digit. -/
theorem isBlank_of_isHexDigit (h : isHexDigit c = true) : isBlank c = false :=
  isBlank_of_isNameChar (isNameChar_of_isHexDigit h)

/-- A blank is no name character. -/
theorem isNameChar_of_isBlank (h : isBlank c = true) : isNameChar c = false := by
  by_cases hname : isNameChar c = true
  · rw [isBlank_of_isNameChar hname] at h
    cases h
  · exact Bool.eq_false_iff.2 hname

/-! ### Line ends -/

/-- Only line feeds are new. -/
theorem mem_unifyLineEnds {chars : List Char} (h : c ∈ unifyLineEnds chars) :
    c = '\n' ∨ c ∈ chars := by
  fun_induction unifyLineEnds chars with
  | case1 => simp at h
  | case2 rest ih =>
    rcases List.mem_cons.1 h with rfl | h
    · exact .inl rfl
    · exact (ih h).imp_right fun hmem => by simp [hmem]
  | case3 rest _ ih =>
    rcases List.mem_cons.1 h with rfl | h
    · exact .inl rfl
    · exact (ih h).imp_right fun hmem => by simp [hmem]
  | case4 d rest _ _ ih =>
    rcases List.mem_cons.1 h with rfl | h
    · simp
    · exact (ih h).imp_right fun hmem => by simp [hmem]

/-- What has no carriage return stays. -/
theorem unifyLineEnds_append {chars : List Char} (h : '\r' ∉ chars) (rest : List Char) :
    unifyLineEnds (chars ++ rest) = chars ++ unifyLineEnds rest := by
  induction chars with
  | nil => rfl
  | cons c chars ih =>
    have hc : c ≠ '\r' := (List.ne_of_not_mem_cons h).symm
    rw [List.cons_append, unifyLineEnds, ih (List.not_mem_of_not_mem_cons h)]
    · rfl
    · exact fun _ heq => absurd heq hc
    · exact hc

/-- No carriage return stays. -/
theorem noReturn_unifyLineEnds (chars : List Char) : '\r' ∉ unifyLineEnds chars := by
  fun_induction unifyLineEnds chars with
  | case1 => exact List.not_mem_nil
  | case2 rest ih | case3 rest _ ih => exact List.not_mem_cons_of_ne_of_not_mem (by decide) ih
  | case4 c rest _ hc ih => exact List.not_mem_cons_of_ne_of_not_mem (Ne.symm hc) ih

/-- So a source has none. -/
theorem Source.noReturn (text : String) : '\r' ∉ (Source.ofString text).chars := by
  have hunify := noReturn_unifyLineEnds text.toList
  change '\r' ∉ endLastLine (unifyLineEnds text.toList)
  unfold endLastLine
  split
  · exact hunify
  · rw [List.mem_append, not_or]
    exact ⟨hunify, by decide⟩

/-- A source ends with a line feed. -/
theorem getLast?_endLastLine (chars : List Char) : (endLastLine chars).getLast? = some '\n' := by
  unfold endLastLine
  split
  next h => exact h
  next => exact List.getLast?_concat

/-- A source is the source of its own characters. -/
theorem Source.ofString_chars (text : String) :
    Source.ofString (.ofList (Source.ofString text).chars) = Source.ofString text := by
  have hunify := unifyLineEnds_append (Source.noReturn text) []
  rw [List.append_nil, unifyLineEnds, List.append_nil] at hunify
  rw [Source.ofString, String.toList_ofList, hunify]
  exact congrArg Source.ofChars (if_pos (getLast?_endLastLine _))

/-- It has the characters of its text. -/
theorem Source.mem_chars {text : String} (h : c ∈ (Source.ofString text).chars) :
    c = '\n' ∨ c ∈ text.toList := by
  have hmem : c ∈ unifyLineEnds text.toList ∨ c = '\n' := by
    have hend : c ∈ endLastLine (unifyLineEnds text.toList) := h
    unfold endLastLine at hend
    split at hend
    · exact .inl hend
    · simpa using hend
  rcases hmem with hmem | hmem
  · exact mem_unifyLineEnds hmem
  · exact .inl hmem

/-! ### Tokens and white space -/

/-- Characters that are read as a token, unless a character that they are glued to comes right after
them. -/
structure Spelled (tier : Nat) (kind : Kind) (value : String) (chars : List Char)
    (glues : Char → Bool) : Prop where
  span : ∀ rest, Stops glues rest → Span tier kind value chars rest
  noGap : ∀ done rest, Stops glues rest → ¬ InGap done (chars ++ rest)
  noReturn : '\r' ∉ chars
  apart : ∀ c, isBlank c = true → glues c = false

/-- What starts with none of the characters that a gap starts with is not part of one. -/
theorem not_inGap (hblank : isBlank c = false) (hslash : c ≠ '/') (hhash : c ≠ '#')
    (done rest : List Char) : ¬ InGap done (c :: rest) := by
  rintro ⟨piece, others, heq, hpiece⟩
  cases hpiece with
  | blank hc =>
    obtain ⟨rfl, -⟩ := List.cons.inj heq
    rw [hc] at hblank
    cases hblank
  | directive => exact hhash (List.cons.inj heq).1
  | _ => exact hslash (List.cons.inj heq).1

/-- A name is no gap. -/
theorem not_inGap_of_isNameChar (h : isNameChar c = true) (done rest : List Char) :
    ¬ InGap done (c :: rest) := by
  refine not_inGap (isBlank_of_isNameChar h) ?_ ?_ done rest
  all_goals
    rintro rfl
    exact absurd h (by decide)

/-- It has no carriage return. -/
theorem noReturn_of_isNameChar {chars : List Char} (h : ∀ c ∈ chars, isNameChar c = true) :
    '\r' ∉ chars :=
  fun hmem => absurd (h _ hmem) (by decide)

/-- A name, or a word of the language. -/
theorem spelled_word {first : Char} {more : List Char}
    (hfirst : first.isAlpha = true ∨ first = '_') (hmore : ∀ c ∈ more, isNameChar c = true) :
    Spelled tier ((Kind.ofWord? (.ofList (first :: more))).getD .identifier)
      (.ofList (first :: more)) (first :: more) isNameChar := by
  have hname : isNameChar first = true := by
    rcases hfirst with h | rfl
    · simp [isNameChar, Char.isAlphanum, h]
    · decide
  refine ⟨fun rest hrest => .word hfirst hmore hrest, fun done rest _ => ?_, ?_,
    fun _ => isNameChar_of_isBlank⟩
  · exact not_inGap_of_isNameChar hname done (more ++ rest)
  · exact noReturn_of_isNameChar (List.forall_mem_cons.2 ⟨hname, hmore⟩)

/-- An operator or bracket of one character, unless it is the start of a longer one. -/
theorem spelled_single {a : Char} (hmem : (a, kind) ∈ Kind.singleOperators) (hslash : a ≠ '/')
    (hdot : a ≠ '.') :
    Spelled tier kind (.ofList [a]) [a] fun b =>
      Kind.doubleOperators.any fun entry => entry.1 = (a, b) := by
  have hsingle : ∀ entry ∈ Kind.singleOperators,
      isBlank entry.1 = false ∧ entry.1 ≠ '#' ∧ entry.1 ≠ '\r' := by
    decide
  have hdouble : ∀ entry ∈ Kind.doubleOperators, isBlank entry.1.2 = false := by decide
  refine ⟨fun rest hrest => .single hmem (fun b hb other hother => ?_) fun h => absurd h hdot,
    fun done rest _ => ?_, ?_, fun b hb => ?_⟩
  · simpa using List.any_eq_false.1 (hrest b hb) _ hother
  · exact not_inGap (hsingle _ hmem).1 hslash (hsingle _ hmem).2.1 done rest
  · simpa using (hsingle _ hmem).2.2.symm
  · refine List.any_eq_false.2 fun entry hentry => ?_
    have hblank := hdouble entry hentry
    simp only [decide_eq_true_eq]
    intro heq
    rw [heq] at hblank
    exact absurd (hb.symm.trans hblank) (by decide)

/-- What a number would be glued to. -/
def gluesNumber (c : Char) : Bool :=
  isNameChar c || c = '.'

/-- What stops a number stops less. -/
theorem Stops.of_gluesNumber {p : Char → Bool} (h : Stops gluesNumber rest)
    (hp : ∀ c, p c = true → gluesNumber c = true) : Stops p rest := by
  intro c hc
  by_cases hpc : p c = true
  · exact absurd ((hp c hpc).symm.trans (h c hc)) (by decide)
  · exact Bool.eq_false_iff.2 hpc

/-- A digit goes on with a number. -/
theorem gluesNumber_of_isHexDigit (h : isHexDigit c = true) : gluesNumber c = true := by
  simp [gluesNumber, isNameChar_of_isHexDigit h]

/-- A blank does not. -/
theorem gluesNumber_of_isBlank (h : isBlank c = true) : gluesNumber c = false := by
  have hdot : c ≠ '.' := by
    rintro rfl
    exact absurd h (by decide)
  simp [gluesNumber, isNameChar_of_isBlank h, hdot]

/-- A whole number in decimal. -/
theorem spelled_decimal (hsome : digits ≠ []) (hall : ∀ c ∈ digits, c.isDigit = true) :
    Spelled tier .number (.ofList digits) digits gluesNumber := by
  have hnames : ∀ c ∈ digits, isNameChar c = true :=
    fun c hc => isNameChar_of_isHexDigit (isHexDigit_of_isDigit (hall c hc))
  refine ⟨fun rest hrest => .whole hsome hall (hrest.of_gluesNumber fun c hc => ?_) ?_,
    fun done rest _ => ?_, noReturn_of_isNameChar hnames, fun _ => gluesNumber_of_isBlank⟩
  · rcases Bool.or_eq_true_iff.1 hc with hc | hc
    · exact gluesNumber_of_isHexDigit (isHexDigit_of_isDigit hc)
    · simp [gluesNumber, hc]
  · rintro - x c others rfl hx
    have hstop := hrest x rfl
    rcases hx with rfl | rfl <;> exact absurd hstop (by decide)
  · obtain ⟨c, more, rfl⟩ := List.exists_cons_of_ne_nil hsome
    exact not_inGap_of_isNameChar (hnames c List.mem_cons_self) done (more ++ rest)

/-- A whole number in hexadecimal after a dollar sign. -/
theorem spelled_dollar (hsome : digits ≠ []) (hall : ∀ c ∈ digits, isHexDigit c = true) :
    Spelled tier .number (.ofList ('$' :: digits)) ('$' :: digits) gluesNumber := by
  have hnames : ∀ c ∈ digits, isNameChar c = true := fun c hc => isNameChar_of_isHexDigit (hall c hc)
  refine ⟨fun rest hrest => .dollar hsome hall (hrest.of_gluesNumber fun c hc =>
    gluesNumber_of_isHexDigit hc), fun done rest _ => ?_, ?_, fun _ => gluesNumber_of_isBlank⟩
  · exact not_inGap (by decide) (by decide) (by decide) done (digits ++ rest)
  · exact List.not_mem_cons_of_ne_of_not_mem (by decide) (noReturn_of_isNameChar hnames)

/-- A whole number in hexadecimal after `0x`. -/
theorem spelled_hex {x : Char} (hx : x = 'x' ∨ x = 'X') (hsome : digits ≠ [])
    (hall : ∀ c ∈ digits, isHexDigit c = true) :
    Spelled tier .number (.ofList ('0' :: x :: digits)) ('0' :: x :: digits) gluesNumber := by
  have hnames : ∀ c ∈ x :: digits, isNameChar c = true :=
    List.forall_mem_cons.2 ⟨by rcases hx with rfl | rfl <;> decide,
      fun c hc => isNameChar_of_isHexDigit (hall c hc)⟩
  refine ⟨fun rest hrest => .hex hx hsome hall (hrest.of_gluesNumber fun c hc =>
    gluesNumber_of_isHexDigit hc), fun done rest _ => ?_, ?_, fun _ => gluesNumber_of_isBlank⟩
  · exact not_inGap (by decide) (by decide) (by decide) done (x :: digits ++ rest)
  · exact List.not_mem_cons_of_ne_of_not_mem (by decide) (noReturn_of_isNameChar hnames)

/-- Tokens are written in a text, with white space around them or not. -/
inductive Spaced (tier : Nat) : List (Kind × String) → List Char → Prop where
  | nil : Spaced tier [] []
  | blank {c : Char} {rest : List Char} {tokens : List (Kind × String)} : isBlank c = true →
      Spaced tier tokens rest → Spaced tier tokens (c :: rest)
  | token {kind : Kind} {value : String} {chars rest : List Char} {glues : Char → Bool}
      {tokens : List (Kind × String)} : Spelled tier kind value chars glues → Stops glues rest →
      Spaced tier tokens rest → Spaced tier ((kind, value) :: tokens) (chars ++ rest)

/-- A token without its place. -/
def Token.shape (token : Token) : Kind × String :=
  (token.kind, token.value)

namespace Spaced

variable {tokens : List (Kind × String)} {text : List Char}

/-- The tokens of such a text follow those before it. -/
theorem tiles {source : Source} (h : Spaced tier tokens text) :
    ∀ {done : List Char} {before : List Token}, Tiles tier source done before text →
      ∃ found : List Token, found.map Token.shape = tokens ∧
        Tiles tier source (done ++ text) (before ++ found) [] := by
  induction h with
  | nil =>
    intro done before htiles
    exact ⟨[], rfl, by simpa using htiles⟩
  | @blank c rest tokens hc _ ih =>
    intro done before htiles
    have hnext : Tiles tier source (done ++ [c]) before rest := htiles.gap (.blank hc)
    obtain ⟨found, hfound, hall⟩ := ih hnext
    exact ⟨found, hfound, by simpa using hall⟩
  | @token kind value chars rest glues tokens hspelled hstops _ ih =>
    intro done before htiles
    obtain ⟨found, hfound, hall⟩ := ih (htiles.token (hspelled.noGap done rest hstops)
      (hspelled.span rest hstops))
    refine ⟨⟨kind, value, source.position done.length⟩ :: found, ?_, by simpa using hall⟩
    rw [List.map_cons, hfound]
    rfl

/-! ### Line ends -/

/-- Line ends still stop. -/
theorem stops_unify (hapart : ∀ c, isBlank c = true → glues c = false)
    (h : Stops glues text) : Stops glues (unifyLineEnds text) := by
  fun_cases unifyLineEnds text with
  | case1 => exact h
  | case2 | case3 =>
    rintro _ ⟨⟩
    exact hapart '\n' (by decide)
  | case4 =>
    rintro _ ⟨⟩
    exact h _ rfl

/-- It does not matter how lines end. -/
theorem unify (h : Spaced tier tokens text) : Spaced tier tokens (unifyLineEnds text) := by
  induction h with
  | nil => exact .nil
  | @blank c rest tokens hc hrest ih =>
    by_cases hreturn : c = '\r'
    · subst hreturn
      by_cases hfeed : rest.head? = some '\n'
      · -- The two characters are one line end, which the line feed alone would be as well.
        obtain ⟨others, rfl⟩ := List.head?_eq_some_iff.1 hfeed
        exact ih
      · rw [unifyLineEnds]
        · exact .blank (by decide) ih
        · rintro others rfl
          exact hfeed rfl
    · rw [unifyLineEnds]
      · exact .blank hc ih
      · exact fun _ heq => absurd heq hreturn
      · exact hreturn
  | token hspelled hstops _ ih =>
    rw [unifyLineEnds_append hspelled.noReturn]
    exact .token hspelled (stops_unify hspelled.apart hstops) ih

/-- A line feed may come at the end. -/
theorem append_lineFeed (h : Spaced tier tokens text) : Spaced tier tokens (text ++ ['\n']) := by
  induction h with
  | nil => exact .blank (by decide) .nil
  | blank hc _ ih => exact .blank hc ih
  | @token kind value chars rest glues tokens hspelled hstops _ ih =>
    rw [List.append_assoc]
    refine .token hspelled ?_ ih
    cases rest with
    | nil =>
      rintro _ ⟨⟩
      exact hspelled.apart _ (by decide)
    | cons c rest => exact hstops

/-- A text is spaced as a source. -/
theorem source (h : Spaced tier tokens text) :
    Spaced tier tokens (endLastLine (unifyLineEnds text)) := by
  unfold endLastLine
  split
  · exact h.unify
  · exact h.unify.append_lineFeed

end Spaced

/-- The tokens of a text of tokens and white space are just these, and the end. -/
theorem tokenize_eq_of_spaced {text : String} {shapes : List (Kind × String)}
    (h : Spaced tier shapes text.toList) : ∃ (found : List Token) (position : Position),
      found.map Token.shape = shapes ∧ tokenize text tier = .ok (found ++ [.ending position]) := by
  have hstart : Tiles tier (Source.ofString text) [] [] (Source.ofString text).chars := .start
  obtain ⟨found, hfound, htiles⟩ := h.source.tiles hstart
  exact ⟨found, _, hfound, htiles.tokens_of_cover⟩

/-- A spaced text has its tokens. -/
theorem tokenize_of_spaced {text : String} {shapes : List (Kind × String)}
    (h : Spaced tier shapes text.toList) : ∃ (found : List Token) (last : Token),
      found.map Token.shape = shapes ∧ last.kind = .endOfFile ∧
        tokenize text tier = .ok (found ++ [last]) := by
  obtain ⟨found, position, hfound, htokens⟩ := tokenize_eq_of_spaced h
  exact ⟨found, .ending position, hfound, rfl, htokens⟩

end Gml
