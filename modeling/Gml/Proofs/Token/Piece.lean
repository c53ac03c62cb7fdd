import Gml.Token.Lexer

/-!
# What gaps look like

`Piece` says what a piece of a gap looks like, in terms of the characters that it is written with and
of those around it. `Cursor.gapLength` measures such pieces: `Cursor.gapLength_of_piece` and
`Cursor.exists_piece`.
-/

namespace Gml

open Text

/-- No character of a kind comes next. -/
def Stops (p : Char → Bool) (rest : List Char) : Prop :=
  ∀ c ∈ rest.head?, p c = false

variable {rest chars text done : List Char} {p : Char → Bool}

/-- A run of characters is taken. -/
theorem Stops.takeWhile_append (h : Stops p rest) (hall : ∀ c ∈ chars, p c = true) :
    (chars ++ rest).takeWhile p = chars := by
  rw [List.takeWhile_append_of_pos hall]
  cases rest with
  | nil => simp
  | cons c rest => simp [h c rfl]

/-- A run has an end. -/
theorem stops_dropWhile (p : Char → Bool) (chars : List Char) : Stops p (chars.dropWhile p) := by
  intro c hc
  have h := List.head?_dropWhile_not p chars
  rw [Option.mem_def.1 hc] at h
  exact h

/-- The next character stops it. -/
theorem Stops.next (h : Stops p rest) (hbeyond : p Cursor.beyond = false) :
    p (rest[0]?.getD Cursor.beyond) = false := by
  cases rest with
  | nil => exact hbeyond
  | cons c rest => exact h c rfl

/-- The longest start of a text with characters of a kind. -/
theorem exists_run (p : Char → Bool) (chars : List Char) :
    ∃ front back, chars = front ++ back ∧ (∀ c ∈ front, p c = true) ∧ Stops p back := by
  refine ⟨_, _, List.takeWhile_append_dropWhile.symm, ?_, stops_dropWhile p chars⟩
  have hall : (chars.takeWhile p).all p = true := List.all_takeWhile
  exact List.all_eq_true.1 hall

/-- If the next character is of the kind, it is not empty. -/
theorem exists_run_of_next (h : p (chars[0]?.getD Cursor.beyond) = true)
    (hbeyond : p Cursor.beyond = false) :
    ∃ front back, chars = front ++ back ∧ front ≠ [] ∧ (∀ c ∈ front, p c = true) ∧
      Stops p back := by
  obtain ⟨front, back, rfl, hall, hstops⟩ := exists_run p chars
  refine ⟨front, back, rfl, ?_, hall, hstops⟩
  rintro rfl
  rw [List.nil_append, hstops.next hbeyond] at h
  cases h

/-- Characters of a kind stop if the next is of another. -/
theorem stops_of_next (h : p (rest[0]?.getD Cursor.beyond) = false) : Stops p rest := by
  cases rest with
  | nil => rintro _ ⟨⟩
  | cons c rest =>
    rintro _ ⟨⟩
    exact h

/-- A character other than the one beyond the end is in the text. -/
theorem exists_of_next {c : Char} (h : rest[0]?.getD Cursor.beyond = c) (hc : c ≠ Cursor.beyond) :
    ∃ others, rest = c :: others := by
  cases rest with
  | nil => exact absurd h.symm hc
  | cons d rest =>
    obtain rfl : d = c := h
    exact ⟨rest, rfl⟩

/-! ### Gaps -/

/-- The line is over. -/
abbrev LineOver (rest : List Char) : Prop :=
  Stops (· ≠ '\n') rest

/-- Only blanks have been read since the start of the line. -/
def OnlyBlanks (done : List Char) : Prop :=
  ∃ lines blanks, done = lines ++ blanks ∧ (∀ c ∈ blanks, c = ' ' ∨ c = '\t') ∧
    ∀ c ∈ lines.getLast?, c = '\n'

/-- A piece of a gap, after what has been read and before what has not. -/
inductive Piece (done : List Char) : List Char → List Char → Prop where
  /-- One white space. -/
  | blank {c : Char} {rest : List Char} : isBlank c = true → Piece done [c] rest
  /-- A comment up to the end of its line. -/
  | lineComment {text rest : List Char} : '\n' ∉ text → LineOver rest →
      Piece done ('/' :: '/' :: text) rest
  /-- A comment up to the first closing mark. -/
  | comment {text rest : List Char} : ¬ ['*', '/'] <:+: text ++ ['*'] →
      Piece done ('/' :: '*' :: (text ++ ['*', '/'])) rest
  /-- A comment without a closing mark. -/
  | openComment {text : List Char} : ¬ ['*', '/'] <:+: text → Piece done ('/' :: '*' :: text) []
  /-- A line that starts with `#`. -/
  | directive {text rest : List Char} : OnlyBlanks done → '\n' ∉ text → LineOver rest →
      Piece done ('#' :: text) rest

/-- The cursor between two parts of a text. -/
def Cursor.after (done rest : List Char) : Cursor :=
  ⟨done.reverse, rest, done.length, by simp⟩

/-- A cursor moves over characters. -/
theorem Cursor.advance_after (done chars rest : List Char) :
    (Cursor.after done (chars ++ rest)).advance chars.length =
      Cursor.after (done ++ chars) rest := by
  induction chars generalizing done with
  | nil => simp [Cursor.advance]
  | cons c chars ih =>
    have h := ih (done ++ [c])
    simpa [Cursor.after, Cursor.advance] using h

/-- A line has its length. -/
theorem lineLength_append (h : '\n' ∉ text) (hover : LineOver rest) :
    lineLength (text ++ rest) = text.length := by
  unfold lineLength
  rw [hover.takeWhile_append]
  intro c hc
  have hne : c ≠ '\n' := fun heq => h (heq ▸ hc)
  simp [hne]

/-- Every text starts with a line. -/
theorem exists_line (chars : List Char) :
    ∃ text rest, chars = text ++ rest ∧ '\n' ∉ text ∧ LineOver rest := by
  obtain ⟨text, rest, hchars, hall, hover⟩ := exists_run (· ≠ '\n') chars
  refine ⟨text, rest, hchars, fun hmem => ?_, hover⟩
  simpa using hall _ hmem

/-- A comment closes here or later. -/
theorem closing_cons {c : Char} :
    ['*', '/'] <:+: c :: text ↔ (c = '*' ∧ text.head? = some '/') ∨ ['*', '/'] <:+: text := by
  have hhead : ['/'] <+: text ↔ text.head? = some '/' := by
    cases text <;> simp [List.cons_prefix_cons, eq_comm]
  rw [List.infix_cons_iff, List.cons_prefix_cons, hhead, eq_comm]

/-- A comment goes on. -/
theorem commentLength_cons {c : Char} (h : ¬ (c = '*' ∧ chars.head? = some '/')) :
    commentLength (c :: chars) = commentLength chars + 1 := by
  rw [commentLength]
  rintro rest rfl rfl
  exact h ⟨rfl, rfl⟩

/-- A comment has its length. -/
theorem commentLength_append (h : ¬ ['*', '/'] <:+: text ++ ['*']) :
    commentLength (text ++ '*' :: '/' :: rest) = text.length + 2 := by
  induction text with
  | nil => rfl
  | cons c text ih =>
    rw [List.cons_append, closing_cons, not_or] at h
    have hfirst : ¬ (c = '*' ∧ (text ++ '*' :: '/' :: rest).head? = some '/') := by
      cases text with
      | nil => simp
      | cons d text => exact h.1
    rw [List.cons_append, commentLength_cons hfirst, ih h.2, List.length_cons]

/-- So has an open one. -/
theorem commentLength_open (h : ¬ ['*', '/'] <:+: text) : commentLength text = text.length := by
  induction text with
  | nil => rfl
  | cons c text ih =>
    rw [closing_cons, not_or] at h
    rw [commentLength_cons h.1, ih h.2, List.length_cons]

/-- A text has a first closing mark or none. -/
theorem exists_comment (chars : List Char) :
    (∃ text rest, chars = text ++ '*' :: '/' :: rest ∧ ¬ ['*', '/'] <:+: text ++ ['*']) ∨
      ¬ ['*', '/'] <:+: chars := by
  induction chars with
  | nil => exact .inr (by simp)
  | cons c chars ih =>
    by_cases hfirst : c = '*' ∧ chars.head? = some '/'
    · obtain ⟨rfl, hhead⟩ := hfirst
      obtain ⟨rest, rfl⟩ := List.head?_eq_some_iff.1 hhead
      exact .inl ⟨[], rest, rfl, by decide⟩
    · rcases ih with ⟨text, rest, rfl, hnone⟩ | hnone
      · refine .inl ⟨c :: text, rest, rfl, ?_⟩
        rw [List.cons_append, closing_cons, not_or]
        refine ⟨?_, hnone⟩
        cases text with
        | nil => simp
        | cons d text => exact hfirst
      · exact .inr (by rw [closing_cons, not_or]; exact ⟨hfirst, hnone⟩)

/-- Whether a character may stand before the `#` of a line. -/
def isIndent (c : Char) : Bool :=
  c = ' ' || c = '\t'

/-- A line starts with blanks. -/
theorem Cursor.atLineStart_after :
    (Cursor.after done rest).atLineStart = true ↔ OnlyBlanks done := by
  have hunfold : (Cursor.after done rest).atLineStart = true ↔
      ∀ c ∈ (done.reverse.dropWhile isIndent).head?, c = '\n' := by
    change (Cursor.atLineStart ⟨done.reverse, rest, _, _⟩) = true ↔ _
    unfold atLineStart
    split
    next hnil =>
      have hnil' : done.reverse.dropWhile isIndent = [] := hnil
      simp [hnil']
    next c others hcons =>
      have hcons' : done.reverse.dropWhile isIndent = c :: others := hcons
      simp [hcons']
  rw [hunfold]
  constructor
  · intro h
    refine ⟨(done.reverse.dropWhile isIndent).reverse, (done.reverse.takeWhile isIndent).reverse,
      ?_, ?_, ?_⟩
    · rw [← List.reverse_append, List.takeWhile_append_dropWhile, List.reverse_reverse]
    · intro c hc
      have hall : (done.reverse.takeWhile isIndent).all isIndent = true := List.all_takeWhile
      simpa [isIndent] using List.all_eq_true.1 hall c (List.mem_reverse.1 hc)
    · simpa using h
  · rintro ⟨lines, blanks, rfl, hblanks, hlines⟩
    have hall : ∀ c ∈ blanks.reverse, isIndent c = true := by
      intro c hc
      simpa [isIndent] using hblanks c (List.mem_reverse.1 hc)
    rw [List.reverse_append, List.dropWhile_append_of_pos hall]
    intro c hc
    apply hlines
    rw [List.getLast?_eq_head?_reverse]
    cases hreverse : lines.reverse with
    | nil => simp [hreverse] at hc
    | cons d others =>
      have hd : d = '\n' := hlines d (by rw [List.getLast?_eq_head?_reverse, hreverse]; rfl)
      simpa [hreverse, hd, isIndent] using hc

/-- A piece has its length. -/
theorem Cursor.gapLength_of_piece {piece : List Char} (h : Piece done piece rest) :
    (Cursor.after done (piece ++ rest)).gapLength = piece.length := by
  have hslash : isBlank '/' = false := by decide
  cases h with
  | blank hblank => simp [gapLength, after, hblank]
  | @lineComment text rest htext hover =>
    have hlength : lineLength ('/' :: '/' :: text ++ rest) = ('/' :: '/' :: text).length :=
      lineLength_append (by simpa using htext) hover
    simpa [gapLength, after, hslash] using hlength
  | @comment text rest hclosing =>
    have hlength : commentLength (text ++ '*' :: '/' :: rest) = text.length + 2 :=
      commentLength_append hclosing
    simp [gapLength, after, hslash, hlength]
  | openComment hclosing => simp [gapLength, after, hslash, commentLength_open hclosing]
  | @directive text rest hblanks htext hover =>
    have hlength : lineLength ('#' :: text ++ rest) = ('#' :: text).length :=
      lineLength_append (by simpa using htext) hover
    have hstart : (Cursor.after done ('#' :: text ++ rest)).atLineStart = true :=
      atLineStart_after.2 hblanks
    have hhash : isBlank '#' = false := by decide
    simp only [after, List.cons_append] at hstart
    simpa [gapLength, after, hhash, hstart] using hlength

/-- A piece is not empty. -/
theorem Piece.ne_nil {piece : List Char} (h : Piece done piece rest) : piece ≠ [] := by
  cases h <;> simp

/-- Where the gap goes on, a piece of it comes next. -/
theorem Cursor.exists_piece (h : (Cursor.after done chars).gapLength ≠ 0) :
    ∃ piece rest, chars = piece ++ rest ∧ Piece done piece rest := by
  cases chars with
  | nil => simp [gapLength, after] at h
  | cons c chars =>
    by_cases hblank : isBlank c = true
    · exact ⟨[c], chars, rfl, .blank hblank⟩
    by_cases hslash : c = '/' ∧ chars.head? = some '/'
    · obtain ⟨rfl, hhead⟩ := hslash
      obtain ⟨others, rfl⟩ := List.head?_eq_some_iff.1 hhead
      obtain ⟨text, rest, rfl, htext, hover⟩ := exists_line others
      exact ⟨_, rest, rfl, .lineComment htext hover⟩
    by_cases hstar : c = '/' ∧ chars.head? = some '*'
    · obtain ⟨rfl, hhead⟩ := hstar
      obtain ⟨others, rfl⟩ := List.head?_eq_some_iff.1 hhead
      rcases exists_comment others with ⟨text, rest, rfl, hclosing⟩ | hclosing
      · exact ⟨_, rest, by simp, .comment hclosing⟩
      · exact ⟨_, [], by simp, .openComment hclosing⟩
    by_cases hhash : c = '#' ∧ (Cursor.after done (c :: chars)).atLineStart = true
    · obtain ⟨rfl, hstart⟩ := hhash
      obtain ⟨text, rest, rfl, htext, hover⟩ := exists_line chars
      exact ⟨_, rest, rfl, .directive (atLineStart_after.1 hstart) htext hover⟩
    · refine absurd ?_ h
      simp only [after] at hhash
      simp only [gapLength, after, Bool.and_eq_true, decide_eq_true_eq, hblank, hslash, hstar,
        hhash, if_false, Bool.false_eq_true]

end Gml
