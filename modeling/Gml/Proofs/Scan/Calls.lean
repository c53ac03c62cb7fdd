import Gml.Proofs.Scan.Comments

/-!
# Calls that a scan finds

A scan looks for words before a parenthesis in what is left of a text, and knows nothing of tokens.
Where it stays in step with the tiles of the source, a name token with a parenthesis after it is
such a word (`Scan.mem_calledNames_source`). The source has unified line ends and the scan reads the
text itself, but line ends can be unified before or after comments are taken out and words are
looked for (`Scan.withoutComments_unify`, `Scan.words_unify`).

So no call is missed (`Scan.mem_calls_addText`) unless something looks like a comment and is none,
as a mark `//` in a text literal does (`Scan.calls_after_literal`).
-/

namespace Gml

open Text Lexeme

namespace Scan

variable {c : Char} {chars rest : List Char}

/-! ### Words -/

/-- A word is found at its start. -/
theorem words_cons_of_word (h : isWord c = true) : words (c :: rest) =
    (c :: rest.takeWhile isWord, rest.dropWhile isWord) :: words (rest.dropWhile isWord) := by
  rw [words, if_pos h]

/-- What is no word is skipped. -/
theorem words_cons_of_break (h : isWord c = false) : words (c :: rest) = words rest := by
  rw [words, if_neg (by simp [h])]

/-- A character may stop a run. -/
theorem dropWhile_append_break {p : Char → Bool} (h : p c = false) (front : List Char) :
    (front ++ c :: rest).dropWhile p = front.dropWhile p ++ c :: rest := by
  induction front with
  | nil => simp [h]
  | cons d front ih => by_cases hd : p d = true <;> simp [hd, ih]

/-- The words after a break are words of the whole text. -/
theorem words_suffix (h : isWord c = false) (front : List Char) :
    words rest <:+ words (front ++ c :: rest) := by
  induction hn : front.length using Nat.strongRecOn generalizing front with
  | ind n ih =>
    subst hn
    cases front with
    | nil =>
      simpa only [List.nil_append, words_cons_of_break h] using List.suffix_refl (words rest)
    | cons d front =>
      by_cases hd : isWord d = true
      · have hle := length_dropWhile_le isWord front
        rw [List.cons_append, words_cons_of_word hd, dropWhile_append_break h]
        exact (ih _ (by rw [List.length_cons]; omega) _ rfl).trans (List.suffix_cons _ _)
      · rw [List.cons_append, words_cons_of_break (Bool.eq_false_iff.2 hd)]
        exact ih _ (by rw [List.length_cons]; omega) front rfl

/-- A word with breaks around it is found. -/
theorem mem_words {word : List Char} (hne : word ≠ []) (hall : ∀ c ∈ word, isWord c = true)
    (hstops : Stops isWord rest) (hbreak : ∀ c ∈ chars.getLast?, isWord c = false) :
    (word, rest) ∈ words (chars ++ (word ++ rest)) := by
  have hword : (word, rest) ∈ words (word ++ rest) := by
    obtain ⟨first, more, rfl⟩ := List.exists_cons_of_ne_nil hne
    obtain ⟨hfirst, hmore⟩ := List.forall_mem_cons.1 hall
    rw [List.cons_append, words_cons_of_word hfirst, hstops.takeWhile_append hmore,
      hstops.dropWhile_append hmore]
    exact List.mem_cons_self
  rcases List.eq_nil_or_concat chars with rfl | ⟨front, last, rfl⟩
  · exact hword
  · rw [List.concat_eq_append] at hbreak ⊢
    rw [List.append_assoc]
    exact (words_suffix (hbreak last List.getLast?_concat) front).subset hword

/-- A condition in front of a result. -/
theorem guard_eq_some {α : Type} {P : Prop} [Decidable P] {x : Option α} {a : α} :
    (guard P >>= fun _ => x) = some a ↔ P ∧ x = some a := by
  change ((if P then some () else none) >>= fun _ => x) = some a ↔ _
  by_cases h : P
  · rw [if_pos h]
    exact (and_iff_right h).symm
  · rw [if_neg h]
    exact ⟨fun hnone => (Option.some_ne_none _ hnone.symm).elim, fun hand => absurd hand.1 h⟩

/-- A call is a word before a bracket. -/
theorem called?_eq_some {word after : List Char} {name : String} : called? word after = some name ↔
    word.head?.any startsName = true ∧ (skipBlanks after).head? = some '(' ∧
      String.ofList word = name :=
  guard_eq_some.trans (and_congr_right' (guard_eq_some.trans (and_congr_right' Option.some_inj)))

/-- A name with a break before it and a parenthesis after it is called. -/
theorem mem_calledNames {first : Char} {more blanks : List Char}
    (hfirst : first.isAlpha = true ∨ first = '_') (hmore : ∀ c ∈ more, isNameChar c = true)
    (hblanks : ∀ c ∈ blanks, isBlank c = true) (hbreak : ∀ c ∈ chars.getLast?, isWord c = false) :
    String.ofList (first :: more) ∈
      calledNames (chars ++ (first :: more ++ (blanks ++ '(' :: rest))) := by
  have hname : isNameChar first = true := by
    rcases hfirst with h | h
    · simp [isNameChar, Char.isAlphanum, h]
    · simp [isNameChar, h]
  have hall : ∀ c ∈ first :: more, isWord c = true :=
    List.forall_mem_cons.2
      ⟨isWord_of_isNameChar hname, fun c hc => isWord_of_isNameChar (hmore c hc)⟩
  have hparen : Stops isBlank ('(' :: rest) := Plain.stops_cons (by decide) rest
  have hstops : Stops isWord (blanks ++ '(' :: rest) :=
    Plain.Blanks.stops ⟨blanks, hblanks⟩ (fun _ => isWord_of_isBlank)
      (Plain.stops_cons (by decide +kernel) rest)
  refine List.mem_filterMap.2 ⟨_, mem_words (List.cons_ne_nil _ _) hall hstops hbreak, ?_⟩
  have hstarts : startsName first = true := by simpa [startsName] using hfirst
  have hskip : skipBlanks (blanks ++ '(' :: rest) = '(' :: rest := hparen.dropWhile_append hblanks
  refine called?_eq_some.2 ⟨hstarts, ?_, rfl⟩
  rw [hskip]
  rfl

/-! ### Line ends -/

/-- Whether the first line of a text is not cut short by a carriage return. -/
def lineWhole : List Char → Bool
  | [] => true
  | '\n' :: _ => true
  | '\r' :: rest => rest.head? = some '\n'
  | _ :: rest => lineWhole rest

/-- No line comment is cut short by a carriage return. -/
def WholeComments (chars : List Char) : Prop :=
  ∀ index < chars.length, ['/', '/'] <+: chars.drop index → lineWhole (chars.drop index) = true

/-- Part of a text has whole comments. -/
theorem WholeComments.suffix (h : WholeComments chars) (hsuffix : rest <:+ chars) :
    WholeComments rest := by
  obtain ⟨front, rfl⟩ := hsuffix
  intro index hindex hmark
  have hdrop : (front ++ rest).drop (front.length + index) = rest.drop index :=
    List.drop_length_add_append index
  rw [← hdrop] at hmark ⊢
  exact h _ (by rw [List.length_append]; omega) hmark

/-- So a line comment is whole. -/
theorem WholeComments.line (h : WholeComments ('/' :: '/' :: rest)) : lineWhole rest = true :=
  h 0 (Nat.succ_pos _) (List.prefix_append _ _)

/-- What is no carriage return stays. -/
theorem unify_cons (h : c ≠ '\r') : unifyLineEnds (c :: rest) = c :: unifyLineEnds rest :=
  unifyLineEnds_append (List.not_mem_cons_of_ne_of_not_mem (Ne.symm h) List.not_mem_nil) rest

/-- A carriage return ends a line. -/
theorem unify_lone (h : rest.head? ≠ some '\n') :
    unifyLineEnds ('\r' :: rest) = '\n' :: unifyLineEnds rest := by
  rw [unifyLineEnds]
  rintro others rfl
  exact h rfl

/-- A whole line ends where it did when line ends are unified. -/
theorem dropLine_unify (h : lineWhole chars = true) :
    (unifyLineEnds chars).dropWhile (· ≠ '\n') = unifyLineEnds (chars.dropWhile (· ≠ '\n')) := by
  fun_induction lineWhole chars with
  | case1 => rfl
  | case2 rest => rw [unify_cons (by decide)]; rfl
  | case3 rest =>
    obtain ⟨others, rfl⟩ := List.head?_eq_some_iff.1 (of_decide_eq_true h)
    rfl
  | case4 c rest hfeed hreturn ih =>
    have hne : c ≠ '\n' := hfeed
    rw [unify_cons hreturn]
    simpa [hne] using ih h

/-- The first character stays. -/
theorem head?_unify {d : Char} (hd : d ≠ '\n') (h : (unifyLineEnds chars).head? = some d) :
    chars.head? = some d := by
  revert h
  fun_cases unifyLineEnds chars with
  | case1 => exact id
  | case2 | case3 => exact fun h => absurd (Option.some.inj h).symm hd
  | case4 => exact id

/-- No comment appears. -/
theorem not_opensWith_unify (h : ¬ OpensWith c rest) : ¬ OpensWith c (unifyLineEnds rest) := by
  rintro ⟨hc, hhead | hhead⟩
  · exact h ⟨hc, .inl (head?_unify (by decide) hhead)⟩
  · exact h ⟨hc, .inr (head?_unify (by decide) hhead)⟩

/-- A comment ends where it did. -/
theorem afterComment?_unify :
    afterComment? (unifyLineEnds chars) = (afterComment? chars).map unifyLineEnds := by
  fun_induction unifyLineEnds chars with
  | case1 => rfl
  | case2 rest ih =>
    rw [afterComment?_cons (by simp), afterComment?_cons (by simp), afterComment?_cons (by simp),
      ih]
  | case3 rest _ ih => rw [afterComment?_cons (by simp), afterComment?_cons (by simp), ih]
  | case4 c rest _ hreturn ih =>
    by_cases hclose : c = '*' ∧ rest.head? = some '/'
    · obtain ⟨rfl, hhead⟩ := hclose
      obtain ⟨others, rfl⟩ := List.head?_eq_some_iff.1 hhead
      rw [unify_cons (by decide)]
      rfl
    · rw [afterComment?_cons hclose, ← ih, afterComment?_cons]
      exact fun hopen => hclose ⟨hopen.1, head?_unify (by decide) hopen.2⟩

/-- What comes after a comment is part of the text. -/
theorem suffix_afterComment? {after : List Char} (h : afterComment? chars = some after) :
    after <:+ chars := by
  fun_induction afterComment? chars with
  | case1 rest =>
    cases h
    exact (List.suffix_cons _ _).trans (List.suffix_cons _ _)
  | case2 c rest _ ih => exact (ih h).trans (List.suffix_cons _ _)
  | case3 => cases h

/-- No line ends first that did not. -/
theorem head?_withoutComments (h : (withoutComments chars).head? = some '\n') :
    chars.head? = some '\n' := by
  revert h
  fun_cases withoutComments chars with
  | case1 => exact id
  | case2 | case3 | case4 => exact fun h => absurd (Option.some.inj h) (by decide)
  | case5 => exact id

/-- Line ends can be unified before or after comments are taken out. -/
theorem withoutComments_unify (h : WholeComments chars) :
    withoutComments (unifyLineEnds chars) = unifyLineEnds (withoutComments chars) := by
  fun_induction withoutComments chars with
  | case1 => exact withoutComments_nil
  | case2 rest ih =>
    have hrest := h.suffix ((List.dropWhile_suffix (· ≠ '\n')).trans
      ((List.suffix_cons '/' rest).trans (List.suffix_cons '/' _)))
    rw [unify_cons (by decide), unify_cons (by decide), withoutComments_line,
      dropLine_unify h.line, unify_cons (by decide), ih hrest]
  | case3 rest after hafter ih =>
    have hrest := h.suffix ((suffix_afterComment? hafter).trans
      ((List.suffix_cons '*' rest).trans (List.suffix_cons '/' _)))
    have hunify : afterComment? (unifyLineEnds rest) = some (unifyLineEnds after) := by
      rw [afterComment?_unify, hafter, Option.map_some]
    rw [unify_cons (by decide), unify_cons (by decide), withoutComments_block hunify, ih hrest,
      unify_cons (by decide)]
  | case4 rest hafter ih =>
    have hunify : afterComment? (unifyLineEnds rest) = none := by
      rw [afterComment?_unify, hafter, Option.map_none]
    rw [unify_cons (by decide), unify_cons (by decide), withoutComments_open hunify,
      ← unify_cons (by decide), ih (h.suffix (List.suffix_cons _ _)), unify_cons (by decide)]
  | case5 c rest hline hblock ih =>
    have hopens : ¬ OpensWith c rest := by
      rintro ⟨rfl, hhead | hhead⟩
      · obtain ⟨others, rfl⟩ := List.head?_eq_some_iff.1 hhead
        exact hline others rfl rfl
      · obtain ⟨others, rfl⟩ := List.head?_eq_some_iff.1 hhead
        exact hblock others rfl rfl
    have ih := ih (h.suffix (List.suffix_cons _ _))
    by_cases hreturn : c = '\r'
    · subst hreturn
      by_cases hfeed : rest.head? = some '\n'
      · -- The line feed alone would be the same line end.
        obtain ⟨others, rfl⟩ := List.head?_eq_some_iff.1 hfeed
        have hothers : ¬ OpensWith '\n' others := fun hopen => absurd hopen.1 (by decide)
        rw [withoutComments_cons hothers] at ih ⊢
        exact ih
      · rw [unify_lone hfeed, unify_lone fun hhead => hfeed (head?_withoutComments hhead),
          withoutComments_cons fun hopen => absurd hopen.1 (by decide), ih]
    · rw [unify_cons hreturn, unify_cons hreturn, withoutComments_cons (not_opensWith_unify hopens),
        ih]

/-- A line end does not matter to a comment. -/
theorem afterComment?_concat :
    afterComment? (chars ++ ['\n']) = (afterComment? chars).map (· ++ ['\n']) := by
  fun_induction afterComment? chars with
  | case1 rest => rfl
  | case2 c rest hclose ih =>
    rw [List.cons_append, afterComment?_cons, ih]
    rintro ⟨rfl, hhead⟩
    cases rest with
    | nil => exact absurd hhead (by decide)
    | cons d rest =>
      cases hhead
      exact hclose rest rfl rfl
  | case3 => rfl

/-- A line end after the text stays. -/
theorem withoutComments_concat :
    withoutComments (chars ++ ['\n']) = withoutComments chars ++ ['\n'] := by
  fun_induction withoutComments chars with
  | case1 =>
    rw [List.nil_append, withoutComments_cons fun hopen => absurd hopen.1 (by decide),
      withoutComments_nil]
  | case2 rest ih =>
    rw [List.cons_append, List.cons_append, withoutComments_line,
      dropWhile_append_break (by decide), ih, List.cons_append]
  | case3 rest after hafter ih =>
    have hconcat : afterComment? (rest ++ ['\n']) = some (after ++ ['\n']) := by
      rw [afterComment?_concat, hafter, Option.map_some]
    rw [List.cons_append, List.cons_append, withoutComments_block hconcat, ih, List.cons_append]
  | case4 rest hafter ih =>
    have hconcat : afterComment? (rest ++ ['\n']) = none := by
      rw [afterComment?_concat, hafter, Option.map_none]
    rw [List.cons_append, List.cons_append, withoutComments_open hconcat, ← List.cons_append, ih,
      List.cons_append]
  | case5 c rest hline hblock ih =>
    rw [List.cons_append, withoutComments_cons, ih, List.cons_append]
    rintro ⟨rfl, hhead⟩
    cases rest with
    | nil => exact absurd hhead (by decide)
    | cons d rest =>
      rcases hhead with hhead | hhead
      · cases hhead
        exact hline rest rfl rfl
      · cases hhead
        exact hblock rest rfl rfl

/-- A line end is no word. -/
theorem isWord_lineFeed : isWord '\n' = false := by
  decide +kernel

/-- A line end at the end does not matter to words. -/
theorem words_concat :
    words (chars ++ ['\n']) = (words chars).map fun found => (found.1, found.2 ++ ['\n']) := by
  fun_induction words chars with
  | case1 =>
    rw [List.nil_append, words_cons_of_break isWord_lineFeed, words]
    rfl
  | case2 c rest hc ih =>
    obtain ⟨word, after, rfl, hword, hstops⟩ := exists_run isWord rest
    have hstops' : Stops isWord (after ++ ['\n']) := by
      cases after with
      | nil => exact Plain.stops_cons isWord_lineFeed _
      | cons d after => exact hstops
    rw [hstops.dropWhile_append hword] at ih ⊢
    rw [hstops.takeWhile_append hword, List.cons_append, words_cons_of_word hc, List.append_assoc,
      hstops'.takeWhile_append hword, hstops'.dropWhile_append hword, ih]
    rfl
  | case3 c rest hc ih =>
    rw [List.cons_append, words_cons_of_break (Bool.eq_false_iff.2 hc), ih]

/-- Words stay as they are. -/
theorem words_unify : words (unifyLineEnds chars) =
    (words chars).map fun found => (found.1, unifyLineEnds found.2) := by
  fun_induction words chars with
  | case1 =>
    rw [unifyLineEnds, words]
    rfl
  | case2 c rest hc ih =>
    have hreturn : ∀ d, isWord d = true → d ≠ '\r' := by
      rintro _ hd rfl
      exact absurd hd (by decide +kernel)
    obtain ⟨word, after, rfl, hword, hstops⟩ := exists_run isWord rest
    have hstops' : Stops isWord (unifyLineEnds after) :=
      Spaced.stops_unify (fun _ => isWord_of_isBlank) hstops
    have hnone : '\r' ∉ word := fun hmem => hreturn _ (hword _ hmem) rfl
    rw [hstops.dropWhile_append hword] at ih ⊢
    rw [hstops.takeWhile_append hword, unify_cons (hreturn c hc), words_cons_of_word hc,
      unifyLineEnds_append hnone, hstops'.takeWhile_append hword, hstops'.dropWhile_append hword,
      ih]
    rfl
  | case3 c rest hc ih =>
    have hc := Bool.eq_false_iff.2 hc
    by_cases hreturn : c = '\r'
    · subst hreturn
      by_cases hfeed : rest.head? = some '\n'
      · obtain ⟨others, rfl⟩ := List.head?_eq_some_iff.1 hfeed
        exact ih
      · rw [unify_lone hfeed, words_cons_of_break isWord_lineFeed, ih]
    · rw [unify_cons hreturn, words_cons_of_break hc, ih]

/-- What comes first after blanks does not depend on how lines end. -/
theorem skipBlanks_concat : (skipBlanks (chars ++ ['\n'])).head? = some '(' ↔
    (skipBlanks chars).head? = some '(' := by
  obtain ⟨blanks, after, rfl, hblanks, hstops⟩ := exists_run isBlank chars
  unfold skipBlanks
  rw [hstops.dropWhile_append hblanks, List.append_assoc, List.dropWhile_append_of_pos hblanks]
  cases after with
  | nil => simp [show isBlank '\n' = true by decide]
  | cons c after =>
    have hc : isBlank c = false := hstops c rfl
    simp [hc]

/-- A bracket still follows blanks. -/
theorem skipBlanks_unify : (skipBlanks (unifyLineEnds chars)).head? = some '(' ↔
    (skipBlanks chars).head? = some '(' := by
  unfold skipBlanks
  fun_induction unifyLineEnds chars with
  | case1 => rfl
  | case2 rest ih => exact ih
  | case3 rest _ ih => exact ih
  | case4 c rest _ _ ih =>
    by_cases hc : isBlank c = true
    · simpa [hc] using ih
    · simp [hc]

/-- The same words are called if the same stands after them, blanks aside. -/
theorem calledNames_congr {chars' : List Char} {f : List Char → List Char}
    (hwords : words chars' = (words chars).map fun found => (found.1, f found.2))
    (hf : ∀ after, (skipBlanks (f after)).head? = some '(' ↔ (skipBlanks after).head? = some '(') :
    calledNames chars' = calledNames chars := by
  unfold calledNames
  rw [hwords, List.filterMap_map]
  refine congrArg (List.filterMap · (words chars)) (funext fun found => Option.ext fun name => ?_)
  change called? found.1 (f found.2) = some name ↔ called? found.1 found.2 = some name
  rw [called?_eq_some, called?_eq_some, hf]

/-- A scan finds the same calls in a text and in the source that it stands for. -/
theorem calledNames_source {text : String} (h : WholeComments text.toList) :
    calledNames (withoutComments (Source.ofString text).chars) =
      calledNames (withoutComments text.toList) := by
  have hunify : calledNames (withoutComments (unifyLineEnds text.toList)) =
      calledNames (withoutComments text.toList) := by
    rw [withoutComments_unify h]
    exact calledNames_congr words_unify fun _ => skipBlanks_unify
  change calledNames (withoutComments (endLastLine (unifyLineEnds text.toList))) = _
  unfold endLastLine
  split
  · exact hunify
  · rw [withoutComments_concat]
    exact (calledNames_congr words_concat fun _ => skipBlanks_concat).trans hunify

/-! ### Calls in a source -/

variable {tier : Nat} {source : Source} {tokens : List Token}

/-- A word is a name, or one of the language. -/
theorem ofWord?_cases (word : String) : Kind.ofWord? word = none ∨
    (word, (Kind.ofWord? word).getD .identifier) ∈ Kind.words := by
  cases hlookup : Kind.ofWord? word with
  | none => exact .inl rfl
  | some kind => exact .inr (mem_of_lookup hlookup)

/-- A name token is a word that is no word of the language. -/
theorem exists_name_of_span {value : String} {span : List Char}
    (h : Span tier .identifier value span rest) : ∃ first more, span = first :: more ∧
      (first.isAlpha = true ∨ first = '_') ∧ (∀ c ∈ more, isNameChar c = true) ∧
      value = .ofList span ∧ Kind.ofWord? value = none := by
  have hsingle : ∀ entry ∈ Kind.singleOperators, entry.2 ≠ .identifier := by decide
  have hdouble : ∀ entry ∈ Kind.doubleOperators, entry.2 ≠ .identifier := by decide
  have hsign : ∀ entry ∈ bracketSigns, entry.2 ≠ .identifier := by decide
  have hword : ∀ entry ∈ Kind.words, entry.2 ≠ .identifier := by decide
  generalize hkind : Kind.identifier = kind at h
  cases h with
  | @word first more _ hfirst hmore _ =>
    refine ⟨first, more, rfl, hfirst, hmore, rfl, ?_⟩
    exact (ofWord?_cases _).resolve_right fun hmem => hword _ hmem hkind.symm
  | double hmem => exact absurd hkind.symm (hdouble _ hmem)
  | single hmem => exact absurd hkind.symm (hsingle _ hmem)
  | sign hmem => exact absurd hkind.symm (hsign _ hmem)
  | _ => cases hkind

/-- A bracket is one character. -/
theorem span_eq_paren {value : String} {span : List Char}
    (h : Span tier .leftParen value span rest) : span = ['('] := by
  have hsingle : ∀ entry ∈ Kind.singleOperators, entry.2 = .leftParen → entry.1 = '(' := by decide
  have hdouble : ∀ entry ∈ Kind.doubleOperators, entry.2 ≠ .leftParen := by decide
  have hsign : ∀ entry ∈ bracketSigns, entry.2 ≠ .leftParen := by decide
  have hword : ∀ entry ∈ Kind.words, entry.2 ≠ .leftParen := by decide
  generalize hkind : Kind.leftParen = kind at h
  cases h with
  | @word first more =>
    rcases ofWord?_cases (.ofList (first :: more)) with hnone | hmem
    · rw [hnone] at hkind
      cases hkind
    · exact absurd hkind.symm (hword _ hmem)
  | double hmem => exact absurd hkind.symm (hdouble _ hmem)
  | @single a kind _ hmem _ _ => exact congrArg (fun a => [a]) (hsingle (a, kind) hmem hkind.symm)
  | sign hmem => exact absurd hkind.symm (hsign _ hmem)
  | _ => cases hkind

/-- A name that starts a word, with a parenthesis after it and no directive line in between. -/
structure Called (source : Source) (tokens : List Token) (name : Token) : Prop where
  kind : name.kind = .identifier
  starts : ∀ c ∈ (source.chars.take name.position.index).getLast?, isWord c = false
  paren : ∃ init paren later, tokens = init ++ name :: paren :: later ∧ paren.kind = .leftParen ∧
    ∀ index, name.position.index < index → index < paren.position.index →
      source.isDirective index = false

/-- A scan of a clear source finds all calls. -/
theorem mem_calledNames_source {done : List Char} (hclear : Clear tier source tokens)
    (h : Tiles tier source done tokens rest) {name : Token} (hname : Called source tokens name) :
    name.value ∈ calledNames (withoutComments source.chars) ∧ Kind.ofWord? name.value = none := by
  obtain ⟨init, paren, later, htokens, hparen, hbetween⟩ := hname.paren
  obtain ⟨before, span, after, htiled⟩ :=
    exists_tiled h (htokens.trans (List.append_assoc init [name] (paren :: later)).symm)
  obtain rfl := span_eq_paren (hparen ▸ htiled.span)
  obtain ⟨start, span, gap, blanks, hstart, hgap, hblanks⟩ :=
    exists_gap_after htiled.tiles rfl (List.cons_ne_nil _ _) (htiled.index ▸ hbetween)
  have hinit : Clear tier source init :=
    ⟨fun token hmem => hclear.literals token (by simp [htokens, hmem]), hclear.directives⟩
  obtain ⟨out, hout⟩ := exists_leaves_tiles hinit hstart.tiles (by simp)
  have hspan : Leaves span (gap ++ (['('] ++ after)) span :=
    leaves_span hstart.span hstart.noGap (by rw [hname.kind]; rintro (⟨⟨⟩⟩ | ⟨⟨⟩⟩))
  have hopen : ¬ OpensWith '(' after := fun hopen => absurd hopen.1 (by decide)
  -- What is left of the source is the name, with blanks after it and then the parenthesis.
  have hleft : withoutComments source.chars =
      out ++ (span ++ (blanks ++ '(' :: withoutComments after)) := by
    have hafter : withoutComments (['('] ++ after) = '(' :: withoutComments after :=
      withoutComments_cons hopen
    rw [← hstart.tiles.append_eq, hout.eq, hspan.eq, hgap.eq, hafter]
  obtain ⟨first, more, rfl, hfirst, hmore, hvalue, hword⟩ :=
    exists_name_of_span (hname.kind ▸ hstart.span)
  refine ⟨?_, hword⟩
  rw [hleft, hvalue]
  refine mem_calledNames hfirst hmore hblanks fun c hc => ?_
  by_cases hc' : isWord c = true
  · have hlast := hout.last c hc hc'
    refine hname.starts c ?_
    rw [← hstart.tiles.append_eq, hstart.index, List.take_left]
    exact hlast
  · exact Bool.eq_false_iff.2 hc'

/-! ### Scans -/

/-- A call is added. -/
theorem calls_addCall (scan : Scan) {name : String} (h : Kind.ofWord? name = none) :
    name ∈ (scan.addCall name).calls := by
  unfold addCall
  rw [h]
  exact mem_insertName.2 (.inl rfl)

/-- The others stay. -/
theorem mem_calls_addCall {scan : Scan} {name : String} (h : name ∈ scan.calls) (other : String) :
    name ∈ (scan.addCall other).calls := by
  unfold addCall
  split
  · exact h
  · exact mem_insertName.2 (.inr h)

/-- So it is for several. -/
theorem mem_calls_foldl {name : String} (h : Kind.ofWord? name = none) :
    ∀ {names : List String} {scan : Scan}, name ∈ names ∨ name ∈ scan.calls →
      name ∈ (names.foldl addCall scan).calls
  | [], _, hname => hname.resolve_left List.not_mem_nil
  | other :: names, scan, hname => by
    rw [List.foldl_cons]
    refine mem_calls_foldl h ?_
    rcases hname with hname | hname
    · rcases List.mem_cons.1 hname with rfl | hname
      · exact .inr (calls_addCall scan h)
      · exact .inl hname
    · exact .inr (mem_calls_addCall hname other)

/-- A text adds no scripts. -/
theorem scripts_addText (scan : Scan) (text : String) :
    (scan.addText text).scripts = scan.scripts := by
  apply addText_induction (P := fun result => result.scripts = scan.scripts) text
  · exact fun _ _ _ h => h
  · intro result name h
    unfold addCall
    split
    · exact h
    · exact h
  · rfl

/-- The end of the source is no part of a call. -/
theorem Called.of_concat {name last : Token} (hlast : last.kind = .endOfFile)
    (h : Called source (tokens ++ [last]) name) : Called source tokens name := by
  obtain ⟨init, paren, later, htokens, hparen, hbetween⟩ := h.paren
  refine ⟨h.kind, h.starts, init, paren, ?_⟩
  rcases List.eq_nil_or_concat later with rfl | ⟨later, other, rfl⟩
  · obtain ⟨-, heq⟩ :=
      List.append_inj' (htokens.trans (List.append_assoc init [name] [paren]).symm) rfl
    cases heq
    rw [hlast] at hparen
    cases hparen
  · refine ⟨later, ?_, hparen, hbetween⟩
    rw [List.concat_eq_append, ← List.cons_append, ← List.cons_append, ← List.append_assoc]
      at htokens
    exact (List.append_inj' htokens rfl).1

/-- A scan finds every name that is called, if what looks like a comment is one: no mark that opens
a comment stands in a text literal, no mark that opens a block comment in a directive line, and no
line comment is cut short by a carriage return. It reports the name unless something is known of
it. -/
theorem mem_calls_addText (scan : Scan) {text : String} {tier : Nat} {tokens : List Token}
    (h : tokenize text tier = .ok tokens) (hclear : Clear tier (Source.ofString text) tokens)
    (hwhole : WholeComments text.toList) {name : Token}
    (hname : Called (Source.ofString text) tokens name) :
    name.value ∈ (scan.addText text).calls ∧
    ∀ context : Context, name.value ∉ context.builtinFunctions →
      context.symbols.contains name.value = false → name.value ∉ scan.scripts →
      name.value ∈ (scan.addText text).unknownCalls context := by
  obtain ⟨inner, htiles, rfl⟩ := exists_tiles_of_tokenize h
  have hinner : Clear tier (Source.ofString text) inner :=
    ⟨fun token hmem => hclear.literals token (List.mem_append_left _ hmem), hclear.directives⟩
  obtain ⟨hmem, hword⟩ := mem_calledNames_source hinner htiles (hname.of_concat rfl)
  rw [calledNames_source hwhole] at hmem
  have hcalls : name.value ∈ (scan.addText text).calls := mem_calls_foldl hword (.inl hmem)
  refine ⟨hcalls, fun context hbuiltin hsymbol hscript => List.mem_filter.2 ⟨hcalls, ?_⟩⟩
  simp [hbuiltin, hsymbol, scripts_addText, hscript]

/-- A text with a directive line, comments and a text literal. -/
def commented : String :=
  "#region a\r\n// it's b(\r\nfoo /* ( */ (\"c/d\");\r\n"

/-- A call with a comment in it. -/
theorem mem_calls_commented : ∃ tokens name, tokenize commented 2 = .ok tokens ∧
    Clear 2 (Source.ofString commented) tokens ∧ WholeComments commented.toList ∧
    Called (Source.ofString commented) tokens name ∧ name.value = "foo" ∧
    "foo" ∈ (addText {} commented).calls ∧ "foo" ∈ (addText {} commented).unknownCalls {} := by
  obtain ⟨tokens, htokens, hall⟩ := exists_ok_of_any
    (p := fun tokens => (∀ token ∈ tokens, token.kind = .string ∨ token.kind = .rawString →
        ¬ Opens ((Source.ofString commented).written 2 token.position.index)) ∧
      tokens.take 2 = [⟨.identifier, "foo", ⟨3, 1, 21⟩⟩, ⟨.leftParen, "(", ⟨3, 13, 33⟩⟩])
    (x := tokenize commented 2) (by decide +kernel)
  obtain ⟨hliterals, htake⟩ := of_decide_eq_true hall
  have hclear : Clear 2 (Source.ofString commented) tokens := ⟨hliterals, by decide +kernel⟩
  have hwhole : WholeComments commented.toList := by
    unfold WholeComments
    decide +kernel
  have hlast : ((Source.ofString commented).chars.take 21).getLast? = some '\n' := by decide +kernel
  have hbetween : ∀ index < 33, 21 < index →
      (Source.ofString commented).isDirective index = false := by decide +kernel
  have hsplit : tokens = [] ++ ⟨.identifier, "foo", ⟨3, 1, 21⟩⟩ ::
      ⟨.leftParen, "(", ⟨3, 13, 33⟩⟩ :: tokens.drop 2 := by
    have happend := List.take_append_drop 2 tokens
    rw [htake] at happend
    exact happend.symm
  have hname : Called (Source.ofString commented) tokens ⟨.identifier, "foo", ⟨3, 1, 21⟩⟩ := by
    refine ⟨rfl, fun c hc => ?_, [], _, _, hsplit, rfl, fun index hlow hhigh => ?_⟩
    · cases hlast.symm.trans hc
      exact isWord_lineFeed
    · exact hbetween index hhigh hlow
  obtain ⟨hcalls, hunknown⟩ := mem_calls_addText {} htokens hclear hwhole hname
  exact ⟨tokens, _, htokens, hclear, hwhole, hname, rfl, hcalls,
    hunknown {} List.not_mem_nil rfl List.not_mem_nil⟩

/-- A mark in a text literal hides the calls after it. -/
theorem calls_after_literal : ∃ tokens, tokenize "show(\"http://a.b\"); foo();" 2 = .ok tokens ∧
    tokens.map Token.shape = [(.identifier, "show"), (.leftParen, "("), (.string, "http://a.b"),
      (.rightParen, ")"), (.semicolon, ";"), (.identifier, "foo"), (.leftParen, "("),
      (.rightParen, ")"), (.semicolon, ";"), (.endOfFile, "")] ∧
    (addText {} "show(\"http://a.b\"); foo();").calls = ["show"] := by
  obtain ⟨tokens, htokens, hall⟩ := exists_ok_of_any
    (p := fun tokens => tokens.map Token.shape = [(.identifier, "show"), (.leftParen, "("),
      (.string, "http://a.b"), (.rightParen, ")"), (.semicolon, ";"), (.identifier, "foo"),
      (.leftParen, "("), (.rightParen, ")"), (.semicolon, ";"), (.endOfFile, "")])
    (x := tokenize "show(\"http://a.b\"); foo();" 2) (by decide +kernel)
  exact ⟨tokens, htokens, of_decide_eq_true hall, by decide +kernel⟩

end Scan

end Gml
