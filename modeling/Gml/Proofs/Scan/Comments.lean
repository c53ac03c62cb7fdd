import Gml.Proofs.Scan.Plain

/-!
# What a scan leaves of a source

A scan blanks out what looks like a comment without reading tokens. `Scan.Leaves` says what it
leaves of some characters in front of others. A blank or a comment leaves blanks
(`Scan.leaves_piece`), a directive line leaves its text up to a mark `//`, and a token is left as it
is, unless it is a text literal with an opening mark in it (`Scan.leaves_span`). So a scan stays in
step with the tiles of a source (`Scan.exists_leaves_tiles`), and leaves blanks between two tokens
(`Scan.exists_gap_after`).
-/

namespace Gml

open Text Lexeme

namespace Scan

variable {c : Char} {chars rest : List Char}

/-! ### Opening marks -/

/-- A comment seems to open with a character, given what comes after it. -/
def OpensWith (c : Char) (rest : List Char) : Prop :=
  c = '/' ∧ (rest.head? = some '/' ∨ rest.head? = some '*')

/-- A comment seems to open somewhere in a text. -/
def Opens (chars : List Char) : Prop :=
  ['/', '/'] <:+: chars ∨ ['/', '*'] <:+: chars

instance (chars : List Char) : Decidable (Opens chars) :=
  inferInstanceAs (Decidable (_ ∨ _))

/-- Nothing opens no comment. -/
theorem not_opens_nil : ¬ Opens [] := by
  decide

/-- A comment opens here or later. -/
theorem opens_cons : Opens (c :: chars) ↔ OpensWith c chars ∨ Opens chars := by
  have hhead : ∀ d, [d] <+: chars ↔ chars.head? = some d := by
    intro d
    cases chars <;> simp [List.cons_prefix_cons, eq_comm]
  unfold Opens OpensWith
  rw [List.infix_cons_iff, List.infix_cons_iff, List.cons_prefix_cons, List.cons_prefix_cons, hhead,
    hhead, eq_comm, and_or_left, or_or_or_comm]

/-- A mark opens within some characters, or with the last of them. -/
theorem opens_append_take (h : Opens (chars ++ rest.take 1)) :
    Opens chars ∨ ∃ c ∈ chars.getLast?, OpensWith c rest := by
  induction chars with
  | nil =>
    cases rest with
    | nil => exact absurd h not_opens_nil
    | cons d rest =>
      rcases opens_cons.1 h with ⟨-, hhead⟩ | h
      · simp at hhead
      · exact absurd h not_opens_nil
  | cons c chars ih =>
    rcases opens_cons.1 h with hfirst | h
    · cases chars with
      | nil =>
        refine .inr ⟨c, rfl, hfirst.1, ?_⟩
        cases rest with
        | nil => simp [OpensWith] at hfirst
        | cons d rest => exact hfirst.2
      | cons d chars => exact .inl (opens_cons.2 (.inl hfirst))
    · rcases ih h with hopens | ⟨d, hd, hopens⟩
      · exact .inl (opens_cons.2 (.inr hopens))
      · refine .inr ⟨d, ?_, hopens⟩
        cases chars with
        | nil => cases hd
        | cons e chars => exact hd

/-- Without a slash none opens. -/
theorem not_opens_of_not_mem (h : '/' ∉ chars) : ¬ Opens chars := by
  rintro (hmark | hmark)
  · exact h (hmark.subset List.mem_cons_self)
  · exact h (hmark.subset List.mem_cons_self)

/-! ### Comments -/

/-- Nothing is left of nothing. -/
theorem withoutComments_nil : withoutComments [] = [] := by
  rw [withoutComments]

/-- A blank is left of a line comment. -/
theorem withoutComments_line : withoutComments ('/' :: '/' :: rest) =
    ' ' :: withoutComments (rest.dropWhile (· ≠ '\n')) := by
  rw [withoutComments]

/-- A blank is left of a block comment. -/
theorem withoutComments_block {after : List Char} (h : afterComment? rest = some after) :
    withoutComments ('/' :: '*' :: rest) = ' ' :: withoutComments after := by
  rw [withoutComments]
  split
  next other hother =>
    rw [h] at hother
    cases hother
    rfl
  next hnone =>
    rw [h] at hnone
    cases hnone

/-- An open comment is left. -/
theorem withoutComments_open (h : afterComment? rest = none) :
    withoutComments ('/' :: '*' :: rest) = '/' :: withoutComments ('*' :: rest) := by
  rw [withoutComments]
  split
  next other hother =>
    rw [h] at hother
    cases hother
  next => rfl

/-- Other characters are left. -/
theorem withoutComments_cons (h : ¬ OpensWith c rest) :
    withoutComments (c :: rest) = c :: withoutComments rest := by
  rw [withoutComments]
  · rintro others rfl rfl
    exact h ⟨rfl, .inl rfl⟩
  · rintro others rfl rfl
    exact h ⟨rfl, .inr rfl⟩

/-- Characters without an opening mark stay. -/
theorem withoutComments_append (h : ¬ Opens (chars ++ rest.take 1)) :
    withoutComments (chars ++ rest) = chars ++ withoutComments rest := by
  induction chars with
  | nil => rfl
  | cons c chars ih =>
    rw [List.cons_append, opens_cons, not_or] at h
    have hhead : (chars ++ rest.take 1).head? = (chars ++ rest).head? := by
      cases chars with
      | nil => cases rest <;> rfl
      | cons d chars => rfl
    have hfirst : ¬ OpensWith c (chars ++ rest) := by
      unfold OpensWith
      rw [← hhead]
      exact h.1
    rw [List.cons_append, withoutComments_cons hfirst, ih h.2, List.cons_append]

/-- A comment goes on. -/
theorem afterComment?_cons (h : ¬ (c = '*' ∧ rest.head? = some '/')) :
    afterComment? (c :: rest) = afterComment? rest := by
  rw [afterComment?]
  rintro others rfl rfl
  exact h ⟨rfl, rfl⟩

/-- A comment ends at its first closing mark. -/
theorem afterComment?_append {text : List Char} (h : ¬ ['*', '/'] <:+: text ++ ['*']) :
    afterComment? (text ++ '*' :: '/' :: rest) = some rest := by
  induction text with
  | nil => rfl
  | cons d text ih =>
    rw [List.cons_append, closing_cons, not_or] at h
    have hfirst : ¬ (d = '*' ∧ (text ++ '*' :: '/' :: rest).head? = some '/') := by
      cases text with
      | nil => simp
      | cons e text => exact h.1
    rw [List.cons_append, afterComment?_cons hfirst, ih h.2]

/-! ### Tiles -/

/-- All characters are in one line. -/
theorem inLine (h : '\n' ∉ chars) : ∀ c ∈ chars, decide (c ≠ '\n') = true :=
  fun _ hc => decide_eq_true fun heq => h (heq ▸ hc)

/-- What a scan leaves of some characters in front of others. If it ends in a word, so do they. -/
structure Leaves (chars rest out : List Char) : Prop where
  eq : withoutComments (chars ++ rest) = out ++ withoutComments rest
  nil : out = [] → chars = []
  last : ∀ c ∈ out.getLast?, isWord c = true → chars.getLast? = some c

/-- Nothing leaves nothing. -/
theorem leaves_nil : Leaves [] rest [] :=
  ⟨rfl, fun _ => rfl, fun _ hc => by cases hc⟩

/-- Parts leave their parts. -/
theorem Leaves.append {more out out' : List Char} (h : Leaves chars (more ++ rest) out)
    (h' : Leaves more rest out') : Leaves (chars ++ more) rest (out ++ out') where
  eq := by rw [List.append_assoc, h.eq, h'.eq, List.append_assoc]
  nil hnil := by
    obtain ⟨hout, hout'⟩ := List.append_eq_nil_iff.1 hnil
    rw [h.nil hout, h'.nil hout', List.append_nil]
  last c hc hword := by
    cases hout' : out'.getLast? with
    | none =>
      obtain rfl := List.getLast?_eq_none_iff.1 hout'
      rw [h'.nil rfl, List.append_nil]
      rw [List.append_nil] at hc
      exact h.last c hc hword
    | some d =>
      rw [List.getLast?_append, hout'] at hc
      cases hc
      rw [List.getLast?_append, h'.last c hout' hword, Option.some_or]

/-- A blank in the place of some characters. -/
theorem leaves_blank (h : withoutComments (chars ++ rest) = ' ' :: withoutComments rest) :
    Leaves chars rest [' '] where
  eq := h
  nil hnil := by cases hnil
  last c hc hword := by
    cases hc
    exact absurd hword (by decide +kernel)

/-- One character is left. -/
theorem leaves_single (h : ¬ OpensWith c rest) : Leaves [c] rest [c] :=
  ⟨withoutComments_cons h, fun hnil => (List.cons_ne_nil _ _ hnil).elim, fun _ hc _ => hc⟩

/-- Characters that stay. -/
theorem leaves_self (h : ¬ Opens (chars ++ rest.take 1)) : Leaves chars rest chars :=
  ⟨withoutComments_append h, fun hnil => hnil, fun _ hc _ => hc⟩

/-- The text of a line leaves what stands before a mark `//`. -/
theorem leaves_line {text : List Char} (htext : '\n' ∉ text) (hover : LineOver rest)
    (h : ¬ ['/', '*'] <:+: text) : ∃ out, Leaves text rest out := by
  induction text with
  | nil => exact ⟨[], leaves_nil⟩
  | cons d text ih =>
    rw [List.infix_cons_iff, not_or] at h
    have htext' : '\n' ∉ text := List.not_mem_of_not_mem_cons htext
    by_cases hopens : OpensWith d (text ++ rest)
    · obtain ⟨rfl, hhead⟩ := hopens
      cases text with
      | nil =>
        -- A line end comes next, or nothing.
        rcases hhead with hhead | hhead
        · exact absurd (hover _ hhead) (by decide)
        · exact absurd (hover _ hhead) (by decide)
      | cons e text =>
        rcases hhead with hhead | hhead
        · cases hhead
          refine ⟨[' '], leaves_blank ?_⟩
          rw [List.cons_append, List.cons_append, withoutComments_line,
            hover.dropWhile_append (inLine (List.not_mem_of_not_mem_cons htext'))]
        · cases hhead
          exact absurd (by simp) h.1
    · obtain ⟨out, hout⟩ := ih htext' h.2
      exact ⟨[d] ++ out, (leaves_single hopens).append hout⟩

/-- A piece of a gap that is no directive leaves blanks. -/
theorem leaves_piece {done piece : List Char} (h : Piece done piece rest) (hrest : rest ≠ [])
    (hhash : piece.head? ≠ some '#') :
    ∃ out, Leaves piece rest out ∧ ∀ c ∈ out, isBlank c = true := by
  have hspace : ∀ c ∈ [' '], isBlank c = true := List.all_eq_true.1 rfl
  cases h with
  | @blank c rest hblank =>
    have hopens : ¬ OpensWith c rest := by
      rintro ⟨rfl, -⟩
      exact absurd hblank (by decide)
    exact ⟨[c], leaves_single hopens, List.forall_mem_singleton.2 hblank⟩
  | @lineComment text rest htext hover =>
    refine ⟨[' '], leaves_blank ?_, hspace⟩
    rw [List.cons_append, List.cons_append, withoutComments_line,
      hover.dropWhile_append (inLine htext)]
  | @comment text rest hclosing =>
    refine ⟨[' '], leaves_blank ?_, hspace⟩
    have hafter : afterComment? (text ++ ['*', '/'] ++ rest) = some rest := by
      rw [List.append_assoc]
      exact afterComment?_append hclosing
    rw [List.cons_append, List.cons_append, withoutComments_block hafter]
  | openComment => exact absurd rfl hrest
  | directive => exact absurd rfl hhash

/-- Any piece of a gap leaves something that the scan goes on after. -/
theorem exists_leaves_piece {done piece : List Char} (h : Piece done piece rest) (hrest : rest ≠ [])
    (hhash : piece.head? = some '#' → ¬ ['/', '*'] <:+: piece) : ∃ out, Leaves piece rest out := by
  by_cases hdirective : piece.head? = some '#'
  · cases h with
    | directive _ htext hover =>
      exact leaves_line (List.not_mem_cons_of_ne_of_not_mem (by decide) htext) hover (hhash rfl)
    | blank hblank =>
      cases hdirective
      exact absurd hblank (by decide)
    | _ => cases hdirective
  · obtain ⟨out, hout, -⟩ := leaves_piece h hrest hdirective
    exact ⟨out, hout⟩

/-- A text literal ends in its quote, or at the end of the source. -/
theorem getLast?_of_quoted {escapes : Bool} {quote : Char} {text value : List Char}
    (h : Quoted escapes quote text rest value) :
    text.getLast? = some quote ∨ rest = [] ∨ rest = ['\n'] := by
  induction h with
  | close => exact .inl rfl
  | stop hstop => exact .inr hstop
  | char _ _ _ _ ih =>
    exact ih.imp_left fun hlast => by rw [List.getLast?_cons, hlast, Option.getD_some]
  | escape _ _ _ ih =>
    refine ih.imp_left fun hlast => ?_
    rw [List.getLast?_cons, List.getLast?_append, hlast, Option.some_or, Option.getD_some]

/-- A slash can only come first in a token, or else inside of a text literal. -/
theorem slash_of_span {tier : Nat} {kind : Kind} {value : String} {span : List Char}
    (h : Span tier kind value span rest) :
    '/' ∉ span.tail ∨ ((kind = .string ∨ kind = .rawString) ∧
      (span.getLast? ≠ some '/' ∨ rest = [] ∨ rest = ['\n'])) := by
  have hdouble : ∀ entry ∈ Kind.doubleOperators, entry.1.2 ≠ '/' := by decide
  have hsign : ∀ entry ∈ bracketSigns, entry.1 ≠ '/' := by decide
  cases h with
  | dollar _ hall _ => exact .inl fun hmem => absurd (hall _ hmem) (by decide)
  | hex hx _ hall _ =>
    refine .inl ?_
    rintro (_ | ⟨_, hmem⟩)
    · simp at hx
    · exact absurd (hall _ hmem) (by decide)
  | whole _ hall _ _ =>
    exact .inl fun hmem => absurd (hall _ (List.mem_of_mem_tail hmem)) (by decide)
  | point _ hall hall' _ =>
    refine .inl fun hmem => ?_
    rcases List.mem_append.1 (List.mem_of_mem_tail hmem) with hmem | hmem
    · exact absurd (hall _ hmem) (by decide)
    · rcases List.mem_cons.1 hmem with heq | hmem
      · simp at heq
      · exact absurd (hall' _ hmem) (by decide)
  | @string quote text _ _ hquote hquoted =>
    refine .inr ⟨.inl rfl, (getLast?_of_quoted hquoted).imp_left fun hlast => ?_⟩
    rw [List.getLast?_cons, hlast, Option.getD_some]
    rintro ⟨⟩
    simp at hquote
  | @raw quote text _ _ hquote hquoted =>
    refine .inr ⟨.inr rfl, (getLast?_of_quoted hquoted).imp_left fun hlast => ?_⟩
    rw [List.getLast?_cons, List.getLast?_cons, hlast, Option.getD_some, Option.getD_some]
    rintro ⟨⟩
    simp at hquote
  | word _ hall _ => exact .inl fun hmem => absurd (hall _ hmem) (by decide)
  | double hmem => exact .inl fun hslash => hdouble _ hmem (List.mem_singleton.1 hslash).symm
  | single => exact .inl List.not_mem_nil
  | sign hmem => exact .inl fun hslash => hsign _ hmem (List.mem_singleton.1 hslash).symm
  | bracket => exact .inl List.not_mem_nil

/-- Where a comment opens, a piece of a gap comes next. -/
theorem inGap_of_opensWith {done : List Char} (h : OpensWith c rest) : InGap done (c :: rest) := by
  obtain ⟨rfl, hhead | hhead⟩ := h
  · obtain ⟨others, rfl⟩ := List.head?_eq_some_iff.1 hhead
    obtain ⟨text, rest, rfl, htext, hover⟩ := exists_line others
    exact ⟨_, rest, rfl, .lineComment htext hover⟩
  · obtain ⟨others, rfl⟩ := List.head?_eq_some_iff.1 hhead
    rcases exists_comment others with ⟨text, rest, rfl, hclosing⟩ | hclosing
    · exact ⟨_, rest, by simp, .comment hclosing⟩
    · exact ⟨_, [], by simp, .openComment hclosing⟩

/-- A token is left as it is, unless it is a text literal with an opening mark in it. -/
theorem leaves_span {tier : Nat} {kind : Kind} {value : String} {done span : List Char}
    (h : Span tier kind value span rest) (hgap : ¬ InGap done (span ++ rest))
    (hliteral : kind = .string ∨ kind = .rawString → ¬ Opens span) : Leaves span rest span := by
  rcases slash_of_span h with hslash | ⟨hkind, hend⟩
  · obtain ⟨c, more, rfl⟩ := List.exists_cons_of_ne_nil h.ne_nil
    have hmore : Leaves more rest more := by
      refine leaves_self fun hopens => ?_
      rcases opens_append_take hopens with hopens | ⟨d, hd, rfl, -⟩
      · exact not_opens_of_not_mem hslash hopens
      · exact hslash (List.mem_of_getLast? hd)
    exact (leaves_single fun hopens => hgap (inGap_of_opensWith hopens)).append hmore
  · refine leaves_self fun hopens => ?_
    rcases opens_append_take hopens with hopens | ⟨d, hd, rfl, hhead⟩
    · exact hliteral hkind hopens
    · rcases hend with hend | rfl | rfl
      · exact hend hd
      · simp at hhead
      · simp at hhead

end Scan

/-! ### Sources -/

namespace Source

/-- The characters that the token at an index is written with. -/
def written (source : Source) (tier index : Nat) : List Char :=
  (source.chars.drop index).take
    ((Lexeme.read? tier (source.chars.drop index)).elim 0 Lexeme.length)

/-- Whether a line starts with `#` at an index, blanks aside. -/
def isDirective (source : Source) (index : Nat) : Bool :=
  (Cursor.after (source.chars.take index) (source.chars.drop index)).atLineStart &&
    source.chars[index]? = some '#'

/-- The rest of the line at an index. -/
def lineFrom (source : Source) (index : Nat) : List Char :=
  (source.chars.drop index).takeWhile (· ≠ '\n')

variable {source : Source} {tier : Nat} {done span rest : List Char}

/-- A token is written as its span. -/
theorem written_of_span {kind : Kind} {value : String}
    (hsource : done ++ (span ++ rest) = source.chars) (h : Span tier kind value span rest) :
    source.written tier done.length = span := by
  obtain ⟨lexeme, hread, -, -, hlength⟩ := Lexeme.read?_of_span h
  rw [written, ← hsource, List.drop_left, hread, Option.elim_some, hlength, List.take_left]

/-- A directive is found. -/
theorem isDirective_of_onlyBlanks (hsource : done ++ '#' :: rest = source.chars)
    (h : OnlyBlanks done) : source.isDirective done.length = true := by
  rw [isDirective, ← hsource, List.take_left, List.drop_left, Cursor.atLineStart_after.2 h,
    List.getElem?_append_right (Nat.le_refl _), Nat.sub_self]
  rfl

/-- A line is found. -/
theorem lineFrom_of_lineOver (hsource : done ++ (span ++ rest) = source.chars) (hspan : '\n' ∉ span)
    (hover : LineOver rest) : source.lineFrom done.length = span := by
  rw [lineFrom, ← hsource, List.drop_left, hover.takeWhile_append (Scan.inLine hspan)]

end Source

namespace Scan

variable {tier : Nat} {source : Source} {done rest : List Char} {tokens : List Token}

/-- No comment seems to open in the text literals of a source, and no block comment in its directive
lines. -/
structure Clear (tier : Nat) (source : Source) (tokens : List Token) : Prop where
  literals : ∀ token ∈ tokens, token.kind = .string ∨ token.kind = .rawString →
    ¬ Opens (source.written tier token.position.index)
  directives : ∀ index < source.length, source.isDirective index = true →
    ¬ ['/', '*'] <:+: source.lineFrom index

/-- A piece of a gap that starts with `#` is a directive line. -/
theorem isDirective_of_piece {piece : List Char} (h : Tiles tier source done tokens (piece ++ rest))
    (hpiece : Piece done piece rest) (hhash : piece.head? = some '#') :
    source.isDirective done.length = true ∧ source.lineFrom done.length = piece := by
  have hsource := h.append_eq
  cases hpiece with
  | @directive text rest hblanks htext hover =>
    exact ⟨Source.isDirective_of_onlyBlanks hsource hblanks, Source.lineFrom_of_lineOver hsource
      (List.not_mem_cons_of_ne_of_not_mem (by decide) htext) hover⟩
  | blank hblank =>
    cases hhash
    exact absurd hblank (by decide)
  | _ => cases hhash

/-- A scan stays in step with the tiles of a clear source. -/
theorem exists_leaves_tiles (hclear : Clear tier source tokens)
    (h : Tiles tier source done tokens rest) (hrest : rest ≠ []) : ∃ out, Leaves done rest out := by
  induction h with
  | start => exact ⟨[], leaves_nil⟩
  | @gap done piece rest tokens htiles hpiece ih =>
    obtain ⟨out, hout⟩ := ih hclear (by simp [hrest])
    have hhash : piece.head? = some '#' → ¬ ['/', '*'] <:+: piece := by
      intro hhash
      obtain ⟨hdirective, hline⟩ := isDirective_of_piece htiles hpiece hhash
      rw [← hline]
      refine hclear.directives _ ?_ hdirective
      have hpos := List.length_pos_iff.2 hpiece.ne_nil
      rw [source.length_eq, ← htiles.append_eq, List.length_append, List.length_append]
      omega
    obtain ⟨out', hout'⟩ := exists_leaves_piece hpiece hrest hhash
    exact ⟨out ++ out', hout.append hout'⟩
  | @token done span rest tokens kind value htiles hgap hspan ih =>
    obtain ⟨out, hout⟩ := ih ⟨fun token hmem => hclear.literals token (List.mem_append_left _ hmem),
      hclear.directives⟩ (by simp [hrest])
    have hliteral := hclear.literals _ (List.mem_append_right _ List.mem_cons_self)
    dsimp only at hliteral
    rw [source.index_position htiles.length_le, Source.written_of_span htiles.append_eq hspan]
      at hliteral
    exact ⟨out ++ span, hout.append (leaves_span hspan hgap hliteral)⟩

/-- A token with the tiles before it. -/
structure Tiled (tier : Nat) (source : Source) (before : List Char) (tokens : List Token)
    (token : Token) (span rest : List Char) : Prop where
  tiles : Tiles tier source before tokens (span ++ rest)
  noGap : ¬ InGap before (span ++ rest)
  span : Span tier token.kind token.value span rest
  index : token.position.index = before.length

/-- Any token of a source has tiles before it. -/
theorem exists_tiled {token : Token} {init later : List Token}
    (h : Tiles tier source done tokens rest) (htokens : tokens = init ++ token :: later) :
    ∃ before span after, Tiled tier source before init token span after := by
  induction h generalizing later with
  | start => exact absurd htokens.symm (by simp)
  | gap _ _ ih => exact ih htokens
  | @token done span rest tokens kind value htiles hgap hspan ih =>
    rcases List.eq_nil_or_concat later with rfl | ⟨later, last, rfl⟩
    · obtain ⟨rfl, hlast⟩ := List.append_inj' htokens rfl
      cases hlast
      exact ⟨done, span, rest, htiles, hgap, hspan, source.index_position htiles.length_le⟩
    · rw [List.concat_eq_append, ← List.cons_append, ← List.append_assoc] at htokens
      exact ih (List.append_inj' htokens rfl).1

/-- Between a token and the end of the gap after it nothing but blanks is left, if there is no
directive line. -/
theorem exists_gap_after {token : Token} {init : List Token}
    (h : Tiles tier source done tokens rest) (htokens : tokens = init ++ [token])
    (hrest : rest ≠ [])
    (hbetween : ∀ index, token.position.index < index → index < done.length →
      source.isDirective index = false) :
    ∃ before span gap blanks, Tiled tier source before init token span (gap ++ rest) ∧
      Leaves gap rest blanks ∧ ∀ c ∈ blanks, isBlank c = true := by
  induction h with
  | start => exact absurd htokens.symm (by simp)
  | @gap done piece rest tokens htiles hpiece ih =>
    have hlt : done.length < (done ++ piece).length := by
      have hpos := List.length_pos_iff.2 hpiece.ne_nil
      rw [List.length_append]
      omega
    obtain ⟨before, span, gap, blanks, htiled, hleaves, hblanks⟩ := ih htokens (by simp [hrest])
      fun index hlow hhigh => hbetween index hlow (Nat.lt_trans hhigh hlt)
    have hindex : token.position.index < done.length :=
      (htiles.stands token (by simp [htokens])).index
    have hhash : piece.head? ≠ some '#' := by
      intro hhash
      have hdirective := (isDirective_of_piece htiles hpiece hhash).1
      rw [hbetween _ hindex hlt] at hdirective
      cases hdirective
    obtain ⟨out, hout, hall⟩ := leaves_piece hpiece hrest hhash
    refine ⟨before, span, gap ++ piece, blanks ++ out, ?_, hleaves.append hout,
      List.forall_mem_append.2 ⟨hblanks, hall⟩⟩
    rw [List.append_assoc]
    exact htiled
  | @token done span rest tokens kind value htiles hgap hspan ih =>
    obtain ⟨rfl, hlast⟩ := List.append_inj' htokens rfl
    cases hlast
    exact ⟨done, span, [], [],
      ⟨htiles, hgap, hspan, source.index_position htiles.length_le⟩, leaves_nil,
      List.forall_mem_nil _⟩

end Scan

end Gml
