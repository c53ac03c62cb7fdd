import Gml.Proofs.Outcome
import Gml.Proofs.Token.Span

/-!
# Tokens tile their source

A source splits from left to right into pieces of gaps and tokens, with nothing between them and
nothing left out (`Tiles`). A token is taken only where no gap goes on. There is only one way to do
so, and `tokenize` follows it: it succeeds if the tiles cover the source, and fails at the first
character that starts neither a piece nor a token (`tokenize_tiles`).

What `tokenize` does after some tiles is what it does from there on (`Tiles.tokens_eq`), and from
every place on the tiles can be continued to the end or to a place where there are none
(`Tiles.exists_last`). Both follow from what one piece or one token does.
-/

namespace Gml

open Lexeme

variable {tier : Nat} {source : Source} {cursor : Cursor} {done chars rest : List Char}
  {tokens : List Token}

/-! ### Steps of the lexer -/

namespace Cursor

/-- Nothing is left. -/
theorem tokens_of_end (h : cursor.skipGap.rest = []) :
    cursor.tokens tier source = .ok [.ending (cursor.skipGap.position source)] := by
  rw [Cursor.tokens]
  split
  · rfl
  · rename_i hrest
    rw [h] at hrest
    cases hrest

/-- A character is refused. -/
theorem tokens_of_none {c : Char} (h : cursor.skipGap.rest = c :: rest)
    (hread : read? tier (c :: rest) = none) :
    cursor.tokens tier source = .error ⟨.unrecognized c, cursor.skipGap.position source⟩ := by
  rw [Cursor.tokens]
  split
  · rename_i hrest
    rw [h] at hrest
    cases hrest
  · rename_i hrest
    rw [h] at hrest
    cases hrest
    rw [hread]

/-- A lexeme is a token. -/
theorem tokens_of_some {lexeme : Lexeme} (hread : read? tier cursor.skipGap.rest = some lexeme) :
    cursor.tokens tier source =
      (cursor.skipGap.advance lexeme.length).tokens tier source >>= fun later =>
        .ok (⟨lexeme.kind, lexeme.value, cursor.skipGap.position source⟩ :: later) := by
  rw [Cursor.tokens]
  split
  · rename_i hrest
    rw [hrest] at hread
    cases hread
  · rename_i hrest
    rw [hrest] at hread
    rw [hread]
    rfl

/-- Without a gap nothing is skipped. -/
theorem skipGap_of_no_gap (h : cursor.gapLength = 0) : cursor.skipGap = cursor := by
  rw [skipGap, if_pos h]

/-- A piece of a gap is passed over. -/
theorem tokens_of_gap (h : cursor.gapLength ≠ 0) :
    cursor.tokens tier source = (cursor.advance cursor.gapLength).tokens tier source := by
  have hskip : cursor.skipGap = (cursor.advance cursor.gapLength).skipGap := by
    rw [skipGap, if_neg h]
  cases hrest : cursor.skipGap.rest with
  | nil =>
    rw [tokens_of_end hrest, tokens_of_end (hskip ▸ hrest), hskip]
  | cons c rest =>
    cases hread : read? tier (c :: rest) with
    | none => rw [tokens_of_none hrest hread, tokens_of_none (hskip ▸ hrest) hread, hskip]
    | some lexeme =>
      rw [← hrest] at hread
      have hread' : read? tier (cursor.advance cursor.gapLength).skipGap.rest = some lexeme :=
        hskip ▸ hread
      rw [tokens_of_some hread, hskip]
      exact (tokens_of_some hread').symm

end Cursor

/-! ### Tiles -/

/-- A piece of a gap comes next. -/
def InGap (done chars : List Char) : Prop :=
  ∃ piece rest, chars = piece ++ rest ∧ Piece done piece rest

/-- Some characters of a source have been split into pieces of gaps and tokens. -/
inductive Tiles (tier : Nat) (source : Source) : List Char → List Token → List Char → Prop where
  | start : Tiles tier source [] [] source.chars
  | gap {done piece rest : List Char} {tokens : List Token} :
      Tiles tier source done tokens (piece ++ rest) → Piece done piece rest →
      Tiles tier source (done ++ piece) tokens rest
  | token {done span rest : List Char} {tokens : List Token} {kind : Kind} {value : String} :
      Tiles tier source done tokens (span ++ rest) → ¬ InGap done (span ++ rest) →
      Span tier kind value span rest →
      Tiles tier source (done ++ span)
        (tokens ++ [⟨kind, value, source.position done.length⟩]) rest

/-- What it is to have no gap. -/
theorem gapLength_eq_zero_iff : (Cursor.after done chars).gapLength = 0 ↔ ¬ InGap done chars := by
  constructor
  · rintro h ⟨piece, rest, rfl, hpiece⟩
    rw [Cursor.gapLength_of_piece hpiece] at h
    exact hpiece.ne_nil (List.length_eq_zero_iff.1 h)
  · intro h
    by_cases hzero : (Cursor.after done chars).gapLength = 0
    · exact hzero
    · exact absurd (Cursor.exists_piece hzero) h

namespace Tiles

/-- The tiles cover what has been read, and nothing is lost. -/
theorem append_eq (h : Tiles tier source done tokens rest) : done ++ rest = source.chars := by
  induction h with
  | start => rfl
  | gap _ _ ih => rw [List.append_assoc, ih]
  | token _ _ _ ih => rw [List.append_assoc, ih]

/-- The tokens of a source are those of its tiles so far and those from there on. -/
theorem tokens_eq (h : Tiles tier source done tokens rest) :
    (Cursor.start source).tokens tier source =
      (Cursor.after done rest).tokens tier source >>= fun later => .ok (tokens ++ later) := by
  induction h with
  | start =>
    change _ = (Cursor.start source).tokens tier source >>= fun later => .ok later
    cases (Cursor.start source).tokens tier source <;> rfl
  | @gap done piece rest tokens _ hpiece ih =>
    have hlength := Cursor.gapLength_of_piece hpiece
    have hne : (Cursor.after done (piece ++ rest)).gapLength ≠ 0 := by
      rw [hlength]
      exact fun hzero => hpiece.ne_nil (List.length_eq_zero_iff.1 hzero)
    rw [ih, Cursor.tokens_of_gap hne, hlength, Cursor.advance_after]
  | @token done span rest tokens kind value _ hgap hspan ih =>
    have hskip := Cursor.skipGap_of_no_gap (gapLength_eq_zero_iff.2 hgap)
    obtain ⟨lexeme, hread, rfl, rfl, hlength⟩ := read?_of_span hspan
    have hread' : read? tier (Cursor.after done (span ++ rest)).skipGap.rest = some lexeme := by
      rw [hskip]
      exact hread
    rw [ih, Cursor.tokens_of_some hread', hskip, hlength, Cursor.advance_after]
    cases (Cursor.after (done ++ span) rest).tokens tier source with
    | error => rfl
    | ok later =>
      change Except.ok _ = Except.ok _
      rw [List.append_assoc]
      rfl

/-- The tiles go on to the end or to a character that starts nothing. -/
theorem exists_last (h : Tiles tier source done tokens rest) :
    ∃ done' tokens' rest', Tiles tier source done' tokens' rest' ∧ ¬ InGap done' rest' ∧
      ¬ Starts tier rest' := by
  induction hn : rest.length using Nat.strongRecOn generalizing done tokens rest with
  | ind n ih =>
    subst hn
    by_cases hgap : InGap done rest
    · obtain ⟨piece, rest, rfl, hpiece⟩ := hgap
      have hpos := List.length_pos_iff.2 hpiece.ne_nil
      exact ih _ (by rw [List.length_append]; omega) (h.gap hpiece) rfl
    by_cases hstarts : Starts tier rest
    · obtain ⟨kind, value, span, rest, rfl, hspan⟩ := hstarts
      have hpos := List.length_pos_iff.2 hspan.ne_nil
      exact ih _ (by rw [List.length_append]; omega) (h.token hgap hspan) rfl
    · exact ⟨done, tokens, rest, h, hgap, hstarts⟩

end Tiles

/-! ### What is known about the tokens -/

/-- A position tells its index. -/
theorem Source.index_position (source : Source) {index : Nat} (h : index ≤ source.length) :
    (source.position index).index = index :=
  Nat.min_eq_left h

/-- Only the end is the end. -/
theorem Span.kind_ne_endOfFile {kind : Kind} {value : String} {span : List Char}
    (h : Span tier kind value span rest) : kind ≠ .endOfFile := by
  rintro rfl
  rcases h.of_unlisted (by decide) with ⟨hkind, -⟩ | ⟨hkind, -⟩ <;> cases hkind

/-- Everything but a text literal has the text that it is written with. -/
theorem Span.value_eq {kind : Kind} {value : String} {span : List Char}
    (h : Span tier kind value span rest) (hstring : kind ≠ .string) (hraw : kind ≠ .rawString) :
    value = .ofList span := by
  cases h with
  | string => exact absurd rfl hstring
  | raw => exact absurd rfl hraw
  | _ => rfl

/-- A token stands in its source where its position says, before some place. -/
structure Token.Stands (source : Source) (bound : Nat) (token : Token) : Prop where
  kind : token.kind ≠ .endOfFile
  position : token.position = source.position token.position.index
  index : token.position.index < bound
  value : token.kind ≠ .string → token.kind ≠ .rawString →
    (source.chars.drop token.position.index).take token.value.length = token.value.toList

/-- A bound may be raised. -/
theorem Token.Stands.mono {bound bound' : Nat} {token : Token} (h : token.Stands source bound)
    (hle : bound ≤ bound') : token.Stands source bound' :=
  ⟨h.kind, h.position, Nat.lt_of_lt_of_le h.index hle, h.value⟩

namespace Tiles

/-- A tiling stays in the text. -/
theorem length_le (h : Tiles tier source done tokens rest) : done.length ≤ source.length := by
  rw [source.length_eq, ← h.append_eq, List.length_append]
  exact Nat.le_add_right _ _

/-- Its tokens stand there. -/
theorem stands (h : Tiles tier source done tokens rest) :
    ∀ token ∈ tokens, token.Stands source done.length := by
  induction h with
  | start => simp
  | gap _ _ ih =>
    intro token hmem
    exact (ih token hmem).mono (by rw [List.length_append]; omega)
  | @token done span rest tokens kind value htiles hgap hspan ih =>
    have hindex := source.index_position htiles.length_le
    have hpos := List.length_pos_iff.2 hspan.ne_nil
    intro token hmem
    rcases List.mem_append.1 hmem with hmem | hmem
    · exact (ih token hmem).mono (by rw [List.length_append]; omega)
    · obtain rfl := List.mem_singleton.1 hmem
      refine ⟨hspan.kind_ne_endOfFile, ?_, ?_, fun hstring hraw => ?_⟩
      · rw [hindex]
      · rw [hindex, List.length_append]
        omega
      · rw [hindex, hspan.value_eq hstring hraw, ← htiles.append_eq]
        simp

/-- They come one after the other. -/
theorem indices_increase (h : Tiles tier source done tokens rest) :
    tokens.Pairwise fun token later => token.position.index < later.position.index := by
  induction h with
  | start => exact .nil
  | gap _ _ ih => exact ih
  | @token done span rest tokens kind value htiles _ _ ih =>
    refine List.pairwise_append.2 ⟨ih, List.pairwise_singleton _ _, ?_⟩
    intro token hmem later hlater
    obtain rfl := List.mem_singleton.1 hlater
    rw [source.index_position htiles.length_le]
    exact (htiles.stands token hmem).index

end Tiles

/-! ### Sources -/

/-- Tiles that cover the source give its tokens. -/
theorem Tiles.tokens_of_cover (h : Tiles tier source done tokens []) :
    (Cursor.start source).tokens tier source =
      .ok (tokens ++ [.ending (source.position source.length)]) := by
  have hgap : ¬ InGap done [] := by
    rintro ⟨piece, rest, hnil, hpiece⟩
    exact hpiece.ne_nil (List.append_eq_nil_iff.1 hnil.symm).1
  have hskip := Cursor.skipGap_of_no_gap (gapLength_eq_zero_iff.2 hgap)
  have hlength : done.length = source.length := by
    rw [source.length_eq, ← h.append_eq, List.append_nil]
  rw [h.tokens_eq, Cursor.tokens_of_end (by rw [hskip]; rfl), hskip, ← hlength]
  rfl

/-- A character that starts nothing is refused. -/
theorem Tiles.tokens_of_stuck {c : Char} (h : Tiles tier source done tokens (c :: rest))
    (hgap : ¬ InGap done (c :: rest)) (hstarts : ¬ Starts tier (c :: rest)) :
    (Cursor.start source).tokens tier source =
      .error ⟨.unrecognized c, source.position done.length⟩ := by
  have hskip := Cursor.skipGap_of_no_gap (gapLength_eq_zero_iff.2 hgap)
  have hread : read? tier (c :: rest) = none := by
    by_cases hnone : read? tier (c :: rest) = none
    · exact hnone
    · exact absurd (starts_of_read? hnone) hstarts
  rw [h.tokens_eq, Cursor.tokens_of_none (by rw [hskip]; rfl) hread, hskip]
  rfl

/-- A source is covered by tiles, or they end at a character that starts nothing. -/
theorem exists_tiles (tier : Nat) (source : Source) :
    (∃ inner, Tiles tier source source.chars inner []) ∨
    ∃ done inner c rest, Tiles tier source done inner (c :: rest) ∧ ¬ InGap done (c :: rest) ∧
      ¬ Starts tier (c :: rest) := by
  have hstart : Tiles tier source [] [] source.chars := .start
  obtain ⟨done, inner, rest, htiles, hgap, hstarts⟩ := hstart.exists_last
  cases rest with
  | nil =>
    have hdone := htiles.append_eq
    rw [List.append_nil] at hdone
    exact .inl ⟨inner, hdone ▸ htiles⟩
  | cons c rest => exact .inr ⟨done, inner, c, rest, htiles, hgap, hstarts⟩

/-- The tokens of a source are those of the tiles that cover it, and the end. -/
theorem exists_tiles_of_tokenize {text : String} (h : tokenize text tier = .ok tokens) :
    ∃ inner, Tiles tier (Source.ofString text) (Source.ofString text).chars inner [] ∧
      tokens = inner ++ [.ending ((Source.ofString text).position (Source.ofString text).length)] := by
  rcases exists_tiles tier (Source.ofString text) with
    ⟨inner, htiles⟩ | ⟨_, _, _, _, htiles, hgap, hstarts⟩
  · cases htiles.tokens_of_cover.symm.trans h
    exact ⟨inner, htiles, rfl⟩
  · cases (htiles.tokens_of_stuck hgap hstarts).symm.trans h

/-- The tokens of a source tile it. They are those of the tiles that cover it, and the end; if there
are no such tiles, the first character that starts nothing is refused. -/
theorem tokenize_tiles (text : String) (tier : Nat) :
    let source := Source.ofString text
    (∀ tokens, tokenize text tier = .ok tokens ↔
      ∃ inner, Tiles tier source source.chars inner [] ∧
        tokens = inner ++ [.ending (source.position source.length)]) ∧
    (∀ diagnostic, tokenize text tier = .error diagnostic ↔
      ∃ done inner c rest, Tiles tier source done inner (c :: rest) ∧
        ¬ InGap done (c :: rest) ∧ ¬ Starts tier (c :: rest) ∧
        diagnostic = ⟨.unrecognized c, source.position done.length⟩) ∧
    (source.position source.length).index = source.length ∧
    ∀ done inner rest, Tiles tier source done inner rest →
      done ++ rest = source.chars ∧ (∀ token ∈ inner, token.Stands source done.length) ∧
      inner.Pairwise fun token later => token.position.index < later.position.index := by
  intro source
  have hrun : tokenize text tier = (Cursor.start source).tokens tier source := rfl
  refine ⟨fun tokens => ⟨fun h => ?_, ?_⟩, fun diagnostic => ⟨fun h => ?_, ?_⟩,
    source.index_position (Nat.le_refl _),
    fun done inner rest htiles => ⟨htiles.append_eq, htiles.stands, htiles.indices_increase⟩⟩
  · rcases exists_tiles tier source with ⟨inner, htiles⟩ | ⟨done, inner, c, rest, htiles, hgap, hst⟩
    · rw [hrun, htiles.tokens_of_cover] at h
      cases h
      exact ⟨inner, htiles, rfl⟩
    · rw [hrun, htiles.tokens_of_stuck hgap hst] at h
      cases h
  · rintro ⟨inner, htiles, rfl⟩
    exact htiles.tokens_of_cover
  · rcases exists_tiles tier source with ⟨inner, htiles⟩ | ⟨done, inner, c, rest, htiles, hgap, hst⟩
    · rw [hrun, htiles.tokens_of_cover] at h
      cases h
    · rw [hrun, htiles.tokens_of_stuck hgap hst] at h
      cases h
      exact ⟨done, inner, c, rest, htiles, hgap, hst, rfl⟩
  · rintro ⟨done, inner, c, rest, htiles, hgap, hstarts, rfl⟩
    exact htiles.tokens_of_stuck hgap hstarts

/-- A comment, a text without an end whose last line goes on, and nothing after it. -/
theorem tokenize_tiles_text :
    ∃ inner, Tiles 2 (Source.ofString "x /* y */ = \"a\\") "x /* y */ = \"a\\\n".toList inner [] ∧
      inner.map (·.value) = ["x", "=", "a"] ∧ inner.map (·.position.index) = [0, 10, 12] := by
  obtain ⟨tokens, htokens, hall⟩ := exists_ok_of_any
    (p := fun tokens => (tokens.dropLast.map (·.value) = ["x", "=", "a"] ∧
      tokens.dropLast.map (·.position.index) = [0, 10, 12]))
    (x := tokenize "x /* y */ = \"a\\" 2) (by decide +kernel)
  obtain ⟨inner, htiles, rfl⟩ := ((tokenize_tiles "x /* y */ = \"a\\" 2).1 tokens).1 htokens
  rw [List.dropLast_concat] at hall
  exact ⟨inner, htiles, of_decide_eq_true hall⟩

end Gml
