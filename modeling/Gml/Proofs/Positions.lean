import Gml.Proofs.Code.Marks
import Gml.Proofs.Stages
import Gml.Proofs.Tree.Ranges

/-!
# Places that are reported

Whatever a compilation reports has a place in the source, and it is shown to a reader as a line and a
column that both count from one. The place of a character that starts nothing is its own. All other
places are those of tokens, the end of the source included: a tree takes its places from the tokens
that it is read from (`Script.spans_of_parse`), and all later stages take theirs from the tree
(`compile_reports_places`).
-/

namespace Gml

/-- A place of one of the tokens of a text. -/
def TokenAt (text : String) (tier : Nat) (p : Position) : Prop :=
  ∃ tokens, tokenize text tier = .ok tokens ∧ ∃ token ∈ tokens, token.position = p

/-- The place of a character of a text up to which all is tokens and gaps, and that starts neither. -/
def RefusedAt (text : String) (tier : Nat) (c : Char) (p : Position) : Prop :=
  ∃ done inner rest, Tiles tier (.ofString text) done inner (c :: rest) ∧
    ¬ InGap done (c :: rest) ∧ ¬ Starts tier (c :: rest) ∧
    p = (Source.ofString text).position done.length

/-- A line and a column that a reader can find. -/
def Position.IsShown (p : Position) : Prop :=
  1 ≤ p.line ∧ 1 ≤ p.column

variable {text : String} {tier : Nat} {context : Context} {p : Position}

/-! ### Places in a text -/

/-- A position of a text can be shown. -/
theorem Source.isShown_position (text : String) (index : Nat) :
    ((Source.ofString text).position index).IsShown := by
  refine ⟨?_, Nat.le_add_left 1 _⟩
  -- The first line starts at the very front, so it starts before every place.
  have hstarts : (Source.ofString text).lineStarts =
      0 :: (afterLineFeeds 0 (Source.ofString text).chars).dropLast := rfl
  show 1 ≤ (List.takeWhile _ (Source.ofString text).lineStarts).length
  rw [hstarts, List.takeWhile_cons_of_pos (by simp), List.length_cons]
  exact Nat.le_add_left 1 _

/-- So can the place of a token. -/
theorem TokenAt.isShown (h : TokenAt text tier p) : p.IsShown := by
  obtain ⟨tokens, htokens, token, hmem, rfl⟩ := h
  obtain ⟨inner, htiles, rfl⟩ := exists_tiles_of_tokenize htokens
  rcases List.mem_append.1 hmem with hmem | hmem
  · rw [(htiles.stands token hmem).position]
    exact Source.isShown_position text _
  · rw [List.mem_singleton.1 hmem]
    exact Source.isShown_position text _

/-- So can that of a character that is refused. -/
theorem RefusedAt.isShown {c : Char} (h : RefusedAt text tier c p) : p.IsShown := by
  obtain ⟨done, _, _, _, _, _, rfl⟩ := h
  exact Source.isShown_position text _

variable {diagnostic : Diagnostic}

/-- No token starts with a character that is refused. -/
theorem refusedAt_of_tokenize (h : tokenize text tier = .error diagnostic) :
    ∃ c, diagnostic.fault = .unrecognized c ∧ RefusedAt text tier c diagnostic.position := by
  rcases exists_tiles tier (Source.ofString text) with
    ⟨inner, htiles⟩ | ⟨done, inner, c, rest, htiles, hgap, hstarts⟩
  · cases htiles.tokens_of_cover.symm.trans h
  · cases (htiles.tokens_of_stuck hgap hstarts).symm.trans h
    exact ⟨c, rfl, done, inner, rest, htiles, hgap, hstarts, rfl⟩

/-! ### Stages -/

/-- A message about a character that starts nothing, at its place, or another one at a token. -/
def Diagnostic.Placed (text : String) (tier : Nat) (diagnostic : Diagnostic) : Prop :=
  if diagnostic.stage = .lexical then
    ∃ c, diagnostic.fault = .unrecognized c ∧ RefusedAt text tier c diagnostic.position
  else TokenAt text tier diagnostic.position

/-- A place of a token is one of the text. -/
theorem Diagnostic.placed_of_token (hstage : diagnostic.stage ≠ .lexical)
    (h : TokenAt text tier diagnostic.position) : diagnostic.Placed text tier := by
  rwa [Placed, if_neg hstage]

/-- Places of the text can be shown. -/
theorem Diagnostic.Placed.isShown (h : diagnostic.Placed text tier) :
    diagnostic.position.IsShown := by
  unfold Placed at h
  split at h
  · obtain ⟨c, -, hrefused⟩ := h
    exact hrefused.isShown
  · exact h.isShown

/-- The tree of a text takes its places from the tokens. -/
theorem Script.spans_of_parse {script : Script} (h : Script.parse text tier = .ok script) :
    ∀ node ∈ script.body, node.Spans (TokenAt text tier) := by
  obtain ⟨tokens, htokens, h⟩ := exists_ok_of_bind h
  obtain ⟨j, hrow⟩ := row_of_ofTokens htokens h
  intro node hmem
  refine (hrow.laid node hmem).spans.imp fun p hp => ?_
  obtain ⟨token, htoken, rfl⟩ := hp.exists_token
  exact ⟨tokens, htokens, token, List.mem_toArray.1 htoken, rfl⟩

/-- Parsing fails at a place of the text. -/
theorem Script.placed_of_parse (h : Script.parse text tier = .error diagnostic) :
    diagnostic.Placed text tier := by
  rcases error_of_bind h with htokens | ⟨tokens, htokens, h⟩
  · have hstage : diagnostic.stage = .lexical := Cursor.stage_of_tokens htokens
    rw [Diagnostic.Placed, if_pos hstage]
    exact refusedAt_of_tokenize htokens
  · refine Diagnostic.placed_of_token ?_ ⟨tokens, htokens, token_of_ofTokens htokens h⟩
    rw [stage_of_ofTokens htokens h]
    exact nofun

/-- So does the tree once its names are looked up. -/
theorem Script.proper_of_source {script : Script} (h : Script.ofSource text context = .ok script) :
    script.IsProper (TokenAt text context.versionTier) := by
  obtain ⟨parsed, hparse, hresolve⟩ := exists_ok_of_bind h
  exact isProper_of_source h (spans_of_resolve (actions_of_parse hparse) (spans_of_parse hparse) hresolve)

/-- Resolving fails at a place of the text. -/
theorem Script.placed_of_source (h : Script.ofSource text context = .error diagnostic) :
    diagnostic.Placed text context.versionTier := by
  rcases error_of_bind h with hparse | ⟨parsed, hparse, hresolve⟩
  · exact placed_of_parse hparse
  · obtain ⟨hstage, hposition⟩ :=
      position_of_resolve (actions_of_parse hparse) (spans_of_parse hparse) hresolve
    refine Diagnostic.placed_of_token ?_ hposition
    rw [hstage]
    exact nofun

/-- So does generating. -/
theorem placed_of_compileToCode (h : compileToCode text context = .error diagnostic) :
    diagnostic.Placed text context.versionTier := by
  rcases compileToCode_eq_error h with hsource | ⟨script, hsource, hgenerate⟩
  · exact Script.placed_of_source hsource
  · obtain ⟨hposition, hstage⟩ :=
      Script.position_of_generate (Script.proper_of_source hsource) hgenerate
    exact Diagnostic.placed_of_token hstage hposition

/-- An instruction that ends the script can always be written. -/
theorem Encoding.instruction_exit (encoding : Encoding) (table : Array Nat) (index start : Nat) :
    encoding.instruction table index start .exit =
      .ok (encoding.integer encoding.opcodeWidth Instruction.exit.opcode ++ []) :=
  rfl

/-- If the widths are supported then assembly fails at the place of an instruction. -/
theorem Code.position_of_assemble {code : Code} {encoding : Encoding} (hs : encoding.Supported)
    (h : code.assemble encoding = .error diagnostic) :
    code.instructions ≠ #[.exit] ∧ ∃ index, diagnostic.position = code.positionOf index := by
  unfold assemble at h
  rw [if_pos hs.opcode, if_pos hs.operand] at h
  rcases error_of_bind h with h | ⟨bytes, -, h⟩
  · obtain ⟨failure, hwritten, rfl⟩ := mapError_eq_error h
    refine ⟨fun hexit => ?_, failure.2, rfl⟩
    rw [hexit] at hwritten
    obtain ⟨i, I, start, hI, hfails⟩ := Encoding.exists_of_instructions_error hwritten
    obtain rfl := List.mem_singleton.1 (List.mem_of_getElem? hI)
    rw [Encoding.instruction_exit] at hfails
    cases hfails
  · cases h

/-- Compiling fails at a place of the text. -/
theorem placed_of_compile (hs : context.encoding.Supported)
    (h : compile text context = .error diagnostic) :
    diagnostic.Placed text context.versionTier := by
  rcases error_of_bind h with h | ⟨code, hcode, h⟩
  · exact placed_of_compileToCode h
  · have hstage := (within_of_compileToCode hcode).stage_of_assemble (Nat.le_refl _) h
    obtain ⟨script, hsource, hgenerate⟩ := compileToCode_eq_ok hcode
    obtain ⟨hmarks, hopened⟩ := Script.marks_of_generate (Script.proper_of_source hsource) hgenerate
    obtain ⟨hexit, index, hposition⟩ := Code.position_of_assemble hs h
    obtain ⟨mark, hmark, hmarked⟩ := Code.exists_mark (hopened.resolve_right hexit) index
    refine Diagnostic.placed_of_token (by rw [hstage]; exact nofun) ?_
    rw [hposition, hmarked]
    exact hmarks mark hmark

/-- Every place that is reported is a place in the source. -/
theorem compile_reports_places (text : String) (context : Context)
    (hs : context.encoding.Supported) :
    (∀ code, compileToCode text context = .ok code →
      ∀ mark ∈ code.marks, TokenAt text context.versionTier mark.2 ∧ mark.2.IsShown) ∧
    (∀ assembly, compile text context = .ok assembly →
      ∀ mark ∈ assembly.marks, TokenAt text context.versionTier mark.2 ∧ mark.2.IsShown) ∧
    ∀ diagnostic, compile text context = .error diagnostic →
      diagnostic.Placed text context.versionTier ∧ diagnostic.position.IsShown := by
  have hcode (code : Code) (h : compileToCode text context = .ok code) :
      ∀ mark ∈ code.marks, TokenAt text context.versionTier mark.2 ∧ mark.2.IsShown := by
    obtain ⟨script, hsource, hgenerate⟩ := compileToCode_eq_ok h
    have hmarks := (Script.marks_of_generate (Script.proper_of_source hsource) hgenerate).1
    exact fun mark hmark => ⟨hmarks mark hmark, (hmarks mark hmark).isShown⟩
  refine ⟨hcode, fun assembly h => ?_, fun diagnostic h => ?_⟩
  · obtain ⟨code, hcompile, hassemble⟩ := exists_ok_of_bind h
    rw [(Code.assembles_of_assemble hassemble).marks]
    intro mark hmark
    obtain ⟨original, horiginal, rfl⟩ := Array.mem_map.1 hmark
    exact hcode code hcompile original horiginal
  · have hplaced := placed_of_compile hs h
    exact ⟨hplaced, hplaced.isShown⟩

/-- An operand that is too large is reported at the innermost statement that it belongs to. -/
theorem compile_reports_places_operand :
    let context : Context := { encoding := ⟨1, 1, .little⟩ }
    context.encoding.Supported ∧
      ∃ diagnostic, compile "x = 1;\n{ y = 300; }" context = .error diagnostic ∧
        diagnostic.position = ⟨2, 3, 9⟩ ∧
        diagnostic.Placed "x = 1;\n{ y = 300; }" context.versionTier := by
  intro context
  have hs : context.encoding.Supported := ⟨by decide, by decide⟩
  obtain ⟨diagnostic, h, hposition⟩ := exists_error_of_any
    (p := fun diagnostic => diagnostic.position = ⟨2, 3, 9⟩)
    (x := compile "x = 1;\n{ y = 300; }" context) (by decide +kernel)
  exact ⟨hs, diagnostic, h, of_decide_eq_true hposition,
    ((compile_reports_places _ context hs).2.2 diagnostic h).1⟩

end Gml
