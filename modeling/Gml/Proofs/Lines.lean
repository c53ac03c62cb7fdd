import Gml.Proofs.Token.Layout
import Mathlib.Data.List.Chain

/-!
# Texts in lines

A line of a text ends in a line feed, a carriage return or both, and the end of the last line may be
left out (`Lines`). A source does not know which of these it was: its characters are the lines, each
with a line feed (`Lines.source_eq`), so that all that comes after it is the same as well.

Where a line starts is known from the lengths of the lines before it, and the line starts that a
source keeps are these (`lineStarts_normal`). The last of them that is not behind a character is the
start of the line that the character stands on, which gives its line and column
(`Lines.position_eq`).
-/

namespace Gml

/-! ### Lines -/

/-- How a line ends. -/
inductive LineEnd where
  | lineFeed
  | carriageReturn
  /-- A carriage return and a line feed. -/
  | both
  deriving DecidableEq

/-- The characters of a line end. -/
def LineEnd.chars : LineEnd → List Char
  | lineFeed => ['\n']
  | carriageReturn => ['\r']
  | both => ['\r', '\n']

/-- A line of a text. -/
structure Line where
  /-- What stands on it. -/
  chars : List Char
  /-- How it ends, if its end is not left out. -/
  ending : Option LineEnd
  /-- No line end stands on it. -/
  plain : '\r' ∉ chars ∧ '\n' ∉ chars

namespace Line

/-- The line as it is written. -/
def text (line : Line) : List Char :=
  line.chars ++ (line.ending.map LineEnd.chars).getD []

/-- The line with a line feed. -/
def normal (line : Line) : List Char :=
  line.chars ++ ['\n']

/-- A line end and the start of the next line are not one line end together. -/
def Apart (line next : Line) : Prop :=
  line.ending = some .carriageReturn → ¬ (next.chars = [] ∧ next.ending = some .lineFeed)

instance : DecidableRel Apart :=
  fun _ _ => inferInstanceAs (Decidable (_ → _))

end Line

/-- The lines of a text. Only the end of the last one may be left out, and only if something stands
on the line or there is no other. -/
structure Lines where
  /-- The lines in order. -/
  list : List Line
  ne_nil : list ≠ []
  apart : list.IsChain Line.Apart
  ended : ∀ line ∈ list.dropLast, line.ending ≠ none
  last : ∀ line ∈ list.getLast?, line.ending = none → line.chars ≠ [] ∨ list.length = 1

namespace Lines

/-- The text that the lines make up. -/
def text (lines : Lines) : String :=
  .ofList (lines.list.flatMap Line.text)

/-- The characters of the lines, each with a line feed. -/
def normal (lines : Lines) : List Char :=
  lines.list.flatMap Line.normal

/-- The number of characters before a line, if each line before it ends in a line feed. -/
def start (lines : Lines) (l : Nat) : Nat :=
  ((lines.list.take l).flatMap Line.normal).length

end Lines

/-! ### Line ends -/

/-- A line end becomes a line feed. -/
theorem unifyLineEnds_ending (ending : LineEnd) {rest : List Char}
    (h : ending = .carriageReturn → rest.head? ≠ some '\n') :
    unifyLineEnds (ending.chars ++ rest) = '\n' :: unifyLineEnds rest := by
  cases ending with
  | lineFeed => rfl
  | both => rfl
  | carriageReturn =>
    rw [LineEnd.chars, List.singleton_append, unifyLineEnds]
    rintro others rfl
    exact h rfl rfl

/-- Only the last line gets one. -/
theorem endLastLine_append (chars : List Char) {rest : List Char} (h : rest ≠ []) :
    endLastLine (chars ++ rest) = chars ++ endLastLine rest := by
  unfold endLastLine
  rw [List.getLast?_append, List.getLast?_eq_some_getLast h, Option.some_or]
  split
  · rfl
  · rw [List.append_assoc]

/-- A line without one gets it. -/
theorem endLastLine_of_not_mem {chars : List Char} (h : '\n' ∉ chars) :
    endLastLine chars = chars ++ ['\n'] :=
  if_neg fun hlast => h (List.mem_of_getLast? hlast)

namespace Line

variable {line next : Line} {rest : List Line}

/-- A line that has an end. -/
theorem text_of_ending {ending : LineEnd} (h : line.ending = some ending) :
    line.text = line.chars ++ ending.chars := by
  rw [text, h]
  rfl

/-- A line that has none. -/
theorem text_of_open (h : line.ending = none) : line.text = line.chars := by
  rw [text, h]
  exact List.append_nil _

/-- A line end with what comes after it is one line end, as a line feed comes next only after a line
end of its own. -/
theorem unifyLineEnds_text {ending : LineEnd} (h : line.ending = some ending) (rest : List Char)
    (hrest : ending = .carriageReturn → rest.head? ≠ some '\n') :
    unifyLineEnds (line.text ++ rest) = line.normal ++ unifyLineEnds rest := by
  rw [text_of_ending h, List.append_assoc, unifyLineEnds_append line.plain.1,
    unifyLineEnds_ending ending hrest, normal, List.append_assoc]
  rfl

/-- A line has characters. -/
theorem text_ne_nil (h : line.ending = none → line.chars ≠ []) : line.text ≠ [] := by
  cases hending : line.ending with
  | none =>
    rw [text_of_open hending]
    exact h hending
  | some ending =>
    rw [text_of_ending hending]
    cases ending <;> simp [LineEnd.chars]

/-- After a carriage return no line feed comes next. -/
theorem Apart.head?_ne (h : line.Apart next) (hreturn : line.ending = some .carriageReturn)
    (hne : next.text ≠ []) (rest : List Char) : (next.text ++ rest).head? ≠ some '\n' := by
  cases hchars : next.chars with
  | cons c others =>
    rw [text, hchars]
    rintro ⟨⟩
    exact next.plain.2 (by rw [hchars]; exact List.mem_cons_self)
  | nil =>
    cases hending : next.ending with
    | none => exact absurd ((text_of_open hending).trans hchars) hne
    | some ending =>
      rw [text_of_ending hending, hchars]
      cases ending with
      | lineFeed => exact absurd ⟨hchars, hending⟩ (h hreturn)
      | carriageReturn | both => exact nofun

end Line

/-- A text with line feeds is not empty if it was not before. -/
theorem unifyLineEnds_ne_nil {chars : List Char} (h : chars ≠ []) : unifyLineEnds chars ≠ [] := by
  fun_cases unifyLineEnds chars with
  | case1 => exact absurd rfl h
  | case2 | case3 | case4 => exact List.cons_ne_nil _ _

/-- Lines with their ends made line feeds, and the last one with an end. -/
theorem endLastLine_unifyLineEnds : ∀ list : List Line, list ≠ [] → list.IsChain Line.Apart →
    (∀ line ∈ list.dropLast, line.ending ≠ none) →
    (∀ line ∈ list.getLast?, line.ending = none → line.chars ≠ [] ∨ list.length = 1) →
    endLastLine (unifyLineEnds (list.flatMap Line.text)) = list.flatMap Line.normal
  | [], hne, _, _, _ => absurd rfl hne
  | [line], _, _, _, _ => by
    rw [List.flatMap_singleton, List.flatMap_singleton]
    cases hending : line.ending with
    | none =>
      have hunify := unifyLineEnds_append line.plain.1 []
      rw [List.append_nil] at hunify
      rw [Line.text_of_open hending, hunify, unifyLineEnds, List.append_nil,
        endLastLine_of_not_mem line.plain.2]
      rfl
    | some ending =>
      have hunify := Line.unifyLineEnds_text hending [] fun _ => (Option.some_ne_none _).symm
      rw [List.append_nil] at hunify
      rw [hunify, unifyLineEnds, List.append_nil]
      exact if_pos List.getLast?_concat
  | line :: next :: rest, _, hapart, hended, hlast => by
    obtain ⟨hfirst, hapart⟩ := List.isChain_cons_cons.1 hapart
    obtain ⟨ending, hending⟩ := Option.ne_none_iff_exists'.1 (hended line (by simp))
    have hended' : ∀ line ∈ (next :: rest).dropLast, line.ending ≠ none :=
      fun line hmem => hended line (List.mem_cons_of_mem _ hmem)
    have hlast' : ∀ line ∈ (next :: rest).getLast?, line.ending = none → line.chars ≠ [] := by
      intro line hmem hnone
      exact (hlast line hmem hnone).resolve_right (by simp)
    -- The next line is not empty, so a carriage return before it is not followed by a line feed.
    have hnext : next.text ≠ [] := by
      refine Line.text_ne_nil fun hnone => ?_
      cases rest with
      | nil => exact hlast' next rfl hnone
      | cons => exact absurd hnone (hended' next (by simp))
    have hunify := Line.unifyLineEnds_text hending ((next :: rest).flatMap Line.text) <| by
      rintro rfl
      exact hfirst.head?_ne hending hnext _
    have hne : (next :: rest).flatMap Line.text ≠ [] := by simp [hnext]
    rw [List.flatMap_cons, hunify, endLastLine_append _ (unifyLineEnds_ne_nil hne),
      endLastLine_unifyLineEnds (next :: rest) (List.cons_ne_nil _ _) hapart hended'
        fun line hmem hnone => .inl (hlast' line hmem hnone)]
    rfl

/-- The source of lines. -/
theorem Lines.source_eq (lines : Lines) : Source.ofString lines.text = .ofChars lines.normal := by
  unfold Source.ofString Lines.text
  rw [String.toList_ofList, endLastLine_unifyLineEnds lines.list lines.ne_nil lines.apart
    lines.ended lines.last]
  rfl

/-! ### Places -/

/-- Where lines start, if the first of them starts at an index. -/
def startsFrom (index : Nat) : List Line → List Nat
  | [] => []
  | line :: rest => index :: startsFrom (index + line.chars.length + 1) rest

/-- A line starts after the line feed. -/
theorem afterLineFeeds_append (index : Nat) {chars : List Char} (h : '\n' ∉ chars)
    (rest : List Char) : afterLineFeeds index (chars ++ '\n' :: rest) =
      (index + chars.length + 1) :: afterLineFeeds (index + chars.length + 1) rest := by
  induction chars generalizing index with
  | nil => rfl
  | cons c chars ih =>
    have hc : c ≠ '\n' := (List.ne_of_not_mem_cons h).symm
    rw [List.cons_append, afterLineFeeds, ih (index + 1) (List.not_mem_of_not_mem_cons h),
      List.length_cons]
    · congr 2 <;> omega
    · exact hc

/-- A source keeps where its lines start. -/
theorem lineStarts_normal (index : Nat) (line : Line) (rest : List Line) :
    index :: (afterLineFeeds index ((line :: rest).flatMap Line.normal)).dropLast =
      startsFrom index (line :: rest) := by
  induction rest generalizing index line with
  | nil =>
    have hafter := afterLineFeeds_append index line.plain.2 []
    rw [List.flatMap_singleton, Line.normal, hafter]
    rfl
  | cons next rest ih =>
    have hnormal : (line :: next :: rest).flatMap Line.normal =
        line.chars ++ '\n' :: (next :: rest).flatMap Line.normal := by
      simp [Line.normal]
    have hne : afterLineFeeds (index + line.chars.length + 1)
        ((next :: rest).flatMap Line.normal) ≠ [] := by
      rw [List.flatMap_cons, Line.normal, List.append_assoc, List.singleton_append,
        afterLineFeeds_append _ next.plain.2]
      exact List.cons_ne_nil _ _
    rw [hnormal, afterLineFeeds_append index line.plain.2, List.dropLast_cons_of_ne_nil hne, ih]
    rfl

/-- The starts of more lines. -/
theorem startsFrom_append (index : Nat) (list rest : List Line) :
    startsFrom index (list ++ rest) =
      startsFrom index list ++ startsFrom (index + (list.flatMap Line.normal).length) rest := by
  induction list generalizing index with
  | nil => rfl
  | cons line list ih =>
    have hlength : index + ((line :: list).flatMap Line.normal).length =
        index + line.chars.length + 1 + (list.flatMap Line.normal).length := by
      simp only [List.flatMap_cons, Line.normal, List.length_append, List.length_singleton]
      omega
    rw [List.cons_append, startsFrom, ih, hlength]
    rfl

/-- Each line starts. -/
theorem length_startsFrom (index : Nat) (list : List Line) :
    (startsFrom index list).length = list.length := by
  induction list generalizing index with
  | nil => rfl
  | cons line list ih => rw [startsFrom, List.length_cons, List.length_cons, ih]

/-- None starts too late. -/
theorem le_of_mem_startsFrom {index start : Nat} {list : List Line}
    (h : start ∈ startsFrom index list) : start ≤ index + (list.flatMap Line.normal).length := by
  induction list generalizing index with
  | nil => cases h
  | cons line list ih =>
    simp only [List.flatMap_cons, Line.normal, List.length_append, List.length_singleton]
    rcases List.mem_cons.1 h with rfl | h
    · omega
    · have hle := ih h
      omega

namespace Lines

variable (lines : Lines) {l c : Nat} {line : Line}

/-- A line has lines in front and behind. -/
theorem split (h : lines.list[l]? = some line) :
    lines.list = lines.list.take l ++ line :: lines.list.drop (l + 1) := by
  obtain ⟨hl, rfl⟩ := List.getElem?_eq_some_iff.1 h
  rw [List.getElem_cons_drop, List.take_append_drop]

/-- The lines that start at a place on a line or before are those up to this line. The last line
also has the place after its end. -/
theorem takeWhile_lineStarts (h : lines.list[l]? = some line)
    (hc : c ≤ line.chars.length ∨ l + 1 = lines.list.length) :
    (Source.ofChars lines.normal).lineStarts.takeWhile (· ≤ lines.start l + c) =
      startsFrom 0 (lines.list.take l) ++ [lines.start l] := by
  have hstarts : (Source.ofChars lines.normal).lineStarts = startsFrom 0 lines.list := by
    obtain ⟨first, rest, hlist⟩ := List.exists_cons_of_ne_nil lines.ne_nil
    rw [hlist, ← lineStarts_normal, ← hlist]
    rfl
  have hbefore : ∀ start ∈ startsFrom 0 (lines.list.take l),
      decide (start ≤ lines.start l + c) = true := by
    intro start hmem
    have hle := le_of_mem_startsFrom hmem
    rw [Nat.zero_add] at hle
    exact decide_eq_true (Nat.le_trans hle (Nat.le_add_right _ _))
  have hhere : decide (lines.start l ≤ lines.start l + c) = true :=
    decide_eq_true (Nat.le_add_right _ _)
  rw [hstarts, lines.split h, startsFrom_append, List.takeWhile_append_of_pos hbefore, Nat.zero_add,
    startsFrom, ← lines.split h]
  change startsFrom 0 _ ++ List.takeWhile _ (lines.start l :: startsFrom _ _) = _
  rw [List.takeWhile_cons, if_pos hhere]
  cases hdrop : lines.list.drop (l + 1) with
  | nil => rfl
  | cons next rest =>
    have hlt : l + 1 < lines.list.length := by
      have hlength := congrArg List.length hdrop
      rw [List.length_drop, List.length_cons] at hlength
      omega
    have hnext : ¬ decide (lines.start l + line.chars.length + 1 ≤ lines.start l + c) = true := by
      rw [decide_eq_true_eq]
      omega
    rw [startsFrom, List.takeWhile_cons]
    exact congrArg _ (congrArg _ (if_neg hnext))

/-- A line stands between others in the text. -/
theorem normal_eq (h : lines.list[l]? = some line) :
    lines.normal = (lines.list.take l).flatMap Line.normal ++
      (line.chars ++ ['\n'] ++ (lines.list.drop (l + 1)).flatMap Line.normal) := by
  have hsplit := congrArg (List.flatMap Line.normal) (lines.split h)
  rw [List.flatMap_append, List.flatMap_cons] at hsplit
  exact hsplit

/-- The length of the text, by one of its lines. -/
theorem length_normal (h : lines.list[l]? = some line) :
    lines.normal.length = lines.start l + line.chars.length + 1 +
      ((lines.list.drop (l + 1)).flatMap Line.normal).length := by
  rw [lines.normal_eq h, start]
  simp only [List.length_append, List.length_singleton]
  omega

/-- The position of a character in a line. -/
theorem position_eq (h : lines.list[l]? = some line)
    (hc : c ≤ line.chars.length ∨ l + 1 = lines.list.length) (hle : c ≤ line.chars.length + 1) :
    (Source.ofChars lines.normal).position (lines.start l + c) =
      ⟨l + 1, c + 1, lines.start l + c⟩ := by
  have hl : l < lines.list.length := (List.getElem?_eq_some_iff.1 h).1
  have hmin : min (lines.start l + c) (Source.ofChars lines.normal).length = lines.start l + c := by
    refine Nat.min_eq_left ?_
    rw [Source.length_eq]
    change _ ≤ lines.normal.length
    rw [lines.length_normal h]
    omega
  unfold Source.position
  dsimp only
  rw [hmin, lines.takeWhile_lineStarts h hc, List.length_append, length_startsFrom, List.length_take,
    Nat.min_eq_left (Nat.le_of_lt hl), List.getLastD_concat, Nat.add_sub_cancel_left]
  rfl

/-- What stands on a line is found after the lines before it. -/
theorem getElem?_normal (h : lines.list[l]? = some line) (hc : c ≤ line.chars.length) :
    lines.normal[lines.start l + c]? = (line.chars ++ ['\n'])[c]? := by
  have hlength : c < (line.chars ++ ['\n']).length := by
    rw [List.length_append, List.length_singleton]
    omega
  rw [lines.normal_eq h, start, List.getElem?_append_right (Nat.le_add_right _ _),
    Nat.add_sub_cancel_left, List.getElem?_append_left hlength]

/-- How lines end does not matter to what comes after, and each character stands on the line and in
the column where it is written. A line end stands after the last character of its line, and what
comes after the last line end stands on the last line, too. -/
theorem source_of_lines (lines : Lines) (tier : Nat) :
    (Source.ofString lines.text).chars = lines.normal ∧
    (Source.ofString lines.text).chars = (Source.ofString (.ofList lines.normal)).chars ∧
    tokenize lines.text tier = tokenize (.ofList lines.normal) tier ∧
    (∀ l c line, lines.list[l]? = some line → c ≤ line.chars.length →
      (Source.ofString lines.text).chars[lines.start l + c]? = (line.chars ++ ['\n'])[c]? ∧
      (Source.ofString lines.text).position (lines.start l + c) =
        ⟨l + 1, c + 1, lines.start l + c⟩) ∧
    ∀ line, lines.list.getLast? = some line →
      (Source.ofString lines.text).position (Source.ofString lines.text).chars.length =
        ⟨lines.list.length, line.chars.length + 2, lines.normal.length⟩ := by
  have hchars : (Source.ofString lines.text).chars = lines.normal := by
    rw [lines.source_eq]
    rfl
  have hsame : Source.ofString (.ofList lines.normal) = Source.ofString lines.text := by
    rw [← hchars, Source.ofString_chars]
  refine ⟨hchars, by rw [hsame], by rw [tokenize, tokenize, hsame], ?_, ?_⟩
  · intro l c line h hc
    rw [lines.source_eq]
    exact ⟨lines.getElem?_normal h hc, lines.position_eq h (.inl hc) (Nat.le_succ_of_le hc)⟩
  · intro line h
    have hpos := List.length_pos_iff.2 lines.ne_nil
    have hlast : lines.list.length - 1 + 1 = lines.list.length := by omega
    rw [List.getLast?_eq_getElem?] at h
    have hlength := lines.length_normal h
    rw [hlast, List.drop_length, List.flatMap_nil, List.length_nil, Nat.add_zero] at hlength
    have hposition := lines.position_eq h (.inr hlast) (Nat.le_refl _)
    rw [← Nat.add_assoc, ← hlength, hlast] at hposition
    rw [hchars, lines.source_eq]
    exact hposition

/-- An empty line between two carriage returns, then a line with both ends, and a last line without
any. -/
theorem source_of_lines_mixed : ∃ lines : Lines, lines.text = "a\r\rb\r\nc" ∧
    tokenize lines.text 2 = tokenize "a\n\nb\nc\n" 2 ∧
    (Source.ofString lines.text).position 3 = ⟨3, 1, 3⟩ ∧
    (Source.ofString lines.text).position 7 = ⟨4, 3, 7⟩ := by
  let a : Line := ⟨['a'], some .carriageReturn, by decide⟩
  let b : Line := ⟨['b'], some .both, by decide⟩
  let c : Line := ⟨['c'], none, by decide⟩
  let lines : Lines := ⟨[a, ⟨[], some .carriageReturn, by decide⟩, b, c], by decide, by decide,
    by decide, by decide⟩
  have hnormal : String.ofList lines.normal = "a\n\nb\nc\n" := by decide
  obtain ⟨hchars, -, htokens, hplaces, hend⟩ := source_of_lines lines 2
  refine ⟨lines, by decide, hnormal ▸ htokens, (hplaces 2 0 b rfl (by decide)).2, ?_⟩
  rw [hchars] at hend
  exact hend c rfl

end Lines

end Gml
