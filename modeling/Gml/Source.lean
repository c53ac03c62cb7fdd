import Gml.Position

/-!
# Source text

A source is a text whose lines all end in a line feed. `Source.ofString` brings a text into this
form: a carriage return, alone or before a line feed, becomes a line feed, and a last line without
an end gets one. Line ends are therefore nobody's concern afterwards, and the last line can be read
like any other.

A `Cursor` stands between what has been read of a source and what has not. What has been read is
kept with its last character first, so that looking back is as cheap as looking ahead.
-/

namespace Gml

/-- Every line end becomes a line feed. -/
def unifyLineEnds : List Char → List Char
  | [] => []
  | '\r' :: '\n' :: rest => '\n' :: unifyLineEnds rest
  | '\r' :: rest => '\n' :: unifyLineEnds rest
  | c :: rest => c :: unifyLineEnds rest

/-- The last line gets an end if it has none. -/
def endLastLine (chars : List Char) : List Char :=
  if chars.getLast? = some '\n' then chars else chars ++ ['\n']

/-- The index just after each line feed. -/
def afterLineFeeds : (index : Nat) → List Char → List Nat
  | _, [] => []
  | index, '\n' :: rest => (index + 1) :: afterLineFeeds (index + 1) rest
  | index, _ :: rest => afterLineFeeds (index + 1) rest

/-- A text in lines, with the index at which each line starts. -/
structure Source where
  /-- The characters; the last one is a line feed. -/
  chars : List Char
  /-- Where the lines start. The line feed at the very end starts no line. -/
  lineStarts : List Nat
  /-- The number of characters. -/
  length : Nat
  /-- The number of characters is what it says. -/
  length_eq : length = chars.length

namespace Source

/-- The source with the given characters. -/
def ofChars (chars : List Char) : Source :=
  { chars
    lineStarts := 0 :: (afterLineFeeds 0 chars).dropLast
    length := chars.length
    length_eq := rfl }

/-- The source that a text stands for. -/
def ofString (text : String) : Source :=
  ofChars (endLastLine (unifyLineEnds text.toList))

/-- The place of the character with the given index. All that lies beyond the end is one place,
just after the last line's end and on the same line. -/
def position (source : Source) (index : Nat) : Position :=
  let index := min index source.length
  let upTo := source.lineStarts.takeWhile (· ≤ index)
  { line := upTo.length
    column := index - upTo.getLastD 0 + 1
    index }

end Source

/-- A place between two characters of a source. -/
structure Cursor where
  /-- What has been read, the last character first. -/
  before : List Char
  /-- What has not been read. -/
  rest : List Char
  /-- The number of characters read. -/
  index : Nat
  /-- The number of characters read is what it says. -/
  index_eq : index = before.length

namespace Cursor

/-- The character beyond the end. -/
def beyond : Char := '\x00'

/-- The start of a source. -/
def start (source : Source) : Cursor :=
  { before := [], rest := source.chars, index := 0, index_eq := rfl }

/-- The character some way ahead. -/
def peek (cursor : Cursor) (ahead : Nat) : Char :=
  cursor.rest[ahead]?.getD beyond

/-- The next character. -/
def head (cursor : Cursor) : Char :=
  cursor.peek 0

/-- Whether everything has been read. -/
def atEnd (cursor : Cursor) : Bool :=
  cursor.rest.isEmpty

/-- Reads a number of characters, or as many as there are. -/
def advance : Cursor → Nat → Cursor
  | cursor, 0 => cursor
  | ⟨before, [], index, h⟩, _ + 1 => ⟨before, [], index, h⟩
  | ⟨before, c :: rest, index, h⟩, n + 1 =>
    advance ⟨c :: before, rest, index + 1, by simp [h]⟩ n

/-- To advance is to drop characters. -/
theorem rest_advance (cursor : Cursor) (n : Nat) :
    (cursor.advance n).rest = cursor.rest.drop n := by
  fun_induction advance cursor n with
  | case1 => simp
  | case2 => simp
  | case3 before c rest n ih => simpa using ih

/-- Whether only blanks lie between the cursor and the start of its line. -/
def atLineStart (cursor : Cursor) : Bool :=
  match cursor.before.dropWhile fun c => c = ' ' || c = '\t' with
  | [] => true
  | c :: _ => c = '\n'

/-- The place of the cursor in its source. -/
def position (source : Source) (cursor : Cursor) : Position :=
  source.position cursor.index

end Cursor

end Gml
