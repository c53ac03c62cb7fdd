import Gml.Text.Range

/-!
# White space

The characters with the Unicode property `White_Space`: the ASCII blanks and line ends, the no-break
space, the typographic spaces and the two separators.
-/

namespace Gml.Text

/-- Code points with the property `White_Space`. -/
def blankRanges : List Range :=
  [(0x9, 0xd), (0x20, 0x20), (0x85, 0x85), (0xa0, 0xa0), (0x1680, 0x1680), (0x2000, 0x200a),
   (0x2028, 0x2029), (0x202f, 0x202f), (0x205f, 0x205f), (0x3000, 0x3000)]

/-- Whether a character is white space. -/
def isBlank (c : Char) : Bool :=
  Range.contains blankRanges c.toNat

end Gml.Text
