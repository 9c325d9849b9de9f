import FunctionIR.Text.Ranges

/-!
# White space

A source whose text holds nothing but white space counts as empty.  White
space here is the Unicode property `White_Space`: besides the ASCII blanks
it has the no-break space, the typographic spaces and the line and
paragraph separators, but neither the zero width space nor the byte order
mark.
-/

namespace FunctionIR.Text

/-- The code points with the property `White_Space`. -/
def blankRanges : List (Nat × Nat) := [
  (0x09, 0x0D), (0x20, 0x20), (0x85, 0x85), (0xA0, 0xA0), (0x1680, 0x1680),
  (0x2000, 0x200A), (0x2028, 0x2029), (0x202F, 0x202F), (0x205F, 0x205F),
  (0x3000, 0x3000)]

/-- A character with the property `White_Space`. -/
def isBlank (c : Char) : Bool := inRanges blankRanges c

/-- Nothing is left of the text once white space is removed. -/
def allBlank (text : String) : Bool := text.toList.all isBlank

end FunctionIR.Text
