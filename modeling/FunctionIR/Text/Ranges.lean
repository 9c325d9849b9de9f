/-!
# Sets of characters as lists of code point ranges

The standard tables of this library (which characters are blank, which are
shown as they are, how wide one is on a terminal) are all lists of closed
ranges of code points.  A character is in a table when one of its ranges
holds the character's code point; the order of the ranges says nothing.
-/

namespace FunctionIR.Text

/-- The code point of `c` lies in one of the closed ranges. -/
def inRanges (ranges : List (Nat × Nat)) (c : Char) : Bool :=
  ranges.any fun (low, high) => low ≤ c.toNat && c.toNat ≤ high

end FunctionIR.Text
