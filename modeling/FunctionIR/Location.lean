/-!
# Places in a source

A location names a source, a line counted from 1 and a column counted from
0; a span runs from one location to another.  Trees come with such places,
and two operations move them: the decorator discount and a caller's own
shift, both by whole lines.

Line numbers are 64 bit words.  A shift reads the word as a *signed* number,
adds the distance and never goes below the first line.  So a line from
`2 ^ 63` on, which only an imported tree can have, counts as negative and is
moved to line 1; for every other line the shift is the plain sum, cut off
at 1 (`shiftLine_eq`).  The sum itself is taken among the integers: a word that
holds it is not asked for, so a shift over `2 ^ 63` is a line here and no overflow.
-/

namespace FunctionIR

/-- A line number read as a signed 64 bit word. -/
def signedLine (line : Nat) : Int := (line : Int).bmod (1 <<< 64)

/-- The line at a distance from another, but at least the first.  Only the line is read
as a word; the distance and the sum are integers without bounds. -/
def shiftLine (delta : Int) (line : Nat) : Nat :=
  (max 1 (signedLine line + delta)).toNat

/-- Below `2 ^ 63` a line is what is read as a signed word. -/
theorem signedLine_eq {line : Nat} (h : line < 1 <<< 63) : signedLine line = line := by
  unfold signedLine
  rw [Int.bmod_eq_of_le] <;> omega

/-- Below `2 ^ 63` a line moves by the distance, stopping at line 1. -/
theorem shiftLine_eq {line : Nat} (h : line < 1 <<< 63) (delta : Int) :
    (shiftLine delta line : Int) = max 1 (line + delta) := by
  unfold shiftLine
  rw [signedLine_eq h]
  omega

/-- A point in a source: the line counts from 1, the column from 0. -/
structure Location where
  file : String
  line : Nat
  column : Nat
deriving DecidableEq

/-- The location as `file:line:column`. -/
def Location.text (l : Location) : String :=
  l.file ++ ":" ++ toString l.line ++ ":" ++ toString l.column

/-- The location some lines on. -/
def Location.shift (delta : Int) (l : Location) : Location :=
  { l with line := shiftLine delta l.line }

/-- A stretch of a source. -/
structure Span where
  start : Location
  stop : Location
deriving DecidableEq

/-- Both ends of the span. -/
def Span.text (s : Span) : String := s.start.text ++ " - " ++ s.stop.text

/-- The span some lines on. -/
def Span.shift (delta : Int) (s : Span) : Span :=
  ⟨s.start.shift delta, s.stop.shift delta⟩

end FunctionIR
