import FunctionIR.Grammar.Rule

/-!
# Patterns

The grammar of source text is a value: a pattern says what text it matches,
and a table (module `Grammar.Definition`) gives every rule its pattern.
Patterns are those of parsing expression grammars.  A choice takes its first
alternative that matches, an option and a repetition take all they can, and
none of them reconsiders.

Three patterns deal with indentation.  A matcher carries the **margin** of
the block it is in: its own indentation and those of the blocks around it,
innermost first.  `margin` matches all of it in this order, `indent p`
matches `p` and puts the text it matched in front, `outdent` takes the first
indentation off again.

Blanks between tokens are not written in patterns.  Whether they are skipped
depends on the **spacing** in force: under `loose` spacing blanks may stand
between any two parts of a sequence and between the rounds of a repetition,
under `tight` spacing they may not, and under `token` spacing moreover the
matched text is one token without inner structure.
-/

namespace FunctionIR.Grammar

/-- Sets of characters that patterns refer to. -/
inductive CharClass where
  /-- Every character. -/
  | any
  /-- A blank or a tab. -/
  | blank
  /-- An ASCII digit. -/
  | digit
  /-- A letter that can start a name. -/
  | nameStart
  /-- A letter, digit or underscore. -/
  | nameChar
deriving DecidableEq

/-- The character is in the set. -/
def CharClass.holds : CharClass → Char → Bool
  | .any, _ => true
  | .blank, c => c == ' ' || c == '\t'
  | .digit, c => c.isDigit
  | .nameStart, c => c.isAlpha || c == '_'
  | .nameChar, c => c.isAlphanum || c == '_'

/-- A pattern for a stretch of text. -/
inductive Pattern where
  /-- Exactly this text. -/
  | text (chars : List Char)
  /-- One character of a set. -/
  | one (set : CharClass)
  /-- One part after the other. -/
  | seq (first second : Pattern)
  /-- The first of two that matches. -/
  | choice (first second : Pattern)
  /-- The part if it matches, else nothing. -/
  | opt (part : Pattern)
  /-- The part as often as it matches, possibly never. -/
  | many (part : Pattern)
  /-- Nothing, where the part does not match. -/
  | absent (part : Pattern)
  /-- What the rule's own pattern matches. -/
  | rule (r : Rule)
  /-- Nothing, at the start of the text. -/
  | start
  /-- Nothing, at the end of the text. -/
  | finish
  /-- The margin of the current block. -/
  | margin
  /-- The part, whose text then belongs to the margin. -/
  | indent (part : Pattern)
  /-- Nothing; the margin loses its innermost indentation. -/
  | outdent
deriving DecidableEq

namespace Pattern

/-- The text of a string. -/
def lit (s : String) : Pattern := .text s.toList

/-- A sequence of parts. -/
def parts : List Pattern → Pattern
  | [] => .text []
  | [p] => p
  | p :: rest => .seq p (parts rest)

/-- The first of several that matches. -/
def firstOf : List Pattern → Pattern
  | [] => .absent (.text [])
  | [p] => p
  | p :: rest => .choice p (firstOf rest)

/-- The part at least once. -/
def some (p : Pattern) : Pattern := .seq p (.many p)

/-- How many patterns a pattern is made of. -/
def size : Pattern → Nat
  | .seq a b | .choice a b => a.size + b.size + 1
  | .opt p | .many p | .absent p | .indent p => p.size + 1
  | _ => 1

end Pattern

/-- Where blanks may stand. -/
inductive Spacing where
  | loose | tight | token
deriving DecidableEq

/-- What a rule stands for. -/
structure Definition where
  /-- The spacing inside the rule; without one, that of its surroundings. -/
  spacing : Option Spacing
  /-- Whether a match of the rule is kept as a phrase. -/
  kept : Bool
  pattern : Pattern

end FunctionIR.Grammar
