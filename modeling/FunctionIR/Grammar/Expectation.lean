import FunctionIR.Grammar.Matching

/-!
# What was expected

When a text is refused, the user is told how far it could be read and which
rules could have gone on from there.  Both are read off the record of
attempts: a rule that was tried and failed is **noted** at the place where it
was tried, and what counts are the rules noted furthest into the text.

Notes are kept as general as they can be.  A rule that fails stands for the
rules tried inside it at the same place: its note replaces theirs, unless
exactly one was made, which is then more telling than the rule around it.
Tokens take part as a whole, and nothing inside a look-ahead is noted.
-/

namespace FunctionIR.Grammar

/-- The furthest place where rules failed, and which, in the order of
failing. -/
structure Expectation where
  place : Place
  rules : List Rule

namespace Expectation

/-- Nothing noted yet. -/
def initial : Expectation := ⟨.origin, []⟩

/-- How many rules are noted at a place. -/
def countAt (e : Expectation) (place : Place) : Nat :=
  if place.offset = e.place.offset then e.rules.length else 0

/-- Note a rule that failed at a place where `before` notes had been made
when it was tried. -/
def note (e : Expectation) (rule : Rule) (place : Place) (before : Nat) :
    Expectation :=
  if e.countAt place = before + 1 then e
  else if place.offset = e.place.offset then
    { e with rules := e.rules.take before ++ [rule] }
  else if e.place.offset < place.offset then ⟨place, [rule]⟩
  else e

/-- The rules that count, each once, in the order of the grammar. -/
def alternatives (e : Expectation) : List Rule :=
  Rule.all.filter (e.rules.contains ·)

end Expectation

/-- What a record of attempts amounts to, after an earlier one. -/
def Attempts.survey : Attempts → Expectation → Expectation
  | .none, e => e
  | .both first second, e => second.survey (first.survey e)
  | .rule r place failed inside, e =>
    let surveyed := inside.survey e
    if failed then surveyed.note r place (e.countAt place) else surveyed

end FunctionIR.Grammar
