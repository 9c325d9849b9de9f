import FunctionIR.Grammar.Definition

/-!
# Matching

`Pattern.run` matches a pattern against the text at a place.  It returns two
things that do not depend on each other's history: the **outcome**, which is
the state after the match or that there is none, and the **attempts**, a
record of the rules that were tried and where.  The record is only ever
looked at when the whole text is refused (module `Grammar.Expectation`);
no outcome reads it.

A state is a value, so a part that fails leaves nothing behind: text, margin
and phrases are those from before the part.  Blanks are skipped *between*
parts.  So an optional or repeated last part that matches nothing leaves the
blanks before it inside the match, whereas a repetition that stops stands
right after its last round.

The recursion is bounded by a number of steps.  Running out of them is an
outcome of its own, `exhausted`, that is neither a match nor a refusal.
`stepsFor` grants enough: between two characters read no pattern of the
grammar is entered twice, so a run on a text of length `n` is nested at most
`n + 1` times the number of patterns deep, a repetition counting double.
-/

namespace FunctionIR.Grammar

/-- A place in a text: how many characters come before it, and its line and
column. -/
structure Place where
  offset : Nat
  line : Nat
  column : Nat
deriving DecidableEq

/-- The start of a text. -/
def Place.origin : Place := ⟨0, 1, 0⟩

/-- The place after a character.  Only a line feed starts a new line. -/
def Place.after (place : Place) (c : Char) : Place :=
  if c = '\n' then ⟨place.offset + 1, place.line + 1, 0⟩
  else ⟨place.offset + 1, place.line, place.column + 1⟩

/-- A stretch of text that a rule matched, with the stretches inside it that
its parts matched. -/
inductive Phrase where
  | mk (rule : Rule) (start stop : Place) (text : List Char)
      (parts : List Phrase)

/-- The rule that matched. -/
def Phrase.rule : Phrase → Rule
  | .mk rule _ _ _ _ => rule

/-- Where the phrase starts. -/
def Phrase.start : Phrase → Place
  | .mk _ start _ _ _ => start

/-- Where the phrase stops. -/
def Phrase.stop : Phrase → Place
  | .mk _ _ stop _ _ => stop

/-- The text of the phrase. -/
def Phrase.text : Phrase → List Char
  | .mk _ _ _ text _ => text

/-- The phrases inside the phrase. -/
def Phrase.parts : Phrase → List Phrase
  | .mk _ _ _ _ parts => parts

/-- How far a match has come. -/
structure State where
  /-- What is left of the text. -/
  rest : List Char
  place : Place
  /-- The indentations of the blocks around, innermost first. -/
  margin : List (List Char)
  /-- The phrases found so far inside the current rule, latest first. -/
  phrases : List Phrase

/-- Nothing read of the text. -/
def State.ofText (text : List Char) : State := ⟨text, .origin, [], []⟩

/-- The state after its next character. -/
def State.take (s : State) (c : Char) (rest : List Char) : State :=
  { s with rest := rest, place := s.place.after c }

/-- The state after the given text, if that comes next. -/
def State.takeText : List Char → State → Option State
  | [], s => some s
  | c :: more, s =>
    match s.rest with
    | [] => none
    | d :: rest => if d = c then takeText more (s.take d rest) else none

/-- The text and place after leading blanks: spaces, tabs, and backslashes
that hide the end of their line. -/
def skipBlanks (place : Place) : List Char → List Char × Place
  | ' ' :: rest => skipBlanks (place.after ' ') rest
  | '\t' :: rest => skipBlanks (place.after '\t') rest
  | '\\' :: '\n' :: rest => skipBlanks ((place.after '\\').after '\n') rest
  | '\\' :: '\r' :: '\n' :: rest =>
    skipBlanks (((place.after '\\').after '\r').after '\n') rest
  | '\\' :: '\r' :: rest => skipBlanks ((place.after '\\').after '\r') rest
  | rest => (rest, place)

/-- The state after what may stand between two parts. -/
def State.skip (spacing : Spacing) (s : State) : State :=
  match spacing with
  | .loose =>
    let (rest, place) := skipBlanks s.place s.rest
    { s with rest := rest, place := place }
  | .tight | .token => s

/-- The text between two states. -/
def State.textUpTo (s t : State) : List Char :=
  s.rest.take (t.place.offset - s.place.offset)

/-- What becomes of a match. -/
inductive Outcome where
  | matched (s : State)
  | failed
  /-- The steps ran out. -/
  | exhausted

/-- The rules that were tried, where, and whether they failed. -/
inductive Attempts where
  | none
  | both (first second : Attempts)
  | rule (r : Rule) (place : Place) (failed : Bool) (inside : Attempts)

/-- One record after another. -/
def Attempts.and : Attempts → Attempts → Attempts
  | .none, b => b
  | a, .none => a
  | a, b => .both a b

/-- The outcome is that there is no match. -/
def Outcome.isFailed : Outcome → Bool
  | .failed => true
  | _ => false

/-- The state after a rule, from the states before and after its pattern: a
kept rule becomes a phrase, with the phrases inside it as its parts. -/
def State.closeRule (rule : Rule) (kept : Bool) (s t : State) : State :=
  { t with
    phrases :=
      if kept then
        .mk rule s.place t.place (s.textUpTo t) t.phrases.reverse :: s.phrases
      else s.phrases }

namespace Pattern

mutual

/-- Match a pattern at a state, nested at most `steps` deep. -/
def run : Nat → Pattern → Spacing → State → Outcome × Attempts
  | 0, _, _, _ => (.exhausted, .none)
  | steps + 1, pattern, spacing, s =>
    match pattern with
    | .text chars =>
      match s.takeText chars with
      | Option.some t => (.matched t, .none)
      | Option.none => (.failed, .none)
    | .one set =>
      match s.rest with
      | [] => (.failed, .none)
      | c :: rest =>
        if set.holds c then (.matched (s.take c rest), .none)
        else (.failed, .none)
    | .seq first second =>
      match run steps first spacing s with
      | (.matched t, tried) =>
        let (outcome, more) := run steps second spacing (t.skip spacing)
        (outcome, tried.and more)
      | other => other
    | .choice first second =>
      match run steps first spacing s with
      | (.failed, tried) =>
        let (outcome, more) := run steps second spacing s
        (outcome, tried.and more)
      | other => other
    | .opt part =>
      match run steps part spacing s with
      | (.failed, tried) => (.matched s, tried)
      | other => other
    | .many part =>
      match run steps part spacing s with
      | (.matched t, tried) => runMore steps part spacing t tried
      | (.failed, tried) => (.matched s, tried)
      | other => other
    | .absent part =>
      match run steps part spacing s with
      | (.matched _, _) => (.failed, .none)
      | (.failed, _) => (.matched s, .none)
      | other => other
    | .rule r =>
      let definition := r.definition
      let inner := definition.spacing.getD spacing
      /- a token belongs to its surroundings, any other rule to itself -/
      let visible := if inner = .token then spacing != .token else true
      let before := if visible then { s with phrases := [] } else s
      let (outcome, tried) := run steps definition.pattern inner before
      let result := match outcome with
        | .matched t =>
          if visible then .matched (State.closeRule r definition.kept s t)
          else .matched t
        | other => other
      (result,
        if visible then .rule r s.place outcome.isFailed tried else tried)
    | .start =>
      if s.place.offset = 0 then (.matched s, .none) else (.failed, .none)
    | .finish =>
      match s.rest with
      | [] => (.matched s, .none)
      | _ :: _ => (.failed, .none)
    | .margin =>
      match s.takeText s.margin.flatten with
      | Option.some t => (.matched t, .none)
      | Option.none => (.failed, .none)
    | .indent part =>
      match run steps part spacing s with
      | (.matched t, tried) =>
        (.matched { t with margin := s.textUpTo t :: t.margin }, tried)
      | other => other
    | .outdent =>
      match s.margin with
      | [] => (.failed, .none)
      | _ :: outer => (.matched { s with margin := outer }, .none)

/-- The further rounds of a repetition. -/
def runMore : Nat → Pattern → Spacing → State → Attempts → Outcome × Attempts
  | 0, _, _, _, tried => (.exhausted, tried)
  | steps + 1, part, spacing, s, tried =>
    match run steps part spacing (s.skip spacing) with
    | (.matched t, more) => runMore steps part spacing t (tried.and more)
    | (.failed, more) => (.matched s, tried.and more)
    | (.exhausted, more) => (.exhausted, tried.and more)

end

end Pattern

/-- Steps enough for a text of a length. -/
def stepsFor (length : Nat) : Nat := (length + 1) * (2 * (size + 1))

/-- Match a rule against a whole text from its start. -/
def Rule.matchText (rule : Rule) (text : List Char) : Outcome × Attempts :=
  (Pattern.rule rule).run (stepsFor text.length) .loose (.ofText text)

end FunctionIR.Grammar
