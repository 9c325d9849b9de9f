import FunctionIR.Proofs.Printing.Expression

/-!
# What may follow an expression

A level of precedence is read by a rule, and most levels have something that
would extend what was read: an operator, a word, an opening bracket.  An
expression of a level **stops** before a rest (`Stops`) if nothing that comes
next would extend it, at this level or a tighter one.

Whether it does is seen from the first characters of the rest
(`stops_of_blocked`), so that every token that may follow an expression is
settled by computation.
-/

namespace FunctionIR

open Grammar Grammar.Pattern

/-- The rule that reads a level. -/
def Level.rule : Level → Rule
  | .conditional => .expression
  | .disjunction => .disjunction
  | .conjunction => .conjunction
  | .inversion => .inversion
  | .comparison => .comparison
  | .sum => .sum
  | .term => .term
  | .factor => .factor
  | .power => .power
  | .primary => .primary

/-- What would extend an expression of the level. -/
def Level.extension : Level → Pattern
  | .conditional => .rule .kwIf
  | .disjunction => .rule .kwOr
  | .conjunction => .rule .kwAnd
  | .comparison => .rule .compOp
  | .sum => .rule .sumOp
  | .term => .rule .termOp
  | .power => lit "**"
  | .primary => trailer
  | .inversion | .factor => .absent (.text [])

namespace Level

/-- All levels. -/
def all : List Level :=
  [conditional, disjunction, conjunction, inversion, comparison, sum, term, factor, power,
    primary]

/-- Every level is listed. -/
theorem mem_all (level : Level) : level ∈ all := by
  cases level <;> simp [all]

/-- The level has something that would extend it. -/
def extensible : Level → Bool
  | inversion | factor => false
  | _ => true

/-- Nothing at the level or a tighter one extends an expression before such a
text. -/
def blocked (level : Level) (ahead : Outlook) : Bool :=
  !ahead.blank && all.all fun tight =>
    !(decide (level ≤ tight) && tight.extensible) || tight.extension.refuses 16 ahead

end Level

namespace Printing

/-- An expression of the level ends before the rest. -/
structure Stops (level : Level) (rest : List Char) : Prop where
  apart : Apart rest
  misses : ∀ tight, level ≤ tight → tight.extensible = true →
    tight.extension.Misses (clear rest)

variable {level tight : Level} {rest : List Char}

theorem Stops.mono (h : Stops level rest) (hle : level ≤ tight) : Stops tight rest :=
  ⟨h.apart, fun other hother => h.misses other (Level.le_trans hle hother)⟩

/-- What is blocked by the text ahead stops there. -/
theorem stops_of_blocked (ahead : Outlook) (hblocked : level.blocked ahead = true)
    (hsees : ahead.sees (clear rest)) (hrest : Apart rest) : Stops level rest := by
  simp only [Level.blocked, Bool.and_eq_true, Bool.not_eq_eq_eq_not, Bool.not_true,
    List.all_eq_true, Bool.or_eq_true, Bool.and_eq_false_iff] at hblocked
  obtain ⟨hblank, hall⟩ := hblocked
  refine ⟨hrest, fun tight hle hextensible => ?_⟩
  have hrefuses : tight.extension.refuses 16 ahead = true := by
    rcases hall tight (Level.mem_all tight) with (h | h) | h
    · simp [hle] at h
    · simp [hextensible] at h
    · exact h
  exact misses_of_refuses _ hrefuses hblank hsees

/-- A text that starts with something else than a blank is clear. -/
theorem clear_append (chars : List Char) (h : (Outlook.mk chars false).blank = false)
    (more : List Char) : clear (chars ++ more) = chars ++ more := by
  cases chars with
  | nil => cases h
  | cons c chars =>
      simp only [Outlook.blank, Bool.or_eq_false_iff, beq_eq_false_iff_ne] at h
      exact clear_cons h.1.1 h.1.2 h.2 _

/-- Behind blanks the text ahead is seen. -/
theorem sees_clear (chars : List Char) {more : List Char} (h : (Outlook.mk chars false).blank = false) :
    (Outlook.mk chars false).sees (clear (chars ++ more)) := by
  rw [clear_append _ h]
  exact Outlook.sees_append _ _

/-- An operator comes right after the blank before it. -/
theorem clear_binary (op : BinaryOp) (more : List Char) :
    clear (' ' :: (op.token.toList ++ more)) = op.token.toList ++ more := by
  rw [clear_space]
  exact clear_append _ (by cases op <;> decide) more

/-- A comparison comes right after the blank before it. -/
theorem clear_compare (op : CompareOp) (more : List Char) :
    clear (' ' :: (op.token.toList ++ more)) = op.token.toList ++ more := by
  rw [clear_space]
  exact clear_append _ (by cases op <;> decide) more

/-- A word comes right after the blank before it. -/
theorem clear_joined (word : BoolOp) (more : List Char) :
    clear (' ' :: (word.token.toList ++ more)) = word.token.toList ++ more := by
  rw [clear_space]
  exact clear_append _ (by cases word <;> decide) more

/-- An expression stops before a blank and a text that blocks it. -/
theorem stops_space (chars : List Char) (more : List Char)
    (h : level.blocked ⟨chars, false⟩ = true) : Stops level (' ' :: (chars ++ more)) := by
  have hblank : (Outlook.mk chars false).blank = false := by
    simp only [Level.blocked, Bool.and_eq_true, Bool.not_eq_eq_eq_not, Bool.not_true] at h
    exact h.1
  refine stops_of_blocked _ h ?_ (apart_space _)
  rw [clear_space]
  exact sees_clear _ hblank

/-- Every expression stops at the end of the text. -/
theorem stops_nil : Stops .conditional [] :=
  stops_of_blocked ⟨[], true⟩ (by decide)
    ⟨[], rfl, fun _ => rfl⟩ apart_nil

/-- Every expression stops before a closing parenthesis. -/
theorem stops_parenthesis (more : List Char) : Stops .conditional (' ' :: ')' :: more) :=
  stops_space [')'] more (by decide)

theorem stops_bracket (more : List Char) : Stops .conditional (' ' :: ']' :: more) :=
  stops_space [']'] more (by decide)

theorem stops_comma (more : List Char) : Stops .conditional (' ' :: ',' :: more) :=
  stops_space [','] more (by decide)

/-- Every expression stops before a colon. -/
theorem stops_colon (more : List Char) : Stops .conditional (':' :: more) :=
  stops_of_blocked ⟨[':'], false⟩ (by decide)
    (sees_clear [':'] (by decide)) (by rintro c _ ⟨⟩; decide)

/-- Every expression stops at the end of its line. -/
theorem stops_newline (more : List Char) : Stops .conditional ('\n' :: more) :=
  stops_of_blocked ⟨['\n'], false⟩ (by decide)
    (sees_clear ['\n'] (by decide)) (by rintro c _ ⟨⟩; decide)

/-- A condition stops before the words of a conditional. -/
theorem stops_if (more : List Char) : Stops .disjunction (' ' :: ("if".toList ++ more)) :=
  stops_space _ more (by decide)

/-- A disjunction stops before `else`. -/
theorem stops_else (more : List Char) : Stops .disjunction (' ' :: ("else".toList ++ more)) :=
  stops_space _ more (by decide)

/-- A condition stops before the word that joins it with another. -/
theorem stops_joined (word : BoolOp) (more : List Char) :
    Stops word.innerLevel (' ' :: (word.token.toList ++ more)) :=
  stops_space _ more (by cases word <;> decide)

/-- A sum stops before a comparison. -/
theorem stops_compare (op : CompareOp) (more : List Char) :
    Stops .sum (' ' :: (op.token.toList ++ more)) :=
  stops_space _ more (by cases op <;> decide)

/-- What is on the left of an operator, and tighter, stops before it. -/
theorem stops_binary (level : Level) {op : BinaryOp} (hlevel : op.level = .sum ∧ level = .term ∨
    op.level = .term ∧ level = .factor ∨ op.level = .power ∧ level = .primary)
    (more : List Char) : Stops level (' ' :: (op.token.toList ++ ' ' :: more)) := by
  have hblocked : level.blocked ⟨op.token.toList ++ [' '], false⟩ = true := by
    rcases hlevel with ⟨hop, rfl⟩ | ⟨hop, rfl⟩ | ⟨hop, rfl⟩
      <;> cases op <;> first | exact absurd hop (by decide) | decide
  have h := stops_space _ more hblocked
  rwa [List.append_assoc] at h

end Printing

end FunctionIR
