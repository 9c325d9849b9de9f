import FunctionIR.Proofs.Printing.Levels

/-!
# Names and literals as expressions

A value without operators is read by the first of nine rules that takes it.
For a name or a literal this is its own rule: the ones before it miss the
text, mostly because of its first character.
-/

namespace FunctionIR.Printing

open Grammar Grammar.Pattern Reading

variable {file : String} {rest : List Char}

/-- One phrase, that denotes the form. -/
def Denoted (file : String) (form : Value) (phrases : List Phrase) : Prop :=
  ∃ phrase, phrases = [phrase] ∧ Denotes file phrase form

/-- What is shown by a rule is denoted. -/
theorem Shows.denoted {r : Rule} {form : Value} {phrases : List Phrase}
    (h : Shows file r form phrases) : Denoted file form phrases := by
  obtain ⟨phrase, rfl, -, hphrase⟩ := h
  exact ⟨phrase, rfl, hphrase⟩

/-- A token denotes what its text stands for. -/
theorem Leaf.denoted {r : Rule} {text : List Char} {form : Value} {phrases : List Phrase}
    (h : Leaf r text phrases)
    (hdenotes : ∀ start stop, Denotes file (.mk r start stop text []) form) :
    Denoted file form phrases := by
  obtain ⟨start, stop, rfl⟩ := h
  exact ⟨_, rfl, hdenotes start stop⟩

/-- The values without operators, in the order in which they are tried. -/
def atomParts : List Pattern := [
  .rule .noneLiteral, .rule .trueLiteral, .rule .falseLiteral, .rule .float,
  .rule .integer, .rule .string, .rule .identifier, .rule .parenthesized,
  .rule .listDisplay]

/-- The expression is a value without anything that extends it. -/
def IsAtom (file : String) (e : Printing) : Prop :=
  ∀ rest, Apart rest → atom.Takes (e.text ++ rest) rest (Denoted file e.tree)

/-- What a text does not begin like is missed. -/
theorem misses_of_first {choices : List Pattern} {c : Char} {more : List Char}
    (h : ∀ q ∈ choices, q.refuses 40 ⟨[c], false⟩ = true)
    (hblank : (Outlook.mk [c] false).blank = false) : ∀ q ∈ choices, q.Misses (c :: more) :=
  fun q hq => misses_of_refuses _ (h q hq) hblank (Outlook.sees_append _ _)

theorem isAtom_none : IsAtom file noneWord := by
  intro rest hrest
  refine Takes.mono (Takes.nth atomParts 0 (by decide) nofun
    (takes_word "None" rfl hrest.bounded)) fun phrases h => ?_
  exact Leaf.denoted h fun _ _ => denotes_none

theorem isAtom_true : IsAtom file trueWord := by
  intro rest hrest
  refine Takes.mono (Takes.nth atomParts 1 (by decide)
    (misses_of_first (by decide) (by decide))
    (takes_word "True" rfl hrest.bounded)) fun phrases h => ?_
  exact Leaf.denoted h fun _ _ => denotes_true

theorem isAtom_false : IsAtom file falseWord := by
  intro rest hrest
  refine Takes.mono (Takes.nth atomParts 2 (by decide)
    (misses_of_first (by decide) (by decide))
    (takes_word "False" rfl hrest.bounded)) fun phrases h => ?_
  exact Leaf.denoted h fun _ _ => denotes_false

/-- No word for a constant begins with a digit. -/
theorem misses_digits (run : DigitRun) (more : List Char) :
    ∀ q ∈ atomParts.take 3, q.Misses (run.text ++ more) := by
  have h : ∀ d, (∀ q ∈ atomParts.take 3, q.refuses 40 ⟨[digitChar d], false⟩ = true) ∧
      (Outlook.mk [digitChar d] false).blank = false := by decide
  exact misses_of_first (h run.first).1 (h run.first).2

/-- A number with a fraction or an exponent. -/
theorem isAtom_float (literal : FloatLiteral) : IsAtom file (float literal) := by
  intro rest hrest
  have hbefore : ∀ q ∈ atomParts.take 3, q.Misses (literal.text ++ rest) := by
    cases literal with
    | pointed whole fraction scale =>
        rw [FloatLiteral.text, List.append_assoc]
        exact misses_digits whole _
    | leading fraction scale => exact misses_of_first (by decide) (by decide)
    | scaled whole scale =>
        rw [FloatLiteral.text, List.append_assoc]
        exact misses_digits whole _
  refine Takes.mono (Takes.nth atomParts 3 (by decide) hbefore
    (literal.takes hrest)) fun phrases h => ?_
  refine Leaf.denoted h fun _ _ => ?_
  rw [tree, ← literal.floatValue_text]
  exact denotes_float

/-- An integer. -/
theorem isAtom_integer (literal : IntegerLiteral) : IsAtom file (integer literal) := by
  intro rest hrest
  have hbefore : ∀ q ∈ atomParts.take 4, q.Misses (literal.text ++ rest) := by
    intro q hq
    have hcases : ∀ q ∈ atomParts.take 4, q ∈ atomParts.take 3 ∨ q = .rule .float := by decide
    rcases hcases q hq with hq | rfl
    · exact misses_digits literal.run rest q hq
    · exact literal.run.misses_float hrest
  refine Takes.mono (Takes.nth atomParts 4 (by decide) hbefore
    (literal.takes hrest)) fun phrases h => ?_
  exact Leaf.denoted h fun _ _ => denotes_integer literal.integerValue_text

/-- A string. -/
theorem isAtom_string (literal : StringLiteral) : IsAtom file (string literal) := by
  intro rest _
  have h : (∀ q ∈ atomParts.take 5, q.refuses 40 ⟨[literal.quote.char], false⟩ = true) ∧
      (Outlook.mk [literal.quote.char] false).blank = false := by
    cases literal.quote <;> decide
  refine Takes.mono (Takes.nth atomParts 5 (by decide)
    (misses_of_first h.1 h.2) literal.takes) fun phrases h => ?_
  refine Leaf.denoted h fun _ _ => ?_
  rw [tree, ← literal.stringValue_text]
  exact denotes_string

/-- No digit starts a name. -/
theorem not_digit_of_nameStart {c : Char} (h : CharClass.nameStart.holds c = true) :
    c.isDigit = false := by
  have hlow := (nameStart_range h).1
  have hhigh : ¬ c.toNat ≤ '9'.toNat := fun h => absurd (Nat.le_trans hlow h) (by decide)
  exact Bool.and_eq_false_iff.mpr (.inr (decide_eq_false hhigh))

/-- A name is no literal. -/
theorem Identifier.misses_literal (ident : Identifier) (rest : List Char) :
    (Pattern.rule .float).Misses (ident.text ++ rest) ∧
    (Pattern.rule .integer).Misses (ident.text ++ rest) ∧
    (Pattern.rule .string).Misses (ident.text ++ rest) := by
  obtain ⟨c, tail, htext, hc⟩ := ident.starts
  have hdigit : ∀ d more, ident.text ++ rest = d :: more → d.isDigit = false := by
    intro d more heq
    rw [htext] at heq
    cases heq
    exact not_digit_of_nameStart hc
  have hdigits := digits_rejects hdigit
  have hne : ∀ d, CharClass.nameStart.holds d = false → ∀ c more,
      ident.text ++ rest = c :: more → c ≠ d := fun d hd c more heq => ident.first_ne heq hd
  refine ⟨Rejects.token rfl ?_, Rejects.token rfl hdigits, Rejects.token rfl ?_⟩
  · exact ((hdigits.seq.choice_rejects (rejects_lit _ rfl (hne '.' (by decide))).seq).seq).choice_rejects
      hdigits.seq
  · exact ((rejects_lit _ rfl (hne '"' (by decide))).seq).choice_rejects
      (rejects_lit _ rfl (hne '\'' (by decide))).seq

/-- A name. -/
theorem isAtom_name (ident : Identifier) : IsAtom file (name ident) := by
  intro rest hrest
  have hbefore : ∀ q ∈ atomParts.take 6, q.Misses (ident.text ++ rest) := by
    obtain ⟨hfloat, hinteger, hstring⟩ := ident.misses_literal rest
    have hword : ∀ {r : Rule} (word : String), r.definition = Grammar.word word →
        word ∈ reservedWords → (Pattern.rule r).Misses (ident.text ++ rest) :=
      fun _ hr hword => ident.misses_word (.inl hr) hword hrest.bounded
    intro q hq
    simp only [atomParts, List.take_succ_cons, List.take_zero, List.mem_cons,
      List.not_mem_nil, or_false] at hq
    rcases hq with rfl | rfl | rfl | rfl | rfl | rfl
    · exact hword "None" rfl (by decide)
    · exact hword "True" rfl (by decide)
    · exact hword "False" rfl (by decide)
    · exact hfloat
    · exact hinteger
    · exact hstring
  refine Takes.mono (Takes.nth atomParts 6 (by decide) hbefore
    (ident.takes hrest.bounded)) fun phrases h => ?_
  exact Leaf.denoted h fun _ _ => denotes_name

end FunctionIR.Printing
