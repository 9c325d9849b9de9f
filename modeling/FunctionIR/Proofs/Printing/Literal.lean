import FunctionIR.Proofs.Decimal.Nearest
import FunctionIR.Proofs.Grammar.Tokens
import FunctionIR.Reading.Literal

/-!
# Names and literals as they are written

A value can be written in several ways: a number with underscores between its
digits or without, a character of a string plainly or as an escape.  The types
of this module are the ways to write names, integers, floating point numbers
and strings.  Each has a `text` and a `value`, and neither is told in terms of
the other: the number of a run of digits is a sum over its digits, the string
of a literal is put together from what its pieces stand for.

Each is read as one token (`Identifier.takes`, `IntegerLiteral.takes`,
`FloatLiteral.takes`, `StringLiteral.takes`), wherever it may end before the
rest of the text, and the text of the token is turned into the value
(`IntegerLiteral.integerValue_text`, `FloatLiteral.floatValue_text`,
`StringLiteral.stringValue_text`).  The value of a floating point number is the double
nearest to the number that is written, which is a fraction (`FloatLiteral.value_isNearest`).
-/

namespace FunctionIR.Printing

open Grammar
open Grammar.Pattern

/-- A name or literal can end before the rest. -/
def Apart (rest : List Char) : Prop :=
  ∀ c more, rest = c :: more → CharClass.nameChar.holds c = false ∧ c ≠ '.'

/-- What stands apart from a token bounds a word. -/
theorem Apart.bounded {rest : List Char} (h : Apart rest) : Bounded rest :=
  fun c more hrest => (h c more hrest).1

theorem apart_nil : Apart [] := nofun

/-- A value can end before a blank. -/
theorem apart_space (more : List Char) : Apart (' ' :: more) := by
  rintro c more' ⟨⟩
  decide

/-! ### Names -/

/-- What starts a name lies between the letters, the underscore among them. -/
theorem nameStart_range {c : Char} (h : CharClass.nameStart.holds c = true) :
    'A'.toNat ≤ c.toNat ∧ c.toNat ≤ 'z'.toNat := by
  change (decide ('A'.toNat ≤ c.toNat ∧ c.toNat ≤ 'Z'.toNat) ||
    (decide ('a'.toNat ≤ c.toNat) && decide (c.toNat ≤ 'z'.toNat)) || c == '_') = true at h
  simp only [Bool.or_eq_true, Bool.and_eq_true, decide_eq_true_eq, beq_iff_eq] at h
  rcases h with (⟨hlow, hhigh⟩ | ⟨hlow, hhigh⟩) | rfl
  · exact ⟨hlow, Nat.le_trans hhigh (by decide)⟩
  · exact ⟨Nat.le_trans (by decide) hlow, hhigh⟩
  · decide

/-- A name that is not a word of the language. -/
structure Identifier where
  text : List Char
  starts : ∃ c more, text = c :: more ∧ CharClass.nameStart.holds c = true
  word : IsWord text
  free : String.ofList text ∉ reservedWords

/-- The name `x`. -/
def Identifier.x : Identifier := ⟨['x'], ⟨'x', [], rfl, rfl⟩, by decide, by decide⟩

/-- The reserved words are words. -/
theorem reservedWords_isWord : ∀ word ∈ reservedWords, IsWord word.toList := by
  decide +kernel

/-- No name is a reserved word. -/
theorem Identifier.ne_reserved (name : Identifier) {word : String}
    (h : word ∈ reservedWords) : name.text ≠ word.toList := by
  intro heq
  apply name.free
  rwa [heq, String.ofList_toList]

/-- **A name is read as a name.** -/
theorem Identifier.takes (name : Identifier) {rest : List Char} (hrest : Bounded rest) :
    (Pattern.rule .identifier).Takes (name.text ++ rest) rest
      (Leaf .identifier name.text) := by
  refine Spells.token rfl rfl ?_
  have hreserved : (Pattern.rule .reserved).Rejects (name.text ++ rest) :=
    Rejects.inner rfl (rejects_words name.word
      (fun word h => ⟨reservedWords_isWord word h, name.ne_reserved h⟩) hrest)
  obtain ⟨c, more, htext, hc⟩ := name.starts
  have hmore : ∀ d ∈ more, CharClass.nameChar.holds d = true :=
    fun d hd => name.word d (by simp [htext, hd])
  have hfirst : (Pattern.one .nameStart).Spells [c] (more ++ rest) := spells_one hc
  have hspell := hfirst.seq (spells_many_one hmore hrest)
  rw [htext] at hreserved ⊢
  exact hreserved.absent.seq hspell

/-- No reserved word begins with another. -/
theorem reservedWords_prefix : ∀ word ∈ reservedWords, ∀ other ∈ reservedWords,
    other.toList <+: word.toList → other = word := by
  decide +kernel

/-- **No reserved word is read as a name.** -/
theorem misses_identifier (word : String) (hword : word ∈ reservedWords) {rest : List Char}
    (hrest : Bounded rest) : (Pattern.rule .identifier).Misses (word.toList ++ rest) := by
  have hfirst : (firstOf (reservedWords.map lit)).Spells word.toList rest :=
    spells_oneOf _ hword fun other hother hpre => by
      have hmem : other ∈ reservedWords := (List.takeWhile_sublist _).subset hother
      have heq := reservedWords_prefix word hword other hmem
        (prefix_of_bounded (reservedWords_isWord other hmem) hrest hpre)
      simpa [heq] using List.all_eq_true.mp List.all_takeWhile other hother
  have hreserved : (Pattern.rule .reserved).Spells (word.toList ++ []) rest :=
    Spells.inner rfl (hfirst.seq (rejects_one hrest).absent)
  rw [List.append_nil] at hreserved
  exact Rejects.token rfl hreserved.absent.seq

/-- Where a name stands no word of the language is read. -/
theorem Identifier.misses_word (name : Identifier) {r : Rule} {word : String}
    (hr : r.definition = Grammar.word word ∨ r.definition = (Grammar.word word).mute)
    (hword : word ∈ reservedWords) {rest : List Char} (hrest : Bounded rest) :
    (Pattern.rule r).Misses (name.text ++ rest) := by
  have h := rejects_word name.word (reservedWords_isWord word hword)
    (name.ne_reserved hword) hrest
  rcases hr with hr | hr
  · exact Rejects.token (by simp [Rule.inside, hr, Grammar.word, Grammar.token])
      (by simpa [hr, Grammar.word, Grammar.token] using h)
  · exact Rejects.token
      (by simp [Rule.inside, hr, Grammar.word, Grammar.token, Definition.mute])
      (by simpa [hr, Grammar.word, Grammar.token, Definition.mute] using h)

/-! ### Digits -/

/-- The character of a digit. -/
def digitChar (d : Fin 10) : Char := Char.ofNat (48 + d)

/-- Digits, each but the first with an underscore before it or without. -/
structure DigitRun where
  first : Fin 10
  more : List (Bool × Fin 10)

namespace DigitRun

/-- A further digit with what comes before it. -/
def spell (item : Bool × Fin 10) : List Char :=
  (if item.1 then ['_'] else []) ++ [digitChar item.2]

/-- The text of a run of digits. -/
def text (run : DigitRun) : List Char :=
  digitChar run.first :: run.more.flatMap spell

/-- The digits alone. -/
def digits (run : DigitRun) : List (Fin 10) := run.first :: run.more.map Prod.snd

/-- The number that digits stand for. -/
def numberOf (digits : List (Fin 10)) : Nat :=
  digits.foldl (fun (sum : Nat) (d : Fin 10) => 10 * sum + d.val) 0

/-- The number that the digits of the run stand for. -/
def number (run : DigitRun) : Nat := numberOf run.digits

end DigitRun

/-- The character of a digit is a digit. -/
theorem digit_digitChar : ∀ d, CharClass.digit.holds (digitChar d) = true := by decide

/-- The character of a digit is no underscore. -/
theorem digitChar_ne_underscore : ∀ d, digitChar d ≠ '_' := by decide

/-- A run of digits can end before the rest. -/
def EndsDigits (rest : List Char) : Prop :=
  ∀ c more, rest = c :: more → c.isDigit = false ∧ c ≠ '_'

/-- What stands apart from a token ends a run of digits. -/
theorem Apart.endsDigits {rest : List Char} (h : Apart rest) : EndsDigits rest := by
  intro c more hrest
  obtain ⟨hc, -⟩ := h c more hrest
  simp only [CharClass.holds, Char.isAlphanum, Bool.or_eq_false_iff, beq_eq_false_iff_ne] at hc
  exact ⟨hc.1.2, hc.2⟩

/-- No digits come where another character stands. -/
theorem digits_rejects {input : List Char}
    (h : ∀ c more, input = c :: more → c.isDigit = false) : Grammar.digits.Rejects input :=
  (rejects_one h).seq

/-- **A run of digits is read as digits.** -/
theorem DigitRun.spells (run : DigitRun) {rest : List Char} (hrest : EndsDigits rest) :
    Grammar.digits.Spells run.text rest := by
  have hround : ∀ item ∈ run.more, ∀ more,
      (parts [.opt (lit "_"), .one .digit]).Spells (DigitRun.spell item) more := by
    rintro ⟨under, d⟩ - more
    have hdigit : (Pattern.one .digit).Spells [digitChar d] more :=
      spells_one (digit_digitChar d)
    cases under with
    | true => exact (spells_text "_".toList).opt.seq hdigit
    | false =>
        refine Spells.seq (Rejects.opt (rejects_text ?_)) hdigit
        simpa using (digitChar_ne_underscore d).symm
  have hstop : (parts [.opt (lit "_"), .one .digit]).Rejects rest := by
    have hunder : (lit "_").Rejects rest := by
      apply rejects_text
      rintro ⟨more, hmore⟩
      exact (hrest '_' more hmore.symm).2 rfl
    exact hunder.opt.seq_rejects (rejects_one fun c more h => (hrest c more h).1)
  exact (spells_one (digit_digitChar run.first)).seq (spells_many hround hstop)

/-- Without its underscores, a run of digits is its digits. -/
theorem DigitRun.filter_text (run : DigitRun) :
    run.text.filter (· != '_') = run.digits.map digitChar := by
  have hne : ∀ d, (digitChar d != '_') = true := by decide
  have hmore : ∀ items : List (Bool × Fin 10),
      (items.flatMap DigitRun.spell).filter (· != '_') =
        (items.map Prod.snd).map digitChar := by
    intro items
    induction items with
    | nil => rfl
    | cons item items ih =>
        obtain ⟨under, d⟩ := item
        rw [List.flatMap_cons, List.filter_append, ih]
        cases under <;> simp [DigitRun.spell, hne]
  rw [DigitRun.text, List.filter_cons_of_pos (by exact hne _), hmore]
  rfl

/-- The characters of digits stand for the number of the digits. -/
theorem digitsValue_map (digits : List (Fin 10)) :
    Reading.digitsValue (digits.map digitChar) = DigitRun.numberOf digits := by
  have hdigit : ∀ d, (digitChar d).toNat - '0'.toNat = d.val := by decide
  unfold Reading.digitsValue DigitRun.numberOf
  generalize 0 = sum
  induction digits generalizing sum with
  | nil => rfl
  | cons d digits ih =>
      rw [List.map_cons, List.foldl_cons, List.foldl_cons, hdigit, ih, Nat.mul_comm sum]

/-- The number of digits after digits. -/
theorem numberOf_append (digits more : List (Fin 10)) :
    DigitRun.numberOf (digits ++ more) =
      DigitRun.numberOf digits * Nat.pow 10 more.length + DigitRun.numberOf more := by
  have hfrom : ∀ (more : List (Fin 10)) (sum : Nat),
      more.foldl (fun (sum : Nat) (d : Fin 10) => 10 * sum + d.val) sum =
        sum * Nat.pow 10 more.length + DigitRun.numberOf more := by
    intro more
    induction more with
    | nil => simp [DigitRun.numberOf]
    | cons d more ih =>
        intro sum
        have hpow : Nat.pow 10 (more.length + 1) = Nat.pow 10 more.length * 10 := rfl
        rw [DigitRun.numberOf, List.foldl_cons, List.foldl_cons, ih, ih, List.length_cons, hpow,
          Nat.mul_zero, Nat.zero_add, Nat.add_mul, Nat.mul_comm 10 sum, Nat.mul_assoc,
          Nat.mul_comm 10, Nat.add_assoc]
  rw [DigitRun.numberOf, List.foldl_append, hfrom]
  rfl

/-! ### Integers -/

/-- An integer that fits a signed 64 bit word. -/
structure IntegerLiteral where
  run : DigitRun
  fits : run.number < 1 <<< 63

namespace IntegerLiteral

/-- The text of an integer. -/
def text (literal : IntegerLiteral) : List Char := literal.run.text

/-- The value of an integer. -/
def value (literal : IntegerLiteral) : Int64 := Int64.ofNat literal.run.number

/-- The text of an integer stands for its value. -/
theorem integerValue_text (literal : IntegerLiteral) :
    Reading.integerValue literal.text = some literal.value := by
  unfold Reading.integerValue text
  rw [DigitRun.filter_text, digitsValue_map]
  have hfits : DigitRun.numberOf literal.run.digits < 1 <<< 63 := literal.fits
  simp only [hfits, ↓reduceIte]
  rfl

end IntegerLiteral

/-- Something else than the given text comes. -/
theorem rejects_lit (word : String) {c : Char} {chars input : List Char}
    (hword : word.toList = c :: chars) (h : ∀ d more, input = d :: more → d ≠ c) :
    (lit word).Rejects input := by
  apply rejects_text
  rintro ⟨more, hmore⟩
  rw [hword] at hmore
  exact h c (chars ++ more) hmore.symm rfl

/-- No exponent comes where no `e` does. -/
theorem exponent_rejects {input : List Char}
    (h : ∀ c more, input = c :: more → c ≠ 'e' ∧ c ≠ 'E') : exponent.Rejects input :=
  ((rejects_lit _ rfl fun c more hc => (h c more hc).1).choice_rejects
    (rejects_lit _ rfl fun c more hc => (h c more hc).2)).seq

/-- What stands apart from a token begins with no exponent. -/
theorem Apart.ne_exponent {rest : List Char} (h : Apart rest) :
    ∀ c more, rest = c :: more → c ≠ 'e' ∧ c ≠ 'E' := by
  intro c more hrest
  obtain ⟨hc, -⟩ := h c more hrest
  constructor <;> rintro rfl <;> revert hc <;> decide

/-- A run of digits alone is no floating point number. -/
theorem DigitRun.misses_float (run : DigitRun) {rest : List Char} (hrest : Apart rest) :
    (Pattern.rule .float).Misses (run.text ++ rest) := by
  have hrun := run.spells hrest.endsDigits
  have hpoint : (lit ".").Rejects rest := rejects_lit _ rfl fun c more hc => (hrest c more hc).2
  have hfirst : (lit ".").Rejects (run.text ++ rest) := by
    refine rejects_lit _ rfl ?_
    rintro c more ⟨⟩
    exact (by decide : ∀ d, digitChar d ≠ '.') run.first
  refine Rejects.token rfl (Rejects.choice_rejects ?_ ?_)
  · exact ((hrun.seq_rejects hpoint.seq).choice_rejects hfirst.seq).seq
  · exact hrun.seq_rejects (exponent_rejects hrest.ne_exponent)

/-- **An integer is read as an integer.** -/
theorem IntegerLiteral.takes (literal : IntegerLiteral) {rest : List Char}
    (hrest : Apart rest) :
    (Pattern.rule .integer).Takes (literal.text ++ rest) rest
      (Leaf .integer literal.text) :=
  Spells.token rfl rfl (literal.run.spells hrest.endsDigits)

/-! ### Floating point numbers -/

/-- What comes before the digits of an exponent. -/
inductive Sign where
  | none | plus | minus

/-- The text of a sign. -/
def Sign.text : Sign → List Char
  | .none => []
  | .plus => ['+']
  | .minus => ['-']

/-- The exponent of a number. -/
structure ExponentPart where
  upper : Bool
  sign : Sign
  run : DigitRun

namespace ExponentPart

/-- The letter before an exponent. -/
def letter (part : ExponentPart) : Char := if part.upper then 'E' else 'e'

/-- The text of an exponent. -/
def text (part : ExponentPart) : List Char :=
  part.letter :: (part.sign.text ++ part.run.text)

/-- The value of an exponent. -/
def value (part : ExponentPart) : Int :=
  match part.sign with
  | .none | .plus => part.run.number
  | .minus => -part.run.number

/-- The letter is one of two. -/
theorem letter_cases (part : ExponentPart) : part.letter = 'e' ∨ part.letter = 'E' := by
  unfold letter
  split <;> simp

/-- An exponent is read as an exponent. -/
theorem spells (part : ExponentPart) {rest : List Char} (hrest : EndsDigits rest) :
    Grammar.exponent.Spells part.text rest := by
  have hletter : ∀ more, (Pattern.choice (lit "e") (lit "E")).Spells [part.letter] more := by
    intro more
    rcases part.letter_cases with h | h <;> rw [h]
    · exact (spells_text "e".toList).choice
    · exact (rejects_lit "e" rfl (by rintro c _ ⟨⟩; decide)).choice
        (spells_text "E".toList)
  have hsign : (Pattern.opt (.choice (lit "+") (lit "-"))).Spells part.sign.text
      (part.run.text ++ rest) := by
    cases part.sign with
    | plus => exact (spells_text "+".toList).choice.opt
    | minus =>
        exact ((rejects_lit "+" rfl (by rintro c _ ⟨⟩; decide)).choice
          (spells_text "-".toList)).opt
    | none =>
        have hplus : ∀ d, digitChar d ≠ '+' ∧ digitChar d ≠ '-' := by decide
        refine ((rejects_lit "+" rfl ?_).choice_rejects
          (rejects_lit "-" rfl ?_)).opt
        · rintro c more ⟨⟩
          exact (hplus part.run.first).1
        · rintro c more ⟨⟩
          exact (hplus part.run.first).2
  exact (hletter _).seq (hsign.seq (part.run.spells hrest))

/-- Neither digits nor a point come where an exponent does. -/
theorem starts (part : ExponentPart) {rest more : List Char} {c : Char}
    (h : part.text ++ rest = c :: more) : c.isDigit = false ∧ c ≠ '_' ∧ c ≠ '.' := by
  cases h
  rcases part.letter_cases with h | h <;> rw [h] <;> decide

/-- An exponent without its underscores. -/
theorem filter_text (part : ExponentPart) :
    part.text.filter (· != '_') =
      part.letter :: (part.sign.text ++ part.run.digits.map digitChar) := by
  have hletter : (part.letter != '_') = true := by
    rcases part.letter_cases with h | h <;> rw [h] <;> decide
  have hsign : part.sign.text.filter (· != '_') = part.sign.text := by
    cases part.sign <;> rfl
  rw [text, List.filter_cons_of_pos (by exact hletter), List.filter_append, hsign,
    DigitRun.filter_text]

/-- The text of an exponent stands for its value. -/
theorem exponentValue_text (part : ExponentPart) :
    Reading.exponentValue (part.text.filter (· != '_')) = part.value := by
  have hne : ∀ d, digitChar d ≠ '-' ∧ digitChar d ≠ '+' := by decide
  have hnumber := digitsValue_map part.run.digits
  rw [filter_text]
  unfold value
  cases part.sign with
  | plus | minus =>
      simp only [Sign.text, List.cons_append, List.nil_append, Reading.exponentValue, hnumber]
      rfl
  | none =>
      simp only [Sign.text, List.nil_append]
      rw [DigitRun.digits, List.map_cons] at hnumber ⊢
      rw [Reading.exponentValue, hnumber]
      · rfl
      · intro digits heq
        exact (hne _).1 (List.cons.inj heq).1
      · intro digits heq
        exact (hne _).2 (List.cons.inj heq).1

end ExponentPart

/-- The text of a part that may be left out. -/
def optional {α : Type} (text : α → List Char) (part : Option α) : List Char :=
  (part.map text).getD []

/-- The digits of a run that may be left out. -/
def optionalDigits (run : Option DigitRun) : List (Fin 10) :=
  (run.map DigitRun.digits).getD []

/-- An exponent that may be left out. -/
def optionalExponent (part : Option ExponentPart) : Int :=
  (part.map ExponentPart.value).getD 0

/-- A floating point number. -/
inductive FloatLiteral where
  /-- Digits, a point and perhaps more digits. -/
  | pointed (whole : DigitRun) (fraction : Option DigitRun) (scale : Option ExponentPart)
  /-- A point and digits. -/
  | leading (fraction : DigitRun) (scale : Option ExponentPart)
  /-- Digits and an exponent. -/
  | scaled (whole : DigitRun) (scale : ExponentPart)

namespace FloatLiteral

/-- The text of a number with a fraction or an exponent. -/
def text : FloatLiteral → List Char
  | pointed whole fraction scale =>
    whole.text ++ '.' :: (optional DigitRun.text fraction ++ optional ExponentPart.text scale)
  | leading fraction scale => '.' :: (fraction.text ++ optional ExponentPart.text scale)
  | scaled whole scale => whole.text ++ scale.text

/-- The digits before the point. -/
def wholeDigits : FloatLiteral → List (Fin 10)
  | pointed whole _ _ | scaled whole _ => whole.digits
  | leading _ _ => []

/-- The digits after the point. -/
def fractionDigits : FloatLiteral → List (Fin 10)
  | pointed _ fraction _ => optionalDigits fraction
  | leading fraction _ => fraction.digits
  | scaled _ _ => []

/-- The power of ten that the number is multiplied by. -/
def scale : FloatLiteral → Int
  | pointed _ _ scale | leading _ scale => optionalExponent scale
  | scaled _ scale => scale.value

/-- The double nearest to the whole number, plus the fraction, times the power
of ten. -/
def value (literal : FloatLiteral) : Binary64 :=
  .ofDecimal false
    (DigitRun.numberOf literal.wholeDigits * Nat.pow 10 literal.fractionDigits.length +
      DigitRun.numberOf literal.fractionDigits)
    (literal.scale - literal.fractionDigits.length)

/-- The number that is written: the whole number and the fraction, times the power of
ten. -/
def number (literal : FloatLiteral) : ℚ :=
  (DigitRun.numberOf literal.wholeDigits +
    DigitRun.numberOf literal.fractionDigits / 10 ^ literal.fractionDigits.length) *
  10 ^ literal.scale

/-- **The value is the double nearest to the number that is written.** -/
theorem value_isNearest (literal : FloatLiteral) :
    literal.value.IsNearest false literal.number := by
  have hnumber : literal.number = (DigitRun.numberOf literal.wholeDigits *
      Nat.pow 10 literal.fractionDigits.length + DigitRun.numberOf literal.fractionDigits : Nat) *
      10 ^ (literal.scale - literal.fractionDigits.length) := by
    rw [number, zpow_sub₀ (by norm_num), zpow_natCast, Nat.pow_eq]
    push_cast
    field_simp
  rw [hnumber]
  exact Binary64.ofDecimal_isNearest _ _ _

/-- An exponent, if there is one, is read as such. -/
theorem spells_optional_exponent (part : Option ExponentPart) {rest : List Char}
    (hrest : Apart rest) :
    (Pattern.opt exponent).Spells (optional ExponentPart.text part) rest := by
  cases part with
  | none => exact (exponent_rejects hrest.ne_exponent).opt
  | some part => exact (part.spells hrest.endsDigits).opt

/-- Digits end before an exponent and before the rest. -/
theorem endsDigits_optional (part : Option ExponentPart) {rest : List Char}
    (hrest : Apart rest) : EndsDigits (optional ExponentPart.text part ++ rest) := by
  intro c more h
  cases part with
  | none => exact hrest.endsDigits c more h
  | some part => exact ⟨(part.starts h).1, (part.starts h).2.1⟩

/-- A point ends a run of digits. -/
theorem endsDigits_point (more : List Char) : EndsDigits ('.' :: more) := by
  rintro c more' ⟨⟩
  decide

/-- **A floating point number is read as such.** -/
theorem takes (literal : FloatLiteral) {rest : List Char} (hrest : Apart rest) :
    (Pattern.rule .float).Takes (literal.text ++ rest) rest (Leaf .float literal.text) := by
  refine Spells.token rfl rfl ?_
  -- the pattern tries the forms in this order, and those before miss a digit or the point
  cases literal with
  | pointed whole fraction scale =>
      have hends := endsDigits_optional scale hrest
      have hfraction : (Pattern.opt digits).Spells (optional DigitRun.text fraction)
          (optional ExponentPart.text scale ++ rest) := by
        cases fraction with
        | none => exact (digits_rejects fun c more h => (hends c more h).1).opt
        | some run => exact (run.spells hends).opt
      have hwhole := (whole.spells (endsDigits_point _)).seq
        ((spells_text ".".toList).seq hfraction)
      have h := (hwhole.choice (q := parts [lit ".", digits])).seq
        (spells_optional_exponent scale hrest)
      simp only [text, List.append_assoc] at h ⊢
      exact h.choice
  | leading fraction scale =>
      have hends := endsDigits_optional scale hrest
      have hfraction := (spells_text ".".toList).seq (fraction.spells hends)
      have hpoint : (parts [digits, lit ".", .opt digits]).Rejects
          ((".".toList ++ fraction.text) ++ (optional ExponentPart.text scale ++ rest)) := by
        refine (digits_rejects ?_).seq
        rintro c more ⟨⟩
        decide
      have h := (hpoint.choice hfraction).seq (spells_optional_exponent scale hrest)
      exact h.choice
  | scaled whole scale =>
      have hends : EndsDigits (scale.text ++ rest) :=
        fun c more h => ⟨(scale.starts h).1, (scale.starts h).2.1⟩
      have hpoint : (lit ".").Rejects (scale.text ++ rest) :=
        rejects_lit _ rfl fun c more h => (scale.starts h).2.2
      have hfirst : (lit ".").Rejects (whole.text ++ (scale.text ++ rest)) := by
        refine rejects_lit _ rfl ?_
        rintro c more ⟨⟩
        exact (by decide : ∀ d, digitChar d ≠ '.') whole.first
      have hscaled := (whole.spells hends).seq (scale.spells hrest.endsDigits)
      refine Rejects.choice ?_ hscaled
      rw [text, List.append_assoc]
      exact (((whole.spells hends).seq_rejects hpoint.seq).choice_rejects hfirst.seq).seq

/-- The leading digits of a text. -/
theorem span_digits (digits : List (Fin 10)) {rest : List Char}
    (hrest : ∀ c more, rest = c :: more → c.isDigit = false) :
    (digits.map digitChar ++ rest).takeWhile Char.isDigit = digits.map digitChar ∧
      (digits.map digitChar ++ rest).dropWhile Char.isDigit = rest := by
  have hdigit : ∀ d, (digitChar d).isDigit = true := by decide
  induction digits with
  | nil =>
      cases rest with
      | nil => exact ⟨rfl, rfl⟩
      | cons c more => simp [hrest c more rfl]
  | cons d digits ih =>
      obtain ⟨htake, hdrop⟩ := ih
      simp [hdigit, htake, hdrop]

/-- An exponent after the digits of a fraction. -/
theorem exponentValue_optional (part : Option ExponentPart) :
    Reading.exponentValue ((optional ExponentPart.text part).filter (· != '_')) =
      optionalExponent part := by
  cases part with
  | none => rfl
  | some part => exact part.exponentValue_text

/-- An optional run of digits without its underscores. -/
theorem filter_optional (run : Option DigitRun) :
    (optional DigitRun.text run).filter (· != '_') = (optionalDigits run).map digitChar := by
  cases run with
  | none => rfl
  | some run => exact run.filter_text

/-- No digit comes where an exponent may. -/
theorem filter_exponent_starts (part : Option ExponentPart) :
    ∀ c more, (optional ExponentPart.text part).filter (· != '_') = c :: more →
      c.isDigit = false := by
  intro c more h
  cases part with
  | none => cases h
  | some part =>
      simp only [optional, Option.map_some, Option.getD_some] at h
      rw [part.filter_text] at h
      cases h
      rcases part.letter_cases with h | h <;> rw [h] <;> decide

/-- What is read of a text with its digits told apart. -/
theorem floatValue_pointed {text : List Char} (whole : List (Fin 10)) {fraction : List (Fin 10)}
    {rest : List Char} (hrest : ∀ c more, rest = c :: more → c.isDigit = false)
    (htext : text.filter (· != '_') =
      whole.map digitChar ++ '.' :: (fraction.map digitChar ++ rest)) :
    Reading.floatValue text =
      .ofDecimal false (DigitRun.numberOf (whole ++ fraction))
        (Reading.exponentValue rest - fraction.length) := by
  have hends : ∀ c more, '.' :: (fraction.map digitChar ++ rest) = c :: more →
      c.isDigit = false := by
    rintro c more ⟨⟩
    decide
  obtain ⟨hwhole, hpoint⟩ := span_digits whole hends
  obtain ⟨hfraction, hend⟩ := span_digits fraction hrest
  unfold Reading.floatValue
  simp only [htext, hwhole, hpoint, hfraction, hend]
  rw [← List.map_append, digitsValue_map, List.length_map]

/-- **The text of a floating point number stands for its value.** -/
theorem floatValue_text (literal : FloatLiteral) :
    Reading.floatValue literal.text = literal.value := by
  unfold value
  rw [← numberOf_append]
  cases literal with
  | pointed whole fraction scale =>
      rw [floatValue_pointed _ (filter_exponent_starts scale), exponentValue_optional]
      · rfl
      · simp only [text, List.filter_append, whole.filter_text]
        rw [List.filter_cons_of_pos (by decide), List.filter_append, filter_optional]
        rfl
  | leading fraction scale =>
      rw [floatValue_pointed [] (filter_exponent_starts scale),
        exponentValue_optional]
      · rfl
      · simp only [text]
        rw [List.filter_cons_of_pos (by decide), List.filter_append, fraction.filter_text]
        rfl
  | scaled whole scale =>
      obtain ⟨hwhole, hend⟩ := span_digits whole.digits
        (filter_exponent_starts (some scale))
      unfold Reading.floatValue
      simp only [text, List.filter_append, whole.filter_text]
      simp only [optional, Option.map_some, Option.getD_some] at hwhole hend
      simp only [hwhole, hend]
      have hpoint : ∀ more, scale.text.filter (· != '_') ≠ '.' :: more := by
        intro more h
        rw [scale.filter_text] at h
        rcases scale.letter_cases with hl | hl <;> rw [hl] at h <;> cases h
      split
      next rest heq => exact absurd heq (hpoint rest)
      next =>
        rw [List.append_nil, digitsValue_map, scale.exponentValue_text]
        simp [wholeDigits, fractionDigits, FloatLiteral.scale]

end FloatLiteral

/-! ### Strings -/

/-- The quotes around a string. -/
inductive Quote where
  | double | single

/-- The character of a quote. -/
def Quote.char : Quote → Char
  | .double => '"'
  | .single => '\''

/-- A character that has a short name behind a backslash. -/
inductive Escape where
  | lineFeed | tab | carriageReturn | null | backslash | apostrophe | quotation

/-- The short name. -/
def Escape.letter : Escape → Char
  | .lineFeed => 'n'
  | .tab => 't'
  | .carriageReturn => 'r'
  | .null => '0'
  | .backslash => '\\'
  | .apostrophe => '\''
  | .quotation => '"'

/-- The character. -/
def Escape.char : Escape → Char
  | .lineFeed => '\n'
  | .tab => '\t'
  | .carriageReturn => '\r'
  | .null => '\x00'
  | .backslash => '\\'
  | .apostrophe => '\''
  | .quotation => '"'

/-- A piece of the text between quotes. -/
inductive StringPiece where
  /-- A character that stands for itself. -/
  | plain (c : Char)
  | escape (e : Escape)
  /-- A backslash that hides the end of its line. -/
  | joined
  /-- A backslash that stands for itself, before a character that is no short
  name. -/
  | kept (c : Char)

namespace StringPiece

/-- The text of a piece of a string. -/
def text : StringPiece → List Char
  | plain c => [c]
  | escape e => ['\\', e.letter]
  | joined => ['\\', '\n']
  | kept c => ['\\', c]

/-- What the piece stands for. -/
def value : StringPiece → List Char
  | plain c => [c]
  | escape e => [e.char]
  | joined => []
  | kept c => ['\\', c]

/-- The piece can be written between the quotes. -/
def Fits (quote : Quote) : StringPiece → Prop
  | plain c => c ≠ quote.char ∧ c ≠ '\\' ∧ c ≠ '\n' ∧ c ≠ '\r'
  | escape _ | joined => True
  | kept c => c ≠ '\n' ∧ ∀ e : Escape, c ≠ e.letter

/-- A piece is resolved on its own. -/
theorem unescape_text {piece : StringPiece} {quote : Quote} (h : piece.Fits quote)
    (more : List Char) :
    Reading.unescape (piece.text ++ more) = piece.value ++ Reading.unescape more := by
  cases piece with
  | plain c =>
      obtain ⟨-, hslash, -, -⟩ := h
      simp only [text, value, List.cons_append, List.nil_append]
      rw [Reading.unescape] <;> simp [hslash]
  | escape e => cases e <;> simp [text, value, Escape.letter, Escape.char, Reading.unescape]
  | joined => simp [text, value, Reading.unescape]
  | kept c =>
      obtain ⟨hline, hletter⟩ := h
      have hn := hletter .lineFeed
      have ht := hletter .tab
      have hr := hletter .carriageReturn
      have h0 := hletter .null
      have hb := hletter .backslash
      have ha := hletter .apostrophe
      have hq := hletter .quotation
      simp only [Escape.letter] at hn ht hr h0 hb ha hq
      simp only [text, value, List.cons_append, List.nil_append]
      rw [Reading.unescape] <;> simp_all

end StringPiece

/-- A string on one line. -/
structure StringLiteral where
  quote : Quote
  pieces : List StringPiece
  fits : ∀ piece ∈ pieces, piece.Fits quote

namespace StringLiteral

/-- The text of a string. -/
def text (literal : StringLiteral) : List Char :=
  literal.quote.char :: (literal.pieces.flatMap StringPiece.text ++ [literal.quote.char])

/-- The value of a string. -/
def value (literal : StringLiteral) : String :=
  String.ofList (literal.pieces.flatMap StringPiece.value)

/-- **The text of a string literal stands for its value.** -/
theorem stringValue_text (literal : StringLiteral) :
    Reading.stringValue literal.text = literal.value := by
  have hpieces : ∀ pieces : List StringPiece, (∀ piece ∈ pieces, piece.Fits literal.quote) →
      Reading.unescape (pieces.flatMap StringPiece.text) =
        pieces.flatMap StringPiece.value := by
    intro pieces
    induction pieces with
    | nil => intro _; rfl
    | cons piece pieces ih =>
        intro h
        rw [List.flatMap_cons, StringPiece.unescape_text (h piece (by simp)), List.flatMap_cons,
          ih fun other ho => h other (by simp [ho])]
  unfold Reading.stringValue text value
  rw [List.drop_one, List.tail_cons, List.dropLast_concat, hpieces _ literal.fits]

/-- A line does not end where another character comes. -/
theorem newline_rejects {c : Char} {more : List Char} (hn : c ≠ '\n') (hr : c ≠ '\r') :
    newline.Rejects (c :: more) :=
  (rejects_lit _ rfl (by rintro d _ ⟨⟩; exact hn)).choice_rejects
    ((rejects_lit _ rfl (by rintro d _ ⟨⟩; exact hr)).choice_rejects
      (rejects_lit _ rfl (by rintro d _ ⟨⟩; exact hr)))

/-- What is in quotes is read up to the closing quote. -/
theorem spells_quoted (literal : StringLiteral) (word : String) {rest : List Char}
    (hword : word.toList = [literal.quote.char]) :
    (stringIn (lit word)).Spells literal.text rest := by
  have hquote : ∀ more, (lit word).Spells [literal.quote.char] more := by
    intro more
    rw [← hword]
    exact spells_text _
  have hslash : literal.quote.char ≠ '\\' := by cases literal.quote <;> decide
  -- a round takes an escape, or a character that is neither the quote nor a backslash
  have hround : ∀ piece ∈ literal.pieces, ∀ more,
      (firstOf [parts [lit "\\", .one .any],
        parts [.absent (firstOf [lit word, lit "\\", newline]), .one .any]]).Spells
        piece.text more := by
    intro piece hmem more
    have hfits := literal.fits piece hmem
    have hescape : ∀ c, (parts [lit "\\", .one .any]).Spells ['\\', c] more :=
      fun c => (spells_text "\\".toList).seq (spells_one rfl)
    cases piece with
    | escape e => exact (hescape _).choice
    | joined => exact (hescape _).choice
    | kept c => exact (hescape _).choice
    | plain c =>
        obtain ⟨hc, hb, hn, hr⟩ := hfits
        have hslash : (lit "\\").Rejects (c :: more) :=
          rejects_lit _ rfl (by rintro d _ ⟨⟩; exact hb)
        have hclose : (lit word).Rejects (c :: more) :=
          rejects_lit _ hword (by rintro d _ ⟨⟩; exact hc)
        have hnone : (firstOf [lit word, lit "\\", newline]).Rejects (c :: more) :=
          hclose.choice_rejects (hslash.choice_rejects (newline_rejects hn hr))
        have hany : (Pattern.one .any).Spells [c] more := spells_one rfl
        have hplain : (parts [.absent (firstOf [lit word, lit "\\", newline]), .one .any]).Spells
            ([] ++ [c]) more := hnone.absent.seq hany
        exact Rejects.choice hslash.seq hplain
  have hstop : (firstOf [parts [lit "\\", .one .any],
      parts [.absent (firstOf [lit word, lit "\\", newline]), .one .any]]).Rejects
      ([literal.quote.char] ++ rest) := by
    refine Rejects.choice_rejects ?_ ?_
    · exact (rejects_lit _ rfl (by rintro d _ ⟨⟩; exact hslash)).seq
    · exact (Spells.choice (hquote rest)).absent.seq
  have hbody := spells_many hround hstop
  exact (hquote _).seq (hbody.seq (hquote rest))

/-- A string is spelled by the pattern of its rule. -/
theorem spells (literal : StringLiteral) {rest : List Char} :
    Rule.string.definition.pattern.Spells literal.text rest := by
  rcases hquote : literal.quote with _ | _
  · exact (literal.spells_quoted "\"" (by rw [hquote]; rfl)).choice
  · refine Rejects.choice ?_ (literal.spells_quoted "'" (by rw [hquote]; rfl))
    refine (rejects_lit "\"" rfl ?_).seq
    intro c more h
    simp only [text, hquote, List.cons_append, List.cons.injEq] at h
    rw [← h.1]
    decide

/-- **A string is read as a string.** -/
theorem takes (literal : StringLiteral) {rest : List Char} :
    (Pattern.rule .string).Takes (literal.text ++ rest) rest (Leaf .string literal.text) :=
  Spells.token rfl rfl literal.spells

end StringLiteral

end FunctionIR.Printing
