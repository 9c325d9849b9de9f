import FunctionIR.Proofs.Printing.Following

/-!
# How an expression begins

An expression begins with the first token of its leftmost part: a name, one of
the words for constants, the first character of another value, a sign, or the
word `not`, the last two only where nothing tighter is asked for
(`Grouped.opens`).

Much is seen from this alone.  The text starts with no blank, what is asked to
be tight does not start with a sign or with `not`, and no expression starts
like a named value in a call.
-/

namespace FunctionIR.Printing

open Grammar Grammar.Pattern

/-- What comes after a token, whatever is still to come after that, does not
assign. -/
def Goes (tail : List Char) : Prop :=
  ∀ rest, Apart (tail ++ rest) ∧ (Pattern.rule .assignOp).Misses (clear (tail ++ rest))

/-- What comes after the first token of an expression. -/
def Tail (tail : List Char) : Prop := tail = [] ∨ Goes tail

/-- What can follow a token within an expression. -/
theorem goes_space (chars : List Char) (more : List Char)
    (h : (Pattern.rule .assignOp).refuses 16 ⟨chars, false⟩ = true)
    (hblank : (Outlook.mk chars false).blank = false) : Goes (' ' :: (chars ++ more)) := by
  intro rest
  refine ⟨apart_space _, ?_⟩
  rw [List.cons_append, clear_space, List.append_assoc]
  exact misses_of_refuses _ h hblank (sees_clear _ hblank)

/-- An operator of two operands follows. -/
theorem goes_binary (op : BinaryOp) (more : List Char) :
    Goes (' ' :: (op.token.toList ++ more)) := by
  cases op <;> exact goes_space _ more (by decide) (by decide)

/-- Two equals signs do not assign. -/
theorem misses_assign_eq (more : List Char) :
    (Pattern.rule .assignOp).Misses ('=' :: '=' :: more) := by
  have hsecond : (Pattern.absent (lit "=")).Rejects ('=' :: more) :=
    (spells_text ['=']).absent
  exact Rejects.token rfl ((spells_text ['=']).seq_rejects hsecond)

/-- A comparison follows; that of equality is no assignment. -/
theorem goes_compare (op : CompareOp) (more : List Char) :
    Goes (' ' :: (op.token.toList ++ more)) := by
  cases op with
  | eq =>
      intro rest
      refine ⟨apart_space _, ?_⟩
      rw [List.cons_append, clear_space]
      exact misses_assign_eq _
  | notEq | lt | ltE | gt | gtE | same | notSame | member | notMember =>
      exact goes_space _ more (by decide) (by decide)

/-- A word for a condition follows. -/
theorem goes_joined (word : BoolOp) (more : List Char) :
    Goes (' ' :: (word.token.toList ++ more)) := by
  cases word <;> exact goes_space _ more (by decide) (by decide)

theorem goes_if (more : List Char) : Goes (' ' :: ("if".toList ++ more)) :=
  goes_space _ more (by decide) (by decide)

/-- What can follow a value directly. -/
theorem goes_trailer {c : Char} (hc : c = '(' ∨ c = '.' ∨ c = '[') (more : List Char) :
    Goes (' ' :: c :: more) := by
  rcases hc with rfl | rfl | rfl
  · exact goes_space ['('] more (by decide) (by decide)
  · exact goes_space ['.'] more (by decide) (by decide)
  · exact goes_space ['['] more (by decide) (by decide)

theorem Goes.append {tail : List Char} (h : Goes tail) (more : List Char) :
    Goes (tail ++ more) := by
  intro rest
  rw [List.append_assoc]
  exact h (more ++ rest)

theorem Tail.append {tail more : List Char} (h : Tail tail) (hmore : Goes more) :
    Tail (tail ++ more) := by
  rcases h with rfl | h
  · exact .inr hmore
  · exact .inr (h.append more)

/-- The characters that values other than names start with. -/
def valueStarts : List Char := "0123456789.\"'([".toList

/-- The words for constants. -/
def constantWords : List String := ["None", "True", "False"]

/-- A text begins like an expression of the level. -/
inductive Opens : Level → List Char → Prop
  | name (ident : Identifier) {tail : List Char} (htail : Tail tail) :
      Opens .primary (ident.text ++ tail)
  | word {word : String} (hword : word ∈ constantWords) {tail : List Char}
      (htail : Tail tail) : Opens .primary (word.toList ++ tail)
  | value {c : Char} (hc : c ∈ valueStarts) (more : List Char) : Opens .primary (c :: more)
  | sign {op : UnaryOp} (hop : op.level = .factor) (more : List Char) :
      Opens .factor (op.token.toList ++ more)
  | not (more : List Char) : Opens .inversion ("not".toList ++ ' ' :: more)

theorem Opens.append {level : Level} {text more : List Char} (h : Opens level text)
    (hmore : Goes more) : Opens level (text ++ more) := by
  cases h with
  | name ident htail =>
      rw [List.append_assoc]
      exact .name ident (htail.append hmore)
  | word hword htail =>
      rw [List.append_assoc]
      exact .word hword (htail.append hmore)
  | value hc more => exact .value hc _
  | sign hop more =>
      rw [List.append_assoc]
      exact .sign hop _
  | not more =>
      rw [List.append_assoc]
      exact .not _

/-- Digits begin a value. -/
theorem opens_digits (run : DigitRun) (more : List Char) :
    Opens .primary (run.text ++ more) :=
  .value ((by decide : ∀ d, digitChar d ∈ valueStarts) run.first) _

/-- A number with a fraction or an exponent begins a value. -/
theorem opens_float (literal : FloatLiteral) : Opens .primary literal.text := by
  cases literal with
  | pointed whole fraction scale => exact opens_digits whole _
  | leading fraction scale => exact .value (by decide) _
  | scaled whole scale => exact opens_digits whole _

/-- A level, at least as tight as the expression, that its text begins like. -/
theorem Grouped.opens {e : Printing} (h : Grouped e) :
    ∃ level, e.level ≤ level ∧ Opens level e.text := by
  -- an expression begins with its first operand, which is at least as tight
  induction h with
  | noneWord => exact ⟨_, Level.le_refl _, .word (show "None" ∈ constantWords by decide) (.inl rfl)⟩
  | trueWord => exact ⟨_, Level.le_refl _, .word (show "True" ∈ constantWords by decide) (.inl rfl)⟩
  | falseWord => exact ⟨_, Level.le_refl _, .word (show "False" ∈ constantWords by decide) (.inl rfl)⟩
  | integer literal =>
      have h := opens_digits literal.run []
      rw [List.append_nil] at h
      exact ⟨_, Level.le_refl _, h⟩
  | float literal => exact ⟨_, Level.le_refl _, opens_float literal⟩
  | string literal =>
      refine ⟨_, Level.le_refl _, .value (c := literal.quote.char) ?_ _⟩
      cases literal.quote <;> decide
  | name ident =>
      have h : Opens .primary (ident.text ++ []) := .name ident (.inl rfl)
      rw [List.append_nil] at h
      exact ⟨_, Level.le_refl _, h⟩
  | group | tuple | list => exact ⟨_, Level.le_refl _, .value (by decide) _⟩
  | call _ hlevel _ _ ih =>
      obtain ⟨level, hle, hopens⟩ := ih
      exact ⟨level, Level.le_trans hlevel hle, hopens.append (goes_trailer (.inl rfl) _)⟩
  | attr _ hlevel ih =>
      obtain ⟨level, hle, hopens⟩ := ih
      exact ⟨level, Level.le_trans hlevel hle, hopens.append (goes_trailer (.inr (.inl rfl)) _)⟩
  | subscript _ hlevel _ ih =>
      obtain ⟨level, hle, hopens⟩ := ih
      exact ⟨level, Level.le_trans hlevel hle, hopens.append (goes_trailer (.inr (.inr rfl)) _)⟩
  | @unary op operand hoperand hlevel ih =>
      cases op with
      | not => exact ⟨_, Level.le_refl _, .not _⟩
      | invert | plus | minus => exact ⟨_, Level.le_refl _, .sign rfl _⟩
  | @binary op left right _ _ hleft _ ih =>
      obtain ⟨level, hle, hopens⟩ := ih
      have hlevel : op.level ≤ op.leftLevel := by cases op <;> decide
      exact ⟨level, Level.le_trans hlevel (Level.le_trans hleft hle),
        hopens.append (goes_binary op _)⟩
  | compare _ _ _ hleft _ _ ih =>
      obtain ⟨level, hle, hopens⟩ := ih
      have hlevel : Level.comparison ≤ Level.sum := by decide
      exact ⟨level, Level.le_trans hlevel (Level.le_trans hleft hle),
        hopens.append (goes_compare _ _)⟩
  | @joined word _ _ _ _ _ _ hfirst _ _ ih =>
      obtain ⟨level, hle, hopens⟩ := ih
      have hlevel : word.level ≤ word.innerLevel := by cases word <;> decide
      exact ⟨level, Level.le_trans hlevel (Level.le_trans hfirst hle),
        hopens.append (goes_joined word _)⟩
  | conditional _ _ _ _ _ ih =>
      obtain ⟨level, -, hopens⟩ := ih
      exact ⟨level, Level.conditional_le _, hopens.append (goes_if _)⟩

/-! ### What is seen from the beginning -/

variable {e : Printing} {rest : List Char}

/-- Something else than the given text comes. -/
theorem misses_lit {word : String} {c : Char} {chars input : List Char}
    (hword : word.toList = c :: chars) (h : ∀ d more, input = d :: more → d ≠ c) :
    (lit word).Misses input := by
  intro s hs
  refine fails_text (State.takeText_eq_none ?_)
  rintro ⟨more, hmore⟩
  rw [hword, hs] at hmore
  exact h c (chars ++ more) hmore.symm rfl

/-- A name begins with no character that names do not begin with. -/
theorem Identifier.first_ne (ident : Identifier) {c d : Char} {more : List Char}
    (h : ident.text ++ rest = c :: more) (hd : CharClass.nameStart.holds d = false) :
    c ≠ d := by
  obtain ⟨first, tail, htext, hfirst⟩ := ident.starts
  rw [htext] at h
  cases h
  rintro rfl
  rw [hfirst] at hd
  cases hd

/-- No value starts with a blank. -/
theorem blank_of_valueStart {c : Char} (hc : c ∈ valueStarts) :
    (Outlook.mk [c] false).blank = false := by
  have hall : valueStarts.all (fun c => !(Outlook.mk [c] false).blank) = true := by decide
  simpa using List.all_eq_true.mp hall c hc

/-- What is refused before every start of a value. -/
theorem misses_valueStart {p : Pattern}
    (hall : valueStarts.all (fun c => p.refuses 40 ⟨[c], false⟩) = true) {c : Char}
    (hc : c ∈ valueStarts) (more : List Char) : p.Misses (c :: more) :=
  misses_of_refuses _ (List.all_eq_true.mp hall c hc) (blank_of_valueStart hc) (Outlook.sees_append _ _)

/-- An expression has a first character, and it is no blank. -/
theorem Grouped.starts (h : Grouped e) :
    ∃ c more, e.text = c :: more ∧ (Outlook.mk [c] false).blank = false := by
  obtain ⟨level, -, hopens⟩ := h.opens
  revert hopens
  generalize e.text = text
  rintro (⟨ident, htail⟩ | ⟨hword, htail⟩ | ⟨hc, more⟩ | ⟨hop, more⟩ | ⟨more⟩)
  · obtain ⟨c, more, htext, hc⟩ := ident.starts
    rw [htext]
    refine ⟨c, _, rfl, ?_⟩
    simp only [Outlook.blank, Bool.or_eq_false_iff, beq_eq_false_iff_ne]
    refine ⟨⟨?_, ?_⟩, ?_⟩ <;> rintro rfl <;> revert hc <;> decide
  · simp only [constantWords, List.mem_cons, List.not_mem_nil, or_false] at hword
    rcases hword with rfl | rfl | rfl <;> exact ⟨_, _, rfl, by decide⟩
  · exact ⟨_, _, rfl, blank_of_valueStart hc⟩
  · rename_i op
    cases op with
    | not => exact absurd hop (by decide)
    | invert | plus | minus => exact ⟨_, _, rfl, by decide⟩
  · exact ⟨_, _, rfl, by decide⟩

/-- No blank comes before an expression. -/
theorem Grouped.clear_text (h : Grouped e) (rest : List Char) :
    clear (e.text ++ rest) = e.text ++ rest := by
  obtain ⟨c, more, htext, hc⟩ := h.starts
  rw [htext]
  exact clear_append [c] hc (more ++ rest)

/-- A value or a power does not begin with a sign. -/
theorem Grouped.misses_sign (h : Grouped e) (hlevel : Level.power ≤ e.level) :
    (Pattern.rule .unaryOp).Misses (e.text ++ rest) := by
  obtain ⟨level, hle, hopens⟩ := h.opens
  have hpower := Level.le_trans hlevel hle
  revert hopens
  generalize e.text = text
  rintro (⟨ident, htail⟩ | ⟨hword, htail⟩ | ⟨hc, more⟩ | ⟨hop, more⟩ | ⟨more⟩)
  · rename_i tail
    have hne : ∀ d, CharClass.nameStart.holds d = false → ∀ c more,
        ident.text ++ tail ++ rest = c :: more → c ≠ d := by
      intro d hd c more heq
      rw [List.append_assoc] at heq
      exact ident.first_ne heq hd
    exact Misses.rule rfl ((misses_lit rfl (hne '+' (by decide))).choice_misses
      ((misses_lit rfl (hne '-' (by decide))).choice_misses
        (misses_lit rfl (hne '~' (by decide)))))
  · simp only [constantWords, List.mem_cons, List.not_mem_nil, or_false] at hword
    rcases hword with rfl | rfl | rfl
    · exact misses_of_refuses ⟨['N'], false⟩ (n := 16) (by decide)
        (by decide) (Outlook.sees_append _ _)
    · exact misses_of_refuses ⟨['T'], false⟩ (n := 16) (by decide)
        (by decide) (Outlook.sees_append _ _)
    · exact misses_of_refuses ⟨['F'], false⟩ (n := 16) (by decide)
        (by decide) (Outlook.sees_append _ _)
  · exact misses_valueStart (by decide +kernel) hc _
  · exact absurd hpower (by decide)
  · exact absurd hpower (by decide)

/-- A comparison, or what is tighter, does not begin with the word `not`. -/
theorem Grouped.rejects_not (h : Grouped e) (hlevel : Level.comparison ≤ e.level)
    (hrest : Apart rest) : (parts [lit "not", wordEnd]).Rejects (e.text ++ rest) := by
  obtain ⟨level, hle, hopens⟩ := h.opens
  have hcomparison := Level.le_trans hlevel hle
  revert hopens
  generalize e.text = text
  rintro (⟨ident, htail⟩ | ⟨hword, htail⟩ | ⟨hc, more⟩ | ⟨hop, more⟩ | ⟨more⟩)
  · rw [List.append_assoc]
    refine rejects_word ident.word (reservedWords_isWord "not" (by decide))
      (ident.ne_reserved (by decide)) ?_
    rcases htail with rfl | hgoes
    · exact hrest.bounded
    · exact (hgoes rest).1.bounded
  · simp only [constantWords, List.mem_cons, List.not_mem_nil, or_false] at hword
    refine (rejects_lit _ rfl ?_).seq
    rcases hword with rfl | rfl | rfl <;> rintro c more ⟨⟩ <;> decide
  · refine (rejects_lit _ rfl ?_).seq
    rintro c more ⟨⟩ rfl
    revert hc
    decide
  · rename_i op
    refine (rejects_lit _ rfl ?_).seq
    cases op with
    | not => exact absurd hop (by decide)
    | invert | plus | minus =>
        rintro c more ⟨⟩
        decide
  · exact absurd hcomparison (by decide)

/-- No expression begins with a name and an equals sign. -/
theorem Grouped.misses_named (h : Grouped e) {p : Pattern} (hrest : Apart rest)
    (hassign : (Pattern.rule .assignOp).Misses (clear rest)) :
    (Pattern.seq (.rule .identifier) (.seq (.rule .assignOp) p)).Misses (e.text ++ rest) := by
  obtain ⟨level, -, hopens⟩ := h.opens
  revert hopens
  generalize e.text = text
  rintro (⟨ident, htail⟩ | ⟨hword, htail⟩ | ⟨hc, more⟩ | ⟨hop, more⟩ | ⟨more⟩)
  · rename_i tail
    have htail' : Apart (tail ++ rest) ∧ (Pattern.rule .assignOp).Misses (clear (tail ++ rest)) := by
      rcases htail with rfl | hgoes
      · exact ⟨hrest, hassign⟩
      · exact hgoes rest
    rw [List.append_assoc]
    exact (ident.takes htail'.1.bounded).seq_misses htail'.2.seq
  · rename_i word tail
    have hreserved : ∀ word ∈ constantWords, word ∈ reservedWords := by decide
    have htail' : Apart (tail ++ rest) := by
      rcases htail with rfl | hgoes
      · exact hrest
      · exact (hgoes rest).1
    rw [List.append_assoc]
    exact (misses_identifier _ (hreserved word hword) htail'.bounded).seq
  · exact (misses_valueStart (by decide +kernel) hc _).seq
  · rename_i op
    have hsign : op.level = .factor →
        (Pattern.rule .identifier).refuses 40 ⟨op.token.toList, false⟩ = true ∧
          (Outlook.mk op.token.toList false).blank = false := by
      cases op <;> decide
    exact (misses_of_refuses _ (hsign hop).1 (hsign hop).2
      ⟨more ++ rest, List.append_assoc .., nofun⟩).seq
  · have h := misses_identifier "not" (by decide) (apart_space (more ++ rest)).bounded
    rw [List.append_assoc]
    exact h.seq

end FunctionIR.Printing
