import FunctionIR.Proofs.Printing.Opening

/-!
# Operators

Every operator is read as the operator it is, although some begin with others
and some are words.  For two operators this depends on what comes after them:
the word `is` is read alone only where the word `not` does not follow, and
that is so where an operand of a comparison follows (`takes_compare`).
-/

namespace FunctionIR.Printing

open Grammar Grammar.Pattern

variable {rest : List Char}

/-- The rule of the operators of a level whose chains fold to the left. -/
def chainOp : Level → Rule
  | .sum => .sumOp
  | _ => .termOp

/-- **An operator between operands** of sums and products. -/
theorem takes_binary (op : BinaryOp) (h : op.level = .sum ∨ op.level = .term)
    (more : List Char) :
    (Pattern.rule (chainOp op.level)).Takes (op.token.toList ++ ' ' :: more) (' ' :: more)
      (Leaf (chainOp op.level) op.token.toList) := by
  rcases h with h | h
  · rw [h]
    refine Spells.plain rfl rfl (spells_oneOf ["+", "-"] ?_ ?_)
    · revert h
      cases op <;> decide
    · revert h
      cases op <;> simp [BinaryOp.level, BinaryOp.token]
  · rw [h]
    refine Spells.plain rfl rfl (spells_oneOf ["//", "*", "/", "%", "@"] ?_ ?_)
    · revert h
      cases op <;> decide
    · revert h
      cases op <;> simp [BinaryOp.level, BinaryOp.token]

/-- **A sign.** -/
theorem takes_sign {op : UnaryOp} (h : op.level = .factor) (more : List Char) :
    (Pattern.rule .unaryOp).Takes (op.token.toList ++ ' ' :: more) (' ' :: more)
      (Leaf .unaryOp op.token.toList) := by
  refine Spells.plain rfl rfl (spells_oneOf ["+", "-", "~"] ?_ ?_)
  · revert h
    cases op <;> decide
  · revert h
    cases op <;> simp [UnaryOp.level, UnaryOp.token]

/-- Blanks between two words. -/
theorem spells_blank {c : Char} (hc : CharClass.blank.holds c = false) (more : List Char) :
    (Pattern.some (.one .blank)).Spells [' '] (c :: more) := by
  have hstop : (Pattern.one .blank).Rejects (c :: more) := by
    refine rejects_one ?_
    rintro d _ ⟨⟩
    exact hc
  exact (spells_one (c := ' ') rfl).seq hstop.many

/-- A comparison of two words. -/
theorem spells_words (first second : String) {c : Char} {chars : List Char}
    (hsecond : second.toList = c :: chars) (hc : CharClass.blank.holds c = false)
    (hrest : Bounded rest) :
    (parts [lit first, .some (.one .blank), lit second, wordEnd]).Spells
      (first.toList ++ ([' '] ++ second.toList)) rest := by
  have hword : (parts [lit second, wordEnd]).Spells second.toList rest := spells_word _ hrest
  refine (spells_text _).seq (Spells.seq ?_ hword)
  rw [hsecond]
  exact spells_blank hc _

/-- The word `is` is not read together with a `not` that does not follow. -/
theorem rejects_is_not {c : Char} {more : List Char}
    (hc : CharClass.blank.holds c = false)
    (hnot : (parts [lit "not", wordEnd]).Rejects (c :: more)) :
    (parts [lit "is", .some (.one .blank), lit "not", wordEnd]).Rejects
      ("is".toList ++ ' ' :: c :: more) :=
  (spells_text _).seq_rejects ((spells_blank hc more).seq_rejects hnot)

/-- The comparisons, in the order in which they are tried. -/
def comparisonParts : List Pattern := [
  lit "==", lit "!=", lit "<=", lit ">=", lit "<", lit ">",
  parts [lit "not", .some (.one .blank), lit "in", wordEnd],
  parts [lit "is", .some (.one .blank), lit "not", wordEnd],
  parts [lit "in", wordEnd],
  parts [lit "is", wordEnd]]

/-- **A comparison**, before an operand that does not begin with `not`. -/
theorem takes_compare (op : CompareOp) {c : Char} {more : List Char}
    (hc : CharClass.blank.holds c = false)
    (hnot : (parts [lit "not", wordEnd]).Rejects (c :: more)) :
    (Pattern.rule .compOp).Takes (op.token.toList ++ ' ' :: c :: more) (' ' :: c :: more)
      (Leaf .compOp op.token.toList) := by
  have hbounded := (apart_space (c :: more)).bounded
  have hrefused : ∀ q : Pattern, q.refuses 16 ⟨op.token.toList ++ [' '], false⟩ = true →
      q.Rejects (op.token.toList ++ ' ' :: c :: more) := by
    intro q hq
    refine rejects_of_refuses _ hq ?_ ⟨c :: more, by simp, nofun⟩
    cases op <;> decide
  -- all comparisons but `is` are told from those before them by their first characters
  have hnth : ∀ i, (hi : i < comparisonParts.length) →
      (∀ q ∈ comparisonParts.take i,
        q.refuses 16 ⟨op.token.toList ++ [' '], false⟩ = true) →
      comparisonParts[i].Spells op.token.toList (' ' :: c :: more) →
      (firstOf comparisonParts).Spells op.token.toList (' ' :: c :: more) :=
    fun i hi hbefore hp => Spells.nth _ i hi (fun q hq => hrefused q (hbefore q hq)) hp
  refine Spells.token rfl rfl ?_
  cases op with
  | eq => exact hnth 0 (by decide) nofun (spells_text _)
  | notEq => exact hnth 1 (by decide) (by decide) (spells_text _)
  | ltE => exact hnth 2 (by decide) (by decide) (spells_text _)
  | gtE => exact hnth 3 (by decide) (by decide) (spells_text _)
  | lt => exact hnth 4 (by decide) (by decide) (spells_text _)
  | gt => exact hnth 5 (by decide) (by decide) (spells_text _)
  | notMember =>
      exact hnth 6 (by decide) (by decide)
        (spells_words "not" "in" rfl (by decide) hbounded)
  | notSame =>
      exact hnth 7 (by decide) (by decide)
        (spells_words "is" "not" rfl (by decide) hbounded)
  | member =>
      exact hnth 8 (by decide) (by decide) (spells_word "in" hbounded)
  | same =>
      refine Spells.nth comparisonParts 9 (by decide) (fun q hq => ?_) (spells_word "is" hbounded)
      have hbefore : ∀ q ∈ comparisonParts.take 9, q = comparisonParts[7] ∨
          q.refuses 16 ⟨CompareOp.same.token.toList ++ [' '], false⟩ = true := by
        decide
      rcases hbefore q hq with rfl | hq
      · exact rejects_is_not hc hnot
      · exact hrefused q hq

end FunctionIR.Printing
