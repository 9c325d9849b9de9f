import FunctionIR.Proofs.Printing.Precedence

/-!
# Targets

What is assigned to is read as a target first, and the rule of an assignment
looks for one target after the other.  A value alone is read as a target, but
no expression is read as a target that an equals sign follows: behind the
leftmost value of an expression comes the end or an operator
(`Grouped.misses_target`).  So an assignment of an expression has the targets
that are written before it, and no more.
-/

namespace FunctionIR.Printing

open Grammar Grammar.Pattern Reading

variable {file : String} {e : Printing} {input rest : List Char}

/-- An expression list of one expression. -/
theorem takes_single (hreads : Reads file .conditional e) (hstops : Stops .conditional rest)
    (hcomma : (lit ",").Misses (clear rest)) :
    (Pattern.rule .expressionList).Takes (e.text ++ rest) rest
      (Shows file .expressionList e.tree) := by
  have htrailing : (Pattern.rule .trailingComma).Misses (clear (clear rest)) := by
    rw [clear_clear]
    exact Misses.rule rfl hcomma
  have hrest := ((hcomma.seq (q := .rule .expression)).many.seq htrailing.opt).of_clear
  have hpattern := (hreads rest hstops).seq hrest.of_clear
  refine takes_rule (r := .expressionList) rfl rfl hpattern ?_
  rintro start stop text parts ⟨before, after, rfl, ⟨phrase, rfl, hrule, hphrase⟩,
    ⟨_, _, rfl, rfl, rfl⟩⟩
  exact denotes_single (ElementsDenote.cons hrule hphrase elementsDenote_nil)

/-- A list of one target. -/
theorem takes_targetList {form : Value}
    (h : (Pattern.rule .primary).Takes input rest (Shows file .primary form))
    (hcomma : (lit ",").Misses (clear rest)) :
    (Pattern.rule .targetList).Takes input rest (Shows file .targetList form) := by
  have htarget : (Pattern.rule .target).Takes input rest (Shows file .target form) := by
    refine takes_rule rfl rfl h ?_
    rintro start stop text parts ⟨phrase, rfl, -, hphrase⟩
    exact hphrase
  have htrailing : (Pattern.rule .trailingComma).Misses (clear (clear rest)) := by
    rw [clear_clear]
    exact Misses.rule rfl hcomma
  have hrest := ((hcomma.seq (q := .rule .target)).many.seq htrailing.opt).of_clear
  refine takes_rule (r := .targetList) rfl rfl (htarget.seq hrest.of_clear) ?_
  rintro start stop text parts ⟨before, after, rfl, ⟨phrase, rfl, hrule, hphrase⟩,
    ⟨_, _, rfl, rfl, rfl⟩⟩
  exact denotes_target hrule hphrase

/-- **A name is read as a target.** -/
theorem Identifier.takes_target (ident : Identifier) (hstops : Stops .primary rest)
    (hcomma : (lit ",").Misses (clear rest)) :
    (Pattern.rule .targetList).Takes (ident.text ++ rest) rest
      (Shows file .targetList (nameForm ident.text .load)) :=
  takes_targetList ((isAtom_name ident).extendable.reads rest hstops) hcomma

/-! ### No targets -/

/-- What is no value is no target. -/
theorem misses_target_of_primary (h : (Pattern.rule .primary).Misses input) :
    (parts [.rule .targetList, .rule .assignOp]).Misses input :=
  (Misses.rule (r := .targetList) rfl (Misses.rule (r := .target) rfl h).seq).seq

/-- The word `not` begins no value. -/
theorem misses_primary_not (more : List Char) :
    (Pattern.rule .primary).Misses ("not".toList ++ ' ' :: more) := by
  have hidentifier := misses_identifier "not" (by decide) (apart_space more).bounded
  have hothers : ∀ q ∈ atomParts, q = .rule .identifier ∨
      q.refuses 40 ⟨"not".toList, false⟩ = true := by decide
  refine Misses.rule rfl (Misses.seq (Misses.firstOf (show atomParts ≠ [] by decide) ?_))
  intro q hq
  rcases hothers q hq with rfl | hrefuses
  · exact hidentifier
  · exact misses_of_refuses _ hrefuses (by decide) (Outlook.sees_append _ _)

/-- After a value comes something that ends a list of targets, but no equals
sign. -/
structure Ends (rest : List Char) : Prop where
  stops : Stops .primary rest
  comma : (lit ",").Misses (clear rest)
  assign : (Pattern.rule .assignOp).Misses (clear rest)

/-- An operator of two operands ends a target. -/
theorem ends_binary (op : BinaryOp) (more : List Char) :
    Ends (' ' :: (op.token.toList ++ ' ' :: more)) where
  stops := by
    have hlevels : op.level = .sum ∨ op.level = .term ∨ op.level = .power := by
      cases op <;> decide
    rcases hlevels with h | h | h
    · exact (stops_binary .term (.inl ⟨h, rfl⟩) more).mono (by decide)
    · exact (stops_binary .factor (.inr (.inl ⟨h, rfl⟩)) more).mono (by decide)
    · exact stops_binary _ (.inr (.inr ⟨h, rfl⟩)) more
  comma := by
    rw [clear_binary]
    refine misses_lit rfl ?_
    cases op <;> (intro c _ h; cases h; decide)
  assign := by
    have h := (goes_binary op (' ' :: more) []).2
    rwa [List.append_nil] at h

theorem ends_compare (op : CompareOp) (more : List Char) :
    Ends (' ' :: (op.token.toList ++ more)) where
  stops := (stops_compare op more).mono (by decide)
  comma := by
    rw [clear_compare]
    refine misses_lit rfl ?_
    cases op <;> (intro c _ h; cases h; decide)
  assign := by
    have h := (goes_compare op more []).2
    rwa [List.append_nil] at h

theorem ends_joined (word : BoolOp) (more : List Char) :
    Ends (' ' :: (word.token.toList ++ more)) where
  stops := (stops_joined word more).mono (by cases word <;> decide)
  comma := by
    rw [clear_joined]
    refine misses_lit rfl ?_
    cases word <;> (intro c _ h; cases h; decide)
  assign := by
    have h := (goes_joined word more []).2
    rwa [List.append_nil] at h

theorem ends_if (more : List Char) : Ends (' ' :: ("if".toList ++ more)) where
  stops := (stops_if more).mono (by decide)
  comma := by
    rw [clear_space]
    refine misses_lit rfl ?_
    intro c _ h
    rw [clear_append _ (by decide)] at h
    cases h
    decide
  assign := by
    have h := (goes_if more []).2
    rwa [List.append_nil] at h

/-- A value that nothing assigns to is a target without an equals sign. -/
theorem misses_target_of_reads (h : Reads file .primary e) (hends : Ends rest) :
    (parts [.rule .targetList, .rule .assignOp]).Misses (e.text ++ rest) :=
  (takes_targetList (h rest hends.stops) hends.comma).seq_misses hends.assign

/-- **No expression is read as a target and an equals sign.** -/
theorem Grouped.misses_target (h : e.Grouped) :
    ∀ rest, Ends rest → (parts [.rule .targetList, .rule .assignOp]).Misses (e.text ++ rest) := by
  -- what is read as a value may be read as a target, but no equals sign comes behind it;
  -- an operator comes behind the first operand, and a sign begins no target
  have hvalue : ∀ {e : Printing}, e.Grouped → e.level = .primary → ∀ rest, Ends rest →
      (parts [.rule .targetList, .rule .assignOp]).Misses (e.text ++ rest) := by
    intro e hgrouped hlevel rest hends
    have hreads : Reads "" .primary e := hgrouped.reads "" (by rw [hlevel]; exact Level.le_refl _)
    exact misses_target_of_reads hreads hends
  induction h with
  | noneWord => exact hvalue .noneWord rfl
  | trueWord => exact hvalue .trueWord rfl
  | falseWord => exact hvalue .falseWord rfl
  | integer literal => exact hvalue (.integer literal) rfl
  | float literal => exact hvalue (.float literal) rfl
  | string literal => exact hvalue (.string literal) rfl
  | name ident => exact hvalue (.name ident) rfl
  | group hinner => exact hvalue (.group hinner) rfl
  | tuple hitems hone hnone => exact hvalue (.tuple hitems hone hnone) rfl
  | list hitems => exact hvalue (.list hitems) rfl
  | call hfunc hlevel hargs hkeywords => exact hvalue (.call hfunc hlevel hargs hkeywords) rfl
  | attr hvalue' hlevel => exact hvalue (.attr hvalue' hlevel) rfl
  | subscript hvalue' hlevel hindex => exact hvalue (.subscript hvalue' hlevel hindex) rfl
  | @unary op operand hoperand hlevel =>
      intro rest _
      refine misses_target_of_primary ?_
      rw [text, List.append_assoc]
      cases op with
      | not => exact misses_primary_not _
      | invert | plus | minus =>
          exact misses_of_refuses ⟨_, false⟩ (n := 64) (by decide) (by decide)
            (Outlook.sees_append _ _)
  | @binary op left right _ _ _ _ ih =>
      intro rest _
      rw [text, List.append_assoc, List.cons_append, List.append_assoc]
      exact ih _ (ends_binary op _)
  | @compare left right op more _ _ _ _ _ _ ih =>
      intro rest _
      rw [text, List.append_assoc, List.cons_append, List.append_assoc]
      exact ih _ (ends_compare op _)
  | @joined word first second more _ _ _ _ _ _ ih =>
      intro rest _
      rw [text, List.append_assoc, List.cons_append, List.append_assoc]
      exact ih _ (ends_joined word _)
  | conditional _ _ _ _ _ ih =>
      intro rest _
      rw [text, List.append_assoc, List.cons_append, List.append_assoc]
      exact ih _ (ends_if _)

end FunctionIR.Printing
