import FunctionIR.Proofs.Printing.Operator

/-!
# From level to level

An expression **reads** at a level if the rule of the level takes its text,
wherever the expression stops, and finds one phrase that denotes its tree
(`Reads`).  What reads at a level reads at every looser one
(`Grouped.reads_of_le`): no operator of the looser level follows, so its rule
adds a phrase around the one there was, and that denotes the same.

On the left of a sum or product there may be another.  So for these two
levels more is needed than `Reads`: that the rule's repetition comes to the
end of the left operand and can go on from there (`Chains`).
-/

namespace FunctionIR.Printing

open Grammar Grammar.Pattern Reading

variable {file : String} {input rest : List Char} {found : List Phrase → Prop}

/-- One phrase of the rule, that denotes the form. -/
def Shows (file : String) (r : Rule) (form : Value) (phrases : List Phrase) : Prop :=
  ∃ phrase, phrases = [phrase] ∧ phrase.rule = r ∧ Denotes file phrase form

/-- A rule takes what its pattern takes, and what that denotes. -/
theorem takes_rule {r : Rule} {form : Value} (hinside : r.inside .loose = .loose)
    (hkept : r.definition.kept = true) (h : r.definition.pattern.Takes input rest found)
    (hdenotes : ∀ start stop text parts, found parts →
      Denotes file (.mk r start stop text parts) form) :
    (Pattern.rule r).Takes input rest (Shows file r form) := by
  refine (Takes.rule hinside hkept h).mono ?_
  rintro phrases ⟨start, stop, text, parts, rfl, hparts⟩
  exact ⟨_, rfl, rfl, hdenotes start stop text parts hparts⟩

/-- At every level, a phrase around another denotes the same. -/
theorem denotes_level (level : Level) {inner : Phrase} {form : Value} {start stop : Place}
    {text : List Char} (h : Denotes file inner form) :
    Denotes file (.mk level.rule start stop text [inner]) form := by
  cases level <;> exact h

/-- The rules of the levels allow blanks. -/
theorem level_inside (level : Level) : level.rule.inside .loose = .loose := by
  cases level <;> rfl

/-- The rules of the levels leave phrases. -/
theorem level_kept (level : Level) : level.rule.definition.kept = true := by
  cases level <;> rfl

/-- A rule takes what a part of it takes, and nothing more. -/
theorem takes_level (level : Level) {r : Rule} {form : Value}
    (h : level.rule.definition.pattern.Takes input rest (Both (Shows file r form) Nothing)) :
    (Pattern.rule level.rule).Takes input rest (Shows file level.rule form) := by
  refine takes_rule (level_inside level) (level_kept level) h ?_
  rintro start stop text parts ⟨before, after, rfl, ⟨phrase, rfl, -, hphrase⟩, rfl⟩
  exact denotes_level level hphrase

/-- The expression is read at the level. -/
def Reads (file : String) (level : Level) (e : Printing) : Prop :=
  ∀ rest, Stops level rest →
    (Pattern.rule level.rule).Takes (e.text ++ rest) rest (Shows file level.rule e.tree)

/-- The next tighter level. -/
def tighter : Level → Level
  | .conditional => .disjunction
  | .disjunction => .conjunction
  | .conjunction => .inversion
  | .inversion => .comparison
  | .comparison => .sum
  | .sum => .term
  | .term => .factor
  | .factor => .power
  | .power => .primary
  | .primary => .primary

/-- The next level is at least as tight. -/
theorem le_tighter (level : Level) : level ≤ tighter level := by
  cases level <;> decide

/-- A level at least as tight is the level itself or beyond the next one. -/
theorem eq_or_tighter_le {level other : Level} (h : level ≤ other) :
    other = level ∨ tighter level ≤ other := by
  revert h
  cases level <;> cases other <;> decide

/-! ### Looser levels -/

variable {e : Printing}

/-- At a level of chains, an operand alone is read. -/
theorem Reads.chain {level : Level} {op : Rule}
    (hpattern : level.rule.definition.pattern =
      chain (.rule (tighter level).rule) (.rule op))
    (hextension : level.extension = .rule op) (hextensible : level.extensible = true)
    (h : Reads file (tighter level) e) : Reads file level e := by
  intro rest hstops
  have hstop := hstops.misses level (Level.le_refl _) hextensible
  rw [hextension] at hstop
  refine takes_level level (r := (tighter level).rule) ?_
  rw [hpattern]
  exact (h rest (hstops.mono (le_tighter level))).seq_many (Repeats.none _ rest) hstop.seq

/-- What reads at the next tighter level reads at the level. -/
theorem Grouped.loosen {level : Level} (hgrouped : e.Grouped) (hle : tighter level ≤ e.level)
    (h : Reads file (tighter level) e) : Reads file level e := by
  cases level with
  | conditional =>
      intro rest hstops
      have hstop := hstops.misses .conditional (Level.le_refl _) rfl
      exact takes_level .conditional
        ((h rest (hstops.mono (le_tighter _))).seq_opt_misses hstop.seq)
  | disjunction => exact h.chain rfl rfl rfl
  | conjunction => exact h.chain rfl rfl rfl
  | inversion =>
      intro rest hstops
      have hnot : (Pattern.rule .kwNot).Misses (e.text ++ rest) :=
        Rejects.token rfl (hgrouped.rejects_not hle hstops.apart)
      have htakes := (hnot.seq (q := .rule .inversion)).choice
        (h rest (hstops.mono (le_tighter _)))
      exact takes_level .inversion (htakes.mono fun phrases hp =>
        ⟨phrases, [], (List.append_nil _).symm, hp, rfl⟩)
  | comparison => exact h.chain rfl rfl rfl
  | sum => exact h.chain rfl rfl rfl
  | term => exact h.chain rfl rfl rfl
  | factor =>
      intro rest hstops
      have hsign : (Pattern.rule .unaryOp).Misses (e.text ++ rest) := hgrouped.misses_sign hle
      have htakes := (hsign.seq (q := .rule .factor)).choice
        (h rest (hstops.mono (le_tighter _)))
      exact takes_level .factor (htakes.mono fun phrases hp =>
        ⟨phrases, [], (List.append_nil _).symm, hp, rfl⟩)
  | power =>
      intro rest hstops
      have hstop := hstops.misses .power (Level.le_refl _) rfl
      exact takes_level .power ((h rest (hstops.mono (le_tighter _))).seq_opt_misses hstop.seq)
  | primary => exact h

/-- **What reads at its own level reads at every looser one.** -/
theorem Grouped.reads_of_le (hgrouped : e.Grouped) (h : Reads file e.level e) {level : Level}
    (hle : level ≤ e.level) : Reads file level e := by
  generalize hn : e.level.rank - level.rank = n
  induction n generalizing level with
  | zero =>
      have heq : e.level = level := by
        revert hle hn
        cases e.level <;> cases level <;> decide
      rwa [heq] at h
  | succ n ih =>
      rcases eq_or_tighter_le hle with heq | htighter
      · rwa [heq] at h
      · refine hgrouped.loosen htighter (ih htighter ?_)
        revert hn
        cases e.level <;> cases level <;> simp only [tighter, Level.rank] <;> omega

/-! ### Chains that fold to the left -/

/-- Before the rest, the rule of the level can come to the end of the
expression and go on from there. -/
def Chains (file : String) (level : Level) (e : Printing) : Prop :=
  ∀ rest, Stops (tighter level) rest → ∃ mid found found',
    (Pattern.rule (tighter level).rule).Takes (e.text ++ rest) mid found ∧
    (Pattern.seq (.rule (chainOp level)) (.rule (tighter level).rule)).Repeats mid rest
      found' ∧
    ∀ phrases, Both found found' phrases → ∃ first more form,
      phrases = first :: more ∧ Denotes file first form ∧ Operates file more form e.tree

/-- An operand alone can be gone on from. -/
theorem Reads.chains {level : Level} (h : Reads file (tighter level) e) :
    Chains file level e := by
  intro rest hstops
  refine ⟨rest, _, Nothing, h rest hstops, Repeats.none _ rest, ?_⟩
  rintro phrases ⟨before, after, rfl, ⟨phrase, rfl, -, hphrase⟩, rfl⟩
  exact ⟨phrase, [], e.tree, rfl, hphrase, .none _⟩

/-- What can be gone on from is read where the chain ends. -/
theorem Chains.reads {level : Level} (hlevel : level = .sum ∨ level = .term)
    (h : Chains file level e) : Reads file level e := by
  intro rest hstops
  obtain ⟨mid, found, found', hfirst, hmore, hfolds⟩ := h rest (hstops.mono (le_tighter level))
  have hstop : (Pattern.rule (chainOp level)).Misses (clear rest) := by
    have h := hstops.misses level (Level.le_refl _)
    rcases hlevel with rfl | rfl <;> exact h rfl
  have hpattern : level.rule.definition.pattern =
      chain (.rule (tighter level).rule) (.rule (chainOp level)) := by
    rcases hlevel with rfl | rfl <;> rfl
  have htakes : level.rule.definition.pattern.Takes (e.text ++ rest) rest (Both found found') := by
    rw [hpattern]
    exact hfirst.seq_many hmore hstop.seq
  refine takes_rule (level_inside level) (level_kept level) htakes ?_
  intro start stop text parts hparts
  obtain ⟨first, more, form, rfl, hdenotes, hoperates⟩ := hfolds parts hparts
  exact denotes_chain (by rcases hlevel with rfl | rfl <;> simp [Level.rule]) hdenotes hoperates

/-- A chain with one operation more. -/
theorem Chains.operate {level : Level} {left right : Printing} {op : BinaryOp}
    (hlevel : op.level = level) (hfold : level = .sum ∨ level = .term)
    (hleft : Chains file level left) (hright : Reads file (tighter level) right)
    (hclear : ∀ rest, clear (right.text ++ rest) = right.text ++ rest) :
    Chains file level (binary op left right) := by
  intro rest hstops
  have hspace : Stops (tighter level) (' ' :: (op.token.toList ++ ' ' :: (right.text ++ rest))) :=
    stops_binary _ (by rcases hfold with h | h <;> subst h <;> simp [hlevel, tighter]) _
  obtain ⟨mid, found, found', hfirst, hmore, hfolds⟩ := hleft _ hspace
  have hop := takes_binary op (by rwa [hlevel]) (right.text ++ rest)
  rw [hlevel] at hop
  have hoperand : (Pattern.rule (tighter level).rule).Takes
      (clear (' ' :: (right.text ++ rest))) rest (Shows file (tighter level).rule right.tree) := by
    rw [clear_space, hclear]
    exact hright rest hstops
  have hround := hop.seq hoperand
  rw [← clear_binary] at hround
  have htext : (binary op left right).text ++ rest =
      left.text ++ ' ' :: (op.token.toList ++ ' ' :: (right.text ++ rest)) := by
    simp only [text, List.append_assoc, List.cons_append]
  rw [htext]
  refine ⟨mid, found, _, hfirst, hmore.trans hround.repeats, ?_⟩
  rintro phrases ⟨before, after, rfl, hbefore, others, last, rfl, hothers, hlast⟩
  obtain ⟨first, more, form, heq, hdenotes, hoperates⟩ :=
    hfolds (before ++ others) ⟨before, others, rfl, hbefore, hothers⟩
  obtain ⟨opPhrases, rightPhrases, rfl, ⟨start, stop, rfl⟩, ⟨phrase, rfl, -, hphrase⟩⟩ := hlast
  refine ⟨first, more ++ [.mk (chainOp level) start stop op.token.toList [], phrase], form, ?_,
    hdenotes, hoperates.trans (.more ?_ hphrase (.none _))⟩
  · rw [← List.append_assoc, heq]
    rfl
  · rw [Phrase.text, String.ofList_toList, BinaryOp.ofToken_token]

end FunctionIR.Printing
