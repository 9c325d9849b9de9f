import FunctionIR.Proofs.Printing.Sequence

/-!
# Precedence and associativity

Every grouped printing is read as its tree, at its own level and at every
looser one, wherever it stops (`Grouped.reads`).

The proof is an induction on how the printing is grouped, with one case for
each form.  What it carries is `Fits`: besides reading at its own level, a
value can be extended, and a sum or product can be gone on from, because this
is what the forms need that have one on their left.
-/

namespace FunctionIR.Printing

open Grammar Grammar.Pattern Reading

variable {file : String} {e : Printing}

/-- What the induction says of an expression. -/
structure Fits (file : String) (e : Printing) : Prop where
  reads : Reads file e.level e
  extendable : e.level = .primary → Extendable file e
  chains : ∀ level, level = .sum ∨ level = .term → e.level = level → Chains file level e

/-- A value that can be extended. -/
theorem Extendable.fits (h : Extendable file e) (hlevel : e.level = .primary) :
    Fits file e where
  reads := by rw [hlevel]; exact h.reads
  extendable := fun _ => h
  chains := by
    rintro level (rfl | rfl) heq <;> rw [hlevel] at heq <;> cases heq

/-- A sum or product can be gone on from. -/
theorem Chains.fits {level : Level} (heq : e.level = level)
    (hlevel : level = .sum ∨ level = .term) (h : Chains file level e) : Fits file e where
  reads := by rw [heq]; exact h.reads hlevel
  extendable := by
    intro hprimary
    rw [heq] at hprimary
    rcases hlevel with h | h <;> rw [h] at hprimary <;> cases hprimary
  chains := by
    rintro other - hother
    rw [heq] at hother
    rwa [← hother]

/-- An expression of another level need only be read. -/
theorem Reads.fits (level : Level) (heq : e.level = level)
    (hlevel : level ≠ .primary ∧ level ≠ .sum ∧ level ≠ .term) (h : Reads file level e) :
    Fits file e where
  reads := by rw [heq]; exact h
  extendable := fun hprimary => absurd (heq.symm.trans hprimary) hlevel.1
  chains := by
    rintro other (rfl | rfl) hother
    · exact absurd (heq.symm.trans hother) hlevel.2.1
    · exact absurd (heq.symm.trans hother) hlevel.2.2

/-- An expression is read at every level that is no tighter than its own. -/
theorem Fits.reads_at {level : Level} (h : Fits file e) (hgrouped : e.Grouped)
    (hle : level ≤ e.level) : Reads file level e :=
  hgrouped.reads_of_le h.reads hle

/-- A left operand can be gone on from. -/
theorem Fits.chains_at {level : Level} (h : Fits file e) (hgrouped : e.Grouped)
    (hlevel : level = .sum ∨ level = .term) (hle : level ≤ e.level) : Chains file level e := by
  rcases eq_or_tighter_le hle with heq | htighter
  · exact h.chains level hlevel heq
  · exact (h.reads_at hgrouped htighter).chains

/-- A value is read and can be extended. -/
theorem Fits.extendable_at (h : Fits file e) (hle : Level.primary ≤ e.level) :
    Extendable file e := by
  refine h.extendable ?_
  revert hle
  cases e.level <;> decide

/-! ### Signs, negations and powers -/

/-- A sign before an operand. -/
theorem reads_sign {op : UnaryOp} {operand : Printing} (hop : op.level = .factor)
    (hgrouped : operand.Grouped) (h : Reads file .factor operand) :
    Reads file .factor (unary op operand) := by
  intro rest hstops
  have hoperand : (Pattern.rule .factor).Takes (clear (' ' :: (operand.text ++ rest))) rest
      (Shows file .factor operand.tree) := by
    rw [clear_space, hgrouped.clear_text]
    exact h rest hstops
  have hpattern := ((takes_sign hop (operand.text ++ rest)).seq hoperand).choice
    (q := .rule .power)
  have htext : (unary op operand).text ++ rest =
      op.token.toList ++ ' ' :: (operand.text ++ rest) := by simp [text]
  rw [htext]
  refine takes_rule (r := .factor) rfl rfl hpattern ?_
  rintro start stop text parts ⟨before, after, rfl, ⟨start', stop', rfl⟩, ⟨phrase, rfl, -, hphrase⟩⟩
  refine denotes_signed ?_ hphrase
  rw [Phrase.text, String.ofList_toList, UnaryOp.ofToken_token]

/-- A negation. -/
theorem reads_not {operand : Printing} (hgrouped : operand.Grouped)
    (h : Reads file .inversion operand) : Reads file .inversion (unary .not operand) := by
  intro rest hstops
  have hoperand : (Pattern.rule .inversion).Takes (clear (' ' :: (operand.text ++ rest))) rest
      (Shows file .inversion operand.tree) := by
    rw [clear_space, hgrouped.clear_text]
    exact h rest hstops
  have hnot := takes_word "not" (r := .kwNot) rfl
    (apart_space (operand.text ++ rest)).bounded
  have hpattern := (hnot.seq hoperand).choice (q := .rule .comparison)
  have htext : (unary .not operand).text ++ rest =
      "not".toList ++ ' ' :: (operand.text ++ rest) := by
    rw [text, List.append_assoc]
    rfl
  rw [htext]
  refine takes_rule (r := .inversion) rfl rfl hpattern ?_
  rintro start stop text parts ⟨before, after, rfl, ⟨start', stop', rfl⟩, ⟨phrase, rfl, -, hphrase⟩⟩
  exact denotes_negation hphrase

/-- Nothing extends a signed operand but what extends a power. -/
theorem Stops.factor {rest : List Char} (h : Stops .power rest) : Stops .factor rest := by
  refine ⟨h.apart, fun tight hle hextensible => h.misses tight ?_ hextensible⟩
  revert hle hextensible
  cases tight <;> decide

/-- A power; it groups to the right. -/
theorem reads_power {left right : Printing} (hgrouped : right.Grouped)
    (hleft : Reads file .primary left) (hright : Reads file .factor right) :
    Reads file .power (binary .pow left right) := by
  intro rest hstops
  have hspace : Stops .primary (' ' :: (BinaryOp.pow.token.toList ++ ' ' :: (right.text ++ rest))) :=
    stops_binary _ (.inr (.inr ⟨rfl, rfl⟩)) _
  have hoperand : (Pattern.rule .factor).Takes (clear (' ' :: (right.text ++ rest))) rest
      (Shows file .factor right.tree) := by
    rw [clear_space, hgrouped.clear_text]
    exact hright rest hstops.factor
  have hop := (takes_text "**".toList (' ' :: (right.text ++ rest))).seq hoperand
  have hpow := clear_binary .pow (' ' :: (right.text ++ rest))
  have hopt : (Pattern.opt (parts [lit "**", .rule .factor])).Takes
      (clear (' ' :: (BinaryOp.pow.token.toList ++ ' ' :: (right.text ++ rest)))) rest
      (Shows file .factor right.tree) := by
    rw [hpow]
    exact (hop.mono fun _ => Both.of_nothing).opt
  have htext : (binary .pow left right).text ++ rest =
      left.text ++ ' ' :: (BinaryOp.pow.token.toList ++ ' ' :: (right.text ++ rest)) := by
    simp [text]
  rw [htext]
  refine takes_rule (r := .power) rfl rfl ((hleft _ hspace).seq hopt) ?_
  rintro start stop text parts ⟨before, after, rfl, ⟨first, rfl, -, hfirst⟩,
    ⟨second, rfl, -, hsecond⟩⟩
  exact denotes_power hfirst hsecond

/-! ### Comparisons and joined conditions -/

/-- The phrases of an operator and its right operand. -/
def Compared (file : String) (next : CompareOp × Printing) (phrases : List Phrase) : Prop :=
  ∃ start stop phrase,
    phrases = [.mk .compOp start stop next.1.token.toList [], phrase] ∧
      Denotes file phrase next.2.tree

/-- What is compared in turn: the operators and the operands. -/
theorem compareWith_each {items : List (CompareOp × Printing)} {phrases : List Phrase}
    (h : Each (Compared file) items phrases) :
    CompareWith file phrases (operators items) (comparators items) := by
  induction items generalizing phrases with
  | nil =>
      cases h
      exact compareWith_nil
  | cons next items ih =>
      obtain ⟨before, after, rfl, ⟨start, stop, phrase, rfl, hphrase⟩, hafter⟩ := h
      refine CompareWith.cons ?_ hphrase (ih hafter)
      have hsqueeze : squeeze next.1.token.toList = next.1.token.toList := by
        cases next.1 <;> rfl
      rw [Phrase.text, hsqueeze, String.ofList_toList, CompareOp.ofToken_token]

/-- A comparison and those that go on from it. -/
theorem reads_compare {left right : Printing} {op : CompareOp}
    {more : List (CompareOp × Printing)} (hleft : Reads file .sum left)
    (hitems : ∀ next ∈ (op, right) :: more,
      next.2.Grouped ∧ Level.sum ≤ next.2.level ∧ Reads file .sum next.2) :
    Reads file .comparison (compare left op right more) := by
  intro rest hstops
  -- each round takes a sign and an operand, and what follows an operand stops it
  have hround : ∀ next ∈ (op, right) :: more, ∀ follow, Stops .sum follow →
      (Pattern.seq (.rule .compOp) (.rule .sum)).Takes
        (clear (' ' :: (next.1.token.toList ++ ' ' :: next.2.text) ++ follow)) follow
        (Compared file next) := by
    intro next hmem follow hfollow
    obtain ⟨hgrouped, hlevel, hreads⟩ := hitems next hmem
    obtain ⟨c, chars, htext, hc⟩ := hgrouped.starts
    have hblank : CharClass.blank.holds c = false := by
      simp only [Outlook.blank, Bool.or_eq_false_iff] at hc
      simp [CharClass.holds, hc.1.1, hc.1.2]
    have hnot := hgrouped.rejects_not (Level.le_trans (by decide) hlevel) hfollow.apart
    have hop : (Pattern.rule .compOp).Takes
        (next.1.token.toList ++ ' ' :: (next.2.text ++ follow)) (' ' :: (next.2.text ++ follow))
        (Leaf .compOp next.1.token.toList) := by
      rw [htext, List.cons_append] at hnot ⊢
      exact takes_compare next.1 hblank hnot
    have hoperand : (Pattern.rule .sum).Takes (clear (' ' :: (next.2.text ++ follow))) follow
        (Shows file .sum next.2.tree) := by
      rw [clear_space, hgrouped.clear_text]
      exact hreads follow hfollow
    rw [List.cons_append, List.append_assoc, List.cons_append, clear_compare]
    refine (hop.seq hoperand).mono ?_
    rintro phrases ⟨before, after, rfl, ⟨start, stop, rfl⟩, ⟨phrase, rfl, -, hphrase⟩⟩
    exact ⟨start, stop, phrase, rfl, hphrase⟩
  have hspell : ∀ next ∈ (op, right) :: more, ∀ follow, Stops .sum
      (' ' :: (next.1.token.toList ++ ' ' :: next.2.text) ++ follow) := by
    intro next _ follow
    rw [List.cons_append, List.append_assoc]
    exact stops_compare next.1 _
  have hlast : Stops .sum rest := hstops.mono (by decide)
  have hrepeats := repeats_flatMap hlast hspell hround
  have hstop := (hstops.misses .comparison (Level.le_refl _) rfl).seq (q := .rule .sum)
  have htext : (compare left op right more).text ++ rest =
      left.text ++ (((op, right) :: more).flatMap
        (fun next => ' ' :: (next.1.token.toList ++ ' ' :: next.2.text)) ++ rest) := by
    simp [text, compareText_eq_flatMap]
  have hfirst := hleft (((op, right) :: more).flatMap
    (fun next => ' ' :: (next.1.token.toList ++ ' ' :: next.2.text)) ++ rest) (by
      rw [List.flatMap_cons, List.append_assoc]
      exact hspell (op, right) (by simp) _)
  rw [htext]
  refine takes_rule (r := .comparison) rfl rfl (hfirst.seq_many hrepeats hstop) ?_
  rintro start stop text parts ⟨before, after, rfl, ⟨first, rfl, -, hdenotes⟩, hafter⟩
  have hcompare := compareWith_each hafter
  obtain ⟨before', after', rfl, ⟨start', stop', phrase, rfl, -⟩, -⟩ := hafter
  exact denotes_comparison hdenotes hcompare

/-- The word between conditions. -/
def joinerWord : BoolOp → Rule
  | .and => .kwAnd
  | .or => .kwOr

/-- Operands joined by a word. -/
theorem reads_joined {word : BoolOp} {first second : Printing} {more : List Printing}
    (hfirst : Reads file word.innerLevel first)
    (hitems : ∀ next ∈ second :: more, next.Grouped ∧ Reads file word.innerLevel next) :
    Reads file word.level (joined word first second more) := by
  intro rest hstops
  have hle : word.level ≤ word.innerLevel := by cases word <;> decide
  -- each round takes the word and an operand, and what follows an operand stops it
  have hround : ∀ next ∈ second :: more, ∀ follow, Stops word.innerLevel follow →
      (Pattern.seq (.rule (joinerWord word)) (.rule word.innerLevel.rule)).Takes
        (clear (' ' :: (word.token.toList ++ ' ' :: next.text) ++ follow)) follow
        (Shows file word.innerLevel.rule next.tree) := by
    intro next hmem follow hfollow
    obtain ⟨hgrouped, hreads⟩ := hitems next hmem
    have hword : (Pattern.rule (joinerWord word)).Takes
        (word.token.toList ++ ' ' :: (next.text ++ follow)) (' ' :: (next.text ++ follow))
        Nothing := by
      cases word <;> exact takes_mute_word _ rfl (apart_space _).bounded
    have hoperand : (Pattern.rule word.innerLevel.rule).Takes
        (clear (' ' :: (next.text ++ follow))) follow
        (Shows file word.innerLevel.rule next.tree) := by
      rw [clear_space, hgrouped.clear_text]
      exact hreads follow hfollow
    rw [List.cons_append, List.append_assoc, List.cons_append, clear_joined]
    exact (hword.seq hoperand).mono fun _ => Both.of_nothing
  have hspell : ∀ next ∈ second :: more, ∀ follow, Stops word.innerLevel
      (' ' :: (word.token.toList ++ ' ' :: next.text) ++ follow) := by
    intro next _ follow
    rw [List.cons_append, List.append_assoc]
    exact stops_joined word _
  have hrepeats := repeats_flatMap (hstops.mono hle) hspell hround
  have hstop : (Pattern.seq (.rule (joinerWord word)) (.rule word.innerLevel.rule)).Misses
      (clear rest) := by
    have h := hstops.misses word.level (Level.le_refl _)
    cases word <;> exact (h rfl).seq
  have htext : (joined word first second more).text ++ rest =
      first.text ++ ((second :: more).flatMap
        (fun next => ' ' :: (word.token.toList ++ ' ' :: next.text)) ++ rest) := by
    simp [text, joinedText_eq_flatMap]
  have hleft := hfirst ((second :: more).flatMap
    (fun next => ' ' :: (word.token.toList ++ ' ' :: next.text)) ++ rest) (by
      rw [List.flatMap_cons, List.append_assoc]
      exact hspell second (by simp) _)
  have hpattern : word.level.rule.definition.pattern =
      chain (.rule word.innerLevel.rule) (.rule (joinerWord word)) := by cases word <;> rfl
  rw [htext]
  refine takes_rule (level_inside _) (level_kept _)
    (by rw [hpattern]; exact hleft.seq_many hrepeats hstop) ?_
  rintro start stop text parts ⟨before, after, rfl, ⟨phrase, rfl, -, hphrase⟩,
    ⟨between, others, rfl, ⟨next, rfl, -, hnext⟩, hothers⟩⟩
  have hdenotes : Denotes file (.mk (joiner word) start stop text _) _ :=
    denotes_joined word hphrase hnext (denoteAll_each hothers)
  cases word <;> exact hdenotes

/-- A conditional. -/
theorem reads_conditional {body test orelse : Printing} (htestGrouped : test.Grouped)
    (horelseGrouped : orelse.Grouped) (hbody : Reads file .disjunction body)
    (htest : Reads file .disjunction test) (horelse : Reads file .conditional orelse) :
    Reads file .conditional (conditional body test orelse) := by
  intro rest hstops
  have helseText := clear_append "else".toList (by decide)
    (' ' :: (orelse.text ++ rest))
  have hifText := clear_append "if".toList (by decide)
    (' ' :: (test.text ++ ' ' :: ("else".toList ++ ' ' :: (orelse.text ++ rest))))
  have horelse' : (Pattern.rule .expression).Takes (clear (' ' :: (orelse.text ++ rest))) rest
      (Shows file .expression orelse.tree) := by
    rw [clear_space, horelseGrouped.clear_text]
    exact horelse rest hstops
  have helse : (Pattern.rule .kwElse).Takes
      (clear (' ' :: ("else".toList ++ ' ' :: (orelse.text ++ rest))))
      (' ' :: (orelse.text ++ rest)) Nothing := by
    rw [clear_space, helseText]
    exact takes_mute_word _ rfl (apart_space _).bounded
  have htest' : (Pattern.rule .disjunction).Takes
      (clear (' ' :: (test.text ++ ' ' :: ("else".toList ++ ' ' :: (orelse.text ++ rest)))))
      (' ' :: ("else".toList ++ ' ' :: (orelse.text ++ rest)))
      (Shows file .disjunction test.tree) := by
    rw [clear_space, htestGrouped.clear_text]
    exact htest _ (stops_else _)
  have hif : (Pattern.rule .kwIf).Takes
      (clear (' ' :: ("if".toList ++ ' ' :: (test.text ++
        ' ' :: ("else".toList ++ ' ' :: (orelse.text ++ rest))))))
      (' ' :: (test.text ++ ' ' :: ("else".toList ++ ' ' :: (orelse.text ++ rest)))) Nothing := by
    rw [clear_space, hifText]
    exact takes_mute_word _ rfl (apart_space _).bounded
  have hbody' := hbody _ (stops_if (' ' :: (test.text ++
    ' ' :: ("else".toList ++ ' ' :: (orelse.text ++ rest)))))
  have hpattern := hbody'.seq (hif.seq (htest'.seq (helse.seq horelse'))).opt
  have htext : (conditional body test orelse).text ++ rest =
      body.text ++ ' ' :: ("if".toList ++ ' ' :: (test.text ++
        ' ' :: ("else".toList ++ ' ' :: (orelse.text ++ rest)))) := by
    simp [text]
  rw [htext]
  refine takes_rule (r := .expression) rfl rfl hpattern ?_
  rintro start stop text parts ⟨_, afterBody, rfl, ⟨bodyPhrase, rfl, -, hdenotesBody⟩, hbodyEnd⟩
  obtain ⟨_, afterTest, rfl, ⟨testPhrase, rfl, -, hdenotesTest⟩, htestEnd⟩ :=
    Both.of_nothing hbodyEnd
  obtain ⟨orelsePhrase, rfl, -, hdenotesOrelse⟩ := Both.of_nothing htestEnd
  exact denotes_conditional hdenotesBody hdenotesTest hdenotesOrelse

/-! ### The induction -/

/-- **Every grouped printing fits.** -/
theorem Grouped.fits (file : String) {e : Printing} (h : e.Grouped) : Fits file e := by
  -- every operand is read at the level its place asks for, since it was grouped for it
  induction h with
  | noneWord => exact (isAtom_none.extendable).fits rfl
  | trueWord => exact (isAtom_true.extendable).fits rfl
  | falseWord => exact (isAtom_false.extendable).fits rfl
  | integer literal => exact (isAtom_integer literal).extendable.fits rfl
  | float literal => exact (isAtom_float literal).extendable.fits rfl
  | string literal => exact (isAtom_string literal).extendable.fits rfl
  | name ident => exact (isAtom_name ident).extendable.fits rfl
  | group hinner ih =>
      have hreads := ih.reads_at hinner (Level.conditional_le _)
      exact (isAtom_group hinner hreads).extendable.fits rfl
  | tuple hitems hone hnone ih =>
      have hread : AllRead file _ := fun item hmem =>
        ⟨hitems item hmem, (ih item hmem).reads_at (hitems item hmem) (Level.conditional_le _)⟩
      exact (isAtom_tuple hread hone hnone).extendable.fits rfl
  | list hitems ih =>
      have hread : AllRead file _ := fun item hmem =>
        ⟨hitems item hmem, (ih item hmem).reads_at (hitems item hmem) (Level.conditional_le _)⟩
      exact (isAtom_list hread).extendable.fits rfl
  | call hfunc hlevel hargs hkeywords ih ihargs ihkeywords =>
      refine (extendable_call (ih.extendable_at hlevel) ?_).fits rfl
      intro arg hmem
      rcases List.mem_append.mp hmem with hmem | hmem
      · obtain ⟨value, hvalue, rfl⟩ := List.mem_map.mp hmem
        exact ⟨hargs value hvalue,
          (ihargs value hvalue).reads_at (hargs value hvalue) (Level.conditional_le _)⟩
      · obtain ⟨keyword, hkeyword, rfl⟩ := List.mem_map.mp hmem
        exact ⟨hkeywords keyword hkeyword, (ihkeywords keyword hkeyword).reads_at
          (hkeywords keyword hkeyword) (Level.conditional_le _)⟩
  | attr hvalue hlevel ih => exact (extendable_attr (ih.extendable_at hlevel)).fits rfl
  | subscript hvalue hlevel hindex ih ihindex =>
      have hreads := ihindex.reads_at hindex (Level.conditional_le _)
      exact (extendable_subscript (ih.extendable_at hlevel) hindex hreads).fits rfl
  | @unary op operand hoperand hlevel ih =>
      have hreads := ih.reads_at hoperand hlevel
      cases op with
      | not => exact Reads.fits .inversion rfl (by decide) (reads_not hoperand hreads)
      | invert | plus | minus =>
          exact Reads.fits .factor rfl (by decide) (reads_sign rfl hoperand hreads)
  | @binary op left right hleft hright hleftLevel hrightLevel ihleft ihright =>
      have hlevels : (op.level = .sum ∨ op.level = .term) ∧ op.leftLevel = op.level ∧
          op.rightLevel = tighter op.level ∨ op = .pow := by cases op <;> decide
      rcases hlevels with ⟨hfold, hl, hr⟩ | rfl
      · rw [hl] at hleftLevel
        rw [hr] at hrightLevel
        exact Chains.fits rfl hfold (Chains.operate rfl hfold
          (ihleft.chains_at hleft hfold hleftLevel) (ihright.reads_at hright hrightLevel)
          hright.clear_text)
      · exact Reads.fits .power rfl (by decide) (reads_power hright
          (ihleft.reads_at hleft hleftLevel) (ihright.reads_at hright hrightLevel))
  | compare hleft hright hmore hleftLevel hrightLevel hmoreLevel ihleft ihright ihmore =>
      refine Reads.fits .comparison rfl (by decide)
        (reads_compare (ihleft.reads_at hleft hleftLevel) ?_)
      intro next hmem
      rcases List.mem_cons.mp hmem with rfl | hmem
      · exact ⟨hright, hrightLevel, ihright.reads_at hright hrightLevel⟩
      · exact ⟨hmore next hmem, hmoreLevel next hmem,
          (ihmore next hmem).reads_at (hmore next hmem) (hmoreLevel next hmem)⟩
  | @joined word _ _ _ hfirst hsecond hmore hfirstLevel hsecondLevel hmoreLevel ihfirst ihsecond
      ihmore =>
      refine Reads.fits word.level rfl (by cases word <;> decide)
        (reads_joined (ihfirst.reads_at hfirst hfirstLevel) ?_)
      intro next hmem
      rcases List.mem_cons.mp hmem with rfl | hmem
      · exact ⟨hsecond, ihsecond.reads_at hsecond hsecondLevel⟩
      · exact ⟨hmore next hmem,
          (ihmore next hmem).reads_at (hmore next hmem) (hmoreLevel next hmem)⟩
  | conditional hbody htest horelse hbodyLevel htestLevel ihbody ihtest ihorelse =>
      exact Reads.fits .conditional rfl (by decide) (reads_conditional htest horelse
        (ihbody.reads_at hbody hbodyLevel) (ihtest.reads_at htest htestLevel)
        (ihorelse.reads_at horelse (Level.conditional_le _)))

/-- **A grouped printing is read as its tree**, at every level that is no tighter
than it. -/
theorem Grouped.reads (file : String) {e : Printing} (h : e.Grouped) {level : Level}
    (hle : level ≤ e.level) : Reads file level e :=
  (h.fits file).reads_at h hle

end FunctionIR.Printing
