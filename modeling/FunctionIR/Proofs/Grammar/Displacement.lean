import FunctionIR.Proofs.Grammar.Formation
import FunctionIR.Proofs.Grammar.Simulation
import FunctionIR.Reading.Expression

/-!
# The same text at another place

A match does not look at where it is, but for the question whether it is at
the very start of the text.  So from two states with the same text and margin
the same is matched (`Displaced.agrees`), and what is left are phrases that
are alike: of the same rules, with the same words, at places that correspond
(`Phrase.Alike`).

Of most phrases the text does not matter to anyone, for their parts say it all.
It matters for the names, the literals and the operators, which are *spelled*.
An operator between two operands is only ever looked at for its text, whatever
phrase it is; these are the *marks* among the parts of a phrase.  Phrases can be
alike without agreeing in any other text, and an operator of two words is the
same however many blanks stand between them (`Rule.sense`).

A relation of states that looks at phrases only for whether they are alike is
kept where a rule is opened and where it is closed (`FreePhrases`).
-/

namespace FunctionIR.Grammar

/-! ### Words -/

/-- Rules whose phrases say something by their text. -/
def Rule.isSpelled : Rule → Bool
  | .identifier | .integer | .float | .string | .sumOp | .termOp | .unaryOp | .compOp | .augOp => true
  | _ => false

/-- What a text says to a rule.  Of an operator that compares, how many blanks
stand between its words does not matter. -/
def Rule.sense : Rule → List Char → List Char
  | .compOp, text | .comparison, text => Reading.squeeze text
  | _, text => text

/-- The rule is spelled, and a text says the same to it as to the rule around. -/
def Rule.isMarkOf (mark r : Rule) : Bool := mark.isSpelled && (mark ≠ .compOp || r = .comparison)

/-- What a mark says to its rule it says to the rule around. -/
theorem Rule.sense_of_mark {mark r : Rule} {text text' : List Char} (h : mark.isMarkOf r = true)
    (hsense : mark.isSpelled = true → mark.sense text' = mark.sense text) :
    r.sense text' = r.sense text := by
  simp only [isMarkOf, Bool.and_eq_true, Bool.or_eq_true, decide_eq_true_eq] at h
  obtain ⟨hspelled, hmark⟩ := h
  have hsame := hsense hspelled
  rcases hmark with hmark | rfl
  · have hplain : ∀ chars, mark.sense chars = chars := by
      cases mark <;> first | exact fun _ => rfl | exact absurd rfl hmark | cases hspelled
    rw [hplain, hplain] at hsame
    rw [hsame]
  · cases mark <;> first | exact hsame | exact congrArg Reading.squeeze hsame

/-- The first, the third and so on, as long as there is one behind it. -/
def everyOther : List Phrase → List Phrase
  | first :: _ :: rest => first :: everyOther rest
  | _ => []

/-- The parts that are looked at for their text only. -/
def Rule.marks (r : Rule) (parts : List Phrase) : List Phrase :=
  match r with
  | .sum | .term | .comparison => everyOther parts.tail
  | .augAssignment => parts.tail.take 1
  | .factor => parts.dropLast.take 1
  | .attr | .keywordArgument => parts.take 1
  | _ => []

section

open Pattern

variable {parts : List Phrase} {spacing : Spacing}

/-- Between operands there are operators. -/
theorem everyOther_chain {operand operator : Rule} (hspacing : spacing ≠ .token)
    (hoperand : operand.definition.kept = true) (hoperator : operator.definition.kept = true)
    (h : Leaves spacing (chain (.rule operand) (.rule operator)) parts) :
    ∀ mark ∈ everyOther parts.tail, mark.rule = operator := by
  obtain ⟨first, rest, rfl, -, -, hrest⟩ := (leaves_kept_seq_iff hspacing hoperand).mp h
  obtain ⟨rounds, rfl, hrounds⟩ := leaves_many_iff.mp hrest
  clear h hrest
  rw [List.tail_cons]
  induction rounds with
  | nil => exact List.forall_mem_nil _
  | cons round rounds ih =>
      obtain ⟨hround, hlater⟩ := List.forall_mem_cons.mp hrounds
      obtain ⟨op, operands, rfl, hop, -, hright⟩ :=
        (leaves_kept_seq_iff hspacing hoperator).mp hround
      obtain ⟨right, rfl, -⟩ := (leaves_kept_iff hspacing hoperand).mp hright
      exact List.forall_mem_cons.mpr ⟨hop, ih hlater⟩

/-- **Marks are spelled.** -/
theorem Rule.marks_spelled {r : Rule} (hvisible : r.visible spacing = true)
    (h : Leaves (r.inside spacing) r.definition.pattern parts) :
    ∀ mark ∈ r.marks parts, mark.rule.isMarkOf r = true := by
  have hchain {operand operator : Rule} (hspacing : spacing ≠ .token)
      (hoperand : operand.definition.kept = true) (hoperator : operator.definition.kept = true)
      (hspelled : operator.isMarkOf r = true)
      (h : Leaves spacing (chain (.rule operand) (.rule operator)) parts) :
      ∀ mark ∈ everyOther parts.tail, mark.rule.isMarkOf r = true := by
    intro mark hmark
    rw [everyOther_chain hspacing hoperand hoperator h mark hmark]
    exact hspelled
  have hspacing : r.inside spacing = spacing → spacing ≠ .token := by
    rintro hinside rfl
    rw [Rule.visible, if_pos hinside] at hvisible
    cases hvisible
  cases r
  case sum => exact hchain (hspacing rfl) rfl rfl rfl h
  case term => exact hchain (hspacing rfl) rfl rfl rfl h
  case comparison => exact hchain (hspacing rfl) rfl rfl rfl h
  case augAssignment =>
    obtain ⟨target, rest, rfl, -, -, hrest⟩ := (leaves_kept_seq_iff (hspacing rfl) rfl).mp h
    obtain ⟨op, value, rfl, hop, -⟩ := (leaves_kept_seq_iff (hspacing rfl) rfl).mp hrest
    exact List.forall_mem_singleton.mpr (hop ▸ rfl)
  case factor =>
    rcases leaves_choice_iff.mp h with h | h
    · obtain ⟨op, rest, rfl, hop, -, hrest⟩ := (leaves_kept_seq_iff (hspacing rfl) rfl).mp h
      obtain ⟨operand, rfl, -⟩ := (leaves_kept_iff (hspacing rfl) rfl).mp hrest
      exact List.forall_mem_singleton.mpr (hop ▸ rfl)
    · obtain ⟨power, rfl, -⟩ := (leaves_kept_iff (hspacing rfl) rfl).mp h
      exact List.forall_mem_nil _
  case attr =>
    have hname := (leaves_bare_seq_iff rfl).mp h
    obtain ⟨name, rfl, hrule, -⟩ := (leaves_kept_iff (hspacing rfl) rfl).mp hname
    exact List.forall_mem_singleton.mpr (hrule ▸ rfl)
  case keywordArgument =>
    obtain ⟨name, rest, rfl, hname, -⟩ := (leaves_kept_seq_iff (hspacing rfl) rfl).mp h
    exact List.forall_mem_singleton.mpr (hname ▸ rfl)
  all_goals exact List.forall_mem_nil _

end

/-! ### Phrases that are alike -/

mutual

/-- Phrases of the same rules in the same arrangement, at corresponding places,
and with the same words. -/
inductive Phrase.Alike (E : Place → Place → Prop) : Phrase → Phrase → Prop
  | mk {r : Rule} {start stop start' stop' : Place} {text text' : List Char}
      {parts parts' : List Phrase} :
      E start start' → E stop stop' →
      ((r.isSpelled = true → r.sense text' = r.sense text) ∧
        (r.marks parts').map (r.sense ·.text) = (r.marks parts).map (r.sense ·.text)) →
      AllAlike E parts parts' →
      Phrase.Alike E (.mk r start stop text parts) (.mk r start' stop' text' parts')

/-- Phrases that are alike one by one. -/
inductive AllAlike (E : Place → Place → Prop) : List Phrase → List Phrase → Prop
  | nil : AllAlike E [] []
  | cons {phrase phrase' : Phrase} {rest rest' : List Phrase} :
      phrase.Alike E phrase' → AllAlike E rest rest' → AllAlike E (phrase :: rest) (phrase' :: rest')

end

section

variable {E F : Place → Place → Prop}

namespace Phrase.Alike

variable {phrase phrase' : Phrase}

/-- Phrases alike begin at related places. -/
theorem start (h : phrase.Alike E phrase') : E phrase.start phrase'.start := by
  cases h with
  | mk hstart _ _ _ => exact hstart

/-- Phrases alike end at related places. -/
theorem stop (h : phrase.Alike E phrase') : E phrase.stop phrase'.stop := by
  cases h with
  | mk _ hstop _ _ => exact hstop

end Phrase.Alike

namespace AllAlike

variable {phrases phrases' others others' : List Phrase}

/-- Phrases that are spelled say the same. -/
theorem senses_eq {r : Rule} (h : AllAlike E phrases phrases')
    (hspelled : ∀ phrase ∈ phrases, phrase.rule.isMarkOf r = true) :
    phrases'.map (r.sense ·.text) = phrases.map (r.sense ·.text) := by
  induction phrases generalizing phrases' with
  | nil =>
      cases h
      rfl
  | cons phrase rest ih =>
      obtain ⟨hfirst, hothers⟩ := List.forall_mem_cons.mp hspelled
      cases h with
      | cons hphrase hrest =>
          cases hphrase with
          | mk _ _ hwords _ =>
              exact List.cons_eq_cons.mpr ⟨Rule.sense_of_mark hfirst hwords.1, ih hrest hothers⟩

/-- All but the first of the phrases. -/
theorem tail (h : AllAlike E phrases phrases') : AllAlike E phrases.tail phrases'.tail := by
  cases h with
  | nil => exact .nil
  | cons _ hrest => exact hrest

/-- The first of the phrases alone. -/
theorem take_one (h : AllAlike E phrases phrases') :
    AllAlike E (phrases.take 1) (phrases'.take 1) := by
  cases h with
  | nil => exact .nil
  | cons hphrase _ => exact .cons hphrase .nil

/-- All but the last of the phrases. -/
theorem dropLast : {phrases phrases' : List Phrase} → AllAlike E phrases phrases' →
    AllAlike E phrases.dropLast phrases'.dropLast
  | _, _, .nil => .nil
  | _, _, .cons _ .nil => .nil
  | _, _, .cons hphrase (.cons hsecond hrest) => .cons hphrase (dropLast (.cons hsecond hrest))

/-- Every other one of the phrases. -/
theorem everyOther : {phrases phrases' : List Phrase} → AllAlike E phrases phrases' →
    AllAlike E (Grammar.everyOther phrases) (Grammar.everyOther phrases')
  | _, _, .nil => .nil
  | _, _, .cons _ .nil => .nil
  | _, _, .cons hphrase (.cons _ hrest) => .cons hphrase (everyOther hrest)

/-- The marks of parts that are alike are so. -/
theorem marks (h : AllAlike E phrases phrases') (r : Rule) :
    AllAlike E (r.marks phrases) (r.marks phrases') := by
  unfold Rule.marks
  split
  · exact h.tail.everyOther
  · exact h.tail.everyOther
  · exact h.tail.everyOther
  · exact h.tail.take_one
  · exact h.dropLast.take_one
  · exact h.take_one
  · exact h.take_one
  · exact .nil

theorem append (h : AllAlike E phrases phrases') (h' : AllAlike E others others') :
    AllAlike E (phrases ++ others) (phrases' ++ others') := by
  induction phrases generalizing phrases' with
  | nil =>
      cases h
      exact h'
  | cons phrase rest ih =>
      cases h with
      | cons hphrase hrest => exact .cons hphrase (ih hrest)

/-- The phrases in reverse. -/
theorem reverse (h : AllAlike E phrases phrases') : AllAlike E phrases.reverse phrases'.reverse := by
  induction phrases generalizing phrases' with
  | nil =>
      cases h
      exact .nil
  | cons phrase rest ih =>
      cases h with
      | cons hphrase hrest =>
          rw [List.reverse_cons, List.reverse_cons]
          exact (ih hrest).append (.cons hphrase .nil)

end AllAlike

mutual

/-- A phrase is like itself. -/
theorem Phrase.Alike.refl (hE : ∀ p, E p p) : (phrase : Phrase) → phrase.Alike E phrase
  | .mk _ _ _ _ parts => .mk (hE _) (hE _) ⟨fun _ => rfl, rfl⟩ (AllAlike.refl hE parts)

/-- Phrases are like themselves one by one. -/
theorem AllAlike.refl (hE : ∀ p, E p p) : (phrases : List Phrase) → AllAlike E phrases phrases
  | [] => .nil
  | phrase :: rest => .cons (.refl hE phrase) (.refl hE rest)

end

mutual

/-- Alike phrases are so the other way round. -/
theorem Phrase.Alike.flip (hEF : ∀ {p p'}, E p p' → F p' p) : {phrase phrase' : Phrase} →
    phrase.Alike E phrase' → phrase'.Alike F phrase
  | _, _, .mk hstart hstop hwords hparts =>
      .mk (hEF hstart) (hEF hstop) ⟨fun hr => (hwords.1 hr).symm, hwords.2.symm⟩
        (AllAlike.flip hEF hparts)

/-- Phrases alike one way are alike the other way. -/
theorem AllAlike.flip (hEF : ∀ {p p'}, E p p' → F p' p) : {phrases phrases' : List Phrase} →
    AllAlike E phrases phrases' → AllAlike F phrases' phrases
  | _, _, .nil => .nil
  | _, _, .cons hphrase hrest => .cons (hphrase.flip hEF) (hrest.flip hEF)

end

mutual

/-- Alike phrases correspond only at places of the first. -/
theorem Phrase.Alike.and {P : Place → Prop} : {phrase phrase' : Phrase} → phrase.Alike E phrase' →
    phrase.All P → phrase.Alike (fun p p' => E p p' ∧ P p) phrase'
  | _, _, .mk hstart hstop hwords hparts, .mk hP hP' hall =>
      .mk ⟨hstart, hP⟩ ⟨hstop, hP'⟩ hwords (AllAlike.and hparts hall)

/-- What holds of all places of the first phrases can be added to the relation. -/
theorem AllAlike.and {P : Place → Prop} : {phrases phrases' : List Phrase} →
    AllAlike E phrases phrases' → (∀ phrase ∈ phrases, phrase.All P) →
    AllAlike (fun p p' => E p p' ∧ P p) phrases phrases'
  | _, _, .nil, _ => .nil
  | _, _, .cons hphrase hrest, hall =>
      .cons (hphrase.and (List.forall_mem_cons.mp hall).1) (hrest.and (List.forall_mem_cons.mp hall).2)

end

/-- **Rules leave phrases that are alike** if they are opened and closed at
corresponding places with parts that are alike, and a rule that is spelled says
the same. -/
theorem alike_closeRule {r : Rule} {spacing : Spacing} {s s' t t' : State}
    (hvisible : r.visible spacing = true)
    (hmatches : r.definition.pattern.Matches (r.inside spacing) (s.openRule r spacing) t)
    (hstart : E s.place s'.place) (hstop : E t.place t'.place)
    (htext : r.isSpelled = true → r.sense (s'.textUpTo t') = r.sense (s.textUpTo t))
    (hparts : AllAlike E t.phrases t'.phrases) (hphrases : AllAlike E s.phrases s'.phrases) :
    AllAlike E (State.closeRule r r.definition.kept s t).phrases
      (State.closeRule r r.definition.kept s' t').phrases := by
  unfold State.closeRule
  cases r.definition.kept with
  | false => exact hphrases
  | true =>
      obtain ⟨found, hfound, hfrom⟩ := Pattern.leaves_of_matches hmatches
      have hreverse : t.phrases.reverse = found := by
        rw [hfrom, State.openRule_of_visible hvisible, List.append_nil, List.reverse_reverse]
      have hmarks : ∀ mark ∈ r.marks t.phrases.reverse, mark.rule.isMarkOf r = true := by
        rw [hreverse]
        exact Rule.marks_spelled hvisible hfound
      exact .cons (.mk hstart hstop ⟨htext, (hparts.reverse.marks r).senses_eq hmarks⟩ hparts.reverse)
        hphrases

/-- The relation does not look at the phrases but for whether they are alike. -/
def FreePhrases (E : Place → Place → Prop) (R : State → State → Prop) : Prop :=
  ∀ ⦃s s' found found'⦄, R s s' → AllAlike E found found' →
    R { s with phrases := found } { s' with phrases := found' }

variable {R : State → State → Prop} {r : Rule} {spacing : Spacing} {s s' t t' : State}

/-- Opening a rule keeps a relation that phrases do not matter to. -/
theorem FreePhrases.opened (hR : FreePhrases E R) (h : R s s') :
    R (s.openRule r spacing) (s'.openRule r spacing) := by
  unfold State.openRule
  split
  · exact hR h .nil
  · exact h

/-- A rule is closed with phrases that are alike, under the conditions of
`alike_closeRule`. -/
theorem FreePhrases.closed (hR : FreePhrases E R)
    (hmatches : r.definition.pattern.Matches (r.inside spacing) (s.openRule r spacing) t)
    (hstart : E s.place s'.place) (hstop : E t.place t'.place)
    (htext : r.visible spacing = true → r.isSpelled = true →
      r.sense (s'.textUpTo t') = r.sense (s.textUpTo t))
    (hparts : AllAlike E t.phrases t'.phrases) (hphrases : AllAlike E s.phrases s'.phrases)
    (h : R t t') :
    R (State.afterRule r spacing s t) (State.afterRule r spacing s' t') := by
  unfold State.afterRule
  split
  next hvisible =>
    exact hR h
      (alike_closeRule hvisible hmatches hstart hstop (htext hvisible) hparts hphrases)
  next => exact h

end

/-! ### Displaced states -/

/-- The correspondence of places is kept by reading on, as are distances. -/
structure Displacement (Q E : Place → Place → Prop) : Prop where
  after : ∀ {p p'} (c : Char), Q p p' → Q (p.after c) (p'.after c)
  distance : ∀ {p p' q q'}, Q p p' → Q q q' → q'.offset - p'.offset = q.offset - p.offset
  places : ∀ {p p'}, Q p p' → E p p'

/-- The same is left of the text, at corresponding places. -/
structure Displaced (Q E : Place → Place → Prop) (s s' : State) : Prop where
  rest : s'.rest = s.rest
  margin : s'.margin = s.margin
  place : Q s.place s'.place
  phrases : AllAlike E s.phrases s'.phrases

namespace Displaced

open Pattern

variable {Q E : Place → Place → Prop} {s s' t t' : State} {r : Rule} {spacing : Spacing}
  {p : Pattern}

theorem freePhrases : FreePhrases E (Displaced Q E) :=
  fun _ _ _ _ h hfound => ⟨h.rest, h.margin, h.place, hfound⟩

section

variable (hQ : Displacement Q E)

include hQ

/-- Taking the same characters keeps a displacement. -/
theorem past (h : Displaced Q E s s') (chars rest : List Char) :
    Displaced Q E (s.past chars rest) (s'.past chars rest) := by
  refine ⟨rfl, h.margin, ?_, h.phrases⟩
  change Q (chars.foldl Place.after s.place) (chars.foldl Place.after s'.place)
  have hplace := h.place
  generalize s.place = place, s'.place = place' at hplace
  induction chars generalizing place place' with
  | nil => exact hplace
  | cons c chars ih => exact ih _ _ (hQ.after c hplace)

/-- Skipping blanks keeps a displacement. -/
theorem skip (h : Displaced Q E s s') (spacing : Spacing) :
    Displaced Q E (s.skip spacing) (s'.skip spacing) := by
  cases spacing with
  | tight | token => exact h
  | loose =>
      obtain ⟨blanks, -, hskip⟩ := skipBlanks_eq s.rest
      have hpast : ∀ {u : State}, u.rest = s.rest → u.skip .loose = u.past blanks (clear s.rest) := by
        intro u hu
        simp only [State.skip, hu, hskip]
        rfl
      rw [hpast rfl, hpast h.rest]
      exact past hQ h blanks (clear s.rest)

/-- Between corresponding states lies the same text. -/
theorem textUpTo_eq (h : Displaced Q E s s') (h' : Displaced Q E t t') :
    s'.textUpTo t' = s.textUpTo t := by
  rw [State.textUpTo, State.textUpTo, h.rest, hQ.distance h.place h'.place]

/-- Closing a rule keeps a displacement: the phrases made are alike. -/
theorem closed
    (hmatches : r.definition.pattern.Matches (r.inside spacing) (s.openRule r spacing) t)
    (h : Displaced Q E s s') (h' : Displaced Q E t t') :
    Displaced Q E (State.afterRule r spacing s t) (State.afterRule r spacing s' t') := by
  exact freePhrases.closed hmatches (hQ.places h.place) (hQ.places h'.place)
    (fun _ _ => congrArg r.sense (textUpTo_eq hQ h h')) h'.phrases h.phrases h'

end

/-- Patterns that look at the text and the margin only. -/
def sees : Pattern → Bool
  | .text _ | .one _ | .finish | .margin | .outdent => true
  | _ => false

/-- A pattern that looks at text and margin only does the same in displaced states. -/
theorem agrees_sees (hQ : Displacement Q E) (hp : sees p = true) (h : Displaced Q E s s') :
    p.Agrees (Displaced Q E) spacing s s' := by
  -- the texts are the same, so the one is matched where the other is
  cases p with
  | text chars =>
      by_cases hprefix : chars <+: s.rest
      · obtain ⟨rest, hrest⟩ := hprefix
        exact .of_matches (matches_text (State.takeText_append hrest.symm))
          (matches_text (State.takeText_append (h.rest.trans hrest.symm))) (past hQ h chars rest)
      · refine .of_fails (fails_text (State.takeText_eq_none hprefix))
          (fails_text (State.takeText_eq_none ?_))
        rwa [h.rest]
  | margin =>
      by_cases hprefix : s.margin.flatten <+: s.rest
      · obtain ⟨rest, hrest⟩ := hprefix
        refine .of_matches (matches_margin (State.takeText_append hrest.symm))
          (matches_margin ?_) (past hQ h s.margin.flatten rest)
        rw [h.margin]
        exact State.takeText_append (h.rest.trans hrest.symm)
      · refine .of_fails (fails_margin (State.takeText_eq_none hprefix))
          (fails_margin (State.takeText_eq_none ?_))
        rwa [h.rest, h.margin]
  | one set =>
      by_cases hone : ∃ c rest, s.rest = c :: rest ∧ set.holds c = true
      · obtain ⟨c, rest, hrest, hc⟩ := hone
        exact .of_matches (matches_one hrest hc) (matches_one (h.rest.trans hrest) hc)
          (past hQ h [c] rest)
      · have hnone : ∀ c rest, s.rest = c :: rest → set.holds c = false := by
          intro c rest hrest
          cases hc : set.holds c with
          | false => rfl
          | true => exact absurd ⟨c, rest, hrest, hc⟩ hone
        exact .of_fails (fails_one hnone) (fails_one fun c rest hrest =>
          hnone c rest (h.rest.symm.trans hrest))
  | finish =>
      by_cases hnil : s.rest = []
      · exact .of_matches (matches_finish hnil) (matches_finish (h.rest.trans hnil)) h
      · refine .of_fails (fails_finish hnil) (fails_finish ?_)
        rwa [h.rest]
  | outdent => exact .outdent h.margin fun _ _ _ => ⟨h.rest, rfl, h.place, h.phrases⟩
  | seq | choice | opt | many | absent | rule | start | indent => cases hp

/-- Such patterns and an indentation. -/
def isLeaf (p : Pattern) : Bool := sees p || p = .indent indentation

/-- The indentation of a block is measured alike in displaced states. -/
theorem agrees_indentation (hQ : Displacement Q E) (h : Displaced Q E s s') :
    (Pattern.indent indentation).Agrees (Displaced Q E) spacing s s' := by
  have hsimulation : Simulation (Displaced Q E) (fun _ => sees) fun _ => false :=
    { skip := fun spacing h => h.skip hQ spacing
      leaves := agrees_sees hQ
      opened := freePhrases.opened
      closed := fun hr => by cases hr
      rules := fun hr => by cases hr }
  refine (hsimulation.agrees (by decide) h).indent fun t t' _ ht => ?_
  refine ⟨ht.rest, ?_, ht.place, ht.phrases⟩
  rw [textUpTo_eq hQ h ht, ht.margin]

/-- A match that starts anywhere but at a whole text can be displaced. -/
theorem simulation (hQ : Displacement Q E) :
    Simulation (Displaced Q E) (fun _ => isLeaf) fun r => r ≠ .module where
  skip spacing h := h.skip hQ spacing
  leaves {spacing p s s'} hp h := by
    rw [isLeaf, Bool.or_eq_true, decide_eq_true_eq] at hp
    rcases hp with hp | rfl
    · exact agrees_sees hQ hp h
    · exact agrees_indentation hQ h
  opened := freePhrases.opened
  closed _ hmatches := closed hQ hmatches
  rules {r} hr spacing := by
    have hall : ∀ r ∈ Rule.all, decide (r ≠ .module) = true →
        r.definition.pattern.builtFrom isLeaf (fun r => r ≠ .module) = true := by
      decide
    exact hall r r.mem_all hr

end Displaced

end FunctionIR.Grammar
