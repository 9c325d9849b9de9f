import FunctionIR.Proofs.Grammar.Invariant
import FunctionIR.Proofs.Grammar.Tokens
import Mathlib.Logic.Relation

/-!
# What a match is made of

The rules by which larger patterns match (`Proofs.Grammar.Runs`) can be read
backwards: from a match of a sequence, its two parts are matched one after the
other, and from a match of a choice one of the alternatives is.  So whether a
pattern matches, and whether it fails, is told by an equivalence for each form
of pattern.

An induction over a whole match needs to know that its parts are smaller.  The
number of steps says so: a match **within** a number of steps
(`Pattern.MatchesIn`) has its parts within the same number, and the pattern of
a rule within a smaller one.
-/

namespace FunctionIR.Grammar

open Relation (ReflTransGen)

/-- What goes on after an outcome comes to a match in one of two ways. -/
theorem Outcome.andThen_eq_matched {o otherwise : Outcome} {next : State → Outcome} {t : State}
    (h : o.andThen next otherwise = .matched t) :
    (∃ u, o = .matched u ∧ next u = .matched t) ∨ (o = .failed ∧ otherwise = .matched t) := by
  cases o with
  | matched u => exact .inl ⟨u, rfl, h⟩
  | failed => exact .inr ⟨rfl, h⟩
  | exhausted => cases h

/-- It comes to a failure in one of two ways, too. -/
theorem Outcome.andThen_eq_failed {o otherwise : Outcome} {next : State → Outcome}
    (h : o.andThen next otherwise = .failed) :
    (∃ u, o = .matched u ∧ next u = .failed) ∨ (o = .failed ∧ otherwise = .failed) := by
  cases o with
  | matched u => exact .inl ⟨u, rfl, h⟩
  | failed => exact .inr ⟨rfl, h⟩
  | exhausted => cases h

/-- A rule that is seen starts without phrases. -/
theorem State.openRule_of_visible {r : Rule} {spacing : Spacing} (h : r.visible spacing = true)
    (s : State) : s.openRule r spacing = { s with phrases := [] } := by
  rw [State.openRule, if_pos h]

/-- A rule that is seen and kept leaves a phrase. -/
theorem State.afterRule_of_kept {r : Rule} {spacing : Spacing} (h : r.visible spacing = true)
    (hkept : r.definition.kept = true) (s t : State) :
    State.afterRule r spacing s t = { t with
      phrases := .mk r s.place t.place (s.textUpTo t) t.phrases.reverse :: s.phrases } := by
  rw [State.afterRule, if_pos h, State.closeRule, if_pos hkept]

namespace Pattern

variable {p q : Pattern} {spacing : Spacing} {s t u : State} {n m : Nat}

/-! ### Matches within a number of steps -/

/-- The pattern matches from one state to another within so many steps. -/
def MatchesIn (n : Nat) (p : Pattern) (spacing : Spacing) (s t : State) : Prop :=
  p.outcome n spacing s = .matched t

/-- A round of a repetition within so many steps. -/
def RoundIn (n : Nat) (p : Pattern) (spacing : Spacing) (s t : State) : Prop :=
  p.MatchesIn n spacing (s.skip spacing) t

namespace MatchesIn

/-- A match in so many steps is a match. -/
theorem toMatches (h : p.MatchesIn n spacing s t) : p.Matches spacing s t := ⟨n, h⟩

/-- More steps do no harm. -/
theorem mono (h : p.MatchesIn n spacing s t) (hle : n ≤ m) : p.MatchesIn m spacing s t := by
  obtain ⟨more, rfl⟩ := Nat.exists_eq_add_of_le hle
  unfold MatchesIn at h ⊢
  rw [outcome_add (by rw [h]; nofun), h]

/-- One step more. -/
theorem succ (h : p.MatchesIn n spacing s t) : p.MatchesIn (n+1) spacing s t :=
  h.mono (Nat.le_succ n)

/-- A match takes a step. -/
theorem exists_pred (h : p.MatchesIn n spacing s t) : ∃ k, n = k+1 := by
  cases n with
  | zero => cases h
  | succ k => exact ⟨k, rfl⟩

/-- A match of a sequence has a state in between. -/
theorem seq_inv (h : (Pattern.seq p q).MatchesIn n spacing s u) :
    ∃ t, p.MatchesIn n spacing s t ∧ q.MatchesIn n spacing (t.skip spacing) u := by
  obtain ⟨k, rfl⟩ := h.exists_pred
  rw [MatchesIn, outcome_seq] at h
  rcases Outcome.andThen_eq_matched h with ⟨t, hp, hq⟩ | ⟨-, hq⟩
  · exact ⟨t, succ hp, succ hq⟩
  · cases hq

/-- A match of a choice is one of its first part, or of its second where the first fails. -/
theorem choice_inv (h : (Pattern.choice p q).MatchesIn n spacing s t) :
    p.MatchesIn n spacing s t ∨ (p.Fails spacing s ∧ q.MatchesIn n spacing s t) := by
  obtain ⟨k, rfl⟩ := h.exists_pred
  rw [MatchesIn, outcome_choice] at h
  rcases Outcome.andThen_eq_matched h with ⟨u, hp, hu⟩ | ⟨hp, hq⟩
  · cases hu
    exact .inl (succ hp)
  · exact .inr ⟨⟨k, hp⟩, succ hq⟩

/-- A match of an optional part is one of the part, or stays where the part fails. -/
theorem opt_inv (h : (Pattern.opt p).MatchesIn n spacing s t) :
    p.MatchesIn n spacing s t ∨ (p.Fails spacing s ∧ t = s) := by
  obtain ⟨k, rfl⟩ := h.exists_pred
  rw [MatchesIn, outcome_opt] at h
  rcases Outcome.andThen_eq_matched h with ⟨u, hp, hu⟩ | ⟨hp, hu⟩
  · cases hu
    exact .inl (succ hp)
  · cases hu
    exact .inr ⟨⟨k, hp⟩, rfl⟩

/-- A match of a guard stays, and what it guards against fails. -/
theorem absent_inv (h : (Pattern.absent p).MatchesIn n spacing s t) :
    p.Fails spacing s ∧ t = s := by
  obtain ⟨k, rfl⟩ := h.exists_pred
  rw [MatchesIn, outcome_absent] at h
  rcases Outcome.andThen_eq_matched h with ⟨u, -, hu⟩ | ⟨hp, hu⟩
  · cases hu
  · cases hu
    exact ⟨⟨k, hp⟩, rfl⟩

/-- Of several rules, one matches. -/
theorem firstOf_inv (rules : List Rule)
    (h : (Pattern.firstOf (rules.map .rule)).MatchesIn n spacing s t) :
    ∃ r ∈ rules, (Pattern.rule r).MatchesIn n spacing s t := by
  induction rules with
  | nil =>
      have hempty : (Pattern.text []).Matches spacing s s := matches_text rfl
      exact absurd h.absent_inv.1 hempty.not_fails
  | cons r rules ih =>
      cases rules with
      | nil => exact ⟨r, List.mem_cons_self, h⟩
      | cons r' rules =>
          rcases h.choice_inv with h | ⟨-, h⟩
          · exact ⟨r, List.mem_cons_self, h⟩
          · obtain ⟨r'', hmem, h⟩ := ih h
            exact ⟨r'', List.mem_cons_of_mem r hmem, h⟩

/-- A match of an indentation pushes the text it went over. -/
theorem indent_inv (h : (Pattern.indent p).MatchesIn n spacing s u) :
    ∃ t, p.MatchesIn n spacing s t ∧ u = { t with margin := s.textUpTo t :: t.margin } := by
  obtain ⟨k, rfl⟩ := h.exists_pred
  rw [MatchesIn, outcome_indent] at h
  rcases Outcome.andThen_eq_matched h with ⟨t, hp, hu⟩ | ⟨-, hu⟩
  · cases hu
    exact ⟨t, succ hp, rfl⟩
  · cases hu

/-- The pattern of a rule matches within fewer steps than the rule. -/
theorem rule_inv {r : Rule} (h : (Pattern.rule r).MatchesIn n spacing s u) :
    ∃ k < n, ∃ t,
      r.definition.pattern.MatchesIn k (r.inside spacing) (s.openRule r spacing) t ∧
        u = State.afterRule r spacing s t := by
  obtain ⟨k, rfl⟩ := h.exists_pred
  rw [MatchesIn, outcome_rule] at h
  rcases Outcome.andThen_eq_matched h with ⟨t, hp, hu⟩ | ⟨-, hu⟩
  · cases hu
    exact ⟨k, Nat.lt_succ_self k, t, hp, rfl⟩
  · cases hu

/-- The loop is made of rounds, up to the first that fails. -/
private theorem rounds_of_outcomeMore (h : outcomeMore n p spacing s = .matched t) :
    ReflTransGen (p.RoundIn n spacing) s t ∧ p.Fails spacing (t.skip spacing) := by
  induction n generalizing s with
  | zero => cases h
  | succ n ih =>
      rw [outcomeMore_succ] at h
      rcases Outcome.andThen_eq_matched h with ⟨u, hp, hu⟩ | ⟨hp, hu⟩
      · obtain ⟨hrounds, hstop⟩ := ih hu
        have hfirst : p.RoundIn (n+1) spacing s u := succ hp
        have hlater :=
          ReflTransGen.mono (fun a b (hab : p.RoundIn n spacing a b) => succ hab) _ _ hrounds
        exact ⟨.head hfirst hlater, hstop⟩
      · cases hu
        exact ⟨.refl, n, hp⟩

/-- A match of rounds goes through some of them and stops where the next fails. -/
theorem many_inv (h : (Pattern.many p).MatchesIn n spacing s u) :
    (p.Fails spacing s ∧ u = s) ∨
      ∃ t, p.MatchesIn n spacing s t ∧ ReflTransGen (p.RoundIn n spacing) t u ∧
        p.Fails spacing (u.skip spacing) := by
  obtain ⟨k, rfl⟩ := h.exists_pred
  rw [MatchesIn, outcome_many] at h
  rcases Outcome.andThen_eq_matched h with ⟨t, hp, hu⟩ | ⟨hp, hu⟩
  · obtain ⟨hrounds, hstop⟩ := rounds_of_outcomeMore hu
    have hlater := ReflTransGen.mono (fun a b (hab : p.RoundIn k spacing a b) => succ hab) _ _ hrounds
    exact .inr ⟨t, succ hp, hlater, hstop⟩
  · cases hu
    exact .inl ⟨⟨k, hp⟩, rfl⟩

end MatchesIn

/-! ### Patterns over some rules -/

/-- The pattern has no rules but the allowed ones, and has nothing to do with the
margin or the start of the text. -/
def uses (allowed : Rule → Bool) : Pattern → Bool
  | .text _ | .one _ | .finish => true
  | .seq p q | .choice p q => p.uses allowed && q.uses allowed
  | .opt p | .many p | .absent p => p.uses allowed
  | .rule r => allowed r
  | .start | .margin | .indent _ | .outdent => false

/-! ### Single parts -/

/-- A fixed text matches exactly where it stands. -/
theorem matches_text_iff {chars : List Char} :
    (Pattern.text chars).Matches spacing s t ↔
      ∃ rest, s.rest = chars ++ rest ∧ t = s.past chars rest := by
  rw [← State.takeText_eq_some_iff]
  refine ⟨fun ⟨n, h⟩ => ?_, matches_text⟩
  obtain ⟨k, rfl⟩ := MatchesIn.exists_pred h
  rw [outcome_text] at h
  split at h
  next u hu =>
    cases h
    exact hu
  next => cases h

/-- The margin matches exactly where it stands. -/
theorem matches_margin_iff :
    Pattern.margin.Matches spacing s t ↔
      ∃ rest, s.rest = s.margin.flatten ++ rest ∧ t = s.past s.margin.flatten rest := by
  rw [← State.takeText_eq_some_iff]
  refine ⟨fun ⟨n, h⟩ => ?_, matches_margin⟩
  obtain ⟨k, rfl⟩ := MatchesIn.exists_pred h
  rw [outcome_margin] at h
  split at h
  next u hu =>
    cases h
    exact hu
  next => cases h

/-- A class matches exactly one character it holds. -/
theorem matches_one_iff {set : CharClass} :
    (Pattern.one set).Matches spacing s t ↔
      ∃ c rest, s.rest = c :: rest ∧ set.holds c = true ∧ t = s.past [c] rest := by
  constructor
  · rintro ⟨n, h⟩
    obtain ⟨k, rfl⟩ := MatchesIn.exists_pred h
    rw [outcome_one] at h
    split at h
    next => cases h
    next c rest hs =>
      split at h
      next hc =>
        cases h
        exact ⟨c, rest, hs, hc, rfl⟩
      next => cases h
  · rintro ⟨c, rest, hs, hc, rfl⟩
    exact matches_one hs hc

/-- The finish matches exactly at the end of the text. -/
theorem matches_finish_iff :
    Pattern.finish.Matches spacing s t ↔ s.rest = [] ∧ t = s := by
  constructor
  · rintro ⟨n, h⟩
    obtain ⟨k, rfl⟩ := MatchesIn.exists_pred h
    rw [outcome_finish] at h
    split at h <;> cases h
    exact ⟨by assumption, rfl⟩
  · rintro ⟨hs, rfl⟩
    exact matches_finish hs

/-- The start matches exactly at offset zero. -/
theorem matches_start_iff :
    Pattern.start.Matches spacing s t ↔ s.place.offset = 0 ∧ t = s := by
  constructor
  · rintro ⟨n, h⟩
    obtain ⟨k, rfl⟩ := MatchesIn.exists_pred h
    rw [outcome_start] at h
    split at h <;> cases h
    exact ⟨by assumption, rfl⟩
  · rintro ⟨hs, rfl⟩
    exact matches_start hs

/-- An outdent matches exactly under a margin with a width to take off. -/
theorem matches_outdent_iff :
    Pattern.outdent.Matches spacing s t ↔
      ∃ width outer, s.margin = width :: outer ∧ t = { s with margin := outer } := by
  constructor
  · rintro ⟨n, h⟩
    obtain ⟨k, rfl⟩ := MatchesIn.exists_pred h
    rw [outcome_outdent] at h
    split at h <;> cases h
    exact ⟨_, _, by assumption, rfl⟩
  · rintro ⟨width, outer, hs, rfl⟩
    exact matches_outdent hs

/-! ### Compound patterns -/

/-- A sequence matches exactly if its parts do, with a skip between them. -/
theorem matches_seq_iff :
    (Pattern.seq p q).Matches spacing s u ↔
      ∃ t, p.Matches spacing s t ∧ q.Matches spacing (t.skip spacing) u := by
  refine ⟨fun ⟨n, h⟩ => ?_, fun ⟨t, hp, hq⟩ => hp.seq hq⟩
  obtain ⟨t, hp, hq⟩ := MatchesIn.seq_inv h
  exact ⟨t, hp.toMatches, hq.toMatches⟩

/-- A choice matches exactly as its first part, or as its second where the first fails. -/
theorem matches_choice_iff :
    (Pattern.choice p q).Matches spacing s t ↔
      p.Matches spacing s t ∨ (p.Fails spacing s ∧ q.Matches spacing s t) := by
  constructor
  · rintro ⟨n, h⟩
    rcases MatchesIn.choice_inv h with hp | ⟨hp, hq⟩
    · exact .inl hp.toMatches
    · exact .inr ⟨hp, hq.toMatches⟩
  · rintro (hp | ⟨hp, hq⟩)
    · exact hp.choice
    · exact hp.choice hq

/-- An optional part matches exactly as the part, or stays where the part fails. -/
theorem matches_opt_iff :
    (Pattern.opt p).Matches spacing s t ↔
      p.Matches spacing s t ∨ (p.Fails spacing s ∧ t = s) := by
  constructor
  · rintro ⟨n, h⟩
    rcases MatchesIn.opt_inv h with hp | hp
    · exact .inl hp.toMatches
    · exact .inr hp
  · rintro (hp | ⟨hp, rfl⟩)
    · exact hp.opt
    · exact hp.opt

/-- A guard matches exactly where what it guards against fails, and stays. -/
theorem matches_absent_iff :
    (Pattern.absent p).Matches spacing s t ↔ p.Fails spacing s ∧ t = s := by
  refine ⟨fun ⟨n, h⟩ => MatchesIn.absent_inv h, ?_⟩
  rintro ⟨hp, rfl⟩
  exact hp.absent

/-- An indentation matches exactly as its pattern and pushes the text it went over. -/
theorem matches_indent_iff :
    (Pattern.indent p).Matches spacing s u ↔
      ∃ t, p.Matches spacing s t ∧ u = { t with margin := s.textUpTo t :: t.margin } := by
  constructor
  · rintro ⟨n, h⟩
    obtain ⟨t, hp, hu⟩ := MatchesIn.indent_inv h
    exact ⟨t, hp.toMatches, hu⟩
  · rintro ⟨t, hp, rfl⟩
    exact hp.indent

/-- A rule matches exactly as its pattern, between the opening and the closing of its phrase. -/
theorem matches_rule_iff {r : Rule} :
    (Pattern.rule r).Matches spacing s u ↔
      ∃ t, r.definition.pattern.Matches (r.inside spacing) (s.openRule r spacing) t ∧
        u = State.afterRule r spacing s t := by
  constructor
  · rintro ⟨n, h⟩
    obtain ⟨k, -, t, hp, hu⟩ := MatchesIn.rule_inv h
    exact ⟨t, hp.toMatches, hu⟩
  · rintro ⟨t, hp, rfl⟩
    exact hp.rule

/-- Rounds within a number of steps are rounds. -/
theorem rounds_of_roundIn (h : ReflTransGen (p.RoundIn n spacing) s t) :
    Rounds p spacing s t := by
  induction h using ReflTransGen.head_induction_on with
  | refl => exact .none _
  | head hfirst _ ih => exact .more hfirst.toMatches ih

/-- A repetition matches exactly by rounds, up to where the next one fails. -/
theorem matches_many_iff :
    (Pattern.many p).Matches spacing s u ↔
      (p.Fails spacing s ∧ u = s) ∨
        ∃ t, p.Matches spacing s t ∧ Rounds p spacing t u ∧ p.Fails spacing (u.skip spacing) := by
  constructor
  · rintro ⟨n, h⟩
    rcases MatchesIn.many_inv h with hp | ⟨t, hp, hrounds, hstop⟩
    · exact .inl hp
    · exact .inr ⟨t, hp.toMatches, rounds_of_roundIn hrounds, hstop⟩
  · rintro (⟨hp, rfl⟩ | ⟨t, hp, hrounds, hstop⟩)
    · exact hp.many
    · exact hrounds.many hp hstop

/-- Where no blanks are skipped, a repetition is rounds up to the first that
fails. -/
theorem matches_many_iff_rounds (htight : ∀ s : State, s.skip spacing = s) :
    (Pattern.many p).Matches spacing s u ↔ Rounds p spacing s u ∧ p.Fails spacing u := by
  rw [matches_many_iff]
  constructor
  · rintro (⟨hp, rfl⟩ | ⟨t, hp, hrounds, hstop⟩)
    · exact ⟨.none _, hp⟩
    · rw [htight] at hstop
      exact ⟨.more (by rwa [htight]) hrounds, hstop⟩
  · rintro ⟨hrounds, hstop⟩
    cases hrounds with
    | none => exact .inl ⟨hstop, rfl⟩
    | @more _ t _ hfirst hlater =>
        rw [htight] at hfirst
        exact .inr ⟨t, hfirst, hlater, by rwa [htight]⟩

/-! ### Failures -/

/-- The finish fails before the end of the text. -/
theorem fails_finish (h : s.rest ≠ []) : Pattern.finish.Fails spacing s := by
  refine ⟨1, ?_⟩
  rw [outcome_finish]
  split
  · exact absurd (by assumption) h
  · rfl

/-- An outdent fails where there is no margin. -/
theorem fails_outdent (h : s.margin = []) : Pattern.outdent.Fails spacing s :=
  ⟨1, by rw [outcome_outdent, h]⟩

/-- An end that is a failure takes a step. -/
private theorem exists_pred_of_failed (h : p.outcome n spacing s = .failed) : ∃ k, n = k+1 := by
  cases n with
  | zero => cases h
  | succ k => exact ⟨k, rfl⟩

/-- A sequence fails exactly if its first part does, or its second behind a match of the first. -/
theorem fails_seq_iff :
    (Pattern.seq p q).Fails spacing s ↔
      p.Fails spacing s ∨ ∃ t, p.Matches spacing s t ∧ q.Fails spacing (t.skip spacing) := by
  constructor
  · rintro ⟨n, h⟩
    obtain ⟨k, rfl⟩ := exists_pred_of_failed h
    rw [outcome_seq] at h
    rcases Outcome.andThen_eq_failed h with ⟨t, hp, hq⟩ | ⟨hp, -⟩
    · exact .inr ⟨t, ⟨k, hp⟩, ⟨k, hq⟩⟩
    · exact .inl ⟨k, hp⟩
  · rintro (hp | ⟨t, hp, hq⟩)
    · exact hp.seq
    · exact hp.seq_fails hq

/-- A choice fails exactly if both of its parts do. -/
theorem fails_choice_iff :
    (Pattern.choice p q).Fails spacing s ↔ p.Fails spacing s ∧ q.Fails spacing s := by
  constructor
  · rintro ⟨n, h⟩
    obtain ⟨k, rfl⟩ := exists_pred_of_failed h
    rw [outcome_choice] at h
    rcases Outcome.andThen_eq_failed h with ⟨t, -, ht⟩ | ⟨hp, hq⟩
    · cases ht
    · exact ⟨⟨k, hp⟩, ⟨k, hq⟩⟩
  · rintro ⟨hp, hq⟩
    exact hp.choice_fails hq

/-- An option never fails. -/
theorem not_fails_opt : ¬ (Pattern.opt p).Fails spacing s := by
  rintro ⟨n, h⟩
  obtain ⟨k, rfl⟩ := exists_pred_of_failed h
  rw [outcome_opt] at h
  rcases Outcome.andThen_eq_failed h with ⟨t, -, ht⟩ | ⟨-, ht⟩ <;> cases ht

/-- The loop never fails. -/
private theorem outcomeMore_ne_failed : outcomeMore n p spacing s ≠ .failed := by
  induction n generalizing s with
  | zero => nofun
  | succ n ih =>
      intro h
      rw [outcomeMore_succ] at h
      rcases Outcome.andThen_eq_failed h with ⟨t, -, ht⟩ | ⟨-, ht⟩
      · exact ih ht
      · cases ht

/-- A repetition never fails. -/
theorem not_fails_many : ¬ (Pattern.many p).Fails spacing s := by
  rintro ⟨n, h⟩
  obtain ⟨k, rfl⟩ := exists_pred_of_failed h
  rw [outcome_many] at h
  rcases Outcome.andThen_eq_failed h with ⟨t, -, ht⟩ | ⟨-, ht⟩
  · exact outcomeMore_ne_failed ht
  · cases ht

/-- A guard fails exactly where what it guards against matches. -/
theorem fails_absent_iff :
    (Pattern.absent p).Fails spacing s ↔ ∃ t, p.Matches spacing s t := by
  constructor
  · rintro ⟨n, h⟩
    obtain ⟨k, rfl⟩ := exists_pred_of_failed h
    rw [outcome_absent] at h
    rcases Outcome.andThen_eq_failed h with ⟨t, hp, -⟩ | ⟨-, ht⟩
    · exact ⟨t, k, hp⟩
    · cases ht
  · rintro ⟨t, hp⟩
    exact hp.absent

/-- An indentation fails with its pattern. -/
theorem Fails.indent (hp : p.Fails spacing s) : (Pattern.indent p).Fails spacing s := by
  obtain ⟨n, hpn⟩ := hp
  exact ⟨n+1, by simp [outcome_indent, hpn]⟩

/-- An indentation fails exactly with its pattern. -/
theorem fails_indent_iff : (Pattern.indent p).Fails spacing s ↔ p.Fails spacing s := by
  refine ⟨fun ⟨n, h⟩ => ?_, Fails.indent⟩
  obtain ⟨k, rfl⟩ := exists_pred_of_failed h
  rw [outcome_indent] at h
  rcases Outcome.andThen_eq_failed h with ⟨t, -, ht⟩ | ⟨hp, -⟩
  · cases ht
  · exact ⟨k, hp⟩

/-- A rule fails exactly with its pattern. -/
theorem fails_rule_iff {r : Rule} :
    (Pattern.rule r).Fails spacing s ↔
      r.definition.pattern.Fails (r.inside spacing) (s.openRule r spacing) := by
  refine ⟨fun ⟨n, h⟩ => ?_, Fails.rule⟩
  obtain ⟨k, rfl⟩ := exists_pred_of_failed h
  rw [outcome_rule] at h
  rcases Outcome.andThen_eq_failed h with ⟨t, -, ht⟩ | ⟨hp, -⟩
  · cases ht
  · exact ⟨k, hp⟩

end Pattern

/-! ### Reading on, rule by rule -/

open Pattern in
/-- What allows the rounds of a repetition allows the repetition. -/
theorem Advances.of_many {R : State → State → Prop} (hR : Advances R) {p : Pattern} {n : Nat}
    {spacing : Spacing} (hround : ∀ {s t}, p.MatchesIn n spacing s t → R s t) {s t : State}
    (h : (Pattern.many p).MatchesIn n spacing s t) : R s t := by
  rcases h.many_inv with ⟨-, rfl⟩ | ⟨u, hfirst, hrounds, -⟩
  · exact hR.refl _
  refine hR.trans (hround hfirst) ?_
  clear h
  induction hrounds with
  | refl => exact hR.refl _
  | tail _ hlast ih => exact hR.trans ih (hR.trans (hR.skip _ spacing) (hround hlast))

open Pattern in
/-- **A match of a pattern over some rules** reads on and matches these rules, so
what allows that holds between its ends. -/
theorem Advances.of_uses {R : State → State → Prop} (hR : Advances R) {allowed : Rule → Bool}
    {n : Nat} (hrule : ∀ {r spacing s t}, allowed r = true →
      (Pattern.rule r).MatchesIn n spacing s t → R s t)
    {p : Pattern} (hp : p.uses allowed = true) {spacing : Spacing} {s t : State}
    (h : p.MatchesIn n spacing s t) : R s t := by
  induction p generalizing s t with
  | text chars =>
      obtain ⟨rest, hs, rfl⟩ := matches_text_iff.mp h.toMatches
      exact hR.takeText (State.takeText_append hs)
  | one set =>
      obtain ⟨c, rest, hs, -, rfl⟩ := matches_one_iff.mp h.toMatches
      exact hR.take hs
  | finish =>
      obtain ⟨-, rfl⟩ := matches_finish_iff.mp h.toMatches
      exact hR.refl _
  | seq p q ihp ihq =>
      simp only [uses, Bool.and_eq_true] at hp
      obtain ⟨u, hpu, hqu⟩ := h.seq_inv
      exact hR.trans (ihp hp.1 hpu) (hR.trans (hR.skip u spacing) (ihq hp.2 hqu))
  | choice p q ihp ihq =>
      simp only [uses, Bool.and_eq_true] at hp
      rcases h.choice_inv with hpt | ⟨-, hqt⟩
      · exact ihp hp.1 hpt
      · exact ihq hp.2 hqt
  | opt p ih =>
      rcases h.opt_inv with hpt | ⟨-, rfl⟩
      · exact ih hp hpt
      · exact hR.refl _
  | absent p _ =>
      obtain ⟨-, rfl⟩ := h.absent_inv
      exact hR.refl _
  | many p ih => exact hR.of_many (ih hp) h
  | rule r => exact hrule hp h
  | start | margin | indent | outdent => cases hp

/-! ### Whole texts -/

/-- The pattern of a module, behind the start of the text. -/
def moduleLines : Pattern := .parts [
  .opt lineBreak,
  .opt (.parts [.rule .statement, .many (.parts [lineBreak, .rule .statement])]),
  .opt lineBreak, blankRest, .rule .endOfInput]

section

open Pattern

variable {text : List Char} {s : State} {n : Nat}

/-- A whole text is matched by the lines of a module. -/
theorem Pattern.MatchesIn.module_inv
    (h : (Pattern.rule .module).MatchesIn n .loose (.ofText text) s) :
    ∃ k < n, ∃ t, moduleLines.MatchesIn k .tight (.ofText text) t ∧
      s = State.afterRule .module .loose (.ofText text) t := by
  obtain ⟨k, hk, t, ht, rfl⟩ := h.rule_inv
  change Rule.module.definition.pattern.MatchesIn k .tight (.ofText text) t at ht
  obtain ⟨u, hstart, hlines⟩ := ht.seq_inv
  obtain ⟨-, rfl⟩ := matches_start_iff.mp hstart.toMatches
  exact ⟨k, hk, t, hlines, rfl⟩

/-- Lines of a module make a module, spaced loosely as the reader starts. -/
theorem matches_module (h : moduleLines.Matches .tight (.ofText text) s) :
    (Pattern.rule .module).Matches .loose (.ofText text)
      (State.afterRule .module .loose (.ofText text) s) := by
  have hstart : Pattern.start.Matches .tight (.ofText text) (.ofText text) := matches_start rfl
  exact Matches.rule (r := .module) (hstart.seq h)

/-- A text is no module exactly if the lines of a module fail on it. -/
theorem fails_module_iff :
    (Pattern.rule .module).Fails .loose (.ofText text) ↔
      moduleLines.Fails .tight (.ofText text) := by
  have hstart : Pattern.start.Matches .tight (.ofText text) (.ofText text) := matches_start rfl
  rw [fails_rule_iff]
  change (Pattern.seq .start moduleLines).Fails .tight (.ofText text) ↔ _
  rw [fails_seq_iff]
  constructor
  · rintro (hfails | ⟨t, ht, hfails⟩)
    · exact absurd hfails hstart.not_fails
    · rw [ht.unique hstart] at hfails
      exact hfails
  · intro hfails
    exact .inr ⟨_, hstart, hfails⟩

end

/-! ### Rules inside a line -/

/-- A rule without line breaks: all but those of statements with a body. -/
def Rule.isInline : Rule → Bool
  | .module | .statement | .block | .decorated | .functionDef | .ifStatement | .elseClause
  | .elifClause | .elseBlock | .whileStatement | .forStatement | .loopElse => false
  | _ => true

/-- What has no line breaks is made of what has none. -/
theorem Rule.uses_inline {r : Rule} (h : r.isInline = true) :
    r.definition.pattern.uses isInline = true := by
  revert r
  have hall : ∀ r ∈ Rule.all, r.isInline = true → r.definition.pattern.uses isInline = true := by
    decide
  exact fun {r} h => hall r r.mem_all h

end FunctionIR.Grammar
