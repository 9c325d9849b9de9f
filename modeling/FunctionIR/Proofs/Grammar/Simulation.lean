import FunctionIR.Proofs.Grammar.Inversion

/-!
# Matching two texts alike

Two matches run alongside each other from related states if they cannot tell
the states apart.  The pattern then **agrees** on the states: if it matches at
the first, it does at the second, and ends in related states; if it fails at
the first, it does at the second (`Pattern.Agrees`).

What a relation must allow for that is little (`Simulation`).  Some patterns
are taken as they are, its leaves, and must agree; from then on all that is
made of leaves agrees, whatever rules it goes through
(`Simulation.agrees`).

Some leaves agree in certain places only, such as the margin, which is looked
for at the start of a line.  They are told by a closer relation: gates lead to
it, and behind a gate such steps are allowed (`GatedSimulation`).
-/

namespace FunctionIR.Grammar

namespace Pattern

/-- At two states the pattern matches alike, up to related states. -/
def Agrees (R : State → State → Prop) (p : Pattern) (spacing : Spacing) (s s' : State) : Prop :=
  (∀ t, p.Matches spacing s t → ∃ t', p.Matches spacing s' t' ∧ R t t') ∧
    (p.Fails spacing s → p.Fails spacing s')

/-- The pattern is made of leaves and of the allowed rules. -/
def builtFrom (leaf : Pattern → Bool) (allowed : Rule → Bool) : Pattern → Bool
  | .seq p q => leaf (.seq p q) || (p.builtFrom leaf allowed && q.builtFrom leaf allowed)
  | .choice p q => leaf (.choice p q) || (p.builtFrom leaf allowed && q.builtFrom leaf allowed)
  | .opt p => leaf (.opt p) || p.builtFrom leaf allowed
  | .many p => leaf (.many p) || p.builtFrom leaf allowed
  | .absent p => leaf (.absent p) || p.builtFrom leaf allowed
  | .rule r => leaf (.rule r) || allowed r
  | p => leaf p

/-- The pattern is made of leaves and of the allowed rules, and of steps that are
only taken right behind a gate. -/
def gatedFrom (leaf gate step : Pattern → Bool) (allowed : Rule → Bool) (behind : Bool) :
    Pattern → Bool
  | .seq p q => leaf (.seq p q) || (gate p && q.gatedFrom leaf gate step allowed true ||
      behind && step p && q.gatedFrom leaf gate step allowed true ||
      p.gatedFrom leaf gate step allowed behind && q.gatedFrom leaf gate step allowed false)
  | .choice p q => leaf (.choice p q) ||
      (p.gatedFrom leaf gate step allowed behind && q.gatedFrom leaf gate step allowed behind)
  | .opt p => leaf (.opt p) || p.gatedFrom leaf gate step allowed false
  | .many p => leaf (.many p) || p.gatedFrom leaf gate step allowed false
  | .absent p => leaf (.absent p) || p.gatedFrom leaf gate step allowed false
  | .rule r => leaf (.rule r) || allowed r
  | p => leaf p

/-- Without gates there are no steps. -/
theorem gatedFrom_of_builtFrom {leaf : Pattern → Bool} {allowed : Rule → Bool} {p : Pattern}
    (h : p.builtFrom leaf allowed = true) :
    p.gatedFrom leaf (fun _ => false) (fun _ => false) allowed false = true := by
  induction p with
  | seq p q ihp ihq | choice p q ihp ihq =>
      simp only [builtFrom, Bool.or_eq_true, Bool.and_eq_true] at h
      rcases h with h | ⟨hp, hq⟩
      · simp [gatedFrom, h]
      · simp [gatedFrom, ihp hp, ihq hq]
  | opt p ih | many p ih | absent p ih =>
      simp only [builtFrom, Bool.or_eq_true] at h
      rcases h with h | h
      · simp [gatedFrom, h]
      · simp [gatedFrom, ih h]
  | _ => exact h

namespace Agrees

variable {R S : State → State → Prop} {p q : Pattern} {spacing : Spacing} {s s' t t' : State}

theorem mono (h : p.Agrees R spacing s s') (himp : ∀ t t', R t t' → S t t') :
    p.Agrees S spacing s s' := by
  refine ⟨fun t ht => ?_, h.2⟩
  obtain ⟨t', ht', hR⟩ := h.1 t ht
  exact ⟨t', ht', himp t t' hR⟩

/-- The pattern matches both. -/
theorem of_matches (ht : p.Matches spacing s t) (ht' : p.Matches spacing s' t') (hR : R t t') :
    p.Agrees R spacing s s' := by
  refine ⟨fun u hu => ?_, fun hfails => absurd hfails ht.not_fails⟩
  rw [hu.unique ht]
  exact ⟨t', ht', hR⟩

/-- The pattern matches neither. -/
theorem of_fails (h : p.Fails spacing s) (h' : p.Fails spacing s') : p.Agrees R spacing s s' :=
  ⟨fun _ ht => absurd h ht.not_fails, fun _ => h'⟩

/-- One part after the other. -/
theorem seq (hp : p.Agrees R spacing s s')
    (hq : ∀ t t', R t t' → q.Agrees S spacing (t.skip spacing) (t'.skip spacing)) :
    (Pattern.seq p q).Agrees S spacing s s' := by
  constructor
  · intro u hu
    obtain ⟨t, ht, hu⟩ := matches_seq_iff.mp hu
    obtain ⟨t', ht', hR⟩ := hp.1 t ht
    obtain ⟨u', hu', hS⟩ := (hq t t' hR).1 u hu
    exact ⟨u', ht'.seq hu', hS⟩
  · intro hfails
    rcases fails_seq_iff.mp hfails with hfails | ⟨t, ht, hfails⟩
    · exact (hp.2 hfails).seq
    · obtain ⟨t', ht', hR⟩ := hp.1 t ht
      exact ht'.seq_fails ((hq t t' hR).2 hfails)

/-- The first of two that matches. -/
theorem choice (hp : p.Agrees R spacing s s') (hq : q.Agrees R spacing s s') :
    (Pattern.choice p q).Agrees R spacing s s' := by
  constructor
  · intro t ht
    rcases matches_choice_iff.mp ht with ht | ⟨hfails, ht⟩
    · obtain ⟨t', ht', hR⟩ := hp.1 t ht
      exact ⟨t', ht'.choice, hR⟩
    · obtain ⟨t', ht', hR⟩ := hq.1 t ht
      exact ⟨t', (hp.2 hfails).choice ht', hR⟩
  · intro hfails
    obtain ⟨hp', hq'⟩ := fails_choice_iff.mp hfails
    exact (hp.2 hp').choice_fails (hq.2 hq')

/-- The first of several that matches. -/
theorem firstOf {choices : List Pattern} (h : ∀ p ∈ choices, p.Agrees R spacing s s') :
    (Pattern.firstOf choices).Agrees R spacing s s' := by
  induction choices with
  | nil =>
      have hfails (u : State) : (Pattern.absent (.text [])).Fails spacing u :=
        Matches.absent (matches_text rfl)
      exact .of_fails (hfails s) (hfails s')
  | cons p rest ih =>
      obtain ⟨hp, hrest⟩ := List.forall_mem_cons.mp h
      cases rest with
      | nil => exact hp
      | cons q rest => exact hp.choice (ih hrest)

/-- Nothing, where the part does not match. -/
theorem absent (hp : p.Agrees S spacing s s') (hs : p.Fails spacing s → R s s') :
    (Pattern.absent p).Agrees R spacing s s' := by
  constructor
  · intro t ht
    obtain ⟨hfails, rfl⟩ := matches_absent_iff.mp ht
    exact ⟨s', (hp.2 hfails).absent, hs hfails⟩
  · intro hfails
    obtain ⟨t, ht⟩ := fails_absent_iff.mp hfails
    obtain ⟨t', ht', -⟩ := hp.1 t ht
    exact ht'.absent

/-- The part if it matches, and if it fails what that tells. -/
theorem opt_of_fails (hp : p.Agrees R spacing s s') (hs : p.Fails spacing s → R s s') :
    (Pattern.opt p).Agrees R spacing s s' := by
  refine ⟨fun t ht => ?_, fun hfails => absurd hfails not_fails_opt⟩
  rcases matches_opt_iff.mp ht with ht | ⟨hfails, rfl⟩
  · obtain ⟨t', ht', hR⟩ := hp.1 t ht
    exact ⟨t', ht'.opt, hR⟩
  · exact ⟨s', (hp.2 hfails).opt, hs hfails⟩

/-- The part if it matches. -/
theorem opt (hp : p.Agrees R spacing s s') (hs : R s s') : (Pattern.opt p).Agrees R spacing s s' :=
  hp.opt_of_fails fun _ => hs

/-- The part as often as it matches, where no blanks are skipped.  Behind it the
part fails. -/
theorem many (htight : ∀ u : State, u.skip spacing = u)
    (hp : ∀ t t', R t t' → p.Agrees R spacing t t') (hs : R s s') :
    (Pattern.many p).Agrees (fun t t' => R t t' ∧ p.Fails spacing t) spacing s s' := by
  refine ⟨fun t ht => ?_, fun hfails => absurd hfails not_fails_many⟩
  obtain ⟨hrounds, hstop⟩ := (matches_many_iff_rounds htight).mp ht
  clear ht
  induction hrounds generalizing s' with
  | none s => exact ⟨s', ((hp s s' hs).2 hstop).many, hs, hstop⟩
  | @more s u t hfirst _ ih =>
      rw [htight] at hfirst
      obtain ⟨u', hu', hR⟩ := (hp s s' hs).1 u hfirst
      obtain ⟨t', ht', hRt⟩ := ih hR hstop
      exact ⟨t', hu'.many_cons (htight u') ht', hRt⟩

/-- What the pattern of a rule matches. -/
theorem rule {r : Rule}
    (h : r.definition.pattern.Agrees R (r.inside spacing) (s.openRule r spacing)
      (s'.openRule r spacing))
    (hR : ∀ t t', r.definition.pattern.Matches (r.inside spacing) (s.openRule r spacing) t → R t t' →
      S (State.afterRule r spacing s t) (State.afterRule r spacing s' t')) :
    (Pattern.rule r).Agrees S spacing s s' := by
  constructor
  · intro u hu
    obtain ⟨t, ht, rfl⟩ := matches_rule_iff.mp hu
    obtain ⟨t', ht', hRt⟩ := h.1 t ht
    exact ⟨_, ht'.rule, hR t t' ht hRt⟩
  · intro hfails
    exact (h.2 (fails_rule_iff.mp hfails)).rule

/-- An indentation, where the pushed text keeps the relation. -/
theorem indent (h : p.Agrees R spacing s s')
    (hR : ∀ t t', p.Matches spacing s t → R t t' →
      S { t with margin := s.textUpTo t :: t.margin } { t' with margin := s'.textUpTo t' :: t'.margin }) :
    (Pattern.indent p).Agrees S spacing s s' := by
  constructor
  · intro u hu
    obtain ⟨t, ht, rfl⟩ := matches_indent_iff.mp hu
    obtain ⟨t', ht', hRt⟩ := h.1 t ht
    exact ⟨_, ht'.indent, hR t t' ht hRt⟩
  · intro hfails
    exact (h.2 (fails_indent_iff.mp hfails)).indent

/-- The end of an indentation, where both states have the same margin. -/
theorem outdent (hmargin : s'.margin = s.margin)
    (hR : ∀ width outer, s.margin = width :: outer →
      R { s with margin := outer } { s' with margin := outer }) :
    Pattern.outdent.Agrees R spacing s s' := by
  cases hs : s.margin with
  | nil => exact .of_fails (fails_outdent hs) (fails_outdent (hmargin.trans hs))
  | cons width outer =>
      exact .of_matches (matches_outdent hs) (matches_outdent (hmargin.trans hs)) (hR width outer hs)

end Agrees

end Pattern

/-- The relation allows to match alike whatever is made of its leaves and of the
allowed rules. -/
structure Simulation (R : State → State → Prop) (leaf : Spacing → Pattern → Bool)
    (allowed : Rule → Bool) : Prop where
  skip : ∀ {s s'} spacing, R s s' → R (s.skip spacing) (s'.skip spacing)
  leaves : ∀ {spacing p s s'}, leaf spacing p = true → R s s' → p.Agrees R spacing s s'
  opened : ∀ {r spacing s s'}, R s s' → R (s.openRule r spacing) (s'.openRule r spacing)
  closed : ∀ {r spacing s s' t t'}, allowed r = true →
    r.definition.pattern.Matches (r.inside spacing) (s.openRule r spacing) t → R s s' → R t t' →
    R (State.afterRule r spacing s t) (State.afterRule r spacing s' t')
  rules : ∀ {r}, allowed r = true → ∀ spacing,
    r.definition.pattern.builtFrom (leaf (r.inside spacing)) allowed = true

/-- A simulation with a closer relation.  Gates lead to it, and steps, which are
only taken behind a gate, stay with it. -/
structure GatedSimulation (R C : State → State → Prop) (leaf gate step : Spacing → Pattern → Bool)
    (allowed : Rule → Bool) : Prop where
  closer : ∀ {s s'}, C s s' → R s s'
  skip : ∀ {s s'} spacing, R s s' → R (s.skip spacing) (s'.skip spacing)
  skipCloser : ∀ {s s'} spacing, C s s' → C (s.skip spacing) (s'.skip spacing)
  leaves : ∀ {spacing p s s'}, leaf spacing p = true → R s s' → p.Agrees R spacing s s'
  gates : ∀ {spacing p s s'}, gate spacing p = true → R s s' → p.Agrees C spacing s s'
  steps : ∀ {spacing p s s'}, step spacing p = true → C s s' → p.Agrees C spacing s s'
  opened : ∀ {r spacing s s'}, R s s' → R (s.openRule r spacing) (s'.openRule r spacing)
  closed : ∀ {r spacing s s' t t'}, allowed r = true →
    r.definition.pattern.Matches (r.inside spacing) (s.openRule r spacing) t → R s s' → R t t' →
    R (State.afterRule r spacing s t) (State.afterRule r spacing s' t')
  rules : ∀ {r}, allowed r = true → ∀ spacing, r.definition.pattern.gatedFrom
    (leaf (r.inside spacing)) (gate (r.inside spacing)) (step (r.inside spacing)) allowed false = true

open Pattern

variable {R C : State → State → Prop} {leaf gate step : Spacing → Pattern → Bool}
  {allowed : Rule → Bool} {p q : Pattern} {spacing : Spacing} {s s' : State}

namespace GatedSimulation

/-- What an answer says, if there is one. -/
private def Says (M : State → Prop) (F : Prop) : Outcome → Prop
  | .matched t => M t
  | .failed => F
  | .exhausted => True

/-- What an answer says may be told more loosely. -/
private theorem Says.imp {M M' : State → Prop} {F F' : Prop} {o : Outcome} (h : Says M F o)
    (hM : ∀ t, M t → M' t) (hF : F → F') : Says M' F' o := by
  cases o with
  | matched t => exact hM t h
  | failed => exact hF h
  | exhausted => trivial

/-- What the answer of a run that goes on says. -/
private theorem Says.andThen {M M' : State → Prop} {F F' : Prop} {o otherwise : Outcome}
    {next : State → Outcome} (h : Says M F o) (hM : ∀ t, M t → Says M' F' (next t))
    (hF : F → Says M' F' otherwise) : Says M' F' (o.andThen next otherwise) := by
  cases o with
  | matched t => exact hM t h
  | failed => exact hF h
  | exhausted => trivial

/-- The second state gives the same answer. -/
private def Answers (R : State → State → Prop) (p : Pattern) (spacing : Spacing) (s' : State) :
    Outcome → Prop :=
  Says (fun t => ∃ t', p.Matches spacing s' t' ∧ R t t') (p.Fails spacing s')

/-- So do the further rounds of a repetition, which never fail. -/
private def Continues (R : State → State → Prop) (p : Pattern) (spacing : Spacing) (s' : State) :
    Outcome → Prop :=
  Says (fun t => ∃ t', Rounds p spacing s' t' ∧ p.Fails spacing (t'.skip spacing) ∧ R t t') False

/-- A pattern that does the same in both states gives the same answer. -/
private theorem answers_of_agrees (h : p.Agrees R spacing s s') (n : Nat) :
    Answers R p spacing s' (p.outcome n spacing s) := by
  cases ho : p.outcome n spacing s with
  | matched t => exact h.1 t ⟨n, ho⟩
  | failed => exact h.2 ⟨n, ho⟩
  | exhausted => trivial

/-- One part after the other, with some relation between them. -/
private theorem Answers.seq {S : State → State → Prop} {n : Nat}
    (hp : Answers S p spacing s' (p.outcome n spacing s))
    (hq : ∀ t t', S t t' →
      Answers R q spacing (t'.skip spacing) (q.outcome n spacing (t.skip spacing))) :
    Answers R (.seq p q) spacing s' ((Pattern.seq p q).outcome (n + 1) spacing s) := by
  rw [outcome_seq]
  refine hp.andThen (fun t ⟨t', ht', hS⟩ => ?_) Fails.seq
  refine (hq t t' hS).imp ?_ ht'.seq_fails
  rintro u ⟨u', hu', hRu⟩
  exact ⟨u', ht'.seq hu', hRu⟩

/-- All patterns answer alike, by induction on the steps they may take. -/
private theorem answers (h : GatedSimulation R C leaf gate step allowed) (n : Nat) :
    (∀ p spacing behind s s',
      p.gatedFrom (leaf spacing) (gate spacing) (step spacing) allowed behind = true →
      R s s' → (behind = true → C s s') → Answers R p spacing s' (p.outcome n spacing s)) ∧
    (∀ p spacing s s',
      p.gatedFrom (leaf spacing) (gate spacing) (step spacing) allowed false = true → R s s' →
      Continues R p spacing s' (outcomeMore n p spacing s)) := by
  -- leaves agree by assumption; behind a gate the states are in the closer relation `C`, in
  -- which steps agree too
  induction n with
  | zero => exact ⟨fun _ _ _ _ _ _ _ _ => trivial, fun _ _ _ _ _ _ => trivial⟩
  | succ n ih =>
      obtain ⟨ih, ihMore⟩ := ih
      constructor
      · intro p spacing behind s s' hp hs hbehind
        by_cases hleaf : leaf spacing p = true
        · exact answers_of_agrees (h.leaves hleaf hs) (n+1)
        cases p with
        | seq p q =>
            simp only [gatedFrom, hleaf, Bool.false_or, Bool.or_eq_true, Bool.and_eq_true] at hp
            have hclose (hp : p.Agrees C spacing s s')
                (hq : q.gatedFrom (leaf spacing) (gate spacing) (step spacing) allowed true = true) :
                Answers R (.seq p q) spacing s' ((Pattern.seq p q).outcome (n + 1) spacing s) :=
              (answers_of_agrees hp n).seq fun t t' hC =>
                ih q spacing true _ _ hq (h.skip spacing (h.closer hC)) fun _ =>
                  h.skipCloser spacing hC
            rcases hp with (⟨hgate, hq⟩ | ⟨⟨hafter, hstep⟩, hq⟩) | ⟨hp, hq⟩
            · exact hclose (h.gates hgate hs) hq
            · exact hclose (h.steps hstep (hbehind hafter)) hq
            · exact (ih p spacing behind s s' hp hs hbehind).seq fun t t' hR =>
                ih q spacing false _ _ hq (h.skip spacing hR) nofun
        | choice p q =>
            simp only [gatedFrom, hleaf, Bool.false_or, Bool.and_eq_true] at hp
            rw [outcome_choice]
            refine (ih p spacing behind s s' hp.1 hs hbehind).andThen
              (fun t ⟨t', ht', hR⟩ => ⟨t', ht'.choice, hR⟩) fun hfails => ?_
            refine (ih q spacing behind s s' hp.2 hs hbehind).imp ?_ hfails.choice_fails
            rintro u ⟨u', hu', hRu⟩
            exact ⟨u', hfails.choice hu', hRu⟩
        | opt p =>
            simp only [gatedFrom, hleaf, Bool.false_or] at hp
            rw [outcome_opt]
            exact (ih p spacing false s s' hp hs nofun).andThen
              (fun t ⟨t', ht', hR⟩ => ⟨t', ht'.opt, hR⟩) fun hfails => ⟨s', hfails.opt, hs⟩
        | absent p =>
            simp only [gatedFrom, hleaf, Bool.false_or] at hp
            rw [outcome_absent]
            exact (ih p spacing false s s' hp hs nofun).andThen
              (fun t ⟨t', ht', _⟩ => ht'.absent) fun hfails => ⟨s', hfails.absent, hs⟩
        | many p =>
            simp only [gatedFrom, hleaf, Bool.false_or] at hp
            rw [outcome_many]
            refine (ih p spacing false s s' hp hs nofun).andThen (fun t ⟨t', ht', hR⟩ => ?_)
              fun hfails => ⟨s', hfails.many, hs⟩
            refine (ihMore p spacing t t' hp hR).imp ?_ False.elim
            rintro u ⟨u', hrounds, hstop, hRu⟩
            exact ⟨u', hrounds.many ht' hstop, hRu⟩
        | rule r =>
            simp only [gatedFrom, hleaf, Bool.false_or] at hp
            rw [outcome_rule]
            have hpart := ih r.definition.pattern (r.inside spacing) false (s.openRule r spacing)
              (s'.openRule r spacing) (h.rules hp spacing) (h.opened hs) nofun
            cases ho : r.definition.pattern.outcome n (r.inside spacing) (s.openRule r spacing) with
            | exhausted => trivial
            | failed =>
                rw [ho] at hpart
                exact Fails.rule hpart
            | matched t =>
                rw [ho] at hpart
                obtain ⟨t', ht', hR⟩ := hpart
                exact ⟨_, ht'.rule, h.closed hp ⟨n, ho⟩ hs hR⟩
        | text | one | start | finish | margin | indent | outdent => exact absurd hp hleaf
      · intro p spacing s s' hp hs
        rw [outcomeMore_succ]
        refine (ih p spacing false _ _ hp (h.skip spacing hs) nofun).andThen
          (fun t ⟨t', ht', hR⟩ => ?_) fun hfails => ⟨s', .none s', hfails, hs⟩
        refine (ihMore p spacing t t' hp hR).imp ?_ id
        rintro u ⟨u', hrounds, hstop, hRu⟩
        exact ⟨u', .more ht' hrounds, hstop, hRu⟩

/-- **What is made of leaves, and of steps behind gates, agrees** on related
states. -/
theorem agrees (h : GatedSimulation R C leaf gate step allowed)
    (hp : p.gatedFrom (leaf spacing) (gate spacing) (step spacing) allowed false = true)
    (hs : R s s') : p.Agrees R spacing s s' := by
  constructor
  · rintro t ⟨n, hn⟩
    have hanswers := (h.answers n).1 p spacing false s s' hp hs nofun
    rwa [hn] at hanswers
  · rintro ⟨n, hn⟩
    have hanswers := (h.answers n).1 p spacing false s s' hp hs nofun
    rwa [hn] at hanswers

end GatedSimulation

namespace Simulation

/-- Where there are no gates, nothing closer is needed. -/
theorem gated (h : Simulation R leaf allowed) :
    GatedSimulation R R leaf (fun _ _ => false) (fun _ _ => false) allowed where
  closer := id
  skip := h.skip
  skipCloser := h.skip
  leaves := h.leaves
  gates := nofun
  steps := nofun
  opened := h.opened
  closed := h.closed
  rules hr spacing := gatedFrom_of_builtFrom (h.rules hr spacing)

/-- **What is made of leaves agrees** on related states. -/
theorem agrees (h : Simulation R leaf allowed) (hp : p.builtFrom (leaf spacing) allowed = true)
    (hs : R s s') : p.Agrees R spacing s s' :=
  h.gated.agrees (gatedFrom_of_builtFrom hp) hs

end Simulation

end FunctionIR.Grammar
