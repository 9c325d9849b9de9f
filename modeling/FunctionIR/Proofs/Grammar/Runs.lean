import FunctionIR.Grammar.Matching

/-!
# What a pattern does when steps do not matter

`Pattern.run` counts its steps, and running out of them is an outcome.  The
count never changes an answer, it only delays it: a run that ends keeps its
outcome when it is granted more steps (`outcome_add`).  So it makes sense to
say that a pattern **matches** from one state to another, or **fails** at a
state, without naming a number of steps; at most one of these holds, with at
most one end (`Matches.unique`, `Matches.not_fails`).

The record of attempts is no part of this: the outcome of a run follows
equations of its own, one for each form of pattern, and the rules by which
larger patterns match and fail are read off them.  Nothing about the grammar
is used.
-/

namespace FunctionIR.Grammar

/-- What is left after blanks is a suffix of the text. -/
theorem skipBlanks_suffix (place : Place) (text : List Char) :
    (skipBlanks place text).1 <:+ text := by
  fun_induction skipBlanks place text with
  | case1 place rest ih | case2 place rest ih => exact ih.trans (List.suffix_cons _ _)
  | case3 place rest ih =>
      exact ih.trans ((List.suffix_cons _ _).trans (List.suffix_cons _ _))
  | case4 place rest ih =>
      exact ih.trans ((List.suffix_cons _ _).trans
        ((List.suffix_cons _ _).trans (List.suffix_cons _ _)))
  | case5 place rest h ih =>
      exact ih.trans ((List.suffix_cons _ _).trans (List.suffix_cons _ _))
  | case6 => exact List.suffix_rfl

/-- The spacing inside a rule. -/
def Rule.inside (r : Rule) (spacing : Spacing) : Spacing :=
  r.definition.spacing.getD spacing

/-- A rule is seen from outside unless it is a token inside a token. -/
def Rule.visible (r : Rule) (spacing : Spacing) : Bool :=
  if r.inside spacing = .token then spacing != .token else true

/-- The state in which the pattern of a rule starts. -/
def State.openRule (r : Rule) (spacing : Spacing) (s : State) : State :=
  if r.visible spacing then { s with phrases := [] } else s

/-- The state after a rule, from those before and after its pattern. -/
def State.afterRule (r : Rule) (spacing : Spacing) (s t : State) : State :=
  if r.visible spacing then State.closeRule r r.definition.kept s t else t

/-- How an outcome goes on: after a match, after a failure, and not at all
when the steps ran out. -/
def Outcome.andThen (o : Outcome) (onMatch : State → Outcome) (onFailure : Outcome) : Outcome :=
  match o with
  | .matched t => onMatch t
  | .failed => onFailure
  | .exhausted => .exhausted

namespace Outcome

variable {onMatch : State → Outcome} {onFailure : Outcome}

/-- After a match the run goes on. -/
@[simp] theorem andThen_matched (t : State) :
    (matched t).andThen onMatch onFailure = onMatch t := rfl

/-- After a failure the other outcome stands. -/
@[simp] theorem andThen_failed : failed.andThen onMatch onFailure = onFailure := rfl

@[simp] theorem andThen_exhausted : exhausted.andThen onMatch onFailure = exhausted := rfl

end Outcome

namespace Pattern

/-- The outcome of a run, without its record. -/
def outcome (steps : Nat) (p : Pattern) (spacing : Spacing) (s : State) : Outcome :=
  (p.run steps spacing s).1

/-- The outcome of the further rounds of a repetition. -/
def outcomeMore (steps : Nat) (p : Pattern) (spacing : Spacing) (s : State) : Outcome :=
  (runMore steps p spacing s .none).1

variable {p q : Pattern} {spacing : Spacing} {s t u : State} {n m : Nat}

/-! ### One equation for each form of pattern -/

/-- A run that goes on after a match. -/
private def onMatch (run : Outcome × Attempts)
    (next : State → Attempts → Outcome × Attempts) : Outcome × Attempts :=
  match run with
  | (.matched t, tried) => next t tried
  | other => other

/-- A run that goes on after a failure. -/
private def onFailure (run : Outcome × Attempts) (next : Attempts → Outcome × Attempts) :
    Outcome × Attempts :=
  match run with
  | (.failed, tried) => next tried
  | other => other

/-- A run that goes on after either. -/
private def onEnd (run : Outcome × Attempts) (matched : State → Attempts → Outcome × Attempts)
    (failed : Attempts → Outcome × Attempts) : Outcome × Attempts :=
  match run with
  | (.matched t, tried) => matched t tried
  | (.failed, tried) => failed tried
  | other => other

/-- A round of a repetition, which leaves its record behind in every case. -/
private def onRound (run : Outcome × Attempts) (tried : Attempts) (s : State)
    (next : State → Attempts → Outcome × Attempts) : Outcome × Attempts :=
  match run with
  | (.matched t, more) => next t (tried.and more)
  | (.failed, more) => (.matched s, tried.and more)
  | (.exhausted, more) => (.exhausted, tried.and more)

/-- A run of the pattern of a rule, closed if the rule is visible. -/
private def onRule (r : Rule) (spacing : Spacing) (s : State) (run : Outcome × Attempts) :
    Outcome × Attempts :=
  match run with
  | (o, tried) =>
    (match o with
      | .matched t =>
        if r.visible spacing then .matched (State.closeRule r r.definition.kept s t)
        else .matched t
      | other => other,
      if r.visible spacing then .rule r s.place o.isFailed tried else tried)

section Continuing

variable {run : Outcome × Attempts} {next : State → Outcome} {otherwise : Outcome}
  {matched : State → Attempts → Outcome × Attempts} {failed : Attempts → Outcome × Attempts}

/-- What is counted on the way does not change the outcome after a match. -/
private theorem onMatch_fst (h : ∀ t tried, (matched t tried).1 = next t) :
    (onMatch run matched).1 = run.1.andThen next .failed := by
  rcases run with ⟨o, tried⟩
  cases o with
  | matched t => exact h t tried
  | failed | exhausted => rfl

/-- What is counted on the way does not change the outcome after a failure. -/
private theorem onFailure_fst (h : ∀ tried, (failed tried).1 = otherwise) :
    (onFailure run failed).1 = run.1.andThen .matched otherwise := by
  rcases run with ⟨o, tried⟩
  cases o with
  | failed => exact h tried
  | matched | exhausted => rfl

/-- What is counted on the way does not change the outcome at either end. -/
private theorem onEnd_fst (hmatched : ∀ t tried, (matched t tried).1 = next t)
    (hfailed : ∀ tried, (failed tried).1 = otherwise) :
    (onEnd run matched failed).1 = run.1.andThen next otherwise := by
  rcases run with ⟨o, tried⟩
  cases o with
  | matched t => exact hmatched t tried
  | failed => exact hfailed tried
  | exhausted => rfl

/-- What is counted on the way does not change the outcome of a round. -/
private theorem onRound_fst {tried : Attempts} (h : ∀ t tried, (matched t tried).1 = next t) :
    (onRound run tried s matched).1 = run.1.andThen next (.matched s) := by
  rcases run with ⟨o, more⟩
  cases o with
  | matched t => exact h t _
  | failed | exhausted => rfl

/-- What is counted on the way does not change the outcome of a rule. -/
private theorem onRule_fst {r : Rule} :
    (onRule r spacing s run).1 =
      run.1.andThen (fun t => .matched (State.afterRule r spacing s t)) .failed := by
  rcases run with ⟨o, tried⟩
  cases o with
  | matched t =>
      simp only [onRule, Outcome.andThen_matched, State.afterRule]
      split <;> rfl
  | failed | exhausted => rfl

end Continuing

/-- One more round of a repetition. -/
private theorem runMore_succ (n : Nat) (p : Pattern) (spacing : Spacing) (s : State)
    (tried : Attempts) :
    runMore (n+1) p spacing s tried =
      onRound (run n p spacing (s.skip spacing)) tried s (runMore n p spacing) := rfl

/-- What was tried before does not matter to the further rounds. -/
theorem runMore_fst (n : Nat) (p : Pattern) (spacing : Spacing) (s : State)
    (tried : Attempts) : (runMore n p spacing s tried).1 = outcomeMore n p spacing s := by
  induction n generalizing s tried with
  | zero => rfl
  | succ n ih => rw [outcomeMore, runMore_succ, runMore_succ, onRound_fst ih, onRound_fst ih]

/-- Further rounds: one more, then further ones, or none. -/
theorem outcomeMore_succ :
    outcomeMore (n+1) p spacing s =
      (p.outcome n spacing (s.skip spacing)).andThen (outcomeMore n p spacing) (.matched s) := by
  rw [outcomeMore, runMore_succ, onRound_fst (runMore_fst n p spacing)]
  rfl

/-- A fixed text is taken or fails. -/
theorem outcome_text {chars : List Char} :
    (Pattern.text chars).outcome (n+1) spacing s =
      match s.takeText chars with
      | Option.some t => .matched t
      | Option.none => .failed := by
  have hrun : run (n+1) (.text chars) spacing s =
      match s.takeText chars with
      | Option.some t => (.matched t, .none)
      | Option.none => (.failed, .none) := rfl
  rw [outcome, hrun]
  cases s.takeText chars <;> rfl

/-- A class takes one character or fails. -/
theorem outcome_one {set : CharClass} :
    (Pattern.one set).outcome (n+1) spacing s =
      match s.rest with
      | [] => .failed
      | c :: rest => if set.holds c then .matched (s.take c rest) else .failed := by
  have hrun : run (n+1) (.one set) spacing s =
      match s.rest with
      | [] => (.failed, .none)
      | c :: rest =>
        if set.holds c then (.matched (s.take c rest), .none) else (.failed, .none) := rfl
  rw [outcome, hrun]
  cases s.rest with
  | nil => rfl
  | cons c rest => cases h : set.holds c <;> simp [h]

/-- The start asks for offset zero. -/
theorem outcome_start :
    Pattern.start.outcome (n+1) spacing s =
      if s.place.offset = 0 then .matched s else .failed := by
  have hrun : run (n+1) .start spacing s =
      if s.place.offset = 0 then (.matched s, .none) else (.failed, .none) := rfl
  rw [outcome, hrun]
  split <;> rfl

/-- The finish asks for the end of the text. -/
theorem outcome_finish :
    Pattern.finish.outcome (n+1) spacing s =
      match s.rest with
      | [] => .matched s
      | _ :: _ => .failed := by
  have hrun : run (n+1) .finish spacing s =
      match s.rest with
      | [] => (.matched s, .none)
      | _ :: _ => (.failed, .none) := rfl
  rw [outcome, hrun]
  cases s.rest <;> rfl

/-- The margin is taken as a fixed text. -/
theorem outcome_margin :
    Pattern.margin.outcome (n+1) spacing s =
      match s.takeText s.margin.flatten with
      | Option.some t => .matched t
      | Option.none => .failed := by
  have hrun : run (n+1) .margin spacing s =
      match s.takeText s.margin.flatten with
      | Option.some t => (.matched t, .none)
      | Option.none => (.failed, .none) := rfl
  rw [outcome, hrun]
  cases s.takeText s.margin.flatten <;> rfl

/-- An outdent takes the innermost width off. -/
theorem outcome_outdent :
    Pattern.outdent.outcome (n+1) spacing s =
      match s.margin with
      | [] => .failed
      | _ :: outer => .matched { s with margin := outer } := by
  have hrun : run (n+1) .outdent spacing s =
      match s.margin with
      | [] => (.failed, .none)
      | _ :: outer => (.matched { s with margin := outer }, .none) := rfl
  rw [outcome, hrun]
  cases s.margin <;> rfl

/-- A sequence runs its parts with a skip between them. -/
theorem outcome_seq :
    (Pattern.seq p q).outcome (n+1) spacing s =
      (p.outcome n spacing s).andThen (fun t => q.outcome n spacing (t.skip spacing)) .failed := by
  have hrun : run (n+1) (.seq p q) spacing s =
      onMatch (run n p spacing s) fun t tried =>
        ((run n q spacing (t.skip spacing)).1, tried.and (run n q spacing (t.skip spacing)).2) := rfl
  rw [outcome, hrun]
  exact onMatch_fst fun _ _ => rfl

/-- A choice runs its second part where the first fails. -/
theorem outcome_choice :
    (Pattern.choice p q).outcome (n+1) spacing s =
      (p.outcome n spacing s).andThen .matched (q.outcome n spacing s) := by
  have hrun : run (n+1) (.choice p q) spacing s =
      onFailure (run n p spacing s) fun tried =>
        ((run n q spacing s).1, tried.and (run n q spacing s).2) := rfl
  rw [outcome, hrun]
  exact onFailure_fst fun _ => rfl

/-- An optional part stays where it fails. -/
theorem outcome_opt :
    (Pattern.opt p).outcome (n+1) spacing s =
      (p.outcome n spacing s).andThen .matched (.matched s) := by
  have hrun : run (n+1) (.opt p) spacing s =
      onFailure (run n p spacing s) fun tried => (.matched s, tried) := rfl
  rw [outcome, hrun]
  exact onFailure_fst fun _ => rfl

/-- A repetition runs a first round and then further ones. -/
theorem outcome_many :
    (Pattern.many p).outcome (n+1) spacing s =
      (p.outcome n spacing s).andThen (outcomeMore n p spacing) (.matched s) := by
  have hrun : run (n+1) (.many p) spacing s =
      onEnd (run n p spacing s) (runMore n p spacing) fun tried => (.matched s, tried) := rfl
  rw [outcome, hrun]
  exact onEnd_fst (runMore_fst n p spacing) fun _ => rfl

theorem outcome_absent :
    (Pattern.absent p).outcome (n+1) spacing s =
      (p.outcome n spacing s).andThen (fun _ => .failed) (.matched s) := by
  have hrun : run (n+1) (.absent p) spacing s =
      onEnd (run n p spacing s) (fun _ _ => (.failed, .none)) fun _ => (.matched s, .none) := rfl
  rw [outcome, hrun]
  exact onEnd_fst (fun _ _ => rfl) fun _ => rfl

/-- An indentation pushes the text its pattern went over. -/
theorem outcome_indent :
    (Pattern.indent p).outcome (n+1) spacing s =
      (p.outcome n spacing s).andThen
        (fun t => .matched { t with margin := s.textUpTo t :: t.margin }) .failed := by
  have hrun : run (n+1) (.indent p) spacing s =
      onMatch (run n p spacing s) fun t tried =>
        (.matched { t with margin := s.textUpTo t :: t.margin }, tried) := rfl
  rw [outcome, hrun]
  exact onMatch_fst fun _ _ => rfl

/-- A rule runs its pattern between the opening and the closing of its phrase. -/
theorem outcome_rule {r : Rule} :
    (Pattern.rule r).outcome (n+1) spacing s =
      (r.definition.pattern.outcome n (r.inside spacing) (s.openRule r spacing)).andThen
        (fun t => .matched (State.afterRule r spacing s t)) .failed := by
  have hrun : run (n+1) (.rule r) spacing s =
      onRule r spacing s
        (run n r.definition.pattern (r.inside spacing) (s.openRule r spacing)) := rfl
  rw [outcome, hrun]
  exact onRule_fst

/-! ### Steps to spare -/

/-- One more step changes no outcome. -/
private theorem outcome_succ_aux (n : Nat) :
    (∀ p spacing s, outcome n p spacing s ≠ .exhausted →
      outcome (n+1) p spacing s = outcome n p spacing s) ∧
    (∀ p spacing s, outcomeMore n p spacing s ≠ .exhausted →
      outcomeMore (n+1) p spacing s = outcomeMore n p spacing s) := by
  -- both runs take the same branch, as no part is exhausted if the whole is not
  induction n with
  | zero => exact ⟨fun _ _ _ h => absurd rfl h, fun _ _ _ h => absurd rfl h⟩
  | succ n ih =>
      obtain ⟨ih, ihMore⟩ := ih
      constructor
      · intro p spacing s h
        cases p with
        | text | one | start | finish | margin | outdent => rfl
        | seq first second =>
            rw [outcome_seq] at h ⊢
            rw [outcome_seq]
            have hfirst := ih first spacing s
            cases ho : outcome n first spacing s <;> simp_all
        | choice first second =>
            rw [outcome_choice] at h ⊢
            rw [outcome_choice]
            have hfirst := ih first spacing s
            cases ho : outcome n first spacing s <;> simp_all
        | opt part =>
            rw [outcome_opt] at h ⊢
            rw [outcome_opt]
            have hpart := ih part spacing s
            cases ho : outcome n part spacing s <;> simp_all
        | many part =>
            rw [outcome_many] at h ⊢
            rw [outcome_many]
            have hpart := ih part spacing s
            cases ho : outcome n part spacing s <;> simp_all
        | absent part =>
            rw [outcome_absent] at h ⊢
            rw [outcome_absent]
            have hpart := ih part spacing s
            cases ho : outcome n part spacing s <;> simp_all
        | indent part =>
            rw [outcome_indent] at h ⊢
            rw [outcome_indent]
            have hpart := ih part spacing s
            cases ho : outcome n part spacing s <;> simp_all
        | rule r =>
            rw [outcome_rule] at h ⊢
            rw [outcome_rule]
            have hpart := ih r.definition.pattern (r.inside spacing) (s.openRule r spacing)
            cases ho : outcome n r.definition.pattern (r.inside spacing)
              (s.openRule r spacing) <;> simp_all
      · intro p spacing s h
        rw [outcomeMore_succ] at h ⊢
        rw [outcomeMore_succ]
        have hpart := ih p spacing (s.skip spacing)
        cases ho : outcome n p spacing (s.skip spacing) <;> simp_all

/-- **Steps to spare change nothing.**  A run that ends keeps its outcome when
it is granted more steps. -/
theorem outcome_add (h : p.outcome n spacing s ≠ .exhausted) (more : Nat) :
    p.outcome (n + more) spacing s = p.outcome n spacing s := by
  induction more with
  | zero => rfl
  | succ more ih => rw [← Nat.add_assoc, (outcome_succ_aux _).1 _ _ _ (by rwa [ih]), ih]

/-- The further rounds of a repetition, too, keep their outcome. -/
theorem outcomeMore_add (h : outcomeMore n p spacing s ≠ .exhausted) (more : Nat) :
    outcomeMore (n + more) p spacing s = outcomeMore n p spacing s := by
  induction more with
  | zero => rfl
  | succ more ih => rw [← Nat.add_assoc, (outcome_succ_aux _).2 _ _ _ (by rwa [ih]), ih]

/-- Two runs that end have the same outcome. -/
theorem outcome_eq_of_ends (hn : p.outcome n spacing s ≠ .exhausted)
    (hm : p.outcome m spacing s ≠ .exhausted) :
    p.outcome n spacing s = p.outcome m spacing s := by
  rw [← outcome_add hn m, ← outcome_add hm n, Nat.add_comm]

/-- The pattern matches from one state to another. -/
def Matches (p : Pattern) (spacing : Spacing) (s t : State) : Prop :=
  ∃ steps, p.outcome steps spacing s = .matched t

/-- The pattern does not match at a state. -/
def Fails (p : Pattern) (spacing : Spacing) (s : State) : Prop :=
  ∃ steps, p.outcome steps spacing s = .failed

/-- **A match has one end.** -/
theorem Matches.unique (ht : p.Matches spacing s t) (hu : p.Matches spacing s u) :
    t = u := by
  obtain ⟨n, hn⟩ := ht
  obtain ⟨m, hm⟩ := hu
  have h : p.outcome n spacing s = p.outcome m spacing s :=
    outcome_eq_of_ends (by rw [hn]; nofun) (by rw [hm]; nofun)
  rw [hn, hm] at h
  exact Outcome.matched.inj h

/-- Where a pattern matches it does not fail. -/
theorem Matches.not_fails (ht : p.Matches spacing s t) : ¬ p.Fails spacing s := by
  rintro ⟨m, hm⟩
  obtain ⟨n, hn⟩ := ht
  have h : p.outcome n spacing s = p.outcome m spacing s :=
    outcome_eq_of_ends (by rw [hn]; nofun) (by rw [hm]; nofun)
  rw [hn, hm] at h
  cases h

/-- A match is found with any number of steps that is enough for an answer. -/
theorem Matches.outcome_eq (ht : p.Matches spacing s t)
    (hn : p.outcome n spacing s ≠ .exhausted) : p.outcome n spacing s = .matched t := by
  obtain ⟨m, hm⟩ := ht
  rw [outcome_eq_of_ends hn (by rw [hm]; nofun), hm]

/-- Two runs that end can be given the same number of steps. -/
private theorem common_steps {spacing' : Spacing} {s' : State} {o o' : Outcome}
    (ho : o ≠ .exhausted) (ho' : o' ≠ .exhausted)
    (h : ∃ n, p.outcome n spacing s = o) (h' : ∃ n, q.outcome n spacing' s' = o') :
    ∃ n, p.outcome n spacing s = o ∧ q.outcome n spacing' s' = o' := by
  obtain ⟨n, hn⟩ := h
  obtain ⟨m, hm⟩ := h'
  refine ⟨n + m, ?_, ?_⟩
  · rw [outcome_add (by rwa [hn]), hn]
  · rw [Nat.add_comm, outcome_add (by rwa [hm]), hm]

/-! ### Single parts -/

/-- A fixed text that can be taken matches. -/
theorem matches_text {chars : List Char} (h : s.takeText chars = Option.some t) :
    (Pattern.text chars).Matches spacing s t :=
  ⟨1, by rw [outcome_text, h]⟩

/-- A fixed text that cannot be taken fails. -/
theorem fails_text {chars : List Char} (h : s.takeText chars = none) :
    (Pattern.text chars).Fails spacing s :=
  ⟨1, by rw [outcome_text, h]⟩

/-- A class matches a character it holds. -/
theorem matches_one {set : CharClass} {c : Char} {rest : List Char}
    (hs : s.rest = c :: rest) (hc : set.holds c = true) :
    (Pattern.one set).Matches spacing s (s.take c rest) :=
  ⟨1, by simp [outcome_one, hs, hc]⟩

/-- A class fails on every other character, and at the end. -/
theorem fails_one {set : CharClass}
    (h : ∀ c rest, s.rest = c :: rest → set.holds c = false) :
    (Pattern.one set).Fails spacing s := by
  refine ⟨1, ?_⟩
  cases hs : s.rest with
  | nil => simp [outcome_one, hs]
  | cons c rest => simp [outcome_one, hs, h c rest hs]

theorem matches_start (h : s.place.offset = 0) : Pattern.start.Matches spacing s s :=
  ⟨1, by rw [outcome_start, if_pos h]⟩

theorem matches_finish (h : s.rest = []) : Pattern.finish.Matches spacing s s :=
  ⟨1, by rw [outcome_finish, h]⟩

theorem matches_margin (h : s.takeText s.margin.flatten = Option.some t) :
    Pattern.margin.Matches spacing s t :=
  ⟨1, by rw [outcome_margin, h]⟩

theorem fails_margin (h : s.takeText s.margin.flatten = none) :
    Pattern.margin.Fails spacing s :=
  ⟨1, by rw [outcome_margin, h]⟩

theorem matches_outdent {width : List Char} {outer : List (List Char)}
    (h : s.margin = width :: outer) :
    Pattern.outdent.Matches spacing s { s with margin := outer } :=
  ⟨1, by rw [outcome_outdent, h]⟩

/-! ### Compound patterns -/

/-- Two matches, with a skip between them. -/
theorem Matches.seq (hp : p.Matches spacing s t)
    (hq : q.Matches spacing (t.skip spacing) u) :
    (Pattern.seq p q).Matches spacing s u := by
  obtain ⟨n, hpn, hqn⟩ := common_steps (by nofun) (by nofun) hp hq
  exact ⟨n+1, by simp [outcome_seq, hpn, hqn]⟩

/-- A sequence fails with its first part. -/
theorem Fails.seq (hp : p.Fails spacing s) : (Pattern.seq p q).Fails spacing s := by
  obtain ⟨n, hpn⟩ := hp
  exact ⟨n+1, by simp [outcome_seq, hpn]⟩

/-- A sequence fails with its second part. -/
theorem Matches.seq_fails (hp : p.Matches spacing s t)
    (hq : q.Fails spacing (t.skip spacing)) : (Pattern.seq p q).Fails spacing s := by
  obtain ⟨n, hpn, hqn⟩ := common_steps (by nofun) (by nofun) hp hq
  exact ⟨n+1, by simp [outcome_seq, hpn, hqn]⟩

/-- A choice matches as its first part. -/
theorem Matches.choice (hp : p.Matches spacing s t) :
    (Pattern.choice p q).Matches spacing s t := by
  obtain ⟨n, hpn⟩ := hp
  exact ⟨n+1, by simp [outcome_choice, hpn]⟩

/-- A choice matches as its second part where the first fails. -/
theorem Fails.choice (hp : p.Fails spacing s) (hq : q.Matches spacing s t) :
    (Pattern.choice p q).Matches spacing s t := by
  obtain ⟨n, hpn, hqn⟩ := common_steps (by nofun) (by nofun) hp hq
  exact ⟨n+1, by simp [outcome_choice, hpn, hqn]⟩

/-- A choice fails where both parts do. -/
theorem Fails.choice_fails (hp : p.Fails spacing s) (hq : q.Fails spacing s) :
    (Pattern.choice p q).Fails spacing s := by
  obtain ⟨n, hpn, hqn⟩ := common_steps (by nofun) (by nofun) hp hq
  exact ⟨n+1, by simp [outcome_choice, hpn, hqn]⟩

/-- An optional part matches as the part. -/
theorem Matches.opt (hp : p.Matches spacing s t) : (Pattern.opt p).Matches spacing s t := by
  obtain ⟨n, hpn⟩ := hp
  exact ⟨n+1, by simp [outcome_opt, hpn]⟩

/-- An optional part stays where the part fails. -/
theorem Fails.opt (hp : p.Fails spacing s) : (Pattern.opt p).Matches spacing s s := by
  obtain ⟨n, hpn⟩ := hp
  exact ⟨n+1, by simp [outcome_opt, hpn]⟩

/-- A guard fails where what it guards against matches. -/
theorem Matches.absent (hp : p.Matches spacing s t) : (Pattern.absent p).Fails spacing s := by
  obtain ⟨n, hpn⟩ := hp
  exact ⟨n+1, by simp [outcome_absent, hpn]⟩

/-- A guard stays where what it guards against fails. -/
theorem Fails.absent (hp : p.Fails spacing s) : (Pattern.absent p).Matches spacing s s := by
  obtain ⟨n, hpn⟩ := hp
  exact ⟨n+1, by simp [outcome_absent, hpn]⟩

/-- A match of an indentation pushes the text it went over. -/
theorem Matches.indent (hp : p.Matches spacing s t) :
    (Pattern.indent p).Matches spacing s { t with margin := s.textUpTo t :: t.margin } := by
  obtain ⟨n, hpn⟩ := hp
  exact ⟨n+1, by simp [outcome_indent, hpn]⟩

/-- A match of a rule's pattern makes a phrase. -/
theorem Matches.rule {r : Rule}
    (h : r.definition.pattern.Matches (r.inside spacing) (s.openRule r spacing) t) :
    (Pattern.rule r).Matches spacing s (State.afterRule r spacing s t) := by
  obtain ⟨n, hn⟩ := h
  exact ⟨n+1, by simp [outcome_rule, hn]⟩

/-- A rule fails with its pattern. -/
theorem Fails.rule {r : Rule}
    (h : r.definition.pattern.Fails (r.inside spacing) (s.openRule r spacing)) :
    (Pattern.rule r).Fails spacing s := by
  obtain ⟨n, hn⟩ := h
  exact ⟨n+1, by simp [outcome_rule, hn]⟩

/-! ### Repetitions -/

/-- One round of a repetition after another, from the state after a round to
the state after a later one. -/
inductive Rounds (p : Pattern) (spacing : Spacing) : State → State → Prop
  | none (s : State) : Rounds p spacing s s
  | more {s t u : State} (first : p.Matches spacing (s.skip spacing) t)
      (last : Rounds p spacing t u) : Rounds p spacing s u

/-- Rounds after rounds are rounds. -/
theorem Rounds.trans (hst : Rounds p spacing s t) (htu : Rounds p spacing t u) :
    Rounds p spacing s u := by
  induction hst with
  | none => exact htu
  | more first last ih => exact .more first (ih htu)

/-- The loop goes through all rounds and stops before the first that fails. -/
private theorem Rounds.outcomeMore_eq (h : Rounds p spacing s t)
    (hstop : p.Fails spacing (t.skip spacing)) :
    ∃ n, outcomeMore n p spacing s = .matched t := by
  induction h with
  | none s =>
      obtain ⟨n, hn⟩ := hstop
      exact ⟨n+1, by simp [outcomeMore_succ, hn]⟩
  | @more s t u first last ih =>
      obtain ⟨n, hn⟩ := first
      obtain ⟨m, hm⟩ := ih hstop
      refine ⟨n + m + 1, ?_⟩
      rw [outcomeMore_succ, outcome_add (by rw [hn]; nofun), hn, Outcome.andThen_matched]
      rw [Nat.add_comm, outcomeMore_add (by rw [hm]; nofun), hm]

/-- **A repetition takes every round it can.** -/
theorem Rounds.many (hfirst : p.Matches spacing s t) (h : Rounds p spacing t u)
    (hstop : p.Fails spacing (u.skip spacing)) : (Pattern.many p).Matches spacing s u := by
  obtain ⟨n, hn⟩ := hfirst
  obtain ⟨m, hm⟩ := h.outcomeMore_eq hstop
  refine ⟨n + m + 1, ?_⟩
  rw [outcome_many, outcome_add (by rw [hn]; nofun), hn, Outcome.andThen_matched]
  rw [Nat.add_comm, outcomeMore_add (by rw [hm]; nofun), hm]

/-- Where no blanks are skipped, a repetition can be entered at its second
round. -/
theorem Matches.many_cons (hfirst : p.Matches spacing s t) (hskip : t.skip spacing = t)
    (hrest : (Pattern.many p).Matches spacing t u) :
    (Pattern.many p).Matches spacing s u := by
  obtain ⟨n, hn⟩ := hfirst
  obtain ⟨m, hm⟩ := hrest
  have hmore : outcomeMore m p spacing t = .matched u := by
    cases m with
    | zero => cases hm
    | succ m => rwa [outcomeMore_succ, hskip, ← outcome_many]
  refine ⟨n + m + 1, ?_⟩
  rw [outcome_many, outcome_add (by rw [hn]; nofun), hn, Outcome.andThen_matched]
  rw [Nat.add_comm, outcomeMore_add (by rw [hmore]; nofun), hmore]

/-- A repetition stays where its first round fails. -/
theorem Fails.many (hp : p.Fails spacing s) : (Pattern.many p).Matches spacing s s := by
  obtain ⟨n, hpn⟩ := hp
  exact ⟨n+1, by simp [outcome_many, hpn]⟩

end Pattern

end FunctionIR.Grammar
