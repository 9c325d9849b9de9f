import FunctionIR.Proofs.Grammar.Inversion

/-!
# Phrases found before

A match puts the phrases that it finds on top of those found before, and does
not look at these.  So a match from a state with phrases is the match from the
same state without them, with the phrases put back below
(`Pattern.outcome_onto`).
-/

namespace FunctionIR.Grammar

/-- The state with the phrases below those found. -/
def State.onto (base : List Phrase) (s : State) : State := { s with phrases := s.phrases ++ base }

/-- The outcome with the phrases below those found. -/
def Outcome.onto (base : List Phrase) : Outcome → Outcome
  | .matched t => .matched (t.onto base)
  | .failed => .failed
  | .exhausted => .exhausted

section

variable {base : List Phrase} {s t : State}

/-- Steps with more phrases below go on as they would without them. -/
theorem Outcome.onto_andThen {o o' otherwise otherwise' : Outcome} {next next' : State → Outcome}
    (ho : o' = o.onto base) (hnext : ∀ t, next' (t.onto base) = (next t).onto base)
    (hother : otherwise' = otherwise.onto base) :
    o'.andThen next' otherwise' = (o.andThen next otherwise).onto base := by
  subst ho hother
  cases o with
  | matched t => exact hnext t
  | failed => rfl
  | exhausted => rfl

@[simp]
theorem State.onto_rest : (s.onto base).rest = s.rest := rfl

@[simp]
theorem State.onto_place : (s.onto base).place = s.place := rfl

@[simp]
theorem State.onto_margin : (s.onto base).margin = s.margin := rfl

/-- A skip leaves the phrases below alone. -/
theorem State.skip_onto (spacing : Spacing) :
    (s.onto base).skip spacing = (s.skip spacing).onto base := by
  cases spacing <;> rfl

/-- Taking characters leaves the phrases below alone. -/
theorem State.takeText_onto (chars : List Char) :
    (s.onto base).takeText chars = (s.takeText chars).map (State.onto base) := by
  induction chars generalizing s with
  | nil => rfl
  | cons c chars ih =>
      rw [State.takeText, State.takeText, State.onto_rest]
      cases s.rest with
      | nil => rfl
      | cons d rest =>
          dsimp only
          split
          · exact ih (s := s.take d rest)
          · rfl

end

namespace Pattern

variable {base : List Phrase} {s t : State} {p : Pattern} {spacing : Spacing}

/-- Both functions at once, by induction on the steps they may take. -/
private theorem outcome_onto_aux (n : Nat) :
    (∀ p spacing s, outcome n p spacing (s.onto base) = (outcome n p spacing s).onto base) ∧
    (∀ p spacing s, outcomeMore n p spacing (s.onto base) = (outcomeMore n p spacing s).onto base) := by
  induction n with
  | zero => exact ⟨fun _ _ _ => rfl, fun _ _ _ => rfl⟩
  | succ n ih =>
      obtain ⟨ih, ihMore⟩ := ih
      constructor
      · intro p spacing s
        cases p with
        | text chars =>
            rw [outcome_text, outcome_text, State.takeText_onto]
            cases s.takeText chars <;> rfl
        | margin =>
            rw [outcome_margin, outcome_margin, State.onto_margin, State.takeText_onto]
            cases s.takeText s.margin.flatten <;> rfl
        | one set =>
            rw [outcome_one, outcome_one, State.onto_rest]
            cases s.rest with
            | nil => rfl
            | cons c rest =>
                dsimp only
                split <;> rfl
        | start =>
            rw [outcome_start, outcome_start, State.onto_place]
            split <;> rfl
        | finish =>
            rw [outcome_finish, outcome_finish, State.onto_rest]
            cases s.rest <;> rfl
        | outdent =>
            rw [outcome_outdent, outcome_outdent, State.onto_margin]
            cases s.margin <;> rfl
        | seq p q =>
            rw [outcome_seq, outcome_seq]
            refine Outcome.onto_andThen (ih p spacing s) (fun t => ?_) rfl
            rw [State.skip_onto]
            exact ih q spacing _
        | choice p q =>
            rw [outcome_choice, outcome_choice]
            exact Outcome.onto_andThen (ih p spacing s) (fun _ => rfl) (ih q spacing s)
        | opt p =>
            rw [outcome_opt, outcome_opt]
            exact Outcome.onto_andThen (ih p spacing s) (fun _ => rfl) rfl
        | many p =>
            rw [outcome_many, outcome_many]
            exact Outcome.onto_andThen (ih p spacing s) (ihMore p spacing) rfl
        | absent p =>
            rw [outcome_absent, outcome_absent]
            exact Outcome.onto_andThen (ih p spacing s) (fun _ => rfl) rfl
        | indent p =>
            rw [outcome_indent, outcome_indent]
            exact Outcome.onto_andThen (ih p spacing s) (fun _ => rfl) rfl
        | rule r =>
            rw [outcome_rule, outcome_rule]
            cases hvisible : r.visible spacing with
            | true =>
                -- Inside the rule there are no phrases from before.
                rw [State.openRule_of_visible hvisible, State.openRule_of_visible hvisible]
                change Outcome.andThen (outcome n r.definition.pattern (r.inside spacing)
                  { s with phrases := [] }) _ _ = _
                cases outcome n r.definition.pattern (r.inside spacing) { s with phrases := [] } with
                | failed => rfl
                | exhausted => rfl
                | matched t =>
                    change Outcome.matched (State.afterRule r spacing (s.onto base) t) =
                      .matched ((State.afterRule r spacing s t).onto base)
                    simp only [State.afterRule, hvisible, if_true, State.closeRule, State.onto]
                    split <;> rfl
            | false =>
                simp only [State.openRule, State.afterRule, hvisible, Bool.false_eq_true, if_false]
                exact Outcome.onto_andThen (ih _ _ s) (fun _ => rfl) rfl
      · intro p spacing s
        rw [outcomeMore_succ, outcomeMore_succ, State.skip_onto]
        exact Outcome.onto_andThen (ih p spacing _) (ihMore p spacing) rfl

/-- **A match does not look at the phrases found before.** -/
theorem outcome_onto (n : Nat) (p : Pattern) (spacing : Spacing) (s : State) :
    p.outcome n spacing (s.onto base) = (p.outcome n spacing s).onto base :=
  (outcome_onto_aux n).1 p spacing s

/-- A match goes through above any phrases. -/
theorem Matches.onto (h : p.Matches spacing s t) (base : List Phrase) :
    p.Matches spacing (s.onto base) (t.onto base) := by
  obtain ⟨n, hn⟩ := h
  exact ⟨n, by rw [outcome_onto, hn]; rfl⟩

/-- So the phrases found before can be left out. -/
theorem Matches.of_onto (h : p.Matches spacing (s.onto base) t) :
    ∃ u, p.Matches spacing s u ∧ t = u.onto base := by
  obtain ⟨n, hn⟩ := h
  rw [outcome_onto] at hn
  cases ho : p.outcome n spacing s with
  | matched u =>
      rw [ho] at hn
      cases hn
      exact ⟨u, ⟨n, ho⟩, rfl⟩
  | failed =>
      rw [ho] at hn
      cases hn
  | exhausted =>
      rw [ho] at hn
      cases hn

end Pattern

end FunctionIR.Grammar
