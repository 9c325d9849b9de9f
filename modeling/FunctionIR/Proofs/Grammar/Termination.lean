import FunctionIR.Proofs.Grammar.Invariant
import FunctionIR.Proofs.Grammar.Tokens

/-!
# Every text gets an answer

Running out of steps is not an answer, and `stepsFor` grants steps enough:
no text makes the matcher run out of them (`matchText_ends`).

A match never gives text back, so what is left of the text is always a suffix
of it (`suffix_of_matched`).  Between two characters read, only so many
patterns can be nested in each other: a pattern **settles** within a number of
steps if, without reading anything, it comes to an end within that many
(`Pattern.settles`), which asks that it be not left recursive and repeat no
part that can match nothing.  Every pattern of the grammar settles within
`nesting` steps, so a text of length `n` needs at most `n + 1` times as many.
-/

namespace FunctionIR.Grammar

/-- Skipping blanks leaves a suffix. -/
theorem State.skip_suffix (s : State) (spacing : Spacing) :
    (s.skip spacing).rest <:+ s.rest := by
  cases spacing with
  | tight | token => exact List.suffix_rfl
  | loose =>
      rw [State.skip_rest]
      exact clear_suffix s.rest

/-- Opening a rule leaves the text alone. -/
theorem State.openRule_rest (r : Rule) (spacing : Spacing) (s : State) :
    (s.openRule r spacing).rest = s.rest := by
  unfold State.openRule
  split <;> rfl

theorem State.afterRule_rest (r : Rule) (spacing : Spacing) (s t : State) :
    (State.afterRule r spacing s t).rest = t.rest := by
  unfold State.afterRule State.closeRule
  split <;> rfl

namespace Pattern

variable {p q : Pattern} {spacing : Spacing} {s t : State} {n : Nat}

/-- A match leaves an end of the text. -/
theorem kept_suffix : Kept fun s t => t.rest <:+ s.rest where
  refl _ := List.suffix_rfl
  trans h h' := h'.trans h
  take {s c rest} hrest := by
    rw [hrest]
    exact List.suffix_cons c rest
  margin _ _ := List.suffix_rfl
  rule {r spacing s t} h := by
    rw [State.afterRule_rest, ← State.openRule_rest r spacing s]
    exact h

/-- **A match gives nothing back.**  What it leaves is a suffix of what there
was. -/
theorem suffix_of_matched (h : p.outcome n spacing s = .matched t) : t.rest <:+ s.rest :=
  kept_suffix.of_matched h

/-- A match of the pattern can be seen to read something. -/
def reads : Nat → Pattern → Bool
  | 0, _ => false
  | n+1, p =>
    match p with
    | .text chars => !chars.isEmpty
    | .one _ => true
    | .seq first second => reads n first || reads n second
    | .choice first second => reads n first && reads n second
    | .indent part => reads n part
    | .rule r => reads n r.definition.pattern
    | _ => false

/-- Without steps there is no answer. -/
theorem exists_succ (h : p.outcome n spacing s ≠ .exhausted) : ∃ k, n = k+1 := by
  cases n with
  | zero => exact absurd rfl h
  | succ k => exact ⟨k, rfl⟩

/-- What is seen to read something leaves less text. -/
theorem length_lt_of_reads {d : Nat} (hreads : p.reads d = true)
    (h : p.outcome n spacing s = .matched t) : t.rest.length < s.rest.length := by
  fun_induction reads d p generalizing s t n spacing with
  | case1 | case8 => cases hreads
  | case2 d chars =>
      obtain ⟨n, rfl⟩ := exists_succ (by rw [h]; nofun)
      rw [outcome_text] at h
      split at h
      next u hu =>
        cases h
        obtain ⟨rest, hrest, rfl⟩ := State.takeText_eq_some_iff.mp hu
        rw [hrest, State.past_rest, List.length_append]
        have := List.length_pos_iff.mpr (by simpa using hreads : chars ≠ [])
        omega
      next => cases h
  | case3 d set =>
      obtain ⟨n, rfl⟩ := exists_succ (by rw [h]; nofun)
      rw [outcome_one] at h
      split at h
      next => cases h
      next c rest hs =>
        split at h
        next => cases h; simp [hs, State.take]
        next => cases h
  | case4 d first second ihf ihs =>
      obtain ⟨n, rfl⟩ := exists_succ (by rw [h]; nofun)
      rw [outcome_seq] at h
      cases ho : outcome n first spacing s with
      | failed | exhausted => simp [ho] at h
      | matched u =>
          simp only [ho] at h
          have hskip := (State.skip_suffix u spacing).length_le
          simp only [Bool.or_eq_true] at hreads
          rcases hreads with hf | hs
          · have hfirst := ihf hf ho
            have hsecond := (suffix_of_matched h).length_le
            omega
          · have hfirst := (suffix_of_matched ho).length_le
            have hsecond := ihs hs h
            omega
  | case5 d first second ihf ihs =>
      obtain ⟨n, rfl⟩ := exists_succ (by rw [h]; nofun)
      rw [outcome_choice] at h
      simp only [Bool.and_eq_true] at hreads
      cases ho : outcome n first spacing s with
      | exhausted => simp [ho] at h
      | matched u => simp only [ho] at h; cases h; exact ihf hreads.1 ho
      | failed => simp only [ho] at h; exact ihs hreads.2 h
  | case6 d part ih =>
      obtain ⟨n, rfl⟩ := exists_succ (by rw [h]; nofun)
      rw [outcome_indent] at h
      cases ho : outcome n part spacing s with
      | exhausted | failed => simp [ho] at h
      | matched u =>
          simp only [ho] at h
          cases h
          have hpart := ih hreads ho
          exact hpart
  | case7 d r ih =>
      obtain ⟨n, rfl⟩ := exists_succ (by rw [h]; nofun)
      rw [outcome_rule] at h
      cases ho : outcome n r.definition.pattern (r.inside spacing)
          (s.openRule r spacing) with
      | exhausted | failed => simp [ho] at h
      | matched u =>
          simp only [ho] at h
          cases h
          rw [State.afterRule_rest, ← State.openRule_rest r spacing s]
          exact ih hreads ho

/-- How deep patterns can be nested without anything being read. -/
def nesting : Nat := 96

/-- The pattern comes to an end within so many steps, not counting those after
something was read. -/
def settles : Nat → Pattern → Bool
  | 0, _ => false
  | n+1, p =>
    match p with
    | .seq first second => settles n first && (reads nesting first || settles n second)
    | .choice first second => settles n first && settles n second
    | .opt part | .absent part | .indent part => settles n part
    | .many part => settles n part && reads nesting part
    | .rule r => settles n r.definition.pattern
    | _ => true

/-- Every part of the pattern settles. -/
def regular (p : Pattern) : Bool :=
  settles nesting p && match p with
    | .seq first second | .choice first second => regular first && regular second
    | .opt part | .absent part | .indent part | .many part => regular part
    | _ => true

/-- A regular pattern settles. -/
theorem settles_of_regular (h : p.regular = true) : p.settles nesting = true := by
  unfold regular at h
  simp only [Bool.and_eq_true] at h
  exact h.1

/-- **The grammar is regular**: it is not left recursive, and repeats nothing
that can match nothing. -/
theorem regular_grammar :
    ∀ r ∈ Rule.all, (Pattern.rule r).regular = true ∧ r.definition.pattern.regular = true := by
  decide +kernel

/-- On texts of the length, patterns that settle get an answer. -/
private def Answers (length : Nat) : Prop :=
  ∀ k p spacing s n, s.rest.length ≤ length → settles k p = true → regular p = true →
    nesting * length + k ≤ n → outcome n p spacing s ≠ .exhausted

/-- If every shorter text gets an answer, so do the rounds of a repetition. -/
private theorem outcomeMore_ends {length : Nat} (h : ∀ l ≤ length, Answers l)
    (hreads : p.reads nesting = true) (hp : p.regular = true) {m : Nat}
    (hs : s.rest.length ≤ length) (hm : nesting * length + nesting < m) :
    outcomeMore m p spacing s ≠ .exhausted := by
  induction length generalizing s m with
  | zero =>
      obtain ⟨m, rfl⟩ : ∃ k, m = k+1 := ⟨m-1, by omega⟩
      have hskip := (State.skip_suffix s spacing).length_le
      have hround := h 0 (Nat.le_refl _) nesting p spacing (s.skip spacing) m (by omega)
        (settles_of_regular hp) hp (by omega)
      rw [outcomeMore_succ]
      cases ho : outcome m p spacing (s.skip spacing) with
      | exhausted => exact absurd ho hround
      | failed => nofun
      | matched u =>
          have := length_lt_of_reads hreads ho
          omega
  | succ length ih =>
      obtain ⟨m, rfl⟩ : ∃ k, m = k+1 := ⟨m-1, by omega⟩
      have hskip := (State.skip_suffix s spacing).length_le
      have hround := h (length+1) (Nat.le_refl _) nesting p spacing (s.skip spacing) m (by omega)
        (settles_of_regular hp) hp (by omega)
      rw [outcomeMore_succ]
      cases ho : outcome m p spacing (s.skip spacing) with
      | exhausted => exact absurd ho hround
      | failed => nofun
      | matched u =>
          have hlt := length_lt_of_reads hreads ho
          exact ih (fun l hl => h l (by omega)) (by omega)
            (by simp only [nesting] at hm ⊢; omega)

/-- Every pattern answers within a number of steps the length of the text sets. -/
private theorem answers (length : Nat) : Answers length := by
  -- the outer induction is on the length of the text, the inner one on how deep patterns may
  -- be entered before a character is read
  induction length using Nat.strongRecOn with
  | _ length ih =>
  intro k p spacing s n hs hk hp hn
  induction k generalizing p spacing s n with
  | zero => cases hk
  | succ k ihk =>
      obtain ⟨n, rfl⟩ : ∃ m, n = m+1 := ⟨n-1, by omega⟩
      cases p with
      | text =>
          rw [outcome_text]
          split <;> nofun
      | one =>
          rw [outcome_one]
          split
          · nofun
          · split <;> nofun
      | start =>
          rw [outcome_start]
          split <;> nofun
      | finish =>
          rw [outcome_finish]
          split <;> nofun
      | margin =>
          rw [outcome_margin]
          split <;> nofun
      | outdent =>
          rw [outcome_outdent]
          split <;> nofun
      | seq first second =>
          simp only [settles, Bool.and_eq_true, Bool.or_eq_true] at hk
          unfold regular at hp
          simp only [Bool.and_eq_true] at hp
          have hfirst := ihk first spacing s n hs hk.1 hp.2.1 (by omega)
          rw [outcome_seq]
          cases ho : outcome n first spacing s with
          | exhausted => exact absurd ho hfirst
          | failed => nofun
          | matched t =>
              have hskip := (State.skip_suffix t spacing).length_le
              -- either the first part has read something, or the second one settles by itself
              rcases hk.2 with hreads | hsecond
              · have hlt := length_lt_of_reads hreads ho
                refine ih (length-1) (by omega) nesting second spacing _ n (by omega)
                  (settles_of_regular hp.2.2) hp.2.2 ?_
                simp only [nesting] at hn ⊢
                omega
              · have hle := (suffix_of_matched ho).length_le
                exact ihk second spacing _ n (by omega) hsecond hp.2.2 (by omega)
      | choice first second =>
          simp only [settles, Bool.and_eq_true] at hk
          unfold regular at hp
          simp only [Bool.and_eq_true] at hp
          have hfirst := ihk first spacing s n hs hk.1 hp.2.1 (by omega)
          rw [outcome_choice]
          cases ho : outcome n first spacing s with
          | exhausted => exact absurd ho hfirst
          | failed => exact ihk second spacing s n hs hk.2 hp.2.2 (by omega)
          | matched t => nofun
      | opt part =>
          unfold regular at hp
          simp only [Bool.and_eq_true] at hp
          have hpart := ihk part spacing s n hs hk hp.2 (by omega)
          rw [outcome_opt]
          cases ho : outcome n part spacing s with
          | exhausted => exact absurd ho hpart
          | failed | matched => nofun
      | absent part =>
          unfold regular at hp
          simp only [Bool.and_eq_true] at hp
          have hpart := ihk part spacing s n hs hk hp.2 (by omega)
          rw [outcome_absent]
          cases ho : outcome n part spacing s with
          | exhausted => exact absurd ho hpart
          | failed | matched => nofun
      | indent part =>
          unfold regular at hp
          simp only [Bool.and_eq_true] at hp
          have hpart := ihk part spacing s n hs hk hp.2 (by omega)
          rw [outcome_indent]
          cases ho : outcome n part spacing s with
          | exhausted => exact absurd ho hpart
          | failed | matched => nofun
      | many part =>
          simp only [settles, Bool.and_eq_true] at hk
          unfold regular at hp
          simp only [Bool.and_eq_true] at hp
          have hpart := ihk part spacing s n hs hk.1 hp.2 (by omega)
          rw [outcome_many]
          cases ho : outcome n part spacing s with
          | exhausted => exact absurd ho hpart
          | failed => nofun
          | matched t =>
              -- each round reads a character, so the rounds after it have a shorter text
              have hlt := length_lt_of_reads hk.2 ho
              have hpos : k ≠ 0 := by
                rintro rfl
                cases hk.1
              have hbelow : ∀ l ≤ length - 1, _ := fun l hl => ih l (by omega)
              refine outcomeMore_ends hbelow hk.2 hp.2 (by omega) ?_
              simp only [nesting] at hn ⊢
              omega
      | rule r =>
          have hpart := ihk r.definition.pattern (r.inside spacing) (s.openRule r spacing) n
            (by rwa [State.openRule_rest]) hk (regular_grammar r r.mem_all).2 (by omega)
          rw [outcome_rule]
          cases ho : outcome n r.definition.pattern (r.inside spacing)
              (s.openRule r spacing) with
          | exhausted => exact absurd ho hpart
          | failed | matched => nofun

/-- A regular pattern matches or fails. -/
theorem matches_or_fails (hp : p.regular = true) (spacing : Spacing) (s : State) :
    (∃ t, p.Matches spacing s t) ∨ p.Fails spacing s := by
  have hends := answers s.rest.length nesting p spacing s (nesting * s.rest.length + nesting)
    (Nat.le_refl _) (settles_of_regular hp) hp (Nat.le_refl _)
  cases ho : p.outcome (nesting * s.rest.length + nesting) spacing s with
  | matched t => exact .inl ⟨t, _, ho⟩
  | failed => exact .inr ⟨_, ho⟩
  | exhausted => exact absurd ho hends

end Pattern

/-- **Every text gets an answer** from every rule. -/
theorem Rule.matchText_ends (r : Rule) (text : List Char) :
    (r.matchText text).1 ≠ .exhausted := by
  have hsize : 48 ≤ size := by decide
  have hr := (Pattern.regular_grammar r r.mem_all).1
  refine Pattern.answers text.length Pattern.nesting (.rule r) .loose (.ofText text) _ (Nat.le_refl _)
    (Pattern.settles_of_regular hr) hr ?_
  calc Pattern.nesting * text.length + Pattern.nesting
      = (text.length + 1) * Pattern.nesting := by rw [Nat.succ_mul, Nat.mul_comm]
    _ ≤ stepsFor text.length := Nat.mul_le_mul_left _ (by simp only [Pattern.nesting]; omega)

/-- What a rule is shown to match of a text is what it is found to match. -/
theorem Rule.matchText_of_matches {r : Rule} {text : List Char} {t : State}
    (h : (Pattern.rule r).Matches .loose (.ofText text) t) :
    (r.matchText text).1 = .matched t :=
  h.outcome_eq (r.matchText_ends text)

end FunctionIR.Grammar
