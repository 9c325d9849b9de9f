import FunctionIR.Proofs.Grammar.Stretches

/-!
# What a match keeps

A match changes a state in few ways: it takes a character, sets the margin,
and opens and closes rules.  A relation between the states before and after
that allows these, and allows one change after another, holds between the ends
of every match (`Kept.of_matched`).  A rule is only closed behind a match of its
pattern, which the relation may need to know (`KeptBehind.of_matched`).

One such relation bounds the places of phrases.  They lie within the text, so
no line and no column is larger than the text is long (`phrases_within`).
-/

namespace FunctionIR.Grammar

/-- The relation allows reading on. -/
structure Advances (R : State → State → Prop) : Prop where
  refl : ∀ s, R s s
  trans : ∀ {s t u}, R s t → R t u → R s u
  take : ∀ {s c rest}, s.rest = c :: rest → R s (s.take c rest)

/-- The relation allows whatever a match does to a state. -/
structure Kept (R : State → State → Prop) : Prop extends Advances R where
  margin : ∀ s margin, R s { s with margin := margin }
  rule : ∀ {r spacing s t}, R (s.openRule r spacing) t → R s (State.afterRule r spacing s t)

/-- The relation allows whatever a match does to a state, where a rule is closed
only behind a match of its pattern. -/
structure KeptBehind (R : State → State → Prop) : Prop extends Advances R where
  margin : ∀ s margin, R s { s with margin := margin }
  rule : ∀ {r spacing s t},
    r.definition.pattern.Matches (r.inside spacing) (s.openRule r spacing) t →
    R (s.openRule r spacing) t → R s (State.afterRule r spacing s t)

namespace Advances

variable {R : State → State → Prop} (hR : Advances R)

include hR

/-- Taking characters one by one keeps the relation. -/
theorem takeText {chars : List Char} {s t : State} (h : s.takeText chars = Option.some t) :
    R s t := by
  induction chars generalizing s with
  | nil =>
      cases h
      exact hR.refl _
  | cons c chars ih =>
      rw [State.takeText] at h
      split at h
      · cases h
      next d rest hrest =>
        split at h
        · exact hR.trans (hR.take hrest) (ih h)
        · cases h

/-- Skipping blanks keeps the relation. -/
theorem skipBlanks (text : List Char) (place : Place) (margin : List (List Char))
    (phrases : List Phrase) :
    R ⟨text, place, margin, phrases⟩
      ⟨(skipBlanks place text).1, (skipBlanks place text).2, margin, phrases⟩ := by
  have htake (c : Char) (rest : List Char) (place : Place) :
      R ⟨c :: rest, place, margin, phrases⟩ ⟨rest, place.after c, margin, phrases⟩ :=
    hR.take rfl
  fun_induction Grammar.skipBlanks place text with
  | case1 place rest ih => exact hR.trans (htake ' ' rest place) ih
  | case2 place rest ih => exact hR.trans (htake '\t' rest place) ih
  | case3 place rest ih =>
      exact hR.trans (htake '\\' _ place) (hR.trans (htake '\n' rest _) ih)
  | case4 place rest ih =>
      exact hR.trans (htake '\\' _ place)
        (hR.trans (htake '\r' _ _) (hR.trans (htake '\n' rest _) ih))
  | case5 place rest _ ih =>
      exact hR.trans (htake '\\' _ place) (hR.trans (htake '\r' rest _) ih)
  | case6 place rest => exact hR.refl _

/-- The skip between parts keeps the relation. -/
theorem skip (s : State) (spacing : Spacing) : R s (s.skip spacing) := by
  cases spacing with
  | loose => exact hR.skipBlanks s.rest s.place s.margin s.phrases
  | tight | token => exact hR.refl s

end Advances

namespace KeptBehind

open Pattern

variable {R : State → State → Prop} (hR : KeptBehind R)

include hR

/-- Both functions at once, by induction on the steps they may take. -/
private theorem matched_aux (n : Nat) :
    (∀ p spacing s t, outcome n p spacing s = .matched t → R s t) ∧
    (∀ p spacing s t, outcomeMore n p spacing s = .matched t → R s t) := by
  -- a pattern without parts makes a single change, the others are matched through their parts
  induction n with
  | zero => exact ⟨fun _ _ _ _ h => (by cases h), fun _ _ _ _ h => (by cases h)⟩
  | succ n ih =>
      obtain ⟨ih, ihMore⟩ := ih
      constructor
      · intro p spacing s t h
        cases p with
        | text chars =>
            rw [outcome_text] at h
            split at h
            next u hu =>
              cases h
              exact hR.takeText hu
            next => cases h
        | one set =>
            rw [outcome_one] at h
            split at h
            next => cases h
            next c rest hs =>
              split at h
              next =>
                cases h
                exact hR.take hs
              next => cases h
        | margin =>
            rw [outcome_margin] at h
            split at h
            next u hu =>
              cases h
              exact hR.takeText hu
            next => cases h
        | start =>
            rw [outcome_start] at h
            split at h <;> cases h
            exact hR.refl s
        | finish =>
            rw [outcome_finish] at h
            split at h <;> cases h
            exact hR.refl s
        | outdent =>
            rw [outcome_outdent] at h
            split at h <;> cases h
            exact hR.margin s _
        | seq first second =>
            rw [outcome_seq] at h
            cases ho : outcome n first spacing s with
            | failed | exhausted => simp [ho] at h
            | matched u =>
                simp only [ho] at h
                exact hR.trans (ih first _ _ _ ho)
                  (hR.trans (hR.skip u spacing) (ih second _ _ _ h))
        | choice first second =>
            rw [outcome_choice] at h
            cases ho : outcome n first spacing s with
            | exhausted => simp [ho] at h
            | matched u => simp only [ho] at h; exact ih first _ _ _ (ho.trans h)
            | failed => simp only [ho] at h; exact ih second _ _ _ h
        | opt part =>
            rw [outcome_opt] at h
            cases ho : outcome n part spacing s with
            | exhausted => simp [ho] at h
            | matched u => simp only [ho] at h; exact ih part _ _ _ (ho.trans h)
            | failed => simp only [ho] at h; cases h; exact hR.refl s
        | many part =>
            rw [outcome_many] at h
            cases ho : outcome n part spacing s with
            | exhausted => simp [ho] at h
            | matched u =>
                simp only [ho] at h
                exact hR.trans (ih part _ _ _ ho) (ihMore part _ _ _ h)
            | failed => simp only [ho] at h; cases h; exact hR.refl s
        | absent part =>
            rw [outcome_absent] at h
            cases ho : outcome n part spacing s with
            | exhausted | matched u => simp [ho] at h
            | failed => simp only [ho] at h; cases h; exact hR.refl s
        | indent part =>
            rw [outcome_indent] at h
            cases ho : outcome n part spacing s with
            | exhausted | failed => simp [ho] at h
            | matched u =>
                simp only [ho] at h
                cases h
                exact hR.trans (ih part _ _ u ho) (hR.margin u _)
        | rule r =>
            rw [outcome_rule] at h
            cases ho : outcome n r.definition.pattern (r.inside spacing)
                (s.openRule r spacing) with
            | exhausted | failed => simp [ho] at h
            | matched u =>
                simp only [ho] at h
                cases h
                exact hR.rule ⟨n, ho⟩ (ih _ _ _ _ ho)
      · intro p spacing s t h
        rw [outcomeMore_succ] at h
        cases ho : outcome n p spacing (s.skip spacing) with
        | exhausted => simp [ho] at h
        | matched u =>
            simp only [ho] at h
            exact hR.trans (hR.skip s spacing) (hR.trans (ih p _ _ _ ho) (ihMore p _ _ _ h))
        | failed => simp only [ho] at h; cases h; exact hR.refl s

/-- **A match keeps** what its single changes keep. -/
theorem of_matched {n : Nat} {p : Pattern} {spacing : Spacing} {s t : State}
    (h : p.outcome n spacing s = .matched t) : R s t :=
  (hR.matched_aux n).1 p spacing s t h

end KeptBehind

/-- A kept relation holds between the state before a match and the state after it. -/
theorem Kept.of_matched {R : State → State → Prop} (hR : Kept R) {n : Nat} {p : Pattern}
    {spacing : Spacing} {s t : State} (h : p.outcome n spacing s = .matched t) : R s t :=
  have hbehind : KeptBehind R :=
    { hR.toAdvances with margin := hR.margin, rule := fun _ hpattern => hR.rule hpattern }
  hbehind.of_matched h

/-! ### Places -/

/-- The phrase and all phrases in it start and stop at places with the
property. -/
inductive Phrase.All (P : Place → Prop) : Phrase → Prop
  | mk {rule : Rule} {start stop : Place} {text : List Char} {parts : List Phrase} :
      P start → P stop → (∀ part ∈ parts, part.All P) → Phrase.All P (.mk rule start stop text parts)

namespace Phrase.All

variable {P : Place → Prop} {phrase : Phrase}

/-- The start of the phrase is one of its places. -/
theorem start (h : phrase.All P) : P phrase.start := by
  cases h with
  | mk hstart _ _ => exact hstart

/-- The end of the phrase is one of its places. -/
theorem stop (h : phrase.All P) : P phrase.stop := by
  cases h with
  | mk _ hstop _ => exact hstop

/-- The places of a part are places of the phrase. -/
theorem parts (h : phrase.All P) : ∀ part ∈ phrase.parts, part.All P := by
  cases h with
  | mk _ _ hparts => exact hparts

end Phrase.All

/-- The place lies within a text of the length: every character before it is
one on its line or starts a line. -/
def Place.Within (length : Nat) (place : Place) : Prop :=
  place.line ≤ place.offset + 1 ∧ place.column ≤ place.offset ∧ place.offset ≤ length

/-- The state is one within a text of the length, with all its phrases. -/
structure State.Within (length : Nat) (s : State) : Prop where
  line : s.place.line ≤ s.place.offset + 1
  column : s.place.column ≤ s.place.offset
  offset : s.place.offset + s.rest.length = length
  phrases : ∀ phrase ∈ s.phrases, phrase.All (Place.Within length)

/-- The place of a state within a text lies within that text. -/
theorem State.Within.place {length : Nat} {s : State} (h : s.Within length) :
    s.place.Within length := ⟨h.line, h.column, by have := h.offset; omega⟩

/-- A match does not leave the text. -/
theorem kept_within (length : Nat) : Kept fun s t => s.Within length → t.Within length where
  refl _ h := h
  trans h h' hs := h' (h hs)
  take {s c rest} hrest hs := by
    have hline := hs.line
    have hcolumn := hs.column
    have hoffset := hs.offset
    rw [hrest, List.length_cons] at hoffset
    refine ⟨?_, ?_, ?_, hs.phrases⟩
    all_goals
      simp only [State.take, Place.after]
      split <;> simp only <;> omega
  margin _ _ hs := ⟨hs.line, hs.column, hs.offset, hs.phrases⟩
  rule {r spacing s t} h hs := by
    have hopen : (s.openRule r spacing).Within length := by
      unfold State.openRule
      split
      · exact ⟨hs.line, hs.column, hs.offset, List.forall_mem_nil _⟩
      · exact hs
    have ht := h hopen
    unfold State.afterRule
    split
    · refine ⟨ht.line, ht.column, ht.offset, ?_⟩
      unfold State.closeRule
      split
      · refine List.forall_mem_cons.mpr ⟨.mk hs.place ht.place fun part hpart => ?_, hs.phrases⟩
        exact ht.phrases part (List.mem_reverse.mp hpart)
      · exact hs.phrases
    · exact ht

/-- **Phrases lie within the text.** -/
theorem phrases_within {rule : Rule} {text : List Char} {s : State} {tried : Attempts}
    (h : rule.matchText text = (.matched s, tried)) :
    ∀ phrase ∈ s.phrases, phrase.All (Place.Within text.length) := by
  have hmatched : (Pattern.rule rule).outcome (stepsFor text.length) .loose (.ofText text) =
      .matched s := congrArg Prod.fst h
  refine ((kept_within text.length).of_matched hmatched ⟨?_, ?_, ?_, List.forall_mem_nil _⟩).phrases
  · exact Nat.le_refl _
  · exact Nat.le_refl _
  · exact Nat.zero_add _

end FunctionIR.Grammar
