import FunctionIR.Proofs.Grammar.Stretches

/-!
# Refusals that can be seen ahead

Often a few characters are enough to see that a pattern will not match.
`Pattern.refuses` decides this from the first characters of a text without
running the pattern on it: what it refuses fails, whatever follows
(`Pattern.fails_of_refuses`).  It may miss a failure, but never claims one
that is not there.

Only characters that are no blanks are looked at, so it does not matter
whether blanks are skipped on the way.
-/

namespace FunctionIR.Grammar

/-- What is known of a text: its first characters, and whether there are no
more. -/
structure Outlook where
  chars : List Char
  ends : Bool
deriving DecidableEq

namespace Outlook

/-- What is known of the text is true. -/
def sees (ahead : Outlook) (text : List Char) : Prop :=
  ∃ more, text = ahead.chars ++ more ∧ (ahead.ends = true → more = [])

/-- What a text begins with is known of it. -/
theorem sees_append (chars more : List Char) : sees ⟨chars, false⟩ (chars ++ more) :=
  ⟨more, rfl, nofun⟩

/-- The first character is known and is a blank or a backslash. -/
def blank (ahead : Outlook) : Bool :=
  match ahead.chars with
  | [] => !ahead.ends
  | c :: _ => c == ' ' || c == '\t' || c == '\\'

/-- The given text cannot come next. -/
def excludes (ends : Bool) : List Char → List Char → Bool
  | _, [] => false
  | [], _ :: _ => ends
  | c :: chars, d :: text => c != d || excludes ends chars text

/-- No character of the set can come next. -/
def excludesOne (ahead : Outlook) (set : CharClass) : Bool :=
  match ahead.chars with
  | [] => ahead.ends
  | c :: _ => !set.holds c

/-- A text that the outlook excludes is not taken. -/
theorem takeText_of_excludes {ends : Bool} {chars : List Char} :
    ∀ {text : List Char} {s : State}, excludes ends chars text = true →
      sees ⟨chars, ends⟩ s.rest → s.takeText text = none := by
  induction chars with
  | nil =>
      intro text s h hs
      obtain ⟨more, hrest, hends⟩ := hs
      cases text with
      | nil => simp [excludes] at h
      | cons d text =>
          have hnil : s.rest = [] := by simpa [hends h] using hrest
          simp [State.takeText, hnil]
  | cons c chars ih =>
      intro text s h hs
      obtain ⟨more, hrest, hends⟩ := hs
      cases text with
      | nil => simp [excludes] at h
      | cons d text =>
          simp only [List.cons_append] at hrest
          simp only [excludes, Bool.or_eq_true, bne_iff_ne, ne_eq] at h
          simp only [State.takeText, hrest]
          split
          next heq =>
            subst heq
            exact ih (h.resolve_left (by simp)) ⟨more, rfl, hends⟩
          next => rfl

/-- A class that the outlook excludes does not hold the next character. -/
theorem excludesOne_sound {ahead : Outlook} {set : CharClass} {text : List Char}
    (h : ahead.excludesOne set = true) (hs : ahead.sees text) :
    ∀ c rest, text = c :: rest → set.holds c = false := by
  intro c rest htext
  obtain ⟨more, hmore, hends⟩ := hs
  rcases ahead with ⟨chars, ends⟩
  cases chars with
  | nil =>
      simp only [excludesOne] at h
      simp [hends h, htext] at hmore
  | cons d chars =>
      simp only [htext, List.cons_append, List.cons.injEq] at hmore
      simpa [excludesOne, hmore.1] using h

/-- Blanks are not skipped where none come next. -/
theorem skip_eq {ahead : Outlook} {s : State} (hblank : ahead.blank = false)
    (hs : ahead.sees s.rest) (spacing : Spacing) : (s.skip spacing).rest = s.rest := by
  obtain ⟨more, hmore, hends⟩ := hs
  rcases ahead with ⟨chars, ends⟩
  cases spacing with
  | tight | token => rfl
  | loose =>
      rw [State.skip_rest]
      cases chars with
      | nil =>
          simp only [blank, Bool.not_eq_false'] at hblank
          simp [hmore, hends hblank]
      | cons c chars =>
          simp only [blank, Bool.or_eq_false_iff, beq_eq_false_iff_ne] at hblank
          rw [hmore, List.cons_append, clear_cons hblank.1.1 hblank.1.2 hblank.2]

end Outlook

namespace Pattern

/-- Whether the pattern can be seen to fail.  A part that must be absent,
is optional or repeated, and is itself refused, reads nothing and hands on to
what comes after it. -/
def refuses : Nat → Pattern → Outlook → Bool
  | 0, _, _ => false
  | n+1, p, ahead =>
    match p with
    | .text chars => Outlook.excludes ahead.ends ahead.chars chars
    | .one set => ahead.excludesOne set
    | .seq (.absent p) q | .seq (.opt p) q | .seq (.many p) q =>
      refuses n p ahead && refuses n q ahead
    | .seq p _ => refuses n p ahead
    | .choice p q => refuses n p ahead && refuses n q ahead
    | .rule r => refuses n r.definition.pattern ahead
    | _ => false

/-- **What is refused fails**, under any spacing. -/
theorem fails_of_refuses {n : Nat} {p : Pattern} {ahead : Outlook} {s : State}
    (h : p.refuses n ahead = true) (hblank : ahead.blank = false)
    (hs : ahead.sees s.rest) (spacing : Spacing) : p.Fails spacing s := by
  fun_induction refuses n p ahead generalizing s spacing with
  | case1 => cases h
  | case2 ahead n chars => exact fails_text (Outlook.takeText_of_excludes h hs)
  | case3 ahead n set => exact fails_one (Outlook.excludesOne_sound h hs)
  | case4 ahead n p q ihp ihq =>
      simp only [Bool.and_eq_true] at h
      refine (ihp h.1 hblank hs spacing).absent.seq_fails (ihq h.2 hblank ?_ spacing)
      rwa [Outlook.skip_eq hblank hs]
  | case5 ahead n p q ihp ihq =>
      simp only [Bool.and_eq_true] at h
      refine (ihp h.1 hblank hs spacing).opt.seq_fails (ihq h.2 hblank ?_ spacing)
      rwa [Outlook.skip_eq hblank hs]
  | case6 ahead n p q ihp ihq =>
      simp only [Bool.and_eq_true] at h
      refine (ihp h.1 hblank hs spacing).many.seq_fails (ihq h.2 hblank ?_ spacing)
      rwa [Outlook.skip_eq hblank hs]
  | case7 ahead n p q _ _ _ ih => exact (ih h hblank hs spacing).seq
  | case8 ahead n p q ihp ihq =>
      simp only [Bool.and_eq_true] at h
      exact (ihp h.1 hblank hs spacing).choice_fails (ihq h.2 hblank hs spacing)
  | case9 ahead n r ih =>
      apply Fails.rule
      apply ih h hblank
      simp only [State.openRule]
      split <;> exact hs
  | case10 => cases h

end Pattern

end FunctionIR.Grammar
