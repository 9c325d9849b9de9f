import FunctionIR.Proofs.Grammar.Origins

/-!
# Escapes

Two parts of the program split the text of a string at its backslashes.  The rule
of strings looks for the closing quote: round by round it takes a backslash with
the character behind it, or any other character.  The decoder then resolves the
escapes.  It resolves the text stretch by stretch (`unescape_eq_pairs`), and the
stretches are those of the rounds (`readInPairs_of_matches`).  So a quote that the
rule passes over is one that the decoder reads behind its backslash, and no
backslash is left over at the end.
-/

namespace FunctionIR

open Grammar Grammar.Pattern

/-! ### What the decoder pairs -/

namespace Reading

/-- The text cut into what is resolved at once: a backslash with the character
behind it, or a character alone. -/
def pairs : List Char → List (List Char)
  | [] => []
  | '\\' :: c :: rest => ['\\', c] :: pairs rest
  | c :: rest => [c] :: pairs rest

/-- A stretch that is resolved at once, and leaves no backslash alone. -/
def IsPair (stretch : List Char) : Prop :=
  (∃ c, stretch = ['\\', c]) ∨ ∃ c, stretch = [c] ∧ c ≠ '\\'

/-- A plain character is a pair by itself. -/
theorem pairs_plain {c : Char} (h : c ≠ '\\') (rest : List Char) :
    pairs (c :: rest) = [c] :: pairs rest := by
  rw [pairs]
  intro d more hc
  exact absurd hc h

/-- Stretches put together are cut into themselves. -/
theorem pairs_flatten {stretches : List (List Char)} (h : ∀ stretch ∈ stretches, IsPair stretch) :
    pairs stretches.flatten = stretches := by
  induction stretches with
  | nil => rfl
  | cons stretch stretches ih =>
      have hrest := ih fun other ho => h other (List.mem_cons_of_mem _ ho)
      rcases h stretch List.mem_cons_self with ⟨c, rfl⟩ | ⟨c, rfl, hc⟩
      · rw [List.flatten_cons, List.cons_append, List.singleton_append, pairs, hrest]
      · rw [List.flatten_cons, List.singleton_append, pairs_plain hc, hrest]

/-- A backslash stands with the character behind it. -/
theorem unescape_slash (c : Char) (rest : List Char) :
    unescape ('\\' :: c :: rest) = unescape ['\\', c] ++ unescape rest := by
  generalize htext : '\\' :: c :: rest = text
  fun_cases unescape text with
  | case11 d more _ _ _ _ _ _ _ _ hpair =>
      obtain ⟨rfl, rfl⟩ := List.cons.inj htext
      exact absurd rfl (hpair c rest rfl)
  | _ => simp_all [unescape]

/-- A plain character stands for itself. -/
theorem unescape_plain {c : Char} (h : c ≠ '\\') (rest : List Char) :
    unescape (c :: rest) = unescape [c] ++ unescape rest := by
  have hone : ∀ more, unescape (c :: more) = c :: unescape more := by
    intro more
    rw [unescape] <;> simp_all
  rw [hone, hone]
  rfl

/-- **The decoder resolves a text stretch by stretch.** -/
theorem unescape_eq_pairs (text : List Char) :
    unescape text = (pairs text).flatMap unescape := by
  fun_induction pairs text with
  | case1 => rfl
  | case2 c rest ih => rw [unescape_slash, ih, List.flatMap_cons]
  | case3 c rest hpair ih =>
      by_cases hc : c = '\\'
      · -- only at the end is a backslash alone
        subst hc
        cases rest with
        | nil => rfl
        | cons d more => exact absurd rfl (hpair d more rfl)
      · rw [unescape_plain hc, ih, List.flatMap_cons]

end Reading

/-! ### What the scanner pairs -/

namespace Grammar.Pattern

variable {p : Pattern} {s t : State} {spacing : Spacing}

/-- The rounds of a repetition, and the text that each of them takes. -/
inductive RoundTexts (p : Pattern) (spacing : Spacing) : State → State → List (List Char) → Prop
  | none (s : State) : RoundTexts p spacing s s []
  | more {s t u : State} {texts : List (List Char)} (first : p.Matches spacing (s.skip spacing) t)
      (later : RoundTexts p spacing t u texts) :
      RoundTexts p spacing s u ((s.skip spacing).textUpTo t :: texts)

/-- Rounds of a pattern take one text each. -/
theorem Rounds.texts (h : p.Rounds spacing s t) : ∃ texts, p.RoundTexts spacing s t texts := by
  induction h with
  | none s => exact ⟨[], .none s⟩
  | more first last ih =>
      obtain ⟨texts, hlater⟩ := ih
      exact ⟨_ :: texts, .more first hlater⟩

/-- Without blanks between them the texts of the rounds are all of the text. -/
theorem RoundTexts.rest_eq {texts : List (List Char)} (h : p.RoundTexts .token s t texts) :
    s.rest = texts.flatten ++ t.rest := by
  induction h with
  | none => rfl
  | more first later ih =>
      rw [List.flatten_cons, List.append_assoc, ← ih]
      exact first.rest_eq

/-- What stands between the quotes of a string, piece by piece. -/
def stringPart (quote : Pattern) : Pattern :=
  firstOf [
    parts [lit "\\", .one .any],
    parts [.absent (firstOf [quote, lit "\\", newline]), .one .any]]

/-- A piece of a string is a backslash with a character, or another
character. -/
theorem Matches.isPair {quote : Pattern} (h : (stringPart quote).Matches .token s t) :
    Reading.IsPair (s.textUpTo t) := by
  have htext := h.rest_eq
  rcases matches_choice_iff.mp h with h | ⟨hslash, h⟩
  · obtain ⟨u, hu, hany⟩ := matches_seq_iff.mp h
    obtain ⟨rest, hs, rfl⟩ := matches_text_iff.mp hu
    obtain ⟨c, more, hrest, -, rfl⟩ := matches_one_iff.mp hany
    simp only [State.skip_token, State.past_rest] at hrest htext
    rw [hs, hrest] at htext
    exact .inl ⟨c, List.append_cancel_right htext.symm⟩
  · obtain ⟨u, hu, hany⟩ := matches_seq_iff.mp h
    obtain ⟨hnone, rfl⟩ := matches_absent_iff.mp hu
    obtain ⟨c, more, hrest, -, rfl⟩ := matches_one_iff.mp hany
    simp only [State.skip_token, State.past_rest] at hrest htext
    rw [hrest] at htext
    refine .inr ⟨c, (List.append_left_inj more).mp htext.symm, ?_⟩
    rintro rfl
    have hmatch : (lit "\\").Matches .token u (u.past ['\\'] more) :=
      matches_text_iff.mpr ⟨more, hrest, rfl⟩
    obtain ⟨-, hlater⟩ := fails_choice_iff.mp hnone
    exact hmatch.not_fails (fails_choice_iff.mp hlater).1

/-- Each part of a string is one pair. -/
theorem RoundTexts.isPair {quote : Pattern} {texts : List (List Char)}
    (h : (stringPart quote).RoundTexts .token s t texts) : ∀ text ∈ texts, Reading.IsPair text := by
  induction h with
  | none => exact fun _ hmem => absurd hmem List.not_mem_nil
  | more first later ih => exact List.forall_mem_cons.mpr ⟨first.isPair, ih⟩

end Grammar.Pattern

namespace Printing

/-- The text of the quote. -/
def Quote.word : Quote → String
  | .double => "\""
  | .single => "'"

/-- A quote is one character. -/
theorem Quote.toList_word (quote : Quote) : quote.word.toList = [quote.char] := by
  cases quote <;> rfl

/-- From the one state to the other a string is read whose text between the
quotes is the body.  Between the quotes the rounds of its rule take the stretches
that the decoder resolves at once, and none of these is a backslash alone. -/
structure ReadInPairs (quote : Quote) (body : List Char) (s t : State) : Prop where
  text : s.textUpTo t = quote.char :: (body ++ [quote.char])
  rounds : ∃ opened closed : State,
    s.rest = quote.char :: opened.rest ∧ closed.rest = quote.char :: t.rest ∧
    (stringPart (lit quote.word)).RoundTexts .token opened closed (Reading.pairs body) ∧
    (stringPart (lit quote.word)).Fails .token closed
  value : Reading.stringValue (s.textUpTo t) =
    String.ofList ((Reading.pairs body).flatMap Reading.unescape)
  whole : ∀ stretch ∈ Reading.pairs body, Reading.IsPair stretch

/-- **The scanner and the decoder pair alike.** -/
theorem readInPairs_of_matches {spacing : Spacing} {s t : State}
    (h : (Pattern.rule .string).Matches spacing s t) : ∃ quote body, ReadInPairs quote body s t := by
  have hwhole := h.rest_eq
  obtain ⟨u, hu, ht⟩ := matches_rule_iff.mp h
  have hquoted : ∃ quote : Quote,
      (stringIn (lit quote.word)).Matches .token (s.openRule .string spacing) u := by
    rcases matches_choice_iff.mp hu with h | ⟨-, h⟩
    · exact ⟨.double, h⟩
    · exact ⟨.single, h⟩
  obtain ⟨quote, hquoted⟩ := hquoted
  obtain ⟨v, hv, hlater⟩ := matches_seq_iff.mp hquoted
  obtain ⟨closed, hmany, hclose⟩ := matches_seq_iff.mp hlater
  obtain ⟨hrounds, hstop⟩ := (matches_many_iff_rounds State.skip_token).mp hmany
  obtain ⟨texts, htexts⟩ := hrounds.texts
  have hopen := hv.rest_of_text
  have hend := hclose.rest_of_text
  have hbody := htexts.rest_eq
  have hrest : t.rest = u.rest := by rw [ht, State.afterRule_rest]
  rw [quote.toList_word, List.singleton_append, State.openRule_rest] at hopen
  rw [quote.toList_word, List.singleton_append, ← hrest, State.skip_token] at hend
  rw [State.skip_token, hend] at hbody
  have htext : s.textUpTo t = quote.char :: (texts.flatten ++ [quote.char]) := by
    rw [hopen, hbody] at hwhole
    refine (List.append_left_inj t.rest).mp ?_
    rw [← hwhole]
    simp
  have hpairs := Reading.pairs_flatten htexts.isPair
  refine ⟨quote, texts.flatten, htext, ⟨v, closed, hopen, hend, ?_, hstop⟩, ?_, ?_⟩
  · rw [hpairs]
    exact htexts
  · rw [htext, ← Reading.unescape_eq_pairs, Reading.stringValue, List.drop_one, List.tail_cons,
      List.dropLast_concat]
  · rw [hpairs]
    exact htexts.isPair

end Printing

end FunctionIR
