import FunctionIR.Proofs.Grammar.Extents
import FunctionIR.Proofs.Grammar.Formation
import FunctionIR.Proofs.Grammar.Inversion
import FunctionIR.Proofs.Grammar.Termination
import FunctionIR.Proofs.Printing.Literal

/-!
# Where phrases come from

A phrase has the text that its rule took and, as parts, the phrases that the
match of its rule left.  So whatever is known of the matches of a rule is known
of its phrases, wherever in a text they are found (`Phrase.Original`,
`original_of_matchText`).

Two rules are looked at here.  A name is a letter or underscore with letters,
digits and underscores behind it, and none of the reserved words
(`Phrase.Original.identifier`).  A token that is one of several words has the
text of one of them (`Phrase.Original.token_of_words`).
-/

namespace FunctionIR.Grammar

open Pattern

namespace Pattern

variable {p : Pattern} {s t : State} {spacing : Spacing}

/-- What is matched is the text up to where the match ends. -/
theorem Matches.rest_eq (h : p.Matches spacing s t) : s.rest = s.textUpTo t ++ t.rest := by
  obtain ⟨n, hn⟩ := h
  exact Covers.rest_eq (kept_covers.of_matched hn)

/-- Behind a fixed text stands the rest. -/
theorem Matches.rest_of_text {chars : List Char} (h : (Pattern.text chars).Matches spacing s t) :
    s.rest = chars ++ t.rest := by
  obtain ⟨rest, hs, rfl⟩ := matches_text_iff.mp h
  exact hs

end Pattern

/-! ### Phrases and the matches of their rules -/

/-- The phrase is what a match of its rule makes of a stretch of the text, and so
are all phrases in it. -/
inductive Phrase.Original (whole : List Char) : Phrase → Prop
  | mk {rule : Rule} {spacing : Spacing} {s t : State} :
      rule.visible spacing = true → rule.definition.pattern.Matches (rule.inside spacing) s t →
      s.phrases = [] → s.rest <:+ whole → (∀ part ∈ t.phrases, part.Original whole) →
      Phrase.Original whole (.mk rule s.place t.place (s.textUpTo t) t.phrases.reverse)

/-- Reading on in the text, from phrases that are original to more of them. -/
private def KeepsOriginal (whole : List Char) (s t : State) : Prop :=
  s.rest <:+ whole → t.rest <:+ whole ∧
    ((∀ phrase ∈ s.phrases, phrase.Original whole) → ∀ phrase ∈ t.phrases, phrase.Original whole)

/-- Every phrase on the way is made of the whole text. -/
private theorem keptBehind_original (whole : List Char) : KeptBehind (KeepsOriginal whole) where
  refl _ hs := ⟨hs, id⟩
  trans h h' hs := ⟨(h' (h hs).1).1, fun hphrases => (h' (h hs).1).2 ((h hs).2 hphrases)⟩
  take hrest hs := ⟨(List.suffix_cons _ _).trans (by rwa [hrest] at hs), id⟩
  margin _ _ hs := ⟨hs, id⟩
  rule {r spacing s t} hpattern h hs := by
    obtain ⟨ht, hphrases⟩ := h (by rwa [State.openRule_rest])
    refine ⟨by rwa [State.afterRule_rest], fun hall => ?_⟩
    cases hvisible : r.visible spacing with
    | false =>
        rw [State.afterRule, if_neg (by simp [hvisible])]
        exact hphrases (by rwa [State.openRule, if_neg (by simp [hvisible])])
    | true =>
        have hopen : s.openRule r spacing = { s with phrases := [] } := by
          rw [State.openRule, if_pos hvisible]
        rw [hopen] at hpattern hphrases
        have hphrase : (Phrase.mk r s.place t.place (s.textUpTo t) t.phrases.reverse).Original
            whole :=
          .mk (s := { s with phrases := [] }) hvisible hpattern rfl hs
            (hphrases (List.forall_mem_nil _))
        rw [State.afterRule, if_pos hvisible, State.closeRule]
        cases r.definition.kept with
        | false => exact hall
        | true => exact List.forall_mem_cons.mpr ⟨hphrase, hall⟩

/-- **The phrases of a matched text are original.** -/
theorem original_of_matchText {rule : Rule} {text : List Char} {s : State} {tried : Attempts}
    (h : rule.matchText text = (.matched s, tried)) :
    ∀ phrase ∈ s.phrases, phrase.Original text := by
  have hmatched : (Pattern.rule rule).outcome (stepsFor text.length) .loose (.ofText text) =
      .matched s := congrArg Prod.fst h
  exact ((keptBehind_original text).of_matched hmatched List.suffix_rfl).2 (List.forall_mem_nil _)

namespace Phrase.Original

variable {whole : List Char} {phrase : Phrase}

/-- The parts of an original phrase are original. -/
theorem parts (h : phrase.Original whole) : ∀ part ∈ phrase.parts, part.Original whole := by
  cases h with
  | mk _ _ _ _ hparts => exact fun part hmem => hparts part (List.mem_reverse.mp hmem)

/-- An original phrase comes from a match of its rule's pattern. -/
theorem matched (h : phrase.Original whole) : ∃ (spacing : Spacing) (s t : State),
    phrase.rule.definition.pattern.Matches (phrase.rule.inside spacing) s t ∧
      phrase.text = s.textUpTo t := by
  cases h with
  | mk _ hpattern => exact ⟨_, _, _, hpattern, rfl⟩

/-- What a match of its rule left in the phrase is formed like the rule. -/
theorem formed (h : phrase.Original whole) : phrase.Formed := by
  cases h with
  | @mk rule spacing s t hvisible hpattern hnone _ _ =>
      obtain ⟨found, hfound, hphrases⟩ := leaves_of_matches hpattern
      have hparts : t.phrases.reverse = found := by simp [hphrases, hnone]
      rw [hparts]
      by_cases hspacing : spacing = .token
      · -- inside a token only a rule with a spacing of its own is seen
        subst hspacing
        refine ⟨.loose, nofun, ?_⟩
        have hinside : rule.inside .token = rule.inside .loose := by
          revert hvisible
          unfold Rule.visible Rule.inside
          cases rule.definition.spacing <;> simp
        rw [hinside] at hfound
        exact hfound
      · exact ⟨spacing, hspacing, hfound⟩

/-- An original phrase has a stretch of the text. -/
theorem text_infix (h : phrase.Original whole) : phrase.text <:+: whole := by
  cases h with
  | mk _ hpattern _ hsuffix _ =>
      have htake : State.textUpTo _ _ <+: _ := ⟨_, hpattern.rest_eq.symm⟩
      exact htake.isInfix.trans hsuffix.isInfix

end Phrase.Original

/-! ### Names -/

/-- The characters of a repetition of one set. -/
theorem Pattern.Matches.many_one {set : CharClass} {s t : State}
    (h : (Pattern.many (.one set)).Matches .token s t) :
    (∀ c ∈ s.textUpTo t, set.holds c = true) ∧
      ∀ c more, t.rest = c :: more → set.holds c = false := by
  have hwhole := h.rest_eq
  obtain ⟨hrounds, hstop⟩ := (matches_many_iff_rounds State.skip_token).mp h
  have hall : ∃ text, s.rest = text ++ t.rest ∧ ∀ c ∈ text, set.holds c = true := by
    clear h hwhole hstop
    induction hrounds with
    | none => exact ⟨[], rfl, List.forall_mem_nil _⟩
    | more first last ih =>
        obtain ⟨text, htext, hset⟩ := ih
        obtain ⟨c, rest, hs, hc, rfl⟩ := matches_one_iff.mp first
        rw [State.skip_token] at hs
        rw [State.past_rest] at htext
        exact ⟨c :: text, by rw [hs, htext, List.cons_append],
          List.forall_mem_cons.mpr ⟨hc, hset⟩⟩
  obtain ⟨text, htext, hset⟩ := hall
  rw [htext, List.append_left_inj] at hwhole
  refine ⟨hwhole ▸ hset, fun c more hrest => ?_⟩
  cases hc : set.holds c with
  | false => rfl
  | true => exact absurd hstop (matches_one hrest hc).not_fails

/-- A character that begins a name may stand within one. -/
theorem nameChar_of_nameStart {c : Char} (h : CharClass.nameStart.holds c = true) :
    CharClass.nameChar.holds c = true := by
  simp only [CharClass.holds, Char.isAlphanum, Bool.or_eq_true] at h ⊢
  exact h.imp_left .inl

/-- Where a reserved word stands as a whole word, it is read as one. -/
theorem spells_reserved {word : String} {rest : List Char} (hmem : word ∈ reservedWords)
    (hrest : Bounded rest) : (Pattern.rule .reserved).Spells word.toList rest := by
  have hword : IsWord word.toList := Printing.reservedWords_isWord word hmem
  have hfree : ∀ word ∈ reservedWords, ∀ other ∈ reservedWords.takeWhile (· != word),
      ¬ other.toList <+: word.toList := by decide +kernel
  refine Spells.inner rfl ?_
  have hone : (firstOf (reservedWords.map lit)).Spells word.toList ([] ++ rest) :=
    spells_oneOf reservedWords hmem fun other hother hprefix =>
      hfree word hmem other hother (prefix_of_bounded
        (Printing.reservedWords_isWord other ((List.takeWhile_sublist _).mem hother)) hrest hprefix)
  have h := hone.seq (rejects_one hrest).absent
  rwa [List.append_nil] at h

/-- **A name is a name**: a letter or underscore, then letters, digits and
underscores, and none of the reserved words. -/
theorem Phrase.Original.identifier {whole : List Char} {phrase : Phrase}
    (h : phrase.Original whole) (hrule : phrase.rule = .identifier) :
    ∃ ident : Printing.Identifier, ident.text = phrase.text := by
  obtain ⟨spacing, s, t, hpattern, htext⟩ := h.matched
  rw [hrule] at hpattern
  have hwhole := hpattern.rest_eq
  obtain ⟨u, habsent, hlater⟩ := matches_seq_iff.mp hpattern
  obtain ⟨hfree, rfl⟩ := matches_absent_iff.mp habsent
  obtain ⟨v, hfirst, hmany⟩ := matches_seq_iff.mp hlater
  obtain ⟨c, rest, hs, hc, rfl⟩ := matches_one_iff.mp hfirst
  have hmore := hmany.rest_eq
  obtain ⟨hchars, hend⟩ := hmany.many_one
  generalize State.textUpTo _ t = more at hmore hchars
  have hu : u.textUpTo t = c :: more := by
    refine (List.append_left_inj t.rest).mp (hwhole.symm.trans (hs.trans ?_))
    rw [List.cons_append, ← hmore]
    rfl
  have hname : IsWord (c :: more) :=
    List.forall_mem_cons.mpr ⟨nameChar_of_nameStart hc, hchars⟩
  refine ⟨⟨c :: more, ⟨c, more, rfl, hc⟩, hname, fun hmem => ?_⟩, by rw [htext, hu]⟩
  have hspells := spells_reserved hmem (hend : Bounded t.rest)
  rw [String.toList_ofList] at hspells
  exact (hspells u (by rw [hwhole, hu])).not_fails hfree

/-! ### Words -/

/-- What is matched as one of several words is one of them. -/
theorem Pattern.Matches.word_of_firstOf {words : List String} {s t : State} {spacing : Spacing}
    (h : (firstOf (words.map lit)).Matches spacing s t) :
    ∃ word ∈ words, s.rest = word.toList ++ t.rest := by
  induction words with
  | nil =>
      obtain ⟨hfails, -⟩ := matches_absent_iff.mp h
      exact absurd hfails (matches_text rfl : (Pattern.text []).Matches _ s s).not_fails
  | cons word words ih =>
      cases words with
      | nil => exact ⟨word, List.mem_cons_self, h.rest_of_text⟩
      | cons next words =>
          rcases matches_choice_iff.mp h with h | ⟨-, h⟩
          · exact ⟨word, List.mem_cons_self, h.rest_of_text⟩
          · obtain ⟨other, hmem, hs⟩ := ih h
            exact ⟨other, List.mem_cons_of_mem _ hmem, hs⟩

/-- A phrase of a rule that is one of several words has the text of one of
them. -/
theorem Phrase.Original.token_of_words {whole : List Char} {phrase : Phrase}
    (h : phrase.Original whole) (words : List String)
    (hwords : phrase.rule.definition.pattern = firstOf (words.map lit)) :
    ∃ word ∈ words, phrase.text = word.toList := by
  obtain ⟨spacing, s, t, hpattern, htext⟩ := h.matched
  have hwhole := hpattern.rest_eq
  rw [hwords] at hpattern
  obtain ⟨word, hmem, hs⟩ := hpattern.word_of_firstOf
  rw [hs, List.append_left_inj] at hwhole
  exact ⟨word, hmem, htext.trans hwhole.symm⟩

end FunctionIR.Grammar
