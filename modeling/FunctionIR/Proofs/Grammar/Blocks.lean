import FunctionIR.Proofs.Grammar.Tokens

/-!
# Blocks

Line breaks and indentation are matched exactly, and some patterns look at the
margin or change it.  A pattern **lays** a text out (`Pattern.Lays`) if, in
the one margin and with the text coming next, it takes the text up to the rest
and leaves the other margin.  It **avoids** a text in a margin if it does not
match there (`Pattern.Avoids`).

Both are told for any spacing, because compound statements change between
parts with blanks around them and parts without.
-/

namespace FunctionIR.Grammar

/-- The text after what may stand between two parts. -/
def Spacing.after (spacing : Spacing) (text : List Char) : List Char :=
  match spacing with
  | .loose => clear text
  | .tight | .token => text

/-- What a skip leaves depends on the text only. -/
@[simp]
theorem State.skip_rest_after (s : State) (spacing : Spacing) :
    (s.skip spacing).rest = spacing.after s.rest := by
  cases spacing with
  | loose => exact s.skip_rest
  | tight | token => rfl

namespace Pattern

/-- With the input next, in the margin, the pattern takes the input up to the
rest, leaves the other margin and finds phrases with the property. -/
def Lays (spacing : Spacing) (margin margin' : List (List Char)) (p : Pattern)
    (input rest : List Char) (found : List Phrase → Prop) : Prop :=
  ∀ s : State, s.rest = input → s.margin = margin → ∃ t phrases, p.Matches spacing s t ∧
    t.rest = rest ∧ t.margin = margin' ∧ t.phrases = phrases.reverse ++ s.phrases ∧
    found phrases

/-- With the input next, in the margin, the pattern does not match. -/
def Avoids (spacing : Spacing) (margin : List (List Char)) (p : Pattern)
    (input : List Char) : Prop :=
  ∀ s : State, s.rest = input → s.margin = margin → p.Fails spacing s

variable {spacing : Spacing} {margin margin' margin'' : List (List Char)} {p q : Pattern}
  {input mid rest : List Char} {found found' : List Phrase → Prop}

theorem Lays.mono (h : Lays spacing margin margin' p input rest found)
    (himp : ∀ phrases, found phrases → found' phrases) :
    Lays spacing margin margin' p input rest found' := by
  intro s hs hm
  obtain ⟨t, phrases, ht, hrest, hmargin, hphrases, hfound⟩ := h s hs hm
  exact ⟨t, phrases, ht, hrest, hmargin, hphrases, himp phrases hfound⟩

/-- What is taken anywhere is taken in every margin, exactly if no blanks come
next. -/
theorem Takes.lays (h : p.Takes input rest found) (hrest : clear rest = rest)
    (margin : List (List Char)) : Lays .loose margin margin p input rest found := by
  intro s hs hm
  obtain ⟨t, phrases, ht, hreaches, hmargin, hphrases, hfound⟩ := h s hs
  refine ⟨t, phrases, ht, ?_, hmargin.trans hm, hphrases, hfound⟩
  rcases hreaches with hrest' | hrest'
  · exact hrest'
  · rw [hrest', hrest]

/-- What misses a text does so under every margin. -/
theorem Misses.avoids (h : p.Misses input) (margin : List (List Char)) :
    Avoids .loose margin p input :=
  fun s hs _ => h s hs

/-- A pattern that refuses what lies ahead avoids the text, under every spacing and margin. -/
theorem avoids_of_refuses {n : Nat} (ahead : Outlook) (h : p.refuses n ahead = true)
    (hblank : ahead.blank = false) (hs : ahead.sees input) (spacing : Spacing)
    (margin : List (List Char)) : Avoids spacing margin p input :=
  fun s hinput _ => fails_of_refuses h hblank (by rwa [hinput]) spacing

/-- Two parts lay one after the other, each under the margin that the part before leaves. -/
theorem Lays.seq (hp : Lays spacing margin margin' p input mid found)
    (hq : Lays spacing margin' margin'' q (spacing.after mid) rest found') :
    Lays spacing margin margin'' (.seq p q) input rest (Both found found') := by
  intro s hs hm
  obtain ⟨t, before, ht, hmid, htm, htp, hbefore⟩ := hp s hs hm
  obtain ⟨u, after, hu, hrest, hum, hup, hafter⟩ :=
    hq (t.skip spacing) (by simp [hmid]) (by simp [htm])
  refine ⟨u, before ++ after, ht.seq hu, hrest, hum, ?_, before, after, rfl, hbefore, hafter⟩
  rw [hup, State.skip_phrases, htp, List.reverse_append, List.append_assoc]

/-- Among parts with blanks between them the first can be one that does not
look at the margin. -/
theorem Takes.seq_lays (hp : p.Takes input mid found)
    (hq : Lays .loose margin margin' q (clear mid) rest found') :
    Lays .loose margin margin' (.seq p q) input rest (Both found found') := by
  intro s hs hm
  obtain ⟨t, before, ht, hmid, htm, htp, hbefore⟩ := hp s hs
  obtain ⟨u, after, hu, hrest, hum, hup, hafter⟩ :=
    hq (t.skip .loose) (by rw [State.skip_rest, hmid.clear_eq]) (by simp [htm, hm])
  refine ⟨u, before ++ after, ht.seq hu, hrest, hum, ?_, before, after, rfl, hbefore, hafter⟩
  rw [hup, State.skip_phrases, htp, List.reverse_append, List.append_assoc]

/-- A sequence avoids a text that its first part avoids. -/
theorem Avoids.seq (hp : Avoids spacing margin p input) :
    Avoids spacing margin (.seq p q) input :=
  fun s hs hm => (hp s hs hm).seq

/-- A sequence avoids a text whose rest its second part avoids. -/
theorem Lays.seq_avoids (hp : Lays spacing margin margin' p input mid found)
    (hq : Avoids spacing margin' q (spacing.after mid)) :
    Avoids spacing margin (.seq p q) input := by
  intro s hs hm
  obtain ⟨t, -, ht, hmid, htm, -, -⟩ := hp s hs hm
  exact ht.seq_fails (hq _ (by simp [hmid]) (by simp [htm]))

/-- A choice lays what its first part lays. -/
theorem Lays.choice (hp : Lays spacing margin margin' p input rest found) :
    Lays spacing margin margin' (.choice p q) input rest found := by
  intro s hs hm
  obtain ⟨t, phrases, ht, h⟩ := hp s hs hm
  exact ⟨t, phrases, ht.choice, h⟩

/-- Where the first part avoids the text, a choice lays what its second part lays. -/
theorem Avoids.choice (hp : Avoids spacing margin p input)
    (hq : Lays spacing margin margin' q input rest found) :
    Lays spacing margin margin' (.choice p q) input rest found := by
  intro s hs hm
  obtain ⟨t, phrases, ht, h⟩ := hq s hs hm
  exact ⟨t, phrases, (hp s hs hm).choice ht, h⟩

/-- A choice avoids a text that both of its parts avoid. -/
theorem Avoids.choice_avoids (hp : Avoids spacing margin p input)
    (hq : Avoids spacing margin q input) : Avoids spacing margin (.choice p q) input :=
  fun s hs hm => (hp s hs hm).choice_fails (hq s hs hm)

/-- One of several is reached by its place among them. -/
theorem Lays.nth (choices : List Pattern) (i : Nat) (hi : i < choices.length)
    (hbefore : ∀ q ∈ choices.take i, Avoids spacing margin q input)
    (hp : Lays spacing margin margin' choices[i] input rest found) :
    Lays spacing margin margin' (Pattern.firstOf choices) input rest found :=
  firstOf_nth (Lays spacing margin margin' · input rest found) (Avoids spacing margin · input)
    Lays.choice Avoids.choice choices i hi hbefore hp

/-- An optional part lays what it lays by itself. -/
theorem Lays.opt (hp : Lays spacing margin margin' p input rest found) :
    Lays spacing margin margin' (.opt p) input rest found := by
  intro s hs hm
  obtain ⟨t, phrases, ht, h⟩ := hp s hs hm
  exact ⟨t, phrases, ht.opt, h⟩

/-- An optional part that avoids the text lays nothing. -/
theorem Avoids.opt (hp : Avoids spacing margin p input) :
    Lays spacing margin margin (.opt p) input input Nothing :=
  fun s hs hm => ⟨s, [], (hp s hs hm).opt, hs, hm, rfl, rfl⟩

/-- Rounds of a part that avoids the text lay nothing. -/
theorem Avoids.many (hp : Avoids spacing margin p input) :
    Lays spacing margin margin (.many p) input input Nothing :=
  fun s hs hm => ⟨s, [], (hp s hs hm).many, hs, hm, rfl, rfl⟩

/-- **Line after line.**  A text made of items is laid out by a repetition, if
each is where the next one, or the rest, comes after it. -/
theorem lays_many {ι : Type} {spell : ι → List Char} {found : ι → List Phrase → Prop}
    {ready : List Char → Prop} {items : List ι} (hrest : ready rest)
    (hspell : ∀ item ∈ items, ∀ more, ready (spell item ++ more))
    (hitem : ∀ item ∈ items, ∀ more, ready more →
      Lays .tight margin margin p (spell item ++ more) more (found item))
    (hstop : Avoids .tight margin p rest) :
    Lays .tight margin margin (.many p) (items.flatMap spell ++ rest) rest
      (Each found items) := by
  induction items with
  | nil => exact hstop.many
  | cons item items ih =>
      have hready : ready (items.flatMap spell ++ rest) := by
        cases items with
        | nil => exact hrest
        | cons next items =>
            rw [List.flatMap_cons, List.append_assoc]
            exact hspell next (by simp) _
      have hlater := ih (fun other ho => hspell other (by simp [ho]))
        (fun other ho => hitem other (by simp [ho]))
      intro s hs hm
      rw [List.flatMap_cons, List.append_assoc] at hs
      obtain ⟨t, before, ht, hmid, htm, htp, hbefore⟩ := hitem item (by simp) _ hready s hs hm
      obtain ⟨u, after, hu, hrest, hum, hup, hafter⟩ := hlater t hmid htm
      refine ⟨u, before ++ after, ht.many_cons rfl hu, hrest, hum, ?_, before, after, rfl,
        hbefore, hafter⟩
      rw [hup, htp, List.reverse_append, List.append_assoc]

/-- A text that comes next. -/
theorem lays_text (chars : List Char) :
    Lays spacing margin margin (.text chars) (chars ++ rest) rest Nothing := by
  intro s hs hm
  exact ⟨s.past chars rest, [], matches_text (State.takeText_append hs), rfl, hm, rfl, rfl⟩

/-- The margin, where it comes next. -/
theorem lays_margin : Lays spacing margin margin .margin (margin.flatten ++ rest) rest
    Nothing := by
  intro s hs hm
  subst hm
  exact ⟨s.past s.margin.flatten rest, [], matches_margin (State.takeText_append hs), rfl, rfl,
    rfl, rfl⟩

/-- The margin is avoided where the text does not begin with it. -/
theorem avoids_margin (h : ¬ margin.flatten <+: input) :
    Avoids spacing margin .margin input := by
  intro s hs hm
  subst hs hm
  exact fails_margin (State.takeText_eq_none h)

/-- What is spelled exactly can become part of the margin. -/
theorem lays_indent {text : List Char}
    (h : ∀ s : State, s.rest = text ++ rest → p.Matches spacing s (s.past text rest)) :
    Lays spacing margin (text :: margin) (.indent p) (text ++ rest) rest Nothing := by
  intro s hs hm
  refine ⟨_, [], (h s hs).indent, rfl, ?_, rfl, rfl⟩
  simp only [State.textUpTo_past hs]
  rw [State.past, hm]

/-- An outdent takes one width off the margin and nothing off the text. -/
theorem lays_outdent {width : List Char} :
    Lays spacing (width :: margin) margin .outdent rest rest Nothing := by
  intro s hs hm
  exact ⟨{ s with margin := margin }, [], matches_outdent hm, hs, rfl, rfl, rfl⟩

/-- The end of the text is laid by the empty text. -/
theorem lays_finish : Lays spacing margin margin .finish [] [] Nothing :=
  fun s hs hm => ⟨s, [], matches_finish hs, hs, hm, rfl, rfl⟩

/-- A rule lays out what its pattern does, and makes it a phrase. -/
theorem Lays.rule {r : Rule} (hvisible : r.visible spacing = true)
    (hkept : r.definition.kept = true)
    (h : Lays (r.inside spacing) margin margin' r.definition.pattern input rest found) :
    Lays spacing margin margin' (.rule r) input rest (Phrased r found) := by
  intro s hs hm
  have hopen : s.openRule r spacing = { s with phrases := [] } := by
    simp [State.openRule, hvisible]
  obtain ⟨t, parts, ht, hrest, hmargin, hparts, hfound⟩ :=
    h (s.openRule r spacing) (by rw [hopen]; exact hs) (by rw [hopen]; exact hm)
  refine ⟨_, [.mk r s.place t.place (s.textUpTo t) parts], Matches.rule ht, ?_, ?_, ?_,
    ⟨_, _, _, parts, rfl, hfound⟩⟩
  · simpa [State.afterRule, hvisible, State.closeRule] using hrest
  · simpa [State.afterRule, hvisible, State.closeRule] using hmargin
  · simp [State.afterRule, hvisible, State.closeRule, hkept, hparts, hopen]

/-- A rule that is not kept leaves no phrase. -/
theorem Lays.mute {r : Rule} (hvisible : r.visible spacing = true)
    (hkept : r.definition.kept = false)
    (h : Lays (r.inside spacing) margin margin' r.definition.pattern input rest found) :
    Lays spacing margin margin' (.rule r) input rest Nothing := by
  intro s hs hm
  have hopen : s.openRule r spacing = { s with phrases := [] } := by
    simp [State.openRule, hvisible]
  obtain ⟨t, parts, ht, hrest, hmargin, -, -⟩ :=
    h (s.openRule r spacing) (by rw [hopen]; exact hs) (by rw [hopen]; exact hm)
  refine ⟨_, [], Matches.rule ht, ?_, ?_, ?_, rfl⟩
  · simpa [State.afterRule, hvisible, State.closeRule] using hrest
  · simpa [State.afterRule, hvisible, State.closeRule] using hmargin
  · simp [State.afterRule, hvisible, State.closeRule, hkept]

/-- A rule avoids a text that its pattern avoids. -/
theorem Avoids.rule {r : Rule}
    (h : Avoids (r.inside spacing) margin r.definition.pattern input) :
    Avoids spacing margin (.rule r) input := by
  intro s hs hm
  refine Fails.rule (h _ ?_ ?_)
  · rw [← hs]
    simp only [State.openRule]
    split <;> rfl
  · rw [← hm]
    simp only [State.openRule]
    split <;> rfl

/-! ### Parts without rules -/

/-- The pattern mentions no rule. -/
def bare : Pattern → Bool
  | .seq p q | .choice p q => p.bare && q.bare
  | .opt p | .many p | .absent p | .indent p => p.bare
  | .rule _ => false
  | _ => true

/-- Without rules it does not matter whether a tight text is a token. -/
private theorem outcome_bare_aux (n : Nat) :
    (∀ p : Pattern, p.bare = true → ∀ s, p.outcome n .tight s = p.outcome n .token s) ∧
    (∀ p : Pattern, p.bare = true → ∀ s,
      outcomeMore n p .tight s = outcomeMore n p .token s) := by
  induction n with
  | zero => exact ⟨fun _ _ _ => rfl, fun _ _ _ => rfl⟩
  | succ n ih =>
      obtain ⟨ih, ihMore⟩ := ih
      constructor
      · intro p h s
        cases p with
        | text | one | start | finish | margin | outdent => rfl
        | seq first second =>
            simp only [bare, Bool.and_eq_true] at h
            simp only [outcome_seq, ih first h.1, ih second h.2, State.skip_tight,
              State.skip_token]
        | choice first second =>
            simp only [bare, Bool.and_eq_true] at h
            simp only [outcome_choice, ih first h.1, ih second h.2]
        | opt part => simp only [outcome_opt, ih part h]
        | many part => simp only [outcome_many, ih part h, funext (ihMore part h)]
        | absent part => simp only [outcome_absent, ih part h]
        | indent part => simp only [outcome_indent, ih part h]
        | rule r => cases h
      · intro p h s
        simp only [outcomeMore_succ, ih p h, funext (ihMore p h), State.skip_tight, State.skip_token]

/-- A bare pattern with a spelling matches that text in a tight state. -/
theorem Spells.tight {text : List Char} (h : p.Spells text rest) (hbare : p.bare = true)
    {s : State} (hs : s.rest = text ++ rest) : p.Matches .tight s (s.past text rest) := by
  obtain ⟨n, hn⟩ := h s hs
  exact ⟨n, by rw [(outcome_bare_aux n).1 p hbare, hn]⟩

/-- Between line breaks a text can be laid out like a token. -/
theorem Spells.lays {text : List Char} (h : p.Spells text rest) (hbare : p.bare = true) :
    Lays .tight margin margin p (text ++ rest) rest Nothing :=
  fun s hs hm => ⟨s.past text rest, [], h.tight hbare hs, rfl, hm, rfl, rfl⟩

/-- A bare pattern that rejects a text avoids it. -/
theorem Rejects.avoids (h : p.Rejects input) (hbare : p.bare = true) :
    Avoids .tight margin p input := by
  intro s hs _
  obtain ⟨n, hn⟩ := h s hs
  exact ⟨n, by rw [(outcome_bare_aux n).1 p hbare, hn]⟩

end Pattern

end FunctionIR.Grammar
