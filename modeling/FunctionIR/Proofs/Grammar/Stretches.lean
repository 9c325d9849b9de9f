import FunctionIR.Proofs.Grammar.Runs

/-!
# Stretches of text

Where blanks may stand between the parts of a pattern, a match is best told by
the text alone: the pattern **takes** a text up to a rest (`Pattern.Takes`),
or it **misses** a text (`Pattern.Misses`), wherever that text stands, in
whatever margin and after whatever phrases.

The blanks behind a match make this a little loose.  They belong to the match
if an optional part was tried behind them, and stay before it otherwise.  So
`Takes` allows both: the match ends before the rest or after the blanks that
the rest starts with.  Whatever comes next skips blanks first and cannot tell
the difference (`Takes.seq`).

Inside a token nothing is loose: `Pattern.Spells` says that a pattern takes a
text exactly.
-/

namespace FunctionIR.Grammar

/-! ### Blanks -/

/-- The text after leading blanks. -/
def clear (text : List Char) : List Char := (skipBlanks .origin text).1

/-- Which blanks are skipped does not depend on the place. -/
theorem skipBlanks_fst (place : Place) (text : List Char) :
    (skipBlanks place text).1 = clear text := by
  unfold clear
  generalize Place.origin = origin
  fun_induction skipBlanks place text generalizing origin with
  | case1 place rest ih | case2 place rest ih | case3 place rest ih
  | case4 place rest ih =>
      rw [skipBlanks]
      exact ih _
  | case5 place rest h ih =>
      rw [skipBlanks]
      · exact ih _
      · exact h
  | case6 place rest h1 h2 h3 h4 h5 => rw [skipBlanks] <;> assumption

/-- Behind the blanks there are no more. -/
@[simp]
theorem clear_clear (text : List Char) : clear (clear text) = clear text := by
  rw [clear, ← skipBlanks_fst .origin text]
  generalize Place.origin = origin
  fun_induction skipBlanks origin text with
  | case1 place rest ih | case2 place rest ih | case3 place rest ih
  | case4 place rest ih => simpa only [skipBlanks_fst] using ih
  | case5 place rest h ih => simpa only [skipBlanks_fst] using ih
  | case6 place rest h1 h2 h3 h4 h5 => rw [skipBlanks] <;> assumption

/-- What is left after the blanks is a suffix. -/
theorem clear_suffix (text : List Char) : clear text <:+ text := skipBlanks_suffix .origin text

/-- Where there are no blanks the place stays. -/
theorem skipBlanks_of_clear {place : Place} {text : List Char} (h : clear text = text) :
    skipBlanks place text = (text, place) := by
  rw [← skipBlanks_fst place] at h
  have hshort : ∀ (more : List Char) {place' : Place} {rest : List Char} {c : Char},
      (skipBlanks place' rest).1 = c :: (more ++ rest) → False := by
    intro more place' rest c heq
    have hle := (clear_suffix rest).length_le
    rw [← skipBlanks_fst place', heq] at hle
    simp only [List.length_cons, List.length_append] at hle
    omega
  revert h
  fun_cases skipBlanks place text with
  | case1 rest => exact fun h => (hshort [] h).elim
  | case2 rest => exact fun h => (hshort [] h).elim
  | case3 rest => exact fun h => (hshort ['\n'] h).elim
  | case4 rest => exact fun h => (hshort ['\r', '\n'] h).elim
  | case5 rest => exact fun h => (hshort ['\r'] h).elim
  | case6 => exact fun _ => rfl

@[simp]
theorem clear_nil : clear [] = [] := rfl

/-- A space is cleared. -/
@[simp]
theorem clear_space (text : List Char) : clear (' ' :: text) = clear text := by
  rw [clear, skipBlanks, skipBlanks_fst]

/-- A text that starts with something else is clear. -/
theorem clear_cons {c : Char} (hspace : c ≠ ' ') (htab : c ≠ '\t') (hslash : c ≠ '\\')
    (text : List Char) : clear (c :: text) = c :: text := by
  rw [clear, skipBlanks] <;> simp_all

@[simp]
theorem State.skip_rest (s : State) : (s.skip .loose).rest = clear s.rest := by
  simp [State.skip, skipBlanks_fst]

@[simp]
theorem State.skip_margin (s : State) (spacing : Spacing) :
    (s.skip spacing).margin = s.margin := by
  cases spacing <;> rfl

@[simp]
theorem State.skip_phrases (s : State) (spacing : Spacing) :
    (s.skip spacing).phrases = s.phrases := by
  cases spacing <;> rfl

@[simp]
theorem State.skip_tight (s : State) : s.skip .tight = s := rfl

@[simp]
theorem State.skip_token (s : State) : s.skip .token = s := rfl

/-- Nothing is skipped where no blanks are ahead. -/
theorem State.skip_of_clear {s : State} (h : clear s.rest = s.rest) : s.skip .loose = s := by
  simp [State.skip, skipBlanks_of_clear h]

/-- The end of a match in a text: before the rest, or after its blanks. -/
def Reaches (text rest : List Char) : Prop := text = rest ∨ text = clear rest

/-- Texts that differ by blanks in front are the same once these are cleared. -/
theorem Reaches.clear_eq {text rest : List Char} (h : Reaches text rest) :
    clear text = clear rest := by
  rcases h with rfl | rfl
  · rfl
  · exact clear_clear rest

/-- Blanks that are skipped do not move the end of a match. -/
theorem Reaches.skip {s : State} {rest : List Char} (h : Reaches s.rest rest) :
    Reaches (s.skip .loose).rest rest := by
  rw [State.skip_rest]
  exact .inr h.clear_eq

/-- Between blanks every rule is seen. -/
@[simp]
theorem Rule.visible_loose (r : Rule) : r.visible .loose = true := by
  simp [Rule.visible]

/-! ### Taking and missing a text -/

namespace Pattern

/-- Wherever the input comes next, the pattern takes it up to the rest and
finds phrases with the property. -/
def Takes (p : Pattern) (input rest : List Char) (found : List Phrase → Prop) : Prop :=
  ∀ s : State, s.rest = input → ∃ t phrases, p.Matches .loose s t ∧
    Reaches t.rest rest ∧ t.margin = s.margin ∧
    t.phrases = phrases.reverse ++ s.phrases ∧ found phrases

/-- Wherever the input comes next, the pattern does not match. -/
def Misses (p : Pattern) (input : List Char) : Prop :=
  ∀ s : State, s.rest = input → p.Fails .loose s

/-- Between two of its rounds, a repetition comes from the one text to the
other and finds phrases with the property. -/
def Repeats (p : Pattern) (input rest : List Char) (found : List Phrase → Prop) : Prop :=
  ∀ s : State, Reaches s.rest input → ∃ t phrases, p.Rounds .loose s t ∧
    Reaches t.rest rest ∧ t.margin = s.margin ∧
    t.phrases = phrases.reverse ++ s.phrases ∧ found phrases

variable {p q : Pattern} {input mid rest : List Char}
  {found found' : List Phrase → Prop}

/-- Phrases that split into some with the one property and some with the
other. -/
def Both (found found' : List Phrase → Prop) (phrases : List Phrase) : Prop :=
  ∃ before after, phrases = before ++ after ∧ found before ∧ found' after

/-- No phrases. -/
def Nothing (phrases : List Phrase) : Prop := phrases = []

/-- No phrases before some others. -/
theorem Both.of_nothing {phrases : List Phrase} (h : Both Nothing found phrases) : found phrases := by
  obtain ⟨before, after, rfl, rfl, hafter⟩ := h
  exact hafter

theorem Both.to_nothing {phrases : List Phrase} (h : Both found Nothing phrases) : found phrases := by
  obtain ⟨before, after, rfl, hbefore, rfl⟩ := h
  rwa [List.append_nil]

theorem Takes.mono (h : p.Takes input rest found)
    (himp : ∀ phrases, found phrases → found' phrases) : p.Takes input rest found' := by
  intro s hs
  obtain ⟨t, phrases, ht, hrest, hmargin, hphrases, hfound⟩ := h s hs
  exact ⟨t, phrases, ht, hrest, hmargin, hphrases, himp phrases hfound⟩

/-- Two parts take one after the other, the blanks between them cleared. -/
theorem Takes.seq (hp : p.Takes input mid found) (hq : q.Takes (clear mid) rest found') :
    (Pattern.seq p q).Takes input rest (Both found found') := by
  intro s hs
  obtain ⟨t, before, ht, hmid, htm, htp, hbefore⟩ := hp s hs
  obtain ⟨u, after, hu, hrest, hum, hup, hafter⟩ := hq (t.skip .loose) (by simp [hmid.clear_eq])
  refine ⟨u, before ++ after, ht.seq hu, hrest, ?_, ?_, before, after, rfl, hbefore, hafter⟩
  · rw [hum, State.skip_margin, htm]
  · rw [hup, State.skip_phrases, htp, List.reverse_append, List.append_assoc]

/-- A sequence misses with its first part. -/
theorem Misses.seq (hp : p.Misses input) : (Pattern.seq p q).Misses input :=
  fun s hs => (hp s hs).seq

/-- A sequence misses with its second part. -/
theorem Takes.seq_misses (hp : p.Takes input mid found) (hq : q.Misses (clear mid)) :
    (Pattern.seq p q).Misses input := by
  intro s hs
  obtain ⟨t, -, ht, hmid, -, -, -⟩ := hp s hs
  exact ht.seq_fails (hq _ (by simp [hmid.clear_eq]))

/-- A choice takes what its first part takes. -/
theorem Takes.choice (hp : p.Takes input rest found) :
    (Pattern.choice p q).Takes input rest found := by
  intro s hs
  obtain ⟨t, phrases, ht, h⟩ := hp s hs
  exact ⟨t, phrases, ht.choice, h⟩

/-- A choice takes what its second part takes where the first misses. -/
theorem Misses.choice (hp : p.Misses input) (hq : q.Takes input rest found) :
    (Pattern.choice p q).Takes input rest found := by
  intro s hs
  obtain ⟨t, phrases, ht, h⟩ := hq s hs
  exact ⟨t, phrases, (hp s hs).choice ht, h⟩

/-- A choice misses where both parts do. -/
theorem Misses.choice_misses (hp : p.Misses input) (hq : q.Misses input) :
    (Pattern.choice p q).Misses input :=
  fun s hs => (hp s hs).choice_fails (hq s hs)

/-- An optional part takes what it takes by itself. -/
theorem Takes.opt (hp : p.Takes input rest found) : (Pattern.opt p).Takes input rest found := by
  intro s hs
  obtain ⟨t, phrases, ht, h⟩ := hp s hs
  exact ⟨t, phrases, ht.opt, h⟩

/-- An optional part takes nothing where it misses. -/
theorem Misses.opt (hp : p.Misses input) : (Pattern.opt p).Takes input input Nothing := by
  intro s hs
  exact ⟨s, [], (hp s hs).opt, .inl hs, rfl, rfl, rfl⟩

/-- The first of several choices, and the others behind it. -/
theorem firstOf_cons (p : Pattern) {others : List Pattern} (h : others ≠ []) :
    firstOf (p :: others) = .choice p (firstOf others) := by
  cases others with
  | nil => exact absurd rfl h
  | cons => rfl

section Choices

variable (Holds Fails : Pattern → Prop) {p : Pattern}
  (hfirst : ∀ {p q : Pattern}, Holds p → Holds (.choice p q))
  (hnext : ∀ {p q : Pattern}, Fails p → Holds q → Holds (.choice p q))

include hfirst hnext

/-- What a choice has from its first pattern, or from its second where the first
fails, several patterns have from one of them where those before it fail. -/
theorem firstOf_split (before after : List Pattern) (hbefore : ∀ q ∈ before, Fails q)
    (hp : Holds p) : Holds (firstOf (before ++ p :: after)) := by
  induction before with
  | nil =>
      cases after with
      | nil => exact hp
      | cons => exact hfirst hp
  | cons q before ih =>
      obtain ⟨hq, hbefore⟩ := List.forall_mem_cons.mp hbefore
      rw [List.cons_append, firstOf_cons q (by simp)]
      exact hnext hq (ih hbefore)

/-- The choice at a position carries a property where the ones before it fail. -/
theorem firstOf_nth (choices : List Pattern) (i : Nat) (hi : i < choices.length)
    (hbefore : ∀ q ∈ choices.take i, Fails q) (hp : Holds choices[i]) :
    Holds (firstOf choices) := by
  have h := firstOf_split Holds Fails hfirst hnext _ (choices.drop (i+1)) hbefore hp
  rwa [← List.drop_eq_getElem_cons hi, List.take_append_drop] at h

end Choices

/-- One of several is reached by its place among them. -/
theorem Takes.nth (choices : List Pattern) (i : Nat) (hi : i < choices.length)
    (hbefore : ∀ q ∈ choices.take i, q.Misses input)
    (hp : choices[i].Takes input rest found) :
    (Pattern.firstOf choices).Takes input rest found :=
  firstOf_nth (·.Takes input rest found) (·.Misses input) Takes.choice Misses.choice choices i hi
    hbefore hp

/-- A text that comes next is taken. -/
theorem takes_text (chars rest : List Char) :
    (Pattern.text chars).Takes (chars ++ rest) rest Nothing := by
  intro s hs
  suffices h : ∃ t, s.takeText chars = Option.some t ∧ t.rest = rest ∧
      t.margin = s.margin ∧ t.phrases = s.phrases by
    obtain ⟨t, ht, hrest, hmargin, hphrases⟩ := h
    exact ⟨t, [], matches_text ht, .inl hrest, hmargin, hphrases, rfl⟩
  induction chars generalizing s with
  | nil => exact ⟨s, rfl, hs, rfl, rfl⟩
  | cons c more ih =>
      obtain ⟨t, ht, h⟩ := ih (s.take c (more ++ rest)) rfl
      exact ⟨t, by simp [State.takeText, hs, ht], h⟩

/-! ### Repetitions -/

theorem Repeats.none (p : Pattern) (input : List Char) : p.Repeats input input Nothing := by
  intro s hs
  exact ⟨s, [], .none s, hs, rfl, rfl, rfl⟩

theorem Repeats.mono (h : p.Repeats input rest found)
    (himp : ∀ phrases, found phrases → found' phrases) : p.Repeats input rest found' := by
  intro s hs
  obtain ⟨t, phrases, ht, hrest, hmargin, hphrases, hfound⟩ := h s hs
  exact ⟨t, phrases, ht, hrest, hmargin, hphrases, himp phrases hfound⟩

/-- One round. -/
theorem Takes.repeats (h : p.Takes (clear input) rest found) :
    p.Repeats input rest found := by
  intro s hs
  obtain ⟨t, phrases, ht, hrest, hmargin, hphrases, hfound⟩ :=
    h (s.skip .loose) (by simp [hs.clear_eq])
  refine ⟨t, phrases, .more ht (.none t), hrest, ?_, ?_, hfound⟩
  · rw [hmargin, State.skip_margin]
  · rw [hphrases, State.skip_phrases]

theorem Repeats.trans (h : p.Repeats input mid found) (h' : p.Repeats mid rest found') :
    p.Repeats input rest (Both found found') := by
  intro s hs
  obtain ⟨t, before, ht, hmid, htm, htp, hbefore⟩ := h s hs
  obtain ⟨u, after, hu, hrest, hum, hup, hafter⟩ := h' t hmid
  refine ⟨u, before ++ after, ht.trans hu, hrest, hum.trans htm, ?_,
    before, after, rfl, hbefore, hafter⟩
  rw [hup, htp, List.reverse_append, List.append_assoc]

/-- A repetition takes the text of its rounds, up to where no further round can
start. -/
theorem Repeats.many (hq : q.Repeats mid rest found) (hstop : q.Misses (clear rest)) :
    (Pattern.many q).Takes (clear mid) rest found := by
  intro s hs
  obtain ⟨t, phrases, ht, hrest, hmargin, hphrases, hfound⟩ := hq s (.inr hs)
  have hend : q.Fails .loose (t.skip .loose) := hstop _ (by simp [hrest.clear_eq])
  have hskip : s.skip .loose = s := State.skip_of_clear (by rw [hs, clear_clear])
  refine ⟨t, phrases, ?_, hrest, hmargin, hphrases, hfound⟩
  cases ht with
  | none =>
      rw [hskip] at hend
      exact hend.many
  | more first last =>
      rw [hskip] at first
      exact last.many first hend

/-- **A part and its repetition.**  A pattern followed by the rounds of
another takes the text up to where no further round can start. -/
theorem Takes.seq_many (hp : p.Takes input mid found) (hq : q.Repeats mid rest found')
    (hstop : q.Misses (clear rest)) :
    (Pattern.seq p (.many q)).Takes input rest (Both found found') :=
  hp.seq (hq.many hstop)

/-- Blanks at the end do not matter. -/
theorem Takes.of_clear (h : p.Takes input (clear rest) found) : p.Takes input rest found := by
  intro s hs
  obtain ⟨t, phrases, ht, hrest, h⟩ := h s hs
  refine ⟨t, phrases, ht, .inr ?_, h⟩
  rcases hrest with hrest | hrest
  · exact hrest
  · rw [hrest, clear_clear]

/-- An optional part that is not there. -/
theorem Takes.seq_opt_misses (hp : p.Takes input rest found) (hq : q.Misses (clear rest)) :
    (Pattern.seq p (.opt q)).Takes input rest (Both found Nothing) :=
  (hp.seq hq.opt).of_clear

/-- The phrases of several parts, one after the other. -/
def Each {ι : Type} (found : ι → List Phrase → Prop) : List ι → List Phrase → Prop
  | [] => Nothing
  | item :: items => Both (found item) (Each found items)

/-- Items seen through a function. -/
theorem Each.map {ι κ : Type} {f : ι → κ} {found : κ → List Phrase → Prop} {items : List ι}
    {phrases : List Phrase} (h : Each (fun item => found (f item)) items phrases) :
    Each found (items.map f) phrases := by
  induction items generalizing phrases with
  | nil => exact h
  | cons item items ih =>
      obtain ⟨before, after, rfl, hbefore, hafter⟩ := h
      exact ⟨before, after, rfl, hbefore, ih hafter⟩

/-- **Round after round.**  A text made of items is read by a repetition, if
each is read where the next one, or the rest, comes after it. -/
theorem repeats_flatMap {ι : Type} {spell : ι → List Char} {found : ι → List Phrase → Prop}
    {ready : List Char → Prop} {items : List ι} (hrest : ready rest)
    (hspell : ∀ item ∈ items, ∀ more, ready (spell item ++ more))
    (hitem : ∀ item ∈ items, ∀ more, ready more →
      p.Takes (clear (spell item ++ more)) more (found item)) :
    p.Repeats (items.flatMap spell ++ rest) rest (Each found items) := by
  induction items with
  | nil => exact Repeats.none p rest
  | cons item items ih =>
      have hready : ready (items.flatMap spell ++ rest) := by
        cases items with
        | nil => exact hrest
        | cons next items =>
            rw [List.flatMap_cons, List.append_assoc]
            exact hspell next (by simp) _
      have hfirst := (hitem item (by simp) _ hready).repeats
      have hlater := ih (fun other ho => hspell other (by simp [ho]))
        (fun other ho => hitem other (by simp [ho]))
      rw [List.flatMap_cons, List.append_assoc]
      exact hfirst.trans hlater

/-- A repetition takes nothing where its part misses. -/
theorem Misses.many (hp : p.Misses input) : (Pattern.many p).Takes input input Nothing := by
  intro s hs
  exact ⟨s, [], (hp s hs).many, .inl hs, rfl, rfl, rfl⟩

/-- Several choices miss where each of them does. -/
theorem Misses.firstOf {choices : List Pattern} (hne : choices ≠ [])
    (h : ∀ q ∈ choices, q.Misses input) : (Pattern.firstOf choices).Misses input := by
  induction choices with
  | nil => exact absurd rfl hne
  | cons q choices ih =>
      cases choices with
      | nil => exact h q (by simp)
      | cons next choices =>
          exact (h q (by simp)).choice_misses (ih (by simp) fun other ho => h other (by simp [ho]))

/-! ### Rules -/

/-- One phrase of the rule, whose parts have the property. -/
def Phrased (r : Rule) (found : List Phrase → Prop) (phrases : List Phrase) : Prop :=
  ∃ start stop text parts, phrases = [.mk r start stop text parts] ∧ found parts

/-- A rule without a spacing of its own, or a loose one, takes what its
pattern takes, and makes it a phrase. -/
theorem Takes.rule {r : Rule} (hinside : r.inside .loose = .loose)
    (hkept : r.definition.kept = true)
    (h : r.definition.pattern.Takes input rest found) :
    (Pattern.rule r).Takes input rest (Phrased r found) := by
  intro s hs
  obtain ⟨t, parts, ht, hrest, hmargin, hparts, hfound⟩ :=
    h (s.openRule r .loose) (by simpa [State.openRule] using hs)
  have hrule : (Pattern.rule r).Matches .loose s (State.afterRule r .loose s t) :=
    Matches.rule (by rwa [hinside])
  refine ⟨_, [.mk r s.place t.place (s.textUpTo t) parts], hrule, ?_, ?_, ?_, ?_⟩
  · simpa [State.afterRule, State.closeRule] using hrest
  · simpa [State.afterRule, State.closeRule, State.openRule] using hmargin
  · simp [State.afterRule, State.closeRule, hkept, hparts, State.openRule]
  · exact ⟨_, _, _, parts, rfl, hfound⟩

/-- A loosely spaced rule misses with its pattern. -/
theorem Misses.rule {r : Rule} (hinside : r.inside .loose = .loose)
    (h : r.definition.pattern.Misses input) : (Pattern.rule r).Misses input := by
  intro s hs
  apply Fails.rule
  rw [hinside]
  apply h
  simp only [State.openRule]
  split <;> exact hs

end Pattern

end FunctionIR.Grammar
