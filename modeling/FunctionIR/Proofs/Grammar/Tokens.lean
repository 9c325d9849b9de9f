import FunctionIR.Proofs.Grammar.Refusal

/-!
# Tokens

Inside a token no blanks are skipped and no phrases are made, so a match of
its pattern is told exactly by the text: `Pattern.Spells` says which text the
pattern takes before which rest, `Pattern.Rejects` before which text it fails.

A word of the language and a name exclude each other: where a name stands, no
other word is read (`rejects_word`), even if the word begins the name, because
a word must not run on.
-/

namespace FunctionIR.Grammar

/-- The state behind a text, before the rest. -/
def State.past (s : State) (text rest : List Char) : State :=
  { s with rest := rest, place := text.foldl Place.after s.place }

@[simp]
theorem State.past_rest (s : State) (text rest : List Char) :
    (s.past text rest).rest = rest := rfl

/-- Past one text and then another is past both. -/
@[simp]
theorem State.past_past (s : State) (text more rest rest' : List Char) :
    (s.past text rest).past more rest' = s.past (text ++ more) rest' := by
  simp [State.past]

/-- Every character moves the place on by one. -/
theorem Place.offset_foldl (text : List Char) (place : Place) :
    (text.foldl Place.after place).offset = place.offset + text.length := by
  induction text generalizing place with
  | nil => rfl
  | cons c text ih =>
      rw [List.foldl_cons, ih, List.length_cons]
      have hone : (place.after c).offset = place.offset + 1 := by
        unfold Place.after
        split <;> rfl
      omega

/-- What lies between a state and the state behind a text is the text. -/
theorem State.textUpTo_past {s : State} {text rest : List Char}
    (h : s.rest = text ++ rest) : s.textUpTo (s.past text rest) = text := by
  simp [State.textUpTo, State.past, Place.offset_foldl, h]

/-- A text is taken where it comes next. -/
theorem State.takeText_append {s : State} {text rest : List Char}
    (h : s.rest = text ++ rest) : s.takeText text = some (s.past text rest) := by
  induction text generalizing s with
  | nil =>
      subst h
      rfl
  | cons c text ih =>
      simp only [List.cons_append] at h
      simp only [State.takeText, h, ↓reduceIte]
      rw [ih rfl]
      rfl

/-- A text is not taken where something else comes next. -/
theorem State.takeText_eq_none {s : State} {text : List Char}
    (h : ¬ text <+: s.rest) : s.takeText text = none := by
  induction text generalizing s with
  | nil => exact absurd List.nil_prefix h
  | cons c text ih =>
      rw [State.takeText]
      cases hs : s.rest with
      | nil => rfl
      | cons d rest =>
          simp only
          split
          next heq =>
            apply ih
            rintro ⟨more, hmore⟩
            exact h ⟨more, by simpa [hs, heq, State.take] using hmore⟩
          next => rfl

/-- Taking a text means that it comes next and ends behind it. -/
theorem State.takeText_eq_some_iff {s t : State} {text : List Char} :
    s.takeText text = some t ↔ ∃ rest, s.rest = text ++ rest ∧ t = s.past text rest := by
  constructor
  · intro h
    by_cases hpre : text <+: s.rest
    · obtain ⟨rest, hrest⟩ := hpre
      rw [takeText_append hrest.symm] at h
      cases h
      exact ⟨rest, hrest.symm, rfl⟩
    · rw [takeText_eq_none hpre] at h
      cases h
  · rintro ⟨rest, hrest, rfl⟩
    exact takeText_append hrest

/-- The blanks that are skipped are the same wherever the text stands. -/
theorem skipBlanks_eq (text : List Char) :
    ∃ blanks, text = blanks ++ clear text ∧
      ∀ place, skipBlanks place text = (clear text, blanks.foldl Place.after place) := by
  have hsnd : ∃ blanks, text = blanks ++ clear text ∧
      ∀ place, (skipBlanks place text).2 = blanks.foldl Place.after place := by
    rw [clear]
    generalize Place.origin = origin
    fun_induction skipBlanks origin text with
    | case1 origin rest ih =>
        obtain ⟨blanks, hrest, hplace⟩ := ih
        exact ⟨' ' :: blanks, congrArg _ hrest, fun place => by rw [skipBlanks, hplace]; rfl⟩
    | case2 origin rest ih =>
        obtain ⟨blanks, hrest, hplace⟩ := ih
        exact ⟨'\t' :: blanks, congrArg _ hrest, fun place => by rw [skipBlanks, hplace]; rfl⟩
    | case3 origin rest ih =>
        obtain ⟨blanks, hrest, hplace⟩ := ih
        exact ⟨'\\' :: '\n' :: blanks, congrArg (['\\', '\n'] ++ ·) hrest,
          fun place => by rw [skipBlanks, hplace]; rfl⟩
    | case4 origin rest ih =>
        obtain ⟨blanks, hrest, hplace⟩ := ih
        exact ⟨'\\' :: '\r' :: '\n' :: blanks, congrArg (['\\', '\r', '\n'] ++ ·) hrest,
          fun place => by rw [skipBlanks, hplace]; rfl⟩
    | case5 origin rest hne ih =>
        obtain ⟨blanks, hrest, hplace⟩ := ih
        refine ⟨'\\' :: '\r' :: blanks, congrArg (['\\', '\r'] ++ ·) hrest, fun place => ?_⟩
        rw [skipBlanks, hplace]
        · rfl
        · exact hne
    | case6 origin rest h1 h2 h3 h4 h5 =>
        exact ⟨[], rfl, fun place => by rw [skipBlanks] <;> first | rfl | assumption⟩
  obtain ⟨blanks, htext, hplace⟩ := hsnd
  exact ⟨blanks, htext, fun place => Prod.ext (skipBlanks_fst place text) (hplace place)⟩

namespace Pattern

/-- Inside a token and before the rest, the pattern takes exactly the text. -/
def Spells (p : Pattern) (text rest : List Char) : Prop :=
  ∀ s : State, s.rest = text ++ rest → p.Matches .token s (s.past text rest)

/-- Inside a token, the pattern does not match where the input comes next. -/
def Rejects (p : Pattern) (input : List Char) : Prop :=
  ∀ s : State, s.rest = input → p.Fails .token s

variable {p q : Pattern} {text more rest input : List Char}

/-- What is refused by what lies ahead is rejected. -/
theorem rejects_of_refuses {n : Nat} (ahead : Outlook)
    (h : p.refuses n ahead = true) (hblank : ahead.blank = false)
    (hs : ahead.sees input) : p.Rejects input :=
  fun s hinput => fails_of_refuses h hblank (by rwa [hinput]) .token

/-- What is refused by what lies ahead is missed. -/
theorem misses_of_refuses {n : Nat} (ahead : Outlook)
    (h : p.refuses n ahead = true) (hblank : ahead.blank = false)
    (hs : ahead.sees input) : p.Misses input :=
  fun s hinput => fails_of_refuses h hblank (by rwa [hinput]) .loose

/-- A fixed text spells itself. -/
theorem spells_text (text : List Char) : (Pattern.text text).Spells text rest :=
  fun _ hs => matches_text (State.takeText_append hs)

/-- A fixed text rejects whatever does not begin with it. -/
theorem rejects_text (h : ¬ text <+: input) : (Pattern.text text).Rejects input :=
  fun s hs => fails_text (State.takeText_eq_none (by rwa [hs]))

/-- A class spells each character it holds. -/
theorem spells_one {set : CharClass} {c : Char} (h : set.holds c = true) :
    (Pattern.one set).Spells [c] rest :=
  fun _ hs => matches_one hs h

/-- A class rejects every other character. -/
theorem rejects_one {set : CharClass}
    (h : ∀ c more, input = c :: more → set.holds c = false) :
    (Pattern.one set).Rejects input :=
  fun _ hs => fails_one (by simpa [hs] using h)

/-- Two parts spell one text after the other, with nothing between them. -/
theorem Spells.seq (hp : p.Spells text (more ++ rest)) (hq : q.Spells more rest) :
    (Pattern.seq p q).Spells (text ++ more) rest := by
  intro s hs
  have hp' := hp s (by rw [hs, List.append_assoc])
  have hq' := hq (s.past text (more ++ rest)) rfl
  rw [State.past_past] at hq'
  exact hp'.seq hq'

/-- A sequence rejects with its first part. -/
theorem Rejects.seq (hp : p.Rejects input) : (Pattern.seq p q).Rejects input :=
  fun s hs => (hp s hs).seq

/-- A sequence rejects with its second part. -/
theorem Spells.seq_rejects (hp : p.Spells text rest) (hq : q.Rejects rest) :
    (Pattern.seq p q).Rejects (text ++ rest) :=
  fun s hs => (hp s hs).seq_fails (hq _ rfl)

/-- A choice spells what its first part spells. -/
theorem Spells.choice (hp : p.Spells text rest) : (Pattern.choice p q).Spells text rest :=
  fun s hs => (hp s hs).choice

/-- A choice spells what its second part spells where the first rejects. -/
theorem Rejects.choice (hp : p.Rejects (text ++ rest)) (hq : q.Spells text rest) :
    (Pattern.choice p q).Spells text rest :=
  fun s hs => (hp s hs).choice (hq s hs)

/-- A choice rejects what both parts reject. -/
theorem Rejects.choice_rejects (hp : p.Rejects input) (hq : q.Rejects input) :
    (Pattern.choice p q).Rejects input :=
  fun s hs => (hp s hs).choice_fails (hq s hs)

/-- An optional part spells what it spells by itself. -/
theorem Spells.opt (hp : p.Spells text rest) : (Pattern.opt p).Spells text rest :=
  fun s hs => (hp s hs).opt

/-- Behind the empty text a state is the same. -/
theorem past_nil {s : State} (hs : s.rest = [] ++ rest) : s.past [] rest = s := by
  subst hs
  rfl

/-- An optional part spells nothing where it is rejected. -/
theorem Rejects.opt (hp : p.Rejects rest) : (Pattern.opt p).Spells [] rest := by
  intro s hs
  rw [past_nil hs]
  exact (hp s hs).opt

/-- A guard spells nothing where what it guards against is rejected. -/
theorem Rejects.absent (hp : p.Rejects rest) : (Pattern.absent p).Spells [] rest := by
  intro s hs
  rw [past_nil hs]
  exact (hp s hs).absent

/-- A guard rejects what it guards against. -/
theorem Spells.absent (hp : p.Spells text rest) : (Pattern.absent p).Rejects (text ++ rest) :=
  fun s hs => (hp s hs).absent

/-- A repetition spells nothing where its part is rejected. -/
theorem Rejects.many (hp : p.Rejects rest) : (Pattern.many p).Spells [] rest := by
  intro s hs
  rw [past_nil hs]
  exact (hp s hs).many

/-- One round more at the start of a repetition. -/
theorem Spells.many (hp : p.Spells text (more ++ rest)) (hmany : (Pattern.many p).Spells more rest) :
    (Pattern.many p).Spells (text ++ more) rest := by
  intro s hs
  have hfirst := hp s (by rw [hs, List.append_assoc])
  have hrest := hmany (s.past text (more ++ rest)) rfl
  rw [State.past_past] at hrest
  exact hfirst.many_cons rfl hrest

/-- One round for every item of a list. -/
theorem spells_many {α : Type} {spell : α → List Char} {items : List α}
    (hitems : ∀ item ∈ items, ∀ more, p.Spells (spell item) more)
    (hstop : p.Rejects rest) : (Pattern.many p).Spells (items.flatMap spell) rest := by
  induction items with
  | nil => exact hstop.many
  | cons item items ih =>
      exact (hitems item (by simp) _).many (ih fun other h => hitems other (by simp [h]))

/-- Characters of a set, up to one that is not in it. -/
theorem spells_many_one {set : CharClass} (hall : ∀ c ∈ text, set.holds c = true)
    (hrest : ∀ c more, rest = c :: more → set.holds c = false) :
    (Pattern.many (.one set)).Spells text rest := by
  induction text with
  | nil => exact (rejects_one hrest).many
  | cons c text ih =>
      exact (spells_one (hall c (by simp))).many (ih fun d hd => hall d (by simp [hd]))

/-! ### Words and names -/

/-- A word can end before the rest. -/
def Bounded (rest : List Char) : Prop :=
  ∀ c more, rest = c :: more → CharClass.nameChar.holds c = false

/-- The text consists of letters, digits and underscores. -/
def IsWord (text : List Char) : Prop := ∀ c ∈ text, CharClass.nameChar.holds c = true

/-- Whether a text is a word can be seen from its characters. -/
instance (chars : List Char) : Decidable (IsWord chars) :=
  List.decidableBAll (fun c => CharClass.nameChar.holds c = true) chars

/-- A word is spelled where it is bounded. -/
theorem spells_word (word : String) (hrest : Bounded rest) :
    (parts [lit word, wordEnd]).Spells word.toList rest := by
  have h : (parts [lit word, wordEnd]).Spells (word.toList ++ []) rest :=
    (spells_text _).seq (rejects_one hrest).absent
  rwa [List.append_nil] at h

/-- Where a name begins with a word and goes on, or does not begin with it,
the word is not read. -/
theorem wordEnd_rejects {name word more : List Char} (hname : IsWord name)
    (hword : IsWord word) (hne : name ≠ word) (hrest : Bounded rest)
    (h : name ++ rest = word ++ more) : wordEnd.Rejects more := by
  rcases List.append_eq_append_iff.mp h with ⟨tail, hw, hr⟩ | ⟨tail, hn, hm⟩
  · cases tail with
    | nil => exact absurd (by simpa using hw.symm) hne
    | cons c tail =>
        have hc := hrest c (tail ++ more) hr
        rw [hword c (by simp [hw])] at hc
        cases hc
  · cases tail with
    | nil => exact absurd (by simpa using hn) hne
    | cons c tail =>
        rw [hm]
        have hc : CharClass.nameChar.holds c = true := hname c (by simp [hn])
        have hone : (Pattern.one .nameChar).Spells [c] (tail ++ rest) := spells_one hc
        exact hone.absent

/-- **Where a name stands no other word is read.** -/
theorem rejects_word {name : List Char} {word : String} (hname : IsWord name)
    (hword : IsWord word.toList) (hne : name ≠ word.toList) (hrest : Bounded rest) :
    (parts [lit word, wordEnd]).Rejects (name ++ rest) := by
  by_cases hpre : word.toList <+: name ++ rest
  · obtain ⟨more, hmore⟩ := hpre
    rw [← hmore]
    exact (spells_text _).seq_rejects (wordEnd_rejects hname hword hne hrest hmore.symm)
  · exact (rejects_text hpre).seq

/-- The first of several words that comes next is read, if there is one. -/
theorem firstOf_words (words : List String) (input : List Char) :
    (firstOf (words.map lit)).Rejects input ∨
      ∃ word ∈ words, ∃ more, input = word.toList ++ more ∧
        (firstOf (words.map lit)).Spells word.toList more := by
  induction words with
  | nil =>
      have hempty : (Pattern.text []).Spells [] input := spells_text []
      exact .inl hempty.absent
  | cons word words ih =>
      by_cases hpre : word.toList <+: input
      · obtain ⟨more, hmore⟩ := hpre
        refine .inr ⟨word, by simp, more, hmore.symm, ?_⟩
        cases words with
        | nil => exact spells_text _
        | cons => exact (spells_text _).choice
      · have hword : (lit word).Rejects input := rejects_text hpre
        cases words with
        | nil => exact .inl hword
        | cons next words =>
            rcases ih with h | ⟨other, hmem, more, hinput, h⟩
            · exact .inl (hword.choice_rejects h)
            · refine .inr ⟨other, List.mem_cons_of_mem _ hmem, more, hinput, ?_⟩
              subst hinput
              exact hword.choice h

/-- Where a name stands that is none of the words, none of them is read. -/
theorem rejects_words {name : List Char} {words : List String} (hname : IsWord name)
    (hwords : ∀ word ∈ words, IsWord word.toList ∧ name ≠ word.toList)
    (hrest : Bounded rest) :
    (parts [firstOf (words.map lit), wordEnd]).Rejects (name ++ rest) := by
  rcases firstOf_words words (name ++ rest) with h | ⟨word, hmem, more, hinput, h⟩
  · exact h.seq
  · obtain ⟨hword, hne⟩ := hwords word hmem
    rw [hinput]
    exact h.seq_rejects (wordEnd_rejects hname hword hne hrest hinput)

/-- What is a word before a rest is a word alone. -/
theorem prefix_of_bounded {name word : List Char} (hname : IsWord name)
    (hrest : Bounded rest) (h : name <+: word ++ rest) : name <+: word := by
  obtain ⟨more, hmore⟩ := h
  rcases List.append_eq_append_iff.mp hmore.symm with ⟨tail, hn, hr⟩ | ⟨tail, hw, -⟩
  · cases tail with
    | nil => exact ⟨[], by simpa using hn⟩
    | cons c tail =>
        have hc := hrest c (tail ++ more) hr
        rw [hname c (by simp [hn])] at hc
        cases hc
  · exact ⟨tail, hw.symm⟩

/-- One of several is reached by its place among them. -/
theorem Spells.nth (choices : List Pattern) (i : Nat) (hi : i < choices.length)
    (hbefore : ∀ q ∈ choices.take i, q.Rejects (text ++ rest))
    (hp : choices[i].Spells text rest) : (Pattern.firstOf choices).Spells text rest :=
  firstOf_nth (·.Spells text rest) (·.Rejects (text ++ rest)) Spells.choice Rejects.choice choices i
    hi hbefore hp

/-- One of several words is read if the text begins with none of those before
it. -/
theorem spells_oneOf (words : List String) {word : String} (hmem : word ∈ words)
    (h : ∀ other ∈ words.takeWhile (· != word), ¬ other.toList <+: word.toList ++ rest) :
    (Pattern.firstOf (words.map lit)).Spells word.toList rest := by
  obtain ⟨before, after, hsplit, hbefore⟩ := List.eq_append_cons_of_mem hmem
  have htake : words.takeWhile (· != word) = before := by
    rw [hsplit, List.takeWhile_append_of_pos]
    · simp
    · intro other hother
      have hne : other ≠ word := fun heq => hbefore (heq ▸ hother)
      simpa using hne
  rw [htake] at h
  rw [hsplit, List.map_append, List.map_cons]
  refine firstOf_split (·.Spells _ rest) (·.Rejects (_ ++ rest)) Spells.choice Rejects.choice _ _
    ?_ (spells_text _)
  intro q hq
  obtain ⟨other, hother, rfl⟩ := List.mem_map.mp hq
  exact rejects_text (h other hother)

/-! ### Token rules -/

/-- One phrase of the rule, with the text and without parts. -/
def Leaf (r : Rule) (text : List Char) (phrases : List Phrase) : Prop :=
  ∃ start stop, phrases = [.mk r start stop text []]

variable {r : Rule}

/-- A rule that is seen from outside, and whose pattern matches a text exactly,
takes the text. -/
private theorem takes_exactly
    (h : ∀ s : State, s.rest = text ++ rest →
      r.definition.pattern.Matches (r.inside .loose) s (s.past text rest)) :
    (Pattern.rule r).Takes (text ++ rest) rest fun phrases =>
      if r.definition.kept = true then Leaf r text phrases else phrases = [] := by
  intro s hs
  have hopen : s.openRule r .loose = { s with phrases := [] } := by
    simp [State.openRule]
  have hpattern := h (s.openRule r .loose) (by rw [hopen]; exact hs)
  have htext : s.textUpTo ((s.openRule r .loose).past text rest) = text := by
    rw [hopen]
    exact State.textUpTo_past hs
  have hafter : State.afterRule r .loose s ((s.openRule r .loose).past text rest) =
      { s.past text rest with
        phrases := if r.definition.kept = true then
          .mk r s.place (s.past text rest).place text [] :: s.phrases else s.phrases } := by
    simp only [State.afterRule, Rule.visible_loose, State.closeRule, ↓reduceIte, htext]
    simp [hopen, State.past]
  refine ⟨_, if r.definition.kept = true then
    [.mk r s.place (s.past text rest).place text []] else [], Matches.rule hpattern, .inl ?_,
    ?_, ?_, ?_⟩
  · rw [hafter, State.past]
  · rw [hafter, State.past]
  · rw [hafter]
    split <;> rfl
  · split
    next => exact ⟨_, _, rfl⟩
    next => rfl

/-- Between blanks, a token rule takes what its pattern spells. -/
theorem Spells.token (hinside : r.inside .loose = .token)
    (hkept : r.definition.kept = true) (h : r.definition.pattern.Spells text rest) :
    (Pattern.rule r).Takes (text ++ rest) rest (Leaf r text) := by
  have htakes := takes_exactly (r := r) fun s hs => by rw [hinside]; exact h s hs
  simpa only [hkept, ↓reduceIte] using htakes

/-- A token that is not kept leaves no phrase. -/
theorem Spells.mute (hinside : r.inside .loose = .token)
    (hkept : r.definition.kept = false) (h : r.definition.pattern.Spells text rest) :
    (Pattern.rule r).Takes (text ++ rest) rest Nothing := by
  have htakes := takes_exactly (r := r) fun s hs => by rw [hinside]; exact h s hs
  simp only [hkept, Bool.false_eq_true, ↓reduceIte] at htakes
  exact htakes

/-- The pattern has no parts between which blanks could stand. -/
def flat : Pattern → Bool
  | .text _ | .one _ => true
  | .choice p q => p.flat && q.flat
  | _ => false

/-- Without such parts the spacing does not matter. -/
theorem outcome_flat {spacing : Spacing} (h : p.flat = true) (n : Nat) (s : State) :
    p.outcome n spacing s = p.outcome n .token s := by
  induction p generalizing n with
  | text | one => cases n <;> rfl
  | choice p q ihp ihq =>
      simp only [flat, Bool.and_eq_true] at h
      cases n with
      | zero => rfl
      | succ n => rw [outcome_choice, outcome_choice, ihp h.1, ihq h.2]
  | _ => cases h

/-- An operator, too, is taken exactly. -/
theorem Spells.plain (hkept : r.definition.kept = true) (hflat : r.definition.pattern.flat = true)
    (h : r.definition.pattern.Spells text rest) :
    (Pattern.rule r).Takes (text ++ rest) rest (Leaf r text) := by
  have htakes := takes_exactly (r := r) fun s hs => by
    obtain ⟨n, hn⟩ := h s hs
    exact ⟨n, by rw [outcome_flat hflat, hn]⟩
  simpa only [hkept, ↓reduceIte] using htakes

/-- A token is missed with its pattern. -/
theorem Rejects.token (hinside : r.inside .loose = .token)
    (h : r.definition.pattern.Rejects input) : (Pattern.rule r).Misses input := by
  intro s hs
  apply Fails.rule
  rw [hinside]
  apply h
  simp only [State.openRule]
  split <;> exact hs

/-- A token rule inside a token is its pattern. -/
theorem Rejects.inner (hinside : r.inside .token = .token)
    (h : r.definition.pattern.Rejects input) : (Pattern.rule r).Rejects input := by
  intro s hs
  apply Fails.rule
  rw [hinside]
  apply h
  simp only [State.openRule]
  split <;> exact hs

/-- A token inside a token is spelled as its pattern. -/
theorem Spells.inner (hinside : r.inside .token = .token)
    (h : r.definition.pattern.Spells text rest) : (Pattern.rule r).Spells text rest := by
  intro s hs
  have hvisible : r.visible .token = false := by simp [Rule.visible, hinside]
  have hpattern := h s hs
  have hrule : (Pattern.rule r).Matches .token s (s.afterRule r .token (s.past text rest)) :=
    Matches.rule (by rw [hinside, State.openRule, hvisible]; exact hpattern)
  simpa [State.afterRule, hvisible] using hrule

/-- A word of the language is taken, and is a phrase. -/
theorem takes_word (word : String) (h : r.definition = Grammar.word word)
    (hrest : Bounded rest) :
    (Pattern.rule r).Takes (word.toList ++ rest) rest (Leaf r word.toList) := by
  apply Spells.token
  · simp [Rule.inside, h, Grammar.word, Grammar.token]
  · simp [h, Grammar.word, Grammar.token]
  · simpa [h, Grammar.word, Grammar.token] using spells_word _ hrest

/-- A word that is not kept is taken, and leaves no phrase. -/
theorem takes_mute_word (word : String) (h : r.definition = (Grammar.word word).mute)
    (hrest : Bounded rest) :
    (Pattern.rule r).Takes (word.toList ++ rest) rest Nothing := by
  apply Spells.mute
  · simp [Rule.inside, h, Grammar.word, Grammar.token, Definition.mute]
  · simp [h, Definition.mute]
  · simpa [h, Grammar.word, Grammar.token, Definition.mute] using spells_word _ hrest

end Pattern

end FunctionIR.Grammar
