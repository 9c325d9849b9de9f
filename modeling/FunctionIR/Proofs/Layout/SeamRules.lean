import FunctionIR.Proofs.Layout.SeamTokens

/-!
# Texts that differ in a run of blanks

Two texts that are the same but for the run of blanks at a seam get the same
answer (`Swap.sameAnswer`).  A match of the one is followed by a match of the
other: before the run as long as tokens go on there, and behind it from where
blanks are skipped at the seam (`Swap.Across`).

Where the words of an operator stand on both sides of the seam, the operator
itself comes across the run.  Its text is not the same in both texts then, but
it has the same sense.
-/

namespace FunctionIR.Grammar

open Pattern

/-! ### The sense of an operator -/

section

open Reading

variable {run word rest : List Char} {c : Char}

/-- A letter, digit or underscore is no blank. -/
theorem isBlank_of_nameChar (hc : CharClass.nameChar.holds c = true) :
    Text.isBlank c = false := by
  change (decide ('A'.toNat ≤ c.toNat ∧ c.toNat ≤ 'Z'.toNat) ||
    (decide ('a'.toNat ≤ c.toNat) && decide (c.toNat ≤ 'z'.toNat)) ||
    (decide ('0'.toNat ≤ c.toNat) && decide (c.toNat ≤ '9'.toNat)) || c == '_') = true at hc
  have hrange : 48 ≤ c.toNat ∧ c.toNat ≤ 122 := by
    simp only [Bool.or_eq_true, Bool.and_eq_true, decide_eq_true_eq, beq_iff_eq,
      Char.reduceToNat] at hc
    rcases hc with ((hupper | hlower) | hdigit) | rfl
    · omega
    · omega
    · omega
    · decide
  simp only [Text.isBlank, Text.inRanges, Text.blankRanges, List.any_cons, List.any_nil,
    Bool.or_eq_false_iff, Bool.and_eq_false_iff, decide_eq_false_iff_not, and_true]
  omega

/-- A word is as it is. -/
theorem squeeze_word (hword : IsWord word) : squeeze (word ++ rest) = word ++ squeeze rest := by
  induction word with
  | nil => rfl
  | cons c word ih =>
      obtain ⟨hc, hmore⟩ := List.forall_mem_cons.mp hword
      rw [List.cons_append, squeeze, if_neg (by simp [isBlank_of_nameChar hc]), ih hmore]
      rfl

/-- However many blanks there are, they make one. -/
theorem squeeze_plain (hne : run ≠ []) (hplain : IsPlain run) (hc : Text.isBlank c = false) :
    squeeze (run ++ c :: rest) = ' ' :: c :: squeeze rest := by
  have hblank : ∀ b, CharClass.blank.holds b = true → Text.isBlank b = true := by
    intro b hb
    simp only [CharClass.holds, Bool.or_eq_true, beq_iff_eq] at hb
    rcases hb with rfl | rfl <;> decide
  have hspace : c ≠ ' ' := by
    rintro rfl
    exact absurd hc (by decide)
  induction run with
  | nil => exact absurd rfl hne
  | cons b run ih =>
      obtain ⟨hb, hmore⟩ := List.forall_mem_cons.mp hplain
      rw [List.cons_append, squeeze, if_pos (hblank b hb)]
      by_cases hnil : run = []
      · rw [hnil, List.nil_append, squeeze, if_neg (by simp [hc])]
        simp [hspace]
      · rw [ih hnil hmore]
        rfl

/-- Between two words all plain runs have the same sense. -/
theorem squeeze_words {first second run' : List Char} (hfirst : IsWord first)
    (hsecond : second ≠ [] ∧ IsWord second) (hrun : run ≠ [] ∧ IsPlain run)
    (hrun' : run' ≠ [] ∧ IsPlain run') :
    squeeze (first ++ (run' ++ second)) = squeeze (first ++ (run ++ second)) := by
  obtain ⟨c, second, rfl⟩ := List.exists_cons_of_ne_nil hsecond.1
  have hc := isBlank_of_nameChar (hsecond.2 c List.mem_cons_self)
  rw [squeeze_word hfirst, squeeze_word hfirst, squeeze_plain hrun.1 hrun.2 hc,
    squeeze_plain hrun'.1 hrun'.2 hc]

end

/-! ### The second word of an operator -/

/-- The blanks between the words of an operator, and the second word. -/
def phraseEnd (word : String) : Pattern := parts [.some (.one .blank), lit word, wordEnd]

section

variable {run after later : List Char} {word : String} {u : State}

/-- Behind a plain run the second word is read. -/
theorem matches_phraseEnd (hrun : run ≠ [] ∧ IsPlain run)
    (hword : word.toList ≠ [] ∧ IsWord word.toList) (hlater : Bounded later)
    (hu : u.rest = run ++ (word.toList ++ later)) :
    (phraseEnd word).Matches .token u (u.past (run ++ word.toList) later) := by
  obtain ⟨hne, hplain⟩ := hrun
  obtain ⟨b, run, rfl⟩ := List.exists_cons_of_ne_nil hne
  obtain ⟨hb, hmore⟩ := List.forall_mem_cons.mp hplain
  have hstop : ∀ c more, word.toList ++ later = c :: more → CharClass.blank.holds c = false := by
    obtain ⟨d, chars, hcons⟩ := List.exists_cons_of_ne_nil hword.1
    rw [hcons] at hword ⊢
    intro c more hc
    obtain ⟨rfl, -⟩ := List.cons.inj hc
    exact (Bool.or_eq_false_iff.mp (opensRun_of_nameChar (hword.2 d List.mem_cons_self))).1
  have hblanks : (Pattern.some (.one .blank)).Spells ([b] ++ run) (word.toList ++ later) :=
    (spells_one hb).seq (spells_many_one hmore hstop)
  exact (hblanks.seq (spells_word word hlater)) u (by rw [hu, List.append_assoc]; rfl)

/-- Otherwise it is not read. -/
theorem fails_phraseEnd (hrun : IsRun run) (hafter : StartsSolid after)
    (hword : word.toList ≠ [] ∧ IsWord word.toList)
    (hnone : ¬ (IsPlain run ∧ StartsWithWord after word)) (hu : u.rest = run ++ after) :
    (phraseEnd word).Fails .token u := by
  obtain ⟨blanks, tail, rfl, hblanks, htail⟩ := hrun.exists_plain
  obtain ⟨d, rest, rfl, hd⟩ := hafter
  -- the word is not read behind the plain part of the run
  have hreject : (parts [lit word, wordEnd]).Rejects (tail ++ d :: rest) := by
    by_cases hprefix : word.toList <+: tail ++ d :: rest
    · obtain ⟨later, hlater⟩ := hprefix
      rw [← hlater]
      refine (spells_text _).seq_rejects ?_
      by_cases hbounded : Bounded later
      · rcases htail with rfl | ⟨more, rfl⟩
        · rw [List.append_nil] at hnone
          exact absurd ⟨hblanks, later, hlater.symm, hbounded⟩ hnone
        · obtain ⟨c, chars, hcons⟩ := List.exists_cons_of_ne_nil hword.1
          rw [hcons] at hlater
          obtain ⟨rfl, -⟩ := List.cons.inj hlater
          exact absurd (hword.2 '\\' (by rw [hcons]; exact List.mem_cons_self)) (by decide)
      · have hletter : ∃ c more, later = c :: more ∧ CharClass.nameChar.holds c = true := by
          simpa [Bounded] using hbounded
        obtain ⟨c, more, rfl, hc⟩ := hletter
        have hone : (Pattern.one .nameChar).Spells [c] more := spells_one hc
        exact hone.absent
    · exact (rejects_text hprefix).seq
  have hstop : ∀ c more, tail ++ d :: rest = c :: more → CharClass.blank.holds c = false := by
    intro c more hc
    rcases htail with rfl | ⟨more, rfl⟩
    · obtain ⟨rfl, -⟩ := List.cons.inj hc
      have hlayout := hd.not_isLayout
      simp only [isLayout, opensRun, Bool.or_eq_false_iff] at hlayout
      exact hlayout.1.1
    · obtain ⟨rfl, -⟩ := List.cons.inj hc
      rfl
  rw [List.append_assoc] at hu
  cases blanks with
  | nil =>
      have hfirst : (Pattern.one .blank).Rejects (tail ++ d :: rest) := rejects_one hstop
      exact hfirst.seq.seq u hu
  | cons b blanks =>
      obtain ⟨hb, hmore⟩ := List.forall_mem_cons.mp hblanks
      have hspells : (Pattern.some (.one .blank)).Spells ([b] ++ blanks) (tail ++ d :: rest) :=
        (spells_one hb).seq (spells_many_one hmore hstop)
      exact hspells.seq_rejects hreject u hu

end

/-! ### Across the run -/

namespace Swap

variable {x : Swap} {P Q : Zone → List Char → Prop} {s s' t t' : State} {spacing : Spacing}
  {p : Pattern} {r : Rule} {zone : Zone} {left : List Char}

/-- Both states are before the run, where the zone and what is left are such, or
both are behind it. -/
def Across (x : Swap) (P : Zone → List Char → Prop) (s s' : State) : Prop :=
  x.Early P s s' ∨ x.Late s s'

/-- Behind the run everything is matched alike. -/
theorem Late.agrees (h : x.Late s s')
    (hp : p.builtFrom Displaced.isLeaf (fun r => r ≠ .module) = true) :
    p.Agrees (x.Across Q) spacing s s' :=
  ((Displaced.simulation x.displacement).agrees hp h).mono fun _ _ => .inr

namespace Across

theorem mono (h : x.Across P s s') (himp : ∀ zone left, P zone left → Q zone left) :
    x.Across Q s s' :=
  h.imp_left fun h => h.mono himp

/-- What agrees before the run agrees on both sides of it. -/
theorem agrees (h : x.Across P s s')
    (hp : p.builtFrom Displaced.isLeaf (fun r => r ≠ .module) = true)
    (hearly : x.Early P s s' → p.Agrees (x.Across Q) spacing s s') :
    p.Agrees (x.Across Q) spacing s s' := by
  rcases h with h | h
  · exact hearly h
  · exact h.agrees hp

/-- The phrases found so far are alike. -/
theorem phrases (h : x.Across P s s') : AllAlike Anywhere s.phrases s'.phrases := by
  rcases h with ⟨_, _, h, _⟩ | h
  · exact h.phrases
  · exact h.phrases

theorem freePhrases : FreePhrases Anywhere (x.Across P) := by
  rintro s s' found found' (h | h) hfound
  · exact .inl (Early.freePhrases h hfound)
  · exact .inr (Displaced.freePhrases h hfound)

/-- A rule that is spelled is closed in both texts with the same sense. -/
theorem closed
    (hmatches : r.definition.pattern.Matches (r.inside spacing) (s.openRule r spacing) t)
    (hphrases : AllAlike Anywhere s.phrases s'.phrases)
    (hsense : r.isSpelled = true → r.sense (s'.textUpTo t') = r.sense (s.textUpTo t))
    (h : x.Across P t t') :
    x.Across P (State.afterRule r spacing s t) (State.afterRule r spacing s' t') :=
  freePhrases.closed hmatches trivial trivial (fun _ => hsense) h.phrases hphrases h

/-- **Blanks lead across the run**, where nothing is left before it. -/
theorem skip (hP : ∀ zone blanks left, (∀ c ∈ blanks, isLayout c = true) → left ≠ [] →
      P zone (blanks ++ left) → P (zone.past blanks) left)
    (spacing : Spacing) (h : x.Across P s s') : x.Across P (s.skip spacing) (s'.skip spacing) := by
  rcases h with ⟨zone, left, h, hzone⟩ | h
  · cases spacing with
    | tight | token => exact .inl ⟨zone, left, h, hzone⟩
    | loose =>
        by_cases hne : left = []
        · subst hne
          exact .inr h.skip_across
        · obtain ⟨blanks, left', rfl, hne', hblanks, hskip⟩ := h.skip_loose hne
          exact .inl (hskip.early (hP zone blanks left' hblanks hne' hzone))
  · exact .inr (h.skip x.displacement spacing)

end Across

/-- In the code blanks lead into a gap, if there are any. -/
theorem past_layout {blanks : List Char} (hzone : zone.isCode = true)
    (hblanks : ∀ c ∈ blanks, isLayout c = true) : blanks = [] ∨ zone.past blanks = .gap := by
  by_cases hne : blanks = []
  · exact .inl hne
  · exact .inr (Zone.past_neutral hzone (fun c hc => isNeutral_of_isLayout (hblanks c hc)) hne)

/-- Where a token can start, one can start behind blanks. -/
theorem skip_ready (spacing : Spacing) (h : x.Across Ready s s') :
    x.Across Ready (s.skip spacing) (s'.skip spacing) := by
  refine Across.skip (fun zone blanks left hblanks _ hready => ?_) spacing h
  rcases past_layout hready.isCode hblanks with rfl | hgap
  · exact hready
  · exact .inl hgap

/-- Where nothing goes on, nothing goes on behind blanks. -/
theorem skip_fresh (spacing : Spacing) (h : x.Across Fresh s s') :
    x.Across Fresh (s.skip spacing) (s'.skip spacing) := by
  refine Across.skip (fun zone blanks left hblanks hne hfresh => ⟨?_, hne⟩) spacing h
  rw [hfresh.1]
  exact Zone.past_gap fun c hc => isNeutral_of_isLayout (hblanks c hc)

/-- Blanks in the code lead to the code. -/
theorem skip_coded (spacing : Spacing) (h : x.Across Coded s s') :
    x.Across Coded (s.skip spacing) (s'.skip spacing) := by
  refine Across.skip (fun zone blanks left hblanks _ hcoded => ?_) spacing h
  rcases past_layout hcoded hblanks with rfl | hgap
  · exact hcoded
  · exact coded_of_gap hgap

/-! ### Operators -/

/-- The pattern is a text of neutral characters that no run begins with. -/
def isSymbol : Pattern → Bool
  | .text chars => chars ≠ [] && chars.all fun c => isNeutral c && !opensRun c
  | _ => false

/-- The pattern is that of a word of the language. -/
def isWord : Pattern → Bool
  | .seq (.text chars) q => q = wordEnd && IsWord chars
  | _ => false

namespace Early

/-- A symbol leaves a gap. -/
theorem agrees_symbol (h : x.Early Coded s s') (hp : isSymbol p = true) :
    p.Agrees (x.Early fun zone _ => zone = .gap) spacing s s' := by
  obtain ⟨zone, left, h, hzone⟩ := h
  cases p with
  | text chars =>
      simp only [isSymbol, Bool.and_eq_true, decide_eq_true_eq, List.all_eq_true,
        Bool.not_eq_true'] at hp
      obtain ⟨hne, hchars⟩ := hp
      refine (h.agrees_text fun c hc => (hchars c hc).2).mono ?_
      rintro t t' ⟨left', -, ht⟩
      exact ht.early (Zone.past_neutral hzone (fun c hc => (hchars c hc).1) hne)
  | _ => cases hp

/-- The first of several symbols. -/
theorem agrees_symbols {choices : List Pattern} (hall : choices.all isSymbol = true)
    (h : x.Early Coded s s') : (firstOf choices).Agrees (x.Early Ready) spacing s s' :=
  Agrees.firstOf fun p hp =>
    (h.agrees_symbol (List.all_eq_true.mp hall p hp)).mono fun _ _ ht => ht.mono fun _ _ => .inl

end Early

/-- The states are related, and what lies before them says the same. -/
def SaysSame (x : Swap) (r : Rule) (s s' t t' : State) : Prop :=
  x.Across Ready t t' ∧ r.sense (s'.textUpTo t') = r.sense (s.textUpTo t)

/-- Before the run it is the same text. -/
theorem Early.saysSame (hs : x.Early P s s') (ht : x.Early Ready t t') :
    x.SaysSame r s s' t t' := by
  obtain ⟨zone, left, hs, -⟩ := hs
  refine ⟨.inl ht, ?_⟩
  obtain ⟨zone', left', ht, -⟩ := ht
  rw [hs.textUpTo_eq ht]

/-- At the seam both runs lead to the second word, or none does. -/
theorem Before.agrees_phrase_at_run {first second : String} (h : x.Before zone first.toList s s')
    (hfirst : IsWord first.toList) (hsecond : second.toList ≠ [] ∧ IsWord second.toList)
    (hplain : StartsWithWord x.after second → (IsPlain x.run ↔ IsPlain x.run')) :
    (Pattern.seq (lit first) (phraseEnd second)).Agrees (x.SaysSame .compOp s s') .token s s' := by
  have hmark : ∀ {u : State} {rest}, u.rest = first.toList ++ rest →
      (lit first).Matches .token u (u.past first.toList rest) :=
    fun hu => matches_text (State.takeText_append hu)
  by_cases hstarts : StartsWithWord x.after second
  · by_cases hrun : IsPlain x.run
    · have hrun' := (hplain hstarts).mp hrun
      obtain ⟨later, hafter, hlater⟩ := hstarts
      have hphrase : ∀ {u : State} {run}, run ≠ [] ∧ IsPlain run →
          u.rest = first.toList ++ (run ++ x.after) →
          (Pattern.seq (lit first) (phraseEnd second)).Matches .token u
            (u.past (first.toList ++ (run ++ second.toList)) later) := by
        intro u run hrun hu
        have hend := matches_phraseEnd (u := u.past first.toList (run ++ x.after)) hrun hsecond hlater
          (by rw [State.past_rest, hafter])
        rw [State.past_past] at hend
        exact (hmark hu).seq hend
      rw [← List.append_nil first.toList] at h
      have hlate := Displaced.past x.displacement (h.past first.toList).across second.toList later
      rw [List.append_nil] at h
      simp only [State.past_past, List.append_assoc] at hlate
      refine .of_matches (hphrase ⟨x.isRun.1, hrun⟩ h.rest) (hphrase ⟨x.isRun'.1, hrun'⟩ h.rest')
        ⟨.inr hlate, ?_⟩
      rw [State.textUpTo_past, State.textUpTo_past]
      · exact squeeze_words hfirst hsecond ⟨x.isRun.1, hrun⟩ ⟨x.isRun'.1, hrun'⟩
      · simp [h.rest, hafter]
      · simp [h.rest', hafter]
    · have hrun' : ¬ IsPlain x.run' := fun hrun' => hrun ((hplain hstarts).mpr hrun')
      exact .of_fails
        ((hmark h.rest).seq_fails (fails_phraseEnd x.isRun x.seam.starts hsecond (hrun ·.1) rfl))
        ((hmark h.rest').seq_fails (fails_phraseEnd x.isRun' x.seam.starts hsecond (hrun' ·.1) rfl))
  · exact .of_fails
      ((hmark h.rest).seq_fails (fails_phraseEnd x.isRun x.seam.starts hsecond (hstarts ·.2) rfl))
      ((hmark h.rest').seq_fails (fails_phraseEnd x.isRun' x.seam.starts hsecond (hstarts ·.2) rfl))

/-- **An operator of two words** is before the run, or around it. -/
theorem Before.agrees_phrase (first second : String) (h : x.Before zone left s s')
    (hready : Ready zone left)
    (hfirst : first.toList ≠ [] ∧ IsWord first.toList)
    (hsecond : second.toList ≠ [] ∧ IsWord second.toList)
    (hsplits : EndsInWord x.before first → StartsWithWord x.after second →
      SplitsOperator x.before x.after) :
    (Pattern.seq (lit first) (phraseEnd second)).Agrees (x.SaysSame .compOp s s') .token s s' := by
  by_cases hleft : left = first.toList
  · subst hleft
    refine h.agrees_phrase_at_run hfirst.2 hsecond fun hstarts => x.operator (hsplits ?_ hstarts)
    obtain ⟨used, hbefore, -, hused⟩ := h.read
    obtain ⟨c, more, hcons⟩ := List.exists_cons_of_ne_nil hfirst.1
    refine ⟨used, hbefore, ?_⟩
    rw [hused]
    rw [hcons] at hready
    exact hready.ne_name (hfirst.2 c (hcons ▸ List.mem_cons_self))
  · refine (h.agrees_text fun c hc => opensRun_of_nameChar (hfirst.2 c hc)).seq ?_
    rintro t t' ⟨left', rfl, ht⟩
    have hne : left' ≠ [] := by
      rintro rfl
      exact hleft (List.append_nil _)
    have hunfinished : x.Early Unfinished t t' :=
      ht.early ⟨Zone.isCode_past hready.isCode hfirst.2, hne⟩
    refine (hunfinished.agrees_someBlanks State.skip_token).seq fun u u' hu => ?_
    have hcoded : x.Early Coded u u' := hu.mono fun _ _ hfresh => coded_of_gap hfresh.1
    exact (hcoded.agrees_word hsecond.2).mono fun v v' hv => (h.early hready).saysSame hv

/-- **Operators that compare** have the same sense in both texts. -/
theorem Early.agrees_compOp (h : x.Early Ready s s') :
    Rule.compOp.definition.pattern.Agrees (x.SaysSame .compOp s s') .token s s' := by
  have hcoded : x.Early Coded s s' := h.mono fun _ _ => Ready.isCode
  have hsymbol : ∀ {p}, isSymbol p = true → p.Agrees (x.SaysSame .compOp s s') .token s s' :=
    fun hp => (hcoded.agrees_symbol hp).mono fun t t' ht => h.saysSame (ht.mono fun _ _ => .inl)
  have hword : ∀ {chars}, IsWord chars →
      (Pattern.seq (.text chars) wordEnd).Agrees (x.SaysSame .compOp s s') .token s s' :=
    fun hchars => (hcoded.agrees_word hchars).mono fun t t' ht => h.saysSame ht
  obtain ⟨zone, left, hbefore, hready⟩ := h
  have hnotIn := hbefore.agrees_phrase "not" "in" hready (by decide) (by decide)
    fun hends hstarts => .inl ⟨hends, hstarts⟩
  have hisNot := hbefore.agrees_phrase "is" "not" hready (by decide) (by decide)
    fun hends hstarts => .inr ⟨hends, hstarts⟩
  refine Agrees.firstOf fun p hp => ?_
  simp only [List.mem_cons, List.not_mem_nil, or_false] at hp
  rcases hp with rfl | rfl | rfl | rfl | rfl | rfl | rfl | rfl | rfl | rfl
  · exact hsymbol rfl
  · exact hsymbol rfl
  · exact hsymbol rfl
  · exact hsymbol rfl
  · exact hsymbol rfl
  · exact hsymbol rfl
  · exact hnotIn
  · exact hisNot
  · exact hword (by decide)
  · exact hword (by decide)

/-! ### All rules -/

/-- Opening a rule does not change the text from there on. -/
theorem textUpTo_openRule (s t : State) (r : Rule) (spacing : Spacing) :
    (s.openRule r spacing).textUpTo t = s.textUpTo t := by
  unfold State.openRule
  split <;> rfl

/-- A rule is closed with what its pattern says. -/
theorem Early.agrees_spelled
    (hpattern : ∀ u u', x.Early P u u' →
      r.definition.pattern.Agrees (x.SaysSame r u u') (r.inside spacing) u u')
    (h : x.Early P s s') : (Pattern.rule r).Agrees (x.Across Ready) spacing s s' := by
  refine Agrees.rule (hpattern _ _ (freePhrases.opened h)) fun t t' ht ⟨hacross, hsense⟩ => ?_
  rw [textUpTo_openRule, textUpTo_openRule] at hsense
  have hs : x.Across P s s' := .inl h
  exact Across.closed ht hs.phrases (fun _ => hsense) hacross

/-- A token before the run says the same. -/
theorem Early.agrees_token
    (hpattern : ∀ u u', x.Early P u u' →
      r.definition.pattern.Agrees (x.Early Ready) (r.inside spacing) u u')
    (h : x.Early P s s') : (Pattern.rule r).Agrees (x.Across Ready) spacing s s' :=
  h.agrees_spelled fun u u' hu => (hpattern u u' hu).mono fun _ _ ht => hu.saysSame ht

/-- A rule with a spelling, before the run. -/
theorem Early.agrees_rule (hr : r.isSpelled = true) (h : x.Early Ready s s') :
    (Pattern.rule r).Agrees (x.Across Ready) spacing s s' := by
  have hcoded : ∀ u u', x.Early Ready u u' → x.Early Coded u u' :=
    fun u u' hu => hu.mono fun _ _ => Ready.isCode
  have hnumeric : ∀ u u', x.Early Numeric u u' → x.Early Ready u u' :=
    fun u u' hu => hu.mono fun _ _ hzone => .inr (.inl hzone)
  cases r with
  | sumOp | termOp | unaryOp | augOp =>
      exact h.agrees_token fun u u' hu => (hcoded u u' hu).agrees_symbols rfl
  | identifier => exact h.agrees_token fun u u' hu => (hcoded u u' hu).agrees_identifier
  | integer =>
      refine h.agrees_token fun u u' hu => hu.agrees_wholeDigits.mono fun t t' ht => ?_
      refine hnumeric t t' (ht.mono ?_)
      rintro _ left ⟨rfl, hends⟩
      exact ⟨rfl, hends⟩
  | float => exact h.agrees_token fun u u' hu => hu.agrees_float.mono hnumeric
  | string =>
      exact h.agrees_token fun u u' hu => ((hcoded u u' hu).agrees_stringIn (.inl rfl)).choice
        ((hcoded u u' hu).agrees_stringIn (.inr rfl))
  | compOp => exact h.agrees_spelled fun u u' hu => hu.agrees_compOp
  | _ => cases hr

/-- The name of an attribute is before the run, or behind it if the run follows
the point. -/
theorem Early.agrees_attr (h : x.Early Ready s s') :
    (parts [lit ".", .rule .identifier]).Agrees (x.Across Ready) spacing s s' := by
  obtain ⟨zone, left, h, hready⟩ := h
  have hpoint : (Pattern.text ['.']).Agrees (x.Across Coded) spacing s s' := by
    refine (h.agrees_char fun _ => rfl).mono ?_
    rintro t t' ⟨left', -, ht⟩
    exact .inl (ht.early (Zone.isCode_point hready.isCode))
  refine hpoint.seq fun t t' ht => (skip_coded spacing ht).agrees rfl fun hearly => ?_
  exact hearly.agrees_token fun u u' hu => hu.agrees_identifier

/-- A single equals sign, before the run. -/
theorem Early.agrees_assignOp (h : x.Early Coded s s') :
    (parts [lit "=", .absent (lit "=")]).Agrees (x.Early Ready) .token s s' := by
  refine (h.agrees_symbol (p := lit "=") rfl).seq fun t t' ht => ?_
  have hcoded : x.Early Coded t t' := ht.mono fun _ _ => coded_of_gap
  exact (hcoded.agrees_symbol (p := lit "=") rfl).absent fun _ => ht.mono fun _ _ => .inl

/-- Patterns that agree on both sides of the run and across it. -/
def isLeaf (spacing : Spacing) (p : Pattern) : Bool :=
  p.builtFrom Displaced.isLeaf (fun r => r ≠ .module) &&
    (isSymbol p || p = .outdent || p = parts [lit ".", .rule .identifier] ||
      (spacing = .token && (isWord p || p = parts [lit "=", .absent (lit "=")])) ||
      (spacing = .tight && (p = lineBreak || p = .seq blankRest (.rule .endOfInput))) ||
      match p with
      | .rule r => r.isSpelled
      | _ => false)

/-- Line breaks are gates to the start of a line. -/
def isGate (spacing : Spacing) (p : Pattern) : Bool := spacing = .tight && p = lineBreak

/-- There the margin is looked for. -/
def isStep (spacing : Spacing) (p : Pattern) : Bool :=
  p = .margin || (spacing = .tight && p = .indent indentation)

/-- The rule is made of tokens and lines. -/
def isMade (r : Rule) : Bool :=
  !r.isSpelled && r ≠ .module && r ≠ .reserved && r ≠ .endOfInput

/-- What is a leaf of the grammar is matched alike, before the run, across it and behind it. -/
theorem Across.agrees_isLeaf (hp : isLeaf spacing p = true) (h : x.Across Ready s s') :
    p.Agrees (x.Across Ready) spacing s s' := by
  simp only [isLeaf, Bool.and_eq_true, Bool.or_eq_true, decide_eq_true_eq] at hp
  obtain ⟨hbuilt, hp⟩ := hp
  refine h.agrees hbuilt fun h => ?_
  have hcoded : x.Early Coded s s' := h.mono fun _ _ => Ready.isCode
  rcases hp with ((((hp | rfl) | rfl) | ⟨rfl, hp | rfl⟩) | ⟨rfl, rfl | rfl⟩) | hp
  · exact (hcoded.agrees_symbol hp).mono fun _ _ ht => .inl (ht.mono fun _ _ => .inl)
  · exact h.agrees_outdent.mono fun _ _ => .inl
  · exact h.agrees_attr
  · cases p with
    | seq p q =>
        cases p with
        | text chars =>
            simp only [isWord, Bool.and_eq_true, decide_eq_true_eq] at hp
            obtain ⟨rfl, hchars⟩ := hp
            exact (hcoded.agrees_word hchars).mono fun _ _ => .inl
        | _ => cases hp
    | _ => cases hp
  · exact hcoded.agrees_assignOp.mono fun _ _ => .inl
  · exact hcoded.agrees_lineBreak.mono fun _ _ ht => .inl (ht.mono fun _ _ hfresh => .inl hfresh.1)
  · exact hcoded.agrees_endOfInput
  · cases p with
    | rule r => exact h.agrees_rule hp
    | _ => cases hp

/-- **Texts that differ in a run of blanks** are matched alike. -/
theorem simulation (x : Swap) :
    GatedSimulation (x.Across Ready) (x.Across Fresh) isLeaf isGate isStep (isMade ·) where
  closer h := h.mono fun _ _ hfresh => .inl hfresh.1
  skip := skip_ready
  skipCloser := skip_fresh
  leaves := Across.agrees_isLeaf
  gates {spacing p s s'} hp h := by
    simp only [isGate, Bool.and_eq_true, decide_eq_true_eq] at hp
    obtain ⟨rfl, rfl⟩ := hp
    refine h.agrees (by decide) fun h => ?_
    exact (Early.agrees_lineBreak (h.mono fun _ _ => Ready.isCode)).mono fun _ _ => .inl
  steps {spacing p s s'} hp h := by
    simp only [isStep, Bool.or_eq_true, Bool.and_eq_true, decide_eq_true_eq] at hp
    rcases hp with rfl | ⟨rfl, rfl⟩
    · exact h.agrees (by decide) fun h => h.agrees_margin.mono fun _ _ => .inl
    · exact h.agrees (by decide) fun h => h.agrees_indentation.mono fun _ _ => .inl
  opened := Across.freePhrases.opened
  closed {r spacing s s' t t'} hr hmatches h h' := by
    have hplain : r.isSpelled = false := by
      cases r <;> first | rfl | cases hr
    exact Across.closed hmatches h.phrases (fun hspelled => absurd hspelled (by simp [hplain])) h'
  rules {r} hr spacing := by
    have hall : ∀ r ∈ Rule.all, isMade r = true → ∀ spacing ∈ [Spacing.loose, .tight, .token],
        r.definition.pattern.gatedFrom (isLeaf (r.inside spacing)) (isGate (r.inside spacing))
          (isStep (r.inside spacing)) (isMade ·) false = true := by
      decide +kernel
    exact hall r r.mem_all hr spacing (by cases spacing <;> simp)

/-- **A run of blanks at a seam** can be replaced by any other. -/
theorem sameAnswer (x : Swap) :
    SameAnswer Anywhere (x.before ++ (x.run ++ x.after)) (x.before ++ (x.run' ++ x.after)) := by
  have hstart : x.Across Ready (.ofText (x.before ++ (x.run ++ x.after)))
      (.ofText (x.before ++ (x.run' ++ x.after))) :=
    .inl ⟨.gap, x.before, ⟨⟨[], rfl, rfl, rfl⟩, rfl, rfl, rfl, rfl, List.forall_mem_nil _, .nil⟩,
      .inl rfl⟩
  exact sameAnswer_of_agrees (fun h => h.phrases) (x.simulation.agrees (by decide) hstart)

end Swap

end FunctionIR.Grammar
