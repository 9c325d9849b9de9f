import FunctionIR.Proofs.Layout.Seams

/-!
# Tokens at a seam

A token is read before a run of blanks or behind it, and never looks into the
run: what a token goes on with is no blank and no backslash.  So where a token
starts in two texts that have different runs at a seam, the same token is read
in both.

Tokens start where nothing goes on (`Ready`): in a gap, or right behind a token
that what comes next does not belong to.  That is kept from token to token, and
tells that the zones are those of the tokens, the number of digits and the name
of letters.

One token has blanks of its own, the operator of two words.  Where the seam lies
between its words both runs must be plain or none
(`Swap.Before.agrees_phrase`).
-/

namespace FunctionIR.Grammar

open Pattern

/-! ### Where tokens start -/

/-- In a number that goes on with no digit. -/
def Numeric (zone : Zone) (left : List Char) : Prop :=
  zone.isNumeric = true ∧ CharClass.digit.EndsBefore left

/-- A token can start: in a gap, behind a number that has no more digits, or where
no name and no number goes on. -/
def Ready (zone : Zone) (left : List Char) : Prop :=
  zone = .gap ∨ Numeric zone left ∨ (zone.isCode = true ∧ Bounded left)

namespace Ready

variable {zone : Zone} {left : List Char} {c : Char}

/-- Where a token can start is code. -/
theorem isCode (h : Ready zone left) : zone.isCode = true := by
  rcases h with rfl | ⟨hnumeric, -⟩ | ⟨hcode, -⟩
  · rfl
  · exact Zone.isCode_of_isNumeric hnumeric
  · exact hcode

/-- A name is not ready for a letter. -/
theorem ne_name (h : Ready zone (c :: left)) (hc : CharClass.nameChar.holds c = true) :
    zone ≠ .name := by
  rintro rfl
  rcases h with h | ⟨h, -⟩ | ⟨-, h⟩
  · cases h
  · cases h
  · rw [h c left rfl] at hc
    cases hc

/-- Only a gap is ready for a digit. -/
theorem eq_gap (h : Ready zone (c :: left)) (hc : c.isDigit = true) : zone = .gap := by
  rcases h with h | ⟨-, h⟩ | ⟨-, h⟩
  · exact h
  · exact absurd (h c left rfl) (by simp [CharClass.holds, hc])
  · exact absurd (h c left rfl) (by simp [CharClass.holds, Char.isAlphanum, hc])

end Ready

/-- A digit can be in a name. -/
theorem nameChar_of_digit {c : Char} (hc : c.isDigit = true) :
    CharClass.nameChar.holds c = true := by
  simp [CharClass.holds, Char.isAlphanum, hc]

/-- Behind a point digits make a number. -/
theorem Zone.isNumeric_after_point {zone : Zone} {c : Char} (hzone : zone.isCode = true)
    (hc : c.isDigit = true) : ((zone.after '.').after c).isNumeric = true := by
  have hgap : (Zone.gap.after c).isNumeric = true := by
    rw [Zone.gap_after_digit hc]
    rfl
  cases zone with
  | gap | name | point | fraction => exact hgap
  | number => exact Zone.isNumeric_after rfl (nameChar_of_digit hc)
  | comment | string | escape => cases hzone

/-- A run of blanks begins with nothing that a name or number goes on with. -/
theorem not_holds_of_opensRun {set : CharClass} {c : Char} (hany : set ≠ .any)
    (hblank : set ≠ .blank) (hc : opensRun c = true) : set.holds c = false := by
  simp only [opensRun, CharClass.holds, Bool.or_eq_true, beq_iff_eq] at hc
  rcases hc with (rfl | rfl) | rfl <;> cases set <;> first | rfl | exact absurd rfl hany |
    exact absurd rfl hblank

/-- A run begins with no character of a name. -/
theorem opensRun_of_nameChar {c : Char} (hc : CharClass.nameChar.holds c = true) :
    opensRun c = false := by
  cases hopens : opensRun c with
  | false => rfl
  | true =>
      rw [not_holds_of_opensRun (by decide) (by decide) hopens] at hc
      cases hc

/-! ### Words -/

namespace Swap

variable {x : Swap} {zone : Zone} {left chars : List Char} {s s' t t' : State} {spacing : Spacing}
  {p : Pattern} {P : Zone → List Char → Prop} {quote : Char}

namespace Before

/-- What the pattern does not go on with is not left. -/
theorem endsBefore_of_fails {set : CharClass} (h : x.Before zone left s s')
    (hfails : (Pattern.one set).Fails spacing s) : set.EndsBefore left := by
  rintro c more rfl
  cases hc : set.holds c with
  | false => rfl
  | true =>
      have hrest : s.rest = c :: (more ++ (x.run ++ x.after)) := h.rest
      exact absurd hfails (matches_one hrest hc).not_fails

/-- One more letter, digit or underscore. -/
theorem agrees_set {set : CharClass} (hany : set ≠ .any) (hblank : set ≠ .blank)
    (h : x.Before zone left s s') :
    (Pattern.one set).Agrees (fun t t' => ∃ c left', left = c :: left' ∧ set.holds c = true ∧
      x.Before (zone.after c) left' t t') spacing s s' :=
  h.agrees_one fun _ _ hc => not_holds_of_opensRun hany hblank hc

/-- The end of a word is the same in both texts. -/
theorem agrees_wordEnd (h : x.Before zone left s s') :
    wordEnd.Agrees (fun t t' => x.Before zone left t t' ∧ Bounded left) spacing s s' :=
  (h.agrees_set (by decide) (by decide)).absent fun hfails => ⟨h, h.endsBefore_of_fails hfails⟩

end Before

namespace Early

/-- A word, before the run. -/
theorem agrees_word (h : x.Early Coded s s') (hchars : IsWord chars) :
    (Pattern.seq (.text chars) wordEnd).Agrees (x.Early Ready) .token s s' := by
  obtain ⟨zone, left, h, hzone⟩ := h
  refine (h.agrees_text fun c hc => opensRun_of_nameChar (hchars c hc)).seq ?_
  rintro t t' ⟨left', rfl, ht⟩
  refine ht.agrees_wordEnd.mono fun u u' ⟨hu, hbounded⟩ => ?_
  exact hu.early (.inr (.inr ⟨Zone.isCode_past hzone hchars, hbounded⟩))

theorem freePhrases : FreePhrases Anywhere (x.Early P) :=
  fun _ _ _ _ ⟨zone, left, h, hP⟩ hfound => ⟨zone, left, Before.freePhrases h hfound, hP⟩

/-- A reserved word is there in both texts or in none. -/
theorem agrees_reserved (h : x.Early P s s') :
    (Pattern.rule .reserved).Agrees (fun _ _ => True) .token s s' := by
  refine Agrees.rule (R := fun _ _ => True) ?_ fun _ _ _ _ => trivial
  have hopened : x.Early P (s.openRule .reserved .token) (s'.openRule .reserved .token) :=
    freePhrases.opened h
  obtain ⟨zone, left, hopened, -⟩ := hopened
  have hwords : (firstOf (reservedWords.map lit)).Agrees (x.Early fun _ _ => True) .token
      (s.openRule .reserved .token) (s'.openRule .reserved .token) := by
    refine Agrees.firstOf fun p hp => ?_
    obtain ⟨word, hword, rfl⟩ := List.mem_map.mp hp
    have hall : ∀ word ∈ reservedWords, IsWord word.toList := by decide +kernel
    refine (hopened.agrees_text fun c hc => opensRun_of_nameChar (hall word hword c hc)).mono ?_
    rintro t t' ⟨left', -, ht⟩
    exact ht.early trivial
  refine hwords.seq fun t t' ⟨zone', left', ht, _⟩ => ?_
  exact ht.agrees_wordEnd.mono fun _ _ _ => trivial

/-- **A name** is read up to its end. -/
theorem agrees_identifier (h : x.Early Coded s s') :
    Rule.identifier.definition.pattern.Agrees (x.Early Ready) .token s s' := by
  have hletter : ∀ {set : CharClass}, set ≠ .any → set ≠ .blank →
      (∀ c, set.holds c = true → CharClass.nameChar.holds c = true) →
      ∀ t t', x.Early Coded t t' → (Pattern.one set).Agrees (x.Early Coded) .token t t' := by
    rintro set hany hblank hset t t' ⟨zone, left, ht, hzone⟩
    refine (ht.agrees_set hany hblank).mono ?_
    rintro u u' ⟨c, left', -, hc, hu⟩
    exact hu.early (Zone.isCode_after hzone (hset c hc))
  refine (h.agrees_reserved.absent fun _ => h).seq fun t t' ht => ?_
  have hstart : (Pattern.one .nameStart).Agrees (x.Early Coded) .token t t' := by
    refine hletter (by decide) (by decide) (fun c hc => ?_) t t' ht
    simp only [CharClass.holds, Char.isAlphanum, Bool.or_eq_true] at hc ⊢
    exact hc.imp_left .inl
  refine hstart.seq fun u u' hu => ?_
  refine (Agrees.many State.skip_token (hletter (by decide) (by decide) fun _ => id) hu).mono ?_
  rintro v v' ⟨⟨zone, left, hv, hzone⟩, hfails⟩
  exact hv.early (.inr (.inr ⟨hzone, hv.endsBefore_of_fails hfails⟩))

end Early

/-! ### Numbers -/

/-- Where no further digit is read there is none. -/
theorem endsBefore_of_fails_round (h : x.Before zone left s s')
    (hfails : (parts [.opt (lit "_"), .one .digit]).Fails .token s) :
    CharClass.digit.EndsBefore left := by
  rintro c more rfl
  cases hc : CharClass.digit.holds c with
  | false => rfl
  | true =>
      have hrest : s.rest = c :: (more ++ (x.run ++ x.after)) := h.rest
      have hunder : (lit "_").Fails .token s := fails_text_cons hrest (by rintro rfl; cases hc)
      exact absurd hfails (hunder.opt.seq (matches_one hrest hc)).not_fails

namespace Early

/-- **Digits** are read up to the last, and keep to zones that digits and
underscores keep to. -/
theorem agrees_digits {N : Zone → Prop}
    (hN : ∀ {zone c}, N zone → c.isDigit = true ∨ c = '_' → N (zone.after c))
    (h : x.Early (fun zone left => ∀ c more, left = c :: more → c.isDigit = true →
      N (zone.after c)) s s') :
    digits.Agrees (x.Early fun zone left => N zone ∧ CharClass.digit.EndsBefore left)
      .token s s' := by
  have hdigit : ∀ t t', x.Early (fun zone _ => N zone) t t' →
      (Pattern.one .digit).Agrees (x.Early fun zone _ => N zone) .token t t' := by
    rintro t t' ⟨zone, left, ht, hzone⟩
    refine (ht.agrees_set (by decide) (by decide)).mono ?_
    rintro u u' ⟨c, left', -, hc, hu⟩
    exact hu.early (hN hzone (.inl hc))
  have hround : ∀ t t', x.Early (fun zone _ => N zone) t t' →
      (parts [.opt (lit "_"), .one .digit]).Agrees (x.Early fun zone _ => N zone) .token t t' := by
    rintro t t' ⟨zone, left, ht, hzone⟩
    have hunder : (Pattern.text ['_']).Agrees (x.Early fun zone _ => N zone) .token t t' := by
      refine (ht.agrees_char fun _ => rfl).mono ?_
      rintro u u' ⟨left', -, hu⟩
      exact hu.early (hN hzone (.inr rfl))
    exact (hunder.opt (ht.early hzone)).seq hdigit
  obtain ⟨zone, left, h, hfirst⟩ := h
  refine (h.agrees_set (by decide) (by decide)).seq ?_
  rintro t t' ⟨c, left', rfl, hc, ht⟩
  refine (Agrees.many State.skip_token hround (ht.early (hfirst c left' rfl hc))).mono ?_
  rintro u u' ⟨⟨zone', more, hu, hzone'⟩, hfails⟩
  exact hu.early ⟨hzone', endsBefore_of_fails_round hu hfails⟩

/-- From where a token starts, digits are the digits of a number. -/
theorem agrees_wholeDigits (h : x.Early Ready s s') :
    digits.Agrees (x.Early fun zone left => zone = .number ∧ CharClass.digit.EndsBefore left)
      .token s s' := by
  refine agrees_digits (N := (· = .number)) ?_ (h.mono ?_)
  · rintro _ c rfl hc
    rw [Zone.after, if_pos hc]
  · rintro zone _ hready c more rfl hc
    rw [hready.eq_gap hc]
    exact Zone.gap_after_digit hc

/-- Digits in a number, or after the point or the sign in it. -/
theorem agrees_numericDigits (h : x.Early (fun zone left => ∀ c more, left = c :: more →
      c.isDigit = true → (zone.after c).isNumeric = true) s s') :
    digits.Agrees (x.Early Numeric) .token s s' := by
  refine agrees_digits (N := (Zone.isNumeric · = true)) (fun hzone hc => ?_) h
  refine Zone.isNumeric_after hzone ?_
  rcases hc with hc | rfl
  · exact nameChar_of_digit hc
  · rfl

/-- An exponent, before the run. -/
theorem agrees_exponent (h : x.Early Numeric s s') :
    exponent.Agrees (x.Early Numeric) .token s s' := by
  obtain ⟨zone, left, h, hzone, -⟩ := h
  have hmark : ∀ e, CharClass.nameChar.holds e = true →
      (Pattern.text [e]).Agrees (x.Early fun zone _ => zone.isNumeric = true) .token s s' := by
    intro e he
    refine (h.agrees_char fun _ => opensRun_of_nameChar he).mono ?_
    rintro t t' ⟨left', -, ht⟩
    exact ht.early (Zone.isNumeric_after hzone he)
  refine ((hmark 'e' rfl).choice (hmark 'E' rfl)).seq ?_
  rintro t t' ⟨zone', left', ht, hzone'⟩
  have hsign : ∀ sign, isNeutral sign = true → opensRun sign = false →
      (Pattern.text [sign]).Agrees
        (x.Early fun zone _ => zone = .gap ∨ zone.isNumeric = true) .token t t' := by
    intro sign hneutral hopens
    refine (ht.agrees_char fun _ => hopens).mono ?_
    rintro u u' ⟨more, -, hu⟩
    exact hu.early (.inl (Zone.after_neutral (Zone.isCode_of_isNumeric hzone') hneutral))
  have hsigns := (hsign '+' rfl rfl).choice (hsign '-' rfl rfl)
  refine (hsigns.opt (ht.early (.inr hzone'))).seq fun u u' hu => ?_
  refine agrees_numericDigits (hu.mono ?_)
  rintro zone'' _ hcase c more rfl hc
  rcases hcase with rfl | hnumeric
  · rw [Zone.gap_after_digit hc]
    rfl
  · exact Zone.isNumeric_after hnumeric (nameChar_of_digit hc)

/-- **A number with a point or an exponent** is read up to its last digit. -/
theorem agrees_float (h : x.Early Ready s s') :
    Rule.float.definition.pattern.Agrees (x.Early Numeric) .token s s' := by
  have hpoint : ∀ {zone left t t'}, x.Before zone left t t' →
      (Pattern.text ['.']).Agrees (fun u u' => ∃ left', left = '.' :: left' ∧
        x.Before (zone.after '.') left' u u') .token t t' :=
    fun ht => ht.agrees_char fun _ => rfl
  have hwhole : (parts [digits, lit ".", .opt digits]).Agrees (x.Early Numeric) .token s s' := by
    refine h.agrees_wholeDigits.seq fun t t' ⟨_, left, ht, hnumber, _⟩ => ?_
    subst hnumber
    refine (hpoint ht).seq fun u u' ⟨left', _, hu⟩ => ?_
    have hdigits : digits.Agrees (x.Early Numeric) .token u u' :=
      agrees_numericDigits (hu.early fun c _ _ hc => Zone.isNumeric_after_point rfl hc)
    refine hdigits.opt_of_fails fun hfails => ?_
    have hnone : (Pattern.one .digit).Fails .token u := by
      rcases fails_seq_iff.mp hfails with hfails | ⟨v, -, hfails⟩
      · exact hfails
      · exact absurd hfails not_fails_many
    exact hu.early ⟨rfl, hu.endsBefore_of_fails hnone⟩
  have hpart : (parts [lit ".", digits]).Agrees (x.Early Numeric) .token s s' := by
    obtain ⟨zone, left, h, hready⟩ := h
    refine (hpoint h).seq fun t t' ⟨left', _, ht⟩ => ?_
    exact agrees_numericDigits
      (ht.early fun c _ _ hc => Zone.isNumeric_after_point hready.isCode hc)
  have hplain : (parts [digits, exponent]).Agrees (x.Early Numeric) .token s s' := by
    refine h.agrees_wholeDigits.seq fun t t' ht => agrees_exponent (ht.mono ?_)
    rintro _ left ⟨rfl, hends⟩
    exact ⟨rfl, hends⟩
  have hpointed := (hwhole.choice hpart).seq fun t t' ht => ht.agrees_exponent.opt ht
  exact hpointed.choice hplain

/-! ### Strings -/

/-- A character of a string, which is not over at the seam. -/
theorem agrees_stringChar (h : x.Early (fun zone _ => zone = .string quote) s s') :
    (stringChar quote).Agrees (x.Early fun zone _ => zone = .string quote) .token s s' := by
  obtain ⟨_, left, h, rfl⟩ := h
  have hne := h.ne_nil rfl
  have hslash : (Pattern.text ['\\']).Agrees (fun t t' => ∃ left', left = '\\' :: left' ∧
      x.Before (.escape quote) left' t t') .token s s' :=
    h.agrees_char fun hnil => absurd hnil hne
  refine Agrees.choice ?_ ?_
  · refine hslash.seq fun t t' ⟨left', _, ht⟩ => ?_
    refine (ht.agrees_one fun hnil => absurd hnil (ht.ne_nil rfl)).mono ?_
    rintro u u' ⟨c, more, -, -, hu⟩
    exact hu.early rfl
  · have hquote : (Pattern.text [quote]).Agrees (fun _ _ => True) .token s s' :=
      (h.agrees_char fun hnil => absurd hnil hne).mono fun _ _ _ => trivial
    have hbreak : newline.Agrees (fun _ _ => True) .token s s' :=
      h.agrees_newline_of fun _ _ _ _ _ _ _ _ => trivial
    have hstops := hquote.choice ((hslash.mono fun _ _ _ => trivial).choice hbreak)
    have hstay := hstops.absent (R := fun t t' => x.Before (.string quote) left t t' ∧
      (Pattern.choice (.text [quote]) (.choice (lit "\\") newline)).Fails .token t)
      fun hfails => ⟨h, hfails⟩
    refine hstay.seq fun t t' ⟨ht, hfails⟩ => ?_
    refine (ht.agrees_one fun hnil => absurd hnil hne).mono ?_
    rintro u u' ⟨c, left', rfl, -, hu⟩
    obtain ⟨hends, hfails⟩ := fails_choice_iff.mp hfails
    obtain ⟨hescape, hline⟩ := fails_choice_iff.mp hfails
    have hrest : t.rest = c :: (left' ++ (x.run ++ x.after)) := ht.rest
    have hquoted : c ≠ quote := by
      rintro rfl
      exact (matches_text_cons hrest).not_fails hends
    have hescaped : c ≠ '\\' := by
      rintro rfl
      exact (matches_text_cons hrest).not_fails hescape
    have hended := endsLine_of_fails_newline hline hrest
    refine hu.early ?_
    rw [Zone.after, if_neg hescaped, if_neg]
    rintro (hc | hc)
    · exact hquoted hc
    · rw [hended] at hc
      cases hc

/-- **A string** is read up to its quote. -/
theorem agrees_stringIn (hquote : IsQuote quote) (h : x.Early Coded s s') :
    (stringIn (.text [quote])).Agrees (x.Early Ready) .token s s' := by
  obtain ⟨zone, left, h, hzone⟩ := h
  have hopens : opensRun quote = false := by rcases hquote with rfl | rfl <;> rfl
  refine (h.agrees_char fun _ => hopens).seq fun t t' ⟨left', _, ht⟩ => ?_
  rw [Zone.after_quote hzone hquote] at ht
  refine (Agrees.many State.skip_token (fun _ _ hu => hu.agrees_stringChar) (ht.early rfl)).seq ?_
  rintro u u' ⟨⟨_, more, hu, rfl⟩, -⟩
  refine (hu.agrees_char fun _ => hopens).mono ?_
  rintro v v' ⟨later, -, hv⟩
  refine hv.early (.inl ?_)
  rcases hquote with rfl | rfl <;> rfl

end Early

end Swap

end FunctionIR.Grammar
