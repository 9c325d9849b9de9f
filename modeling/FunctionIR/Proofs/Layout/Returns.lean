import FunctionIR.Proofs.Layout.Insertion

/-!
# Carriage returns before line feeds

A text keeps its meaning when every line feed gets a carriage return in front
of it, but for one thing: a string can have a line feed behind a backslash, and
then the carriage return takes the place of the line feed there and leaves it
behind, where it ends the line in the middle of the string.

Whether a text has such a string is told by reading it from its start, without
the grammar (`Region`, `Unbroken`).  What is left of an unbroken text and what
is left of the other are matched alike (`Returned.simulation`): outside of
strings and comments no character is of interest to the regions, a comment is
over where the line is, and a string has no line feeds.
-/

namespace FunctionIR.Grammar

/-! ### Texts -/

/-- The text with a carriage return before each line feed. -/
def withReturns (text : List Char) : List Char :=
  text.flatMap fun c => if c = '\n' then ['\r', '\n'] else [c]

section

variable {text chars rest : List Char} {c : Char}

theorem withReturns_append (chars rest : List Char) :
    withReturns (chars ++ rest) = withReturns chars ++ withReturns rest :=
  List.flatMap_append

/-- A line feed gets a carriage return before it. -/
theorem withReturns_feed (rest : List Char) :
    withReturns ('\n' :: rest) = '\r' :: '\n' :: withReturns rest := rfl

/-- Every other character stays. -/
theorem withReturns_cons (hc : c ≠ '\n') (rest : List Char) :
    withReturns (c :: rest) = c :: withReturns rest := by
  rw [withReturns, List.flatMap_cons, if_neg hc]
  rfl

/-- The text on a line stays as it is. -/
theorem withReturns_line (h : ∀ c ∈ chars, endsLine c = false) : withReturns chars = chars := by
  induction chars with
  | nil => rfl
  | cons c chars ih =>
      obtain ⟨hc, hchars⟩ := List.forall_mem_cons.mp h
      rw [withReturns_cons (by rintro rfl; cases hc), ih hchars]

/-- The text on a line is found in both texts or in none. -/
theorem eq_append_of_withReturns (chars : List Char) (hchars : ∀ c ∈ chars, endsLine c = false)
    (h : withReturns text = chars ++ rest) :
    ∃ left, text = chars ++ left ∧ rest = withReturns left := by
  induction chars generalizing text with
  | nil => exact ⟨text, rfl, h.symm⟩
  | cons c chars ih =>
      obtain ⟨hc, hlater⟩ := List.forall_mem_cons.mp hchars
      cases text with
      | nil => cases h
      | cons d text =>
          by_cases hd : d = '\n'
          · subst hd
            obtain ⟨rfl, -⟩ := List.cons.inj h
            cases hc
          · rw [withReturns_cons hd] at h
            obtain ⟨rfl, hrest⟩ := List.cons.inj h
            obtain ⟨left, rfl, hleft⟩ := ih hlater hrest
            exact ⟨left, rfl, hleft⟩

/-- The next character is in both texts, or there is none, or it ends the line. -/
theorem withReturns_heads (hreturn : '\r' ∉ text) :
    (text = [] ∧ withReturns text = []) ∨
      (∃ rest, text = '\n' :: rest ∧ withReturns text = '\r' :: '\n' :: withReturns rest) ∨
      ∃ c rest, endsLine c = false ∧ text = c :: rest ∧ withReturns text = c :: withReturns rest := by
  cases text with
  | nil => exact .inl ⟨rfl, rfl⟩
  | cons c rest =>
      by_cases hc : c = '\n'
      · subst hc
        exact .inr (.inl ⟨rest, rfl, rfl⟩)
      · have hne : c ≠ '\r' := by
          rintro rfl
          exact hreturn List.mem_cons_self
        exact .inr (.inr ⟨c, rest, by simp [endsLine, hc, hne], rfl, withReturns_cons hc rest⟩)

end

/-! ### Places -/

/-- The places are at the same line and column. -/
def SamePlace (p p' : Place) : Prop := p'.line = p.line ∧ p'.column = p.column

/-- The second place is the first, with one more character for each line before. -/
structure Delayed (p p' : Place) : Prop where
  line : p'.line = p.line
  column : p'.column = p.column
  offset : p'.offset + 1 = p.offset + p.line

theorem Delayed.past {p p' : Place} (h : Delayed p p') (chars : List Char) :
    Delayed (chars.foldl Place.after p) ((withReturns chars).foldl Place.after p') := by
  induction chars generalizing p p' with
  | nil => exact h
  | cons c chars ih =>
      obtain ⟨hline, hcolumn, hoffset⟩ := h
      by_cases hc : c = '\n'
      · subst hc
        rw [withReturns_feed]
        refine ih ⟨?_, rfl, ?_⟩
        · exact congrArg (· + 1) hline
        · change p'.offset + 1 + 1 + 1 = p.offset + 1 + (p.line + 1)
          omega
      · rw [withReturns_cons hc]
        refine ih ?_
        rw [Place.after, Place.after, if_neg hc, if_neg hc]
        exact ⟨hline, congrArg (· + 1) hcolumn, by dsimp only; omega⟩

/-! ### Regions -/

/-- What a character of a program text stands in. -/
inductive Region
  | code
  | comment
  /-- A string, and the quote that ends it. -/
  | string (quote : Char)
  /-- Right behind a backslash in a string. -/
  | escape (quote : Char)
  /-- Behind a line feed that a backslash hides in a string. -/
  | broken
deriving DecidableEq

/-- What the next character stands in. -/
def Region.after : Region → Char → Region
  | .code, c => if c = '"' ∨ c = '\'' then .string c else if c = '#' then .comment else .code
  | .comment, c => if c = '\n' then .code else .comment
  | .string quote, c =>
      if c = '\\' then .escape quote else if c = quote ∨ c = '\n' then .code else .string quote
  | .escape quote, c => if c = '\n' then .broken else .string quote
  | .broken, _ => .broken

/-- What stands behind a text. -/
def Region.past (region : Region) (text : List Char) : Region := text.foldl Region.after region

/-- **No string has a line feed behind a backslash.** -/
def Unbroken (text : List Char) : Prop := Region.code.past text ≠ .broken

/-- Whether a text is unbroken can be seen by reading over it. -/
instance (text : List Char) : Decidable (Unbroken text) := inferInstanceAs (Decidable (_ ≠ _))

namespace Region

variable {region : Region} {text chars rest : List Char} {c : Char}

theorem past_append (region : Region) (chars rest : List Char) :
    region.past (chars ++ rest) = (region.past chars).past rest :=
  List.foldl_append

/-- What is broken stays so. -/
theorem past_broken (text : List Char) : broken.past text = .broken := by
  induction text with
  | nil => rfl
  | cons c text ih => exact ih

/-- Where a set but that of all characters stands in the code, the code goes on. -/
theorem after_of_holds {set : CharClass} (hset : set ≠ .any) (hc : set.holds c = true) :
    code.after c = .code := by
  have hne : ∀ d, set.holds d = false → c ≠ d := by
    rintro d hd rfl
    rw [hd] at hc
    cases hc
  have hquote : c ≠ '"' := hne _ (by cases set <;> first | exact absurd rfl hset | rfl)
  have hmark : c ≠ '\'' := hne _ (by cases set <;> first | exact absurd rfl hset | rfl)
  have hhash : c ≠ '#' := hne _ (by cases set <;> first | exact absurd rfl hset | rfl)
  rw [after, if_neg (not_or.mpr ⟨hquote, hmark⟩), if_neg hhash]

/-- The code goes on where each of its characters lets it. -/
theorem past_code (h : ∀ c ∈ text, code.after c = .code) : code.past text = .code := by
  induction text with
  | nil => rfl
  | cons c text ih =>
      obtain ⟨hc, htext⟩ := List.forall_mem_cons.mp h
      rw [past, List.foldl_cons, hc]
      exact ih htext

end Region

/-- The character starts a string, and ends it. -/
def IsQuote (quote : Char) : Prop := quote = '"' ∨ quote = '\''

namespace IsQuote

variable {quote : Char}

/-- A quote does not end the line. -/
theorem on_line (h : IsQuote quote) : ∀ c ∈ [quote], endsLine c = false := by
  rcases h with rfl | rfl <;> exact List.forall_mem_singleton.mpr rfl

/-- A quote is no line feed. -/
theorem ne_feed (h : IsQuote quote) : quote ≠ '\n' := by
  rcases h with rfl | rfl <;> decide

/-- A quote is no carriage return. -/
theorem ne_return (h : IsQuote quote) : quote ≠ '\r' := by
  rcases h with rfl | rfl <;> decide

/-- A quote in the code opens a string. -/
theorem opens (h : IsQuote quote) : Region.code.past [quote] = .string quote := by
  rcases h with rfl | rfl <;> rfl

theorem closes (h : IsQuote quote) : (Region.string quote).past [quote] = .code := by
  rcases h with rfl | rfl <;> rfl

end IsQuote

/-! ### Blanks -/

/-- Where no blank stands, none is skipped. -/
theorem skipBlanks_self {text : List Char} {place : Place} (hspace : ∀ rest, text ≠ ' ' :: rest)
    (htab : ∀ rest, text ≠ '\t' :: rest)
    (hslash : ∀ c rest, endsLine c = true → text ≠ '\\' :: c :: rest) :
    skipBlanks place text = (text, place) := by
  rw [skipBlanks]
  · exact hspace
  · exact htab
  · exact fun rest => hslash '\n' rest rfl
  · exact fun rest => hslash '\r' ('\n' :: rest) rfl
  · exact fun rest => hslash '\r' rest rfl

/-- The same blanks are skipped in both texts, and stay in the code. -/
theorem skipBlanks_withReturns {text : List Char} (hreturn : '\r' ∉ text) :
    ∃ blanks left, text = blanks ++ left ∧ Region.code.past blanks = .code ∧ ∀ place,
      skipBlanks place text = (left, blanks.foldl Place.after place) ∧
      skipBlanks place (withReturns text) =
        (withReturns left, (withReturns blanks).foldl Place.after place) := by
  generalize horigin : Place.origin = origin
  clear horigin
  fun_induction skipBlanks origin text with
  | case1 origin rest ih =>
      obtain ⟨blanks, left, rfl, hcode, hskip⟩ := ih fun hmem => hreturn (List.mem_cons_of_mem _ hmem)
      refine ⟨' ' :: blanks, left, rfl, hcode, fun place => ?_⟩
      rw [withReturns_cons (by decide), skipBlanks, skipBlanks, (hskip _).1, (hskip _).2,
        withReturns_cons (by decide)]
      exact ⟨rfl, rfl⟩
  | case2 origin rest ih =>
      obtain ⟨blanks, left, rfl, hcode, hskip⟩ := ih fun hmem => hreturn (List.mem_cons_of_mem _ hmem)
      refine ⟨'\t' :: blanks, left, rfl, hcode, fun place => ?_⟩
      rw [withReturns_cons (by decide), skipBlanks, skipBlanks, (hskip _).1, (hskip _).2,
        withReturns_cons (by decide)]
      exact ⟨rfl, rfl⟩
  | case3 origin rest ih =>
      obtain ⟨blanks, left, rfl, hcode, hskip⟩ :=
        ih fun hmem => hreturn (List.mem_cons_of_mem _ (List.mem_cons_of_mem _ hmem))
      refine ⟨'\\' :: '\n' :: blanks, left, rfl, hcode, fun place => ?_⟩
      rw [withReturns_cons (by decide), withReturns_feed, skipBlanks, skipBlanks,
        (hskip _).1, (hskip _).2, withReturns_cons (by decide), withReturns_feed]
      exact ⟨rfl, rfl⟩
  -- the text has no carriage return of its own
  | case4 | case5 => exact absurd (by simp) hreturn
  | case6 origin rest hspace htab hfeed hboth hsingle =>
      have hline {c : Char} (hc : endsLine c = false) : ∀ d ∈ [c], endsLine d = false :=
        List.forall_mem_singleton.mpr hc
      refine ⟨[], rest, rfl, rfl, fun place =>
        ⟨skipBlanks_self hspace htab ?_, skipBlanks_self ?_ ?_ ?_⟩⟩
      · intro c more hc hrest
        simp only [endsLine, Bool.or_eq_true, beq_iff_eq] at hc
        rcases hc with rfl | rfl
        · exact hfeed more hrest
        · exact hsingle more hrest
      · intro more hmore
        obtain ⟨left, hleft, -⟩ := eq_append_of_withReturns [' '] (hline rfl) hmore
        exact hspace left hleft
      · intro more hmore
        obtain ⟨left, hleft, -⟩ := eq_append_of_withReturns ['\t'] (hline rfl) hmore
        exact htab left hleft
      · intro c more hc hmore
        obtain ⟨left, rfl, hleft⟩ := eq_append_of_withReturns ['\\'] (hline rfl) hmore
        cases left with
        | nil => cases hleft
        | cons d left =>
            by_cases hd : d = '\n'
            · exact hfeed left (by rw [hd]; rfl)
            · rw [withReturns_cons hd] at hleft
              obtain ⟨rfl, -⟩ := List.cons.inj hleft
              have hfeedOrReturn : c = '\n' ∨ c = '\r' := by simpa [endsLine] using hc
              exact hreturn (by simp [hfeedOrReturn.resolve_left hd])

/-! ### On the same line -/

/-- The second state is further on the same line. -/
def SameLine (s t : State) : Prop :=
  ∃ chars, s.rest = chars ++ t.rest ∧ t.place = chars.foldl Place.after s.place ∧ '\n' ∉ chars

namespace SameLine

variable {s t u : State}

theorem refl (s : State) : SameLine s s := ⟨[], rfl, rfl, List.not_mem_nil⟩

theorem trans (h : SameLine s t) (h' : SameLine t u) : SameLine s u := by
  obtain ⟨chars, hs, ht, hchars⟩ := h
  obtain ⟨more, ht', hu, hmore⟩ := h'
  refine ⟨chars ++ more, ?_, ?_, ?_⟩
  · rw [hs, ht', List.append_assoc]
  · rw [hu, ht, List.foldl_append]
  · rw [List.mem_append]
    exact not_or.mpr ⟨hchars, hmore⟩

/-- A text without line feeds leads further on the same line. -/
theorem past (chars : List Char) {rest : List Char} (hs : s.rest = chars ++ rest)
    (hchars : '\n' ∉ chars) : SameLine s (s.past chars rest) :=
  ⟨chars, hs, rfl, hchars⟩

end SameLine

namespace Pattern

variable {p : Pattern} {spacing : Spacing} {s t : State}

/-- Patterns whose matches stay on the line. -/
def keepsLine (spacing : Spacing) : Pattern → Bool
  | .text chars => !chars.contains '\n'
  | .one set => set ≠ .any
  | .seq p q => spacing ≠ .loose && p.keepsLine spacing && q.keepsLine spacing
  | .choice p q => p.keepsLine spacing && q.keepsLine spacing
  | .opt p => p.keepsLine spacing
  | .many p => spacing ≠ .loose && p.keepsLine spacing
  | .absent _ | .finish => true
  | .rule _ | .start | .margin | .indent _ | .outdent => false

theorem fails_text_nil {c : Char} {chars : List Char} (hs : s.rest = []) :
    (Pattern.text (c :: chars)).Fails spacing s :=
  fails_text (State.takeText_eq_none (by simp [hs]))

theorem fails_one_nil {set : CharClass} (hs : s.rest = []) : (Pattern.one set).Fails spacing s :=
  fails_one fun c rest hc => absurd (hc.symm.trans hs) (List.cons_ne_nil c rest)

/-- Blanks are skipped only where the spacing is loose. -/
theorem skip_of_ne_loose (h : spacing ≠ .loose) (s : State) : s.skip spacing = s := by
  cases spacing with
  | loose => exact absurd rfl h
  | tight | token => rfl

/-- What keeps the line goes on along it. -/
theorem Matches.sameLine (hp : p.keepsLine spacing = true) (h : p.Matches spacing s t) :
    SameLine s t := by
  induction p generalizing s t with
  | text chars =>
      obtain ⟨rest, hs, rfl⟩ := matches_text_iff.mp h
      exact .past chars hs (by simpa [keepsLine] using hp)
  | one set =>
      obtain ⟨c, rest, hs, hc, rfl⟩ := matches_one_iff.mp h
      refine .past [c] hs fun hfeed => ?_
      rw [List.mem_singleton] at hfeed
      subst hfeed
      cases set <;> simp [keepsLine, CharClass.holds] at hp hc
  | seq p q ihp ihq =>
      simp only [keepsLine, Bool.and_eq_true, decide_eq_true_eq] at hp
      obtain ⟨u, hpu, hqt⟩ := matches_seq_iff.mp h
      rw [skip_of_ne_loose hp.1.1] at hqt
      exact (ihp hp.1.2 hpu).trans (ihq hp.2 hqt)
  | choice p q ihp ihq =>
      simp only [keepsLine, Bool.and_eq_true] at hp
      rcases matches_choice_iff.mp h with h | ⟨-, h⟩
      · exact ihp hp.1 h
      · exact ihq hp.2 h
  | opt p ih =>
      rcases matches_opt_iff.mp h with h | ⟨-, rfl⟩
      · exact ih hp h
      · exact .refl t
  | many p ih =>
      simp only [keepsLine, Bool.and_eq_true, decide_eq_true_eq] at hp
      have htight := skip_of_ne_loose hp.1
      obtain ⟨hrounds, -⟩ := (matches_many_iff_rounds htight).mp h
      clear h
      induction hrounds with
      | none s => exact .refl s
      | more hfirst _ ihlater =>
          rw [htight] at hfirst
          exact (ih hp.2 hfirst).trans ihlater
  | absent p _ =>
      obtain ⟨-, rfl⟩ := matches_absent_iff.mp h
      exact .refl t
  | finish =>
      obtain ⟨-, rfl⟩ := matches_finish_iff.mp h
      exact .refl t
  | rule | start | margin | indent | outdent => cases hp

end Pattern

/-! ### States in both texts -/

/-- The same is left of both texts, in such a region, and whether a string will be
broken is settled. -/
structure Returned (bad : Prop) (region : Region) (s s' : State) : Prop where
  rest : s'.rest = withReturns s.rest
  noReturn : '\r' ∉ s.rest
  fate : region.past s.rest = .broken ↔ bad
  place : Delayed s.place s'.place
  margin : s'.margin = s.margin
  blank : ∀ c ∈ s.margin.flatten, CharClass.blank.holds c = true
  phrases : AllAlike SamePlace s.phrases s'.phrases

namespace Returned

open Pattern

variable {bad : Prop} {region region' : Region} {s s' t t' : State} {spacing : Spacing}
  {p : Pattern} {chars rest : List Char}

/-! ### Reading on -/

/-- Reading on, with returns in the second text. -/
theorem past (h : Returned bad region s s') (chars : List Char) (hs : s.rest = chars ++ rest)
    (hregion : region.past chars = region') :
    Returned bad region' (s.past chars rest) (s'.past (withReturns chars) (withReturns rest)) where
  rest := rfl
  noReturn hmem := h.noReturn (hs ▸ List.mem_append_right chars hmem)
  fate := by
    have hfate := h.fate
    rwa [hs, Region.past_append, hregion] at hfate
  place := h.place.past chars
  margin := h.margin
  blank := h.blank
  phrases := h.phrases

/-- One character that does not end the line. -/
theorem past_char {c : Char} (h : Returned bad region s s') (hs : s.rest = c :: rest)
    (hc : endsLine c = false) (hregion : region.after c = region') :
    Returned bad region' (s.past [c] rest) (s'.past [c] (withReturns rest)) := by
  have hpast := h.past [c] hs hregion
  rwa [withReturns_line (List.forall_mem_singleton.mpr hc)] at hpast

/-- Some text on the line is found in both texts or in none. -/
theorem agrees_of_line (h : Returned bad region s s') (chars : List Char)
    (hchars : ∀ c ∈ chars, endsLine c = false) (hregion : region.past chars = region')
    (hmatches : ∀ u : State, ∀ rest, u.margin = s.margin → u.rest = chars ++ rest →
      p.Matches spacing u (u.past chars rest))
    (hfails : ∀ u : State, u.margin = s.margin → ¬ chars <+: u.rest → p.Fails spacing u) :
    p.Agrees (fun t t' => Returned bad region' t t' ∧ SameLine s t) spacing s s' := by
  have hfeed : '\n' ∉ chars := fun hmem => absurd (hchars _ hmem) (by decide)
  by_cases hprefix : chars <+: s.rest
  · obtain ⟨rest, hrest⟩ := hprefix
    have hpast := h.past chars hrest.symm hregion
    rw [withReturns_line hchars] at hpast
    refine .of_matches (hmatches s rest rfl hrest.symm) (hmatches s' _ h.margin ?_)
      ⟨hpast, .past chars hrest.symm hfeed⟩
    rw [h.rest, ← hrest, withReturns_append, withReturns_line hchars]
  · refine .of_fails (hfails s rfl hprefix) (hfails s' h.margin fun hprefix' => hprefix ?_)
    rw [h.rest] at hprefix'
    obtain ⟨rest, hrest⟩ := hprefix'
    obtain ⟨left, hleft, -⟩ := eq_append_of_withReturns chars hchars hrest.symm
    exact ⟨left, hleft.symm⟩

/-- A fixed text on one line is found in both texts or in none. -/
theorem agrees_text (h : Returned bad region s s') (hchars : ∀ c ∈ chars, endsLine c = false)
    (hregion : region.past chars = region') :
    (Pattern.text chars).Agrees (fun t t' => Returned bad region' t t' ∧ SameLine s t) spacing s s' :=
  h.agrees_of_line chars hchars hregion
    (fun _ _ _ hu => matches_text (State.takeText_append hu))
    fun _ _ hu => fails_text (State.takeText_eq_none hu)

/-- The margin, which is blank, is found in both texts or in none. -/
theorem agrees_margin (h : Returned bad .code s s') :
    Pattern.margin.Agrees (Returned bad .code) spacing s s' := by
  have hline : ∀ c ∈ s.margin.flatten, endsLine c = false :=
    fun c hc => endsLine_of_blank (h.blank c hc)
  have hcode : Region.code.past s.margin.flatten = .code :=
    Region.past_code fun c hc => Region.after_of_holds (by decide) (h.blank c hc)
  refine (h.agrees_of_line s.margin.flatten hline hcode ?_ ?_).mono fun _ _ ht => ht.1
  · intro u rest hmargin hu
    refine matches_margin ?_
    rw [hmargin]
    exact State.takeText_append hu
  · intro u hmargin hu
    refine fails_margin (State.takeText_eq_none ?_)
    rwa [hmargin]

/-! ### The next character -/

/-- What is next: the end of both texts, a line feed in both, or the same character. -/
theorem heads (h : Returned bad region s s') :
    (s.rest = [] ∧ s'.rest = []) ∨
      (∃ rest, s.rest = '\n' :: rest ∧ s'.rest = '\r' :: '\n' :: withReturns rest) ∨
      ∃ c rest, endsLine c = false ∧ s.rest = c :: rest ∧ s'.rest = c :: withReturns rest := by
  rw [h.rest]
  exact withReturns_heads h.noReturn

/-- What is decided by the next character and does not match at the end of a line. -/
theorem agrees_head (h : Returned bad region s s') (accepts : Char → Bool)
    (hregion : ∀ c, accepts c = true → region.after c = region')
    (hmatches : ∀ {u : State} {c rest}, endsLine c = false → accepts c = true → u.rest = c :: rest →
      p.Matches spacing u (u.past [c] rest))
    (hfails : ∀ {u : State} {c rest}, endsLine c = false → accepts c = false → u.rest = c :: rest →
      p.Fails spacing u)
    (hnil : ∀ {u : State}, u.rest = [] → p.Fails spacing u)
    (hfeed : ∀ {u : State} {rest}, u.rest = '\n' :: rest → p.Fails spacing u)
    (hreturn : ∀ {u : State} {rest}, u.rest = '\r' :: '\n' :: rest → p.Fails spacing u) :
    p.Agrees (fun t t' => Returned bad region' t t' ∧ SameLine s t) spacing s s' := by
  rcases h.heads with ⟨hs, hs'⟩ | ⟨rest, hs, hs'⟩ | ⟨c, rest, hc, hs, hs'⟩
  · exact .of_fails (hnil hs) (hnil hs')
  · exact .of_fails (hfeed hs) (hreturn hs')
  · have hne : '\n' ≠ c := by
      rintro rfl
      cases hc
    cases haccepts : accepts c with
    | false => exact .of_fails (hfails hc haccepts hs) (hfails hc haccepts hs')
    | true =>
        exact .of_matches (hmatches hc haccepts hs) (hmatches hc haccepts hs')
          ⟨h.past_char hs hc (hregion c haccepts), .past [c] hs (by simpa using hne)⟩

/-- A class but that of all characters takes the same character. -/
theorem agrees_one (h : Returned bad .code s s') {set : CharClass} (hset : set ≠ .any) :
    (Pattern.one set).Agrees (fun t t' => Returned bad .code t t' ∧ SameLine s t) spacing s s' := by
  have hnone : ∀ {u : State} {c rest}, set.holds c = false → u.rest = c :: rest →
      (Pattern.one set).Fails spacing u := by
    intro u c rest hc hu
    refine fails_one fun d more hd => ?_
    obtain ⟨rfl, -⟩ := List.cons.inj (hu.symm.trans hd)
    exact hc
  have hends : ∀ c, endsLine c = true → set.holds c = false := by
    intro c hc
    simp only [endsLine, Bool.or_eq_true, beq_iff_eq] at hc
    rcases hc with rfl | rfl <;> cases set <;> first | rfl | exact absurd rfl hset
  exact h.agrees_head set.holds (fun c hc => Region.after_of_holds hset hc)
    (fun _ hc hu => matches_one hu hc) (fun _ hc hu => hnone hc hu)
    fails_one_nil (hnone (hends _ rfl)) (hnone (hends _ rfl))

/-- Both texts end, or neither. -/
theorem agrees_finish (h : Returned bad region s s') :
    Pattern.finish.Agrees (Returned bad region) spacing s s' := by
  rcases h.heads with ⟨hs, hs'⟩ | ⟨rest, hs, hs'⟩ | ⟨c, rest, -, hs, hs'⟩
  · exact .of_matches (matches_finish hs) (matches_finish hs') h
  · exact .of_fails (fails_finish (by simp [hs])) (fails_finish (by simp [hs']))
  · exact .of_fails (fails_finish (by simp [hs])) (fails_finish (by simp [hs']))

end Returned

/-! ### Line breaks, and what stops before them -/

namespace Pattern

variable {q : Pattern} {stops : Char → Bool} {spacing : Spacing} {s : State} {c d : Char}
  {chars rest : List Char}

/-- A line break of two characters. -/
theorem matches_newline_return (hs : s.rest = '\r' :: '\n' :: rest) :
    newline.Matches spacing s (s.past ['\r', '\n'] rest) :=
  (fails_text_cons hs (by decide)).choice (matches_text (State.takeText_append hs)).choice

/-- The pattern is seen from the next character, and matches at any line break. -/
structure Stops (q : Pattern) (stops : Char → Bool) : Prop where
  watches : q.Watches stops
  feed : stops '\n' = true
  nothing : ∀ {spacing s}, s.rest = [] → q.Fails spacing s
  returns : ∀ {spacing s rest}, s.rest = '\r' :: '\n' :: rest → ∃ t, q.Matches spacing s t

/-- A line break stops at the line feed. -/
theorem stops_newline : newline.Stops (· == '\n') where
  watches := watches_newline
  feed := rfl
  nothing hs := (fails_text_nil hs).choice_fails ((fails_text_nil hs).choice_fails (fails_text_nil hs))
  returns hs := ⟨_, matches_newline_return hs⟩

/-- One more character to stop at, other than the return. -/
theorem Stops.choice (h : q.Stops stops) (hd : d ≠ '\r') :
    (Pattern.choice (.text [d]) q).Stops fun c => c == d || stops c where
  watches := h.watches.choice d
  feed := by simp [h.feed]
  nothing hs := (fails_text_nil hs).choice_fails (h.nothing hs)
  returns hs := by
    obtain ⟨t, ht⟩ := h.returns hs
    exact ⟨t, (fails_text_cons hs hd.symm).choice ht⟩

/-- One character that the pattern does not stop at. -/
def guarding (q : Pattern) : Pattern := parts [.absent q, .one .any]

/-- A character of a string in these quotes. -/
def stringChar (quote : Char) : Pattern :=
  .choice (parts [lit "\\", .one .any])
    (guarding (.choice (.text [quote]) (.choice (lit "\\") newline)))

/-- A comment. -/
def comment : Pattern := parts [lit "#", .many (guarding newline)]

end Pattern

namespace Returned

open Pattern

variable {bad : Prop} {region region' : Region} {s s' t t' : State} {spacing : Spacing}
  {p q : Pattern} {stops : Char → Bool} {quote : Char} {r : Rule}

/-- A line break goes over the return as well. -/
theorem agrees_newline (h : Returned bad .code s s') :
    newline.Agrees (Returned bad .code) spacing s s' := by
  rcases h.heads with ⟨hs, hs'⟩ | ⟨rest, hs, hs'⟩ | ⟨c, rest, hc, hs, hs'⟩
  · exact .of_fails (stops_newline.nothing hs) (stops_newline.nothing hs')
  · exact .of_matches (matches_text_cons hs).choice (matches_newline_return hs')
      (h.past ['\n'] hs rfl)
  · obtain ⟨hfeed, hreturn⟩ : c ≠ '\n' ∧ c ≠ '\r' := by simpa [endsLine] using hc
    have hfails : ∀ {u : State} {rest}, u.rest = c :: rest → newline.Fails spacing u := by
      intro u rest hu
      have hnone := watches_newline spacing u c rest hreturn hu
      rwa [if_neg (by simpa using hfeed)] at hnone
    exact .of_fails (hfails hs) (hfails hs')

/-- One character that the pattern does not stop at leaves the region as it is. -/
theorem agrees_guarding (hq : q.Stops stops) (htight : ∀ u : State, u.skip spacing = u)
    (hregion : ∀ c, stops c = false → region.after c = region) (h : Returned bad region s s') :
    (guarding q).Agrees (fun t t' => Returned bad region t t' ∧ SameLine s t) spacing s s' := by
  refine h.agrees_head (fun c => !stops c) (fun c hc => hregion c (by simpa using hc)) ?_ ?_ ?_ ?_ ?_
  · intro u c rest hc haccepts hu
    have hfails := hq.watches spacing u c rest (by rintro rfl; cases hc) hu
    rw [if_neg (by simpa using haccepts)] at hfails
    refine hfails.absent.seq ?_
    rw [htight]
    exact matches_one hu rfl
  · intro u c rest hc haccepts hu
    have hmatches := hq.watches spacing u c rest (by rintro rfl; cases hc) hu
    rw [if_pos (by simpa using haccepts)] at hmatches
    obtain ⟨t, ht⟩ := hmatches
    exact ht.absent.seq
  · intro u hu
    refine (hq.nothing hu).absent.seq_fails ?_
    rw [htight]
    exact fails_one_nil hu
  · intro u rest hu
    have hmatches := hq.watches spacing u '\n' rest (by decide) hu
    rw [if_pos hq.feed] at hmatches
    obtain ⟨t, ht⟩ := hmatches
    exact ht.absent.seq
  · intro u rest hu
    obtain ⟨t, ht⟩ := hq.returns hu
    exact ht.absent.seq

/-! ### Comments -/

/-- A comment is over where no more of it is read. -/
theorem of_comment (h : Returned bad .comment s s') (hstop : (guarding newline).Fails .tight s) :
    Returned bad .code s s' := by
  refine ⟨h.rest, h.noReturn, ?_, h.place, h.margin, h.blank, h.phrases⟩
  rcases h.heads with ⟨hs, -⟩ | ⟨rest, hs, -⟩ | ⟨c, rest, hc, hs, -⟩
  · have hfate := h.fate
    rw [hs] at hfate ⊢
    exact ⟨nofun, fun hbad => nomatch hfate.mpr hbad⟩
  · have hfate := h.fate
    rw [hs] at hfate ⊢
    exact hfate
  · have hspells : (guarding newline).Spells [c] rest := spells_commentChar hc
    exact absurd hstop (hspells.tight (by decide) hs).not_fails

/-- A comment ends before the return. -/
theorem agrees_comment (h : Returned bad .code s s') :
    (Pattern.opt comment).Agrees (Returned bad .code) .tight s s' := by
  have hmark : (Pattern.text ['#']).Agrees (fun t t' => Returned bad .comment t t' ∧ SameLine s t)
      .tight s s' :=
    h.agrees_text (List.forall_mem_singleton.mpr rfl) rfl
  have hregion : ∀ c, (c == '\n') = false → Region.comment.after c = .comment := by
    intro c hc
    rw [Region.after, if_neg (by simpa using hc)]
  refine (hmark.seq fun t t' ht => ?_).opt h
  have hchars := Agrees.many (R := Returned bad .comment) (p := guarding newline) State.skip_tight
    (fun u u' hu => (hu.agrees_guarding stops_newline State.skip_tight hregion).mono
      fun _ _ hv => hv.1) ht.1
  exact hchars.mono fun u u' hu => hu.1.of_comment hu.2

/-! ### Strings -/

/-- A backslash in a string is one in both texts. -/
theorem agrees_backslash (h : Returned bad (.string quote) s s') :
    (Pattern.text ['\\']).Agrees (fun t t' => Returned bad (.escape quote) t t' ∧ SameLine s t)
      .token s s' :=
  h.agrees_text (List.forall_mem_singleton.mpr rfl) rfl

/-- A character of a string that is no backslash. -/
theorem agrees_stringGuard (hquote : IsQuote quote) (h : Returned bad (.string quote) s s') :
    (guarding (.choice (.text [quote]) (.choice (lit "\\") newline))).Agrees
      (fun t t' => Returned bad (.string quote) t t' ∧ SameLine s t) .token s s' := by
  refine h.agrees_guarding ((stops_newline.choice (by decide)).choice hquote.ne_return)
    State.skip_token ?_
  intro c hc
  simp only [Bool.or_eq_false_iff, beq_eq_false_iff_ne] at hc
  obtain ⟨hend, hslash, hfeed⟩ : c ≠ quote ∧ c ≠ '\\' ∧ c ≠ '\n' := hc
  rw [Region.after, if_neg hslash, if_neg (not_or.mpr ⟨hend, hfeed⟩)]

/-- A character of a string, on the same line. -/
theorem agrees_stringChar (hquote : IsQuote quote) (h : Returned False (.string quote) s s') :
    (stringChar quote).Agrees (fun t t' => Returned False (.string quote) t t' ∧ SameLine s t) .token
      s s' := by
  refine Agrees.choice ?_ ?_
  · -- behind the backslash is no line feed, and so the same character in both texts
    refine h.agrees_backslash.seq fun t t' ⟨ht, hline⟩ => ?_
    rcases ht.heads with ⟨hs, hs'⟩ | ⟨rest, hs, -⟩ | ⟨c, rest, hc, hs, hs'⟩
    · exact .of_fails (fails_one_nil hs) (fails_one_nil hs')
    · refine absurd (Region.past_broken rest) fun hbroken => ht.fate.mp ?_
      rwa [hs]
    · obtain ⟨hfeed, -⟩ : c ≠ '\n' ∧ c ≠ '\r' := by simpa [endsLine] using hc
      exact .of_matches (matches_one hs rfl) (matches_one hs' rfl)
        ⟨ht.past_char hs hc (if_neg hfeed), hline.trans (.past [c] hs (by simpa using hfeed.symm))⟩
  · exact h.agrees_stringGuard hquote

/-- A string. -/
theorem agrees_stringIn (hquote : IsQuote quote) (h : Returned False .code s s') :
    (stringIn (.text [quote])).Agrees (fun t t' => Returned False .code t t' ∧ SameLine s t) .token
      s s' := by
  refine (h.agrees_text hquote.on_line hquote.opens).seq fun t t' ht => ?_
  have hchars := Agrees.many (p := stringChar quote)
    (R := fun t t' => Returned False (.string quote) t t' ∧ SameLine s t) State.skip_token
    (fun u u' hu => (hu.1.agrees_stringChar hquote).mono
      fun _ _ hv => ⟨hv.1, hu.2.trans hv.2⟩) ht
  refine hchars.seq fun u u' hu => ?_
  exact (hu.1.1.agrees_text hquote.on_line hquote.closes).mono
    fun _ _ hv => ⟨hv.1, hu.1.2.trans hv.2⟩

/-! ### Blanks and margins -/

/-- A skip goes over the same blanks, and over hidden line ends with their returns. -/
theorem skip (h : Returned bad .code s s') (spacing : Spacing) :
    Returned bad .code (s.skip spacing) (s'.skip spacing) := by
  cases spacing with
  | tight | token => exact h
  | loose =>
      obtain ⟨blanks, left, hrest, hcode, hskip⟩ := skipBlanks_withReturns h.noReturn
      have hs : s.skip .loose = s.past blanks left := by
        simp only [State.skip, (hskip _).1]
        rfl
      have hs' : s'.skip .loose = s'.past (withReturns blanks) (withReturns left) := by
        simp only [State.skip, h.rest, (hskip _).2]
        rfl
      rw [hs, hs']
      exact h.past blanks hrest hcode

theorem freePhrases : FreePhrases SamePlace (Returned bad region) :=
  fun _ _ _ _ h hfound => ⟨h.rest, h.noReturn, h.fate, h.place, h.margin, h.blank, hfound⟩

/-- Between states on a line lies the same text. -/
theorem textUpTo_eq (h : Returned bad region s s') (h' : Returned bad region' t t')
    (hline : SameLine s t) : s'.textUpTo t' = s.textUpTo t := by
  obtain ⟨chars, hs, hplace, hfeed⟩ := hline
  have hreturn : '\r' ∉ chars := fun hmem => h.noReturn (hs ▸ List.mem_append_left _ hmem)
  have hchars : ∀ c ∈ chars, endsLine c = false := by
    intro c hc
    have hne : c ≠ '\n' ∧ c ≠ '\r' := ⟨by rintro rfl; exact hfeed hc, by rintro rfl; exact hreturn hc⟩
    simp [endsLine, hne]
  have hoffset : t.place.offset = s.place.offset + chars.length := by
    rw [hplace, Place.offset_foldl]
  have hsame : t.place.line = s.place.line := by
    rw [hplace, Place.line_foldl, List.count_eq_zero.mpr hfeed, Nat.add_zero]
  have hdelay := h.place.offset
  have hdelay' := h'.place.offset
  have hdistance : t'.place.offset - s'.place.offset = chars.length := by omega
  rw [State.textUpTo, State.textUpTo, hdistance, hoffset, Nat.add_sub_cancel_left, h.rest, hs,
    withReturns_append, withReturns_line hchars, List.take_left, List.take_left]

/-- An outdent takes off the same width. -/
theorem agrees_outdent (h : Returned bad .code s s') :
    Pattern.outdent.Agrees (Returned bad .code) spacing s s' := by
  refine .outdent h.margin fun width outer hmargin => ?_
  refine ⟨h.rest, h.noReturn, h.fate, h.place, rfl, fun c hc => h.blank c ?_, h.phrases⟩
  rw [hmargin]
  exact List.mem_append_right width hc

/-- An indentation is measured alike. -/
theorem agrees_indentation (h : Returned bad .code s s') :
    (Pattern.indent indentation).Agrees (Returned bad .code) .tight s s' := by
  have hblank : ∀ {u u' : State}, Returned bad .code u u' →
      (Pattern.one .blank).Agrees (Returned bad .code) .tight u u' :=
    fun hu => (hu.agrees_one (by decide)).mono fun _ _ hv => hv.1
  have hagrees : indentation.Agrees (Returned bad .code) .tight s s' :=
    (hblank h).seq fun t t' ht =>
      (Agrees.many State.skip_tight (fun _ _ => hblank) ht).mono fun _ _ hu => hu.1
  refine hagrees.indent fun t t' hmatches ht => ?_
  have htext := h.textUpTo_eq ht (hmatches.sameLine rfl)
  have hwidth := blank_of_indentation hmatches
  refine ⟨ht.rest, ht.noReturn, ht.fate, ht.place, ?_, ?_, ht.phrases⟩
  · exact List.cons_eq_cons.mpr ⟨htext, ht.margin⟩
  · exact List.forall_mem_append.mpr ⟨hwidth, ht.blank⟩

/-! ### All rules -/

/-- A rule is closed at the same line and column, and a rule that is spelled on
the line with the same text. -/
theorem closed (hline : r.isSpelled = true → SameLine (s.openRule r spacing) t)
    (hmatches : r.definition.pattern.Matches (r.inside spacing) (s.openRule r spacing) t)
    (h : Returned bad .code s s') (h' : Returned bad .code t t') :
    Returned bad .code (State.afterRule r spacing s t) (State.afterRule r spacing s' t') := by
  have hplace : ∀ {u u' : State}, Returned bad .code u u' → SamePlace u.place u'.place :=
    fun hu => ⟨hu.place.line, hu.place.column⟩
  refine freePhrases.closed hmatches (hplace h) (hplace h') (fun hvisible hspelled => ?_)
    h'.phrases h.phrases h'
  have hsame := hline hspelled
  rw [State.openRule_of_visible hvisible] at hsame
  exact congrArg r.sense (h.textUpTo_eq h' hsame)

/-- Rules that are spelled are on a line, but a string may have any character. -/
theorem keepsLine_of_spelled (hr : r.isSpelled = true) (hne : r ≠ .string) (spacing : Spacing) :
    r.definition.pattern.keepsLine (r.inside spacing) = true := by
  have hall : ∀ r ∈ Rule.all, r.isSpelled = true → r ≠ .string →
      ∀ spacing ∈ [Spacing.loose, .tight, .token],
      r.definition.pattern.keepsLine (r.inside spacing) = true := by
    decide +kernel
  exact hall r r.mem_all hr hne spacing (by cases spacing <;> simp)

/-- Patterns that agree in the code of both texts. -/
def inCode (spacing : Spacing) (p : Pattern) : Bool :=
  p = .margin || p = .outdent || p = newline ||
    (spacing = .tight && (p = .opt comment || p = .indent indentation)) ||
    match p with
    | .text chars => chars.all fun c => !endsLine c && Region.code.after c = .code
    | .one set => set ≠ .any
    | .finish => true
    | _ => false

/-- Every pattern of the code matches both texts alike. -/
theorem agrees_inCode (hp : inCode spacing p = true) (h : Returned bad .code s s') :
    p.Agrees (Returned bad .code) spacing s s' := by
  simp only [inCode, Bool.or_eq_true, Bool.and_eq_true, decide_eq_true_eq] at hp
  rcases hp with (((rfl | rfl) | rfl) | ⟨rfl, rfl | rfl⟩) | hp
  · exact h.agrees_margin
  · exact h.agrees_outdent
  · exact h.agrees_newline
  · exact h.agrees_comment
  · exact h.agrees_indentation
  · cases p with
    | text chars =>
        simp only [List.all_eq_true, Bool.and_eq_true, decide_eq_true_eq, Bool.not_eq_true'] at hp
        exact (h.agrees_text (fun c hc => (hp c hc).1)
          (Region.past_code fun c hc => (hp c hc).2)).mono fun _ _ ht => ht.1
    | one set => exact (h.agrees_one (of_decide_eq_true hp)).mono fun _ _ ht => ht.1
    | finish => exact h.agrees_finish
    | _ => cases hp

/-- Such patterns and strings. -/
def inUnbroken (spacing : Spacing) (p : Pattern) : Bool := inCode spacing p || p = .rule .string

/-- All other rules are made of these. -/
theorem builtFrom_inUnbroken (hr : (decide (r ≠ .string) && decide (r ≠ .module)) = true)
    (spacing : Spacing) :
    r.definition.pattern.builtFrom (inUnbroken (r.inside spacing))
      (fun r => r ≠ .string && r ≠ .module) = true := by
  have hall : ∀ r ∈ Rule.all, (decide (r ≠ .string) && decide (r ≠ .module)) = true →
      ∀ spacing ∈ [Spacing.loose, .tight, .token],
      r.definition.pattern.builtFrom (inUnbroken (r.inside spacing))
        (fun r => r ≠ .string && r ≠ .module) = true := by
    decide +kernel
  exact hall r r.mem_all hr spacing (by cases spacing <;> simp)

/-- In an unbroken text a string is read alike. -/
theorem agrees_string (h : Returned False .code s s') :
    (Pattern.rule .string).Agrees (Returned False .code) spacing s s' := by
  have hopened : Returned False .code (s.openRule .string spacing) (s'.openRule .string spacing) :=
    freePhrases.opened h
  have hstring := (hopened.agrees_stringIn (.inl rfl)).choice (hopened.agrees_stringIn (.inr rfl))
  exact Agrees.rule hstring fun t t' ht hR => closed (fun _ => hR.2) ht h hR.1

/-- **The code of both texts** is matched alike, as long as no string is broken. -/
theorem simulation :
    Simulation (Returned False .code) inUnbroken fun r => r ≠ .string && r ≠ .module where
  skip spacing h := h.skip spacing
  leaves hp h := by
    rw [inUnbroken, Bool.or_eq_true, decide_eq_true_eq] at hp
    rcases hp with hp | rfl
    · exact agrees_inCode hp h
    · exact h.agrees_string
  opened := freePhrases.opened
  closed {r spacing s s' t t'} hr hmatches h h' := by
    simp only [Bool.and_eq_true, decide_eq_true_eq] at hr
    exact closed (fun hspelled => hmatches.sameLine (keepsLine_of_spelled hspelled hr.1 spacing))
      hmatches h h'
  rules hr spacing := builtFrom_inUnbroken hr spacing

end Returned

/-- **An unbroken text and the one with carriage returns** get the same answer. -/
theorem sameAnswer_withReturns {text : List Char} (hreturn : '\r' ∉ text)
    (hunbroken : Unbroken text) : SameAnswer SamePlace text (withReturns text) := by
  have hstart : Returned False .code (.ofText text) (.ofText (withReturns text)) :=
    ⟨rfl, hreturn, iff_false_intro hunbroken, ⟨rfl, rfl, rfl⟩, rfl, List.forall_mem_nil _, .nil⟩
  exact sameAnswer_of_agrees (fun h => h.phrases) (Returned.simulation.agrees (by decide) hstart)

end FunctionIR.Grammar
