import FunctionIR.Proofs.Layout.Lines
import FunctionIR.Proofs.Grammar.Displacement

/-!
# Not looking behind the end of a line

A rule inside a line reads up to the end of the line, and does not look at what
comes after it.  So two texts that are the same up to some line feed are
matched alike, as long as a match stays before it (`Before.simulation`).

There are three ways to come across the end of a line without a line break:
a backslash can hide it, a carriage return can go together with it, and a
string can have it behind a backslash.  Texts in which the line feed comes
after neither a backslash nor a carriage return rule them all out
(`OpenEnded`).
-/

namespace FunctionIR.Grammar

/-- A line feed behind the text ends a line and is nothing else. -/
structure OpenEnded (text : List Char) : Prop where
  noReturn : '\r' ∉ text
  noBackslash : ∀ before, text ≠ before ++ ['\\']

namespace OpenEnded

variable {text : List Char}

theorem of_append (chars : List Char) (h : OpenEnded (chars ++ text)) : OpenEnded text := by
  refine ⟨fun hmem => h.noReturn (List.mem_append_right chars hmem), fun before htext => ?_⟩
  refine h.noBackslash (chars ++ before) ?_
  rw [htext, List.append_assoc]

/-- So is what is left behind a character. -/
theorem of_cons {c : Char} (h : OpenEnded (c :: text)) : OpenEnded text :=
  of_append [c] h

/-- No blanks reach over such a line feed. -/
theorem skipBlanks_eq (h : OpenEnded text) :
    ∃ blanks left, text = blanks ++ left ∧ ∀ later place,
      skipBlanks place (text ++ '\n' :: later) =
        (left ++ '\n' :: later, blanks.foldl Place.after place) := by
  generalize horigin : Place.origin = origin
  clear horigin
  fun_induction skipBlanks origin text with
  | case1 origin rest ih =>
      obtain ⟨blanks, left, hrest, hskip⟩ := ih h.of_cons
      refine ⟨' ' :: blanks, left, congrArg _ hrest, fun later place => ?_⟩
      rw [List.cons_append, skipBlanks, hskip]
      rfl
  | case2 origin rest ih =>
      obtain ⟨blanks, left, hrest, hskip⟩ := ih h.of_cons
      refine ⟨'\t' :: blanks, left, congrArg _ hrest, fun later place => ?_⟩
      rw [List.cons_append, skipBlanks, hskip]
      rfl
  | case3 origin rest ih =>
      obtain ⟨blanks, left, hrest, hskip⟩ := ih h.of_cons.of_cons
      refine ⟨'\\' :: '\n' :: blanks, left, congrArg (['\\', '\n'] ++ ·) hrest, fun later place => ?_⟩
      rw [List.cons_append, List.cons_append, skipBlanks, hskip]
      rfl
  -- there is no carriage return in the text
  | case4 | case5 => exact absurd (by simp) h.noReturn
  | case6 origin rest hspace htab hslash hreturn hreturn' =>
      refine ⟨[], rest, rfl, fun later place => ?_⟩
      cases rest with
      | nil => rfl
      | cons c rest =>
          cases rest with
          | nil =>
              have hc : c ≠ '\\' := fun hc => h.noBackslash [] (congrArg (fun d => [d]) hc)
              rw [List.cons_append, skipBlanks]
              · rfl
              all_goals
                intro more heq
                obtain rfl := (List.cons_eq_cons.mp heq).1
                first | exact hspace _ rfl | exact htab _ rfl | exact hc rfl
          | cons d rest =>
              rw [List.cons_append, List.cons_append, skipBlanks]
              · rfl
              all_goals
                intro more heq
                obtain ⟨rfl, htail⟩ := List.cons_eq_cons.mp heq
                first
                | exact hspace _ rfl
                | exact htab _ rfl
                | obtain rfl := (List.cons_eq_cons.mp htail).1
                  first | exact hslash _ rfl | exact hreturn' _ rfl

end OpenEnded

/-! ### States before the end of a line -/

/-- Both states are at the same place in the early text, with so much of it
left, and a line feed behind that. -/
structure BeforeAt (E : Place → Place → Prop) (early later later' left : List Char)
    (s s' : State) : Prop where
  read : ∃ used, early = used ++ left ∧ s.place = used.foldl Place.after .origin
  rest : s.rest = left ++ '\n' :: later
  rest' : s'.rest = left ++ '\n' :: later'
  place : s'.place = s.place
  margin : s'.margin = s.margin
  blank : ∀ c ∈ s.margin.flatten, CharClass.blank.holds c = true
  phrases : AllAlike E s.phrases s'.phrases

/-- Both states are at the same place in the early text. -/
def Before (E : Place → Place → Prop) (early later later' : List Char) (s s' : State) : Prop :=
  ∃ left, BeforeAt E early later later' left s s'

/-- The places in the text correspond to themselves. -/
def Stays (E : Place → Place → Prop) (early : List Char) : Prop :=
  ∀ used left, early = used ++ left →
    E (used.foldl Place.after .origin) (used.foldl Place.after .origin)

/-- Any character but a line feed ends no text before one. -/
theorem prefix_of_prefix_line {chars left later : List Char} (hchars : '\n' ∉ chars)
    (h : chars <+: left ++ '\n' :: later) : ∃ left', left = chars ++ left' := by
  rcases List.prefix_or_prefix_of_prefix h (List.prefix_append left _) with hprefix | hprefix
  · obtain ⟨left', hleft⟩ := hprefix
    exact ⟨left', hleft.symm⟩
  · obtain ⟨more, rfl⟩ := hprefix
    cases more with
    | nil => exact ⟨[], (List.append_nil _).symm.trans (List.append_nil _).symm⟩
    | cons c more =>
        have hmore := (List.prefix_append_right_inj left).mp h
        obtain ⟨rfl, -⟩ := List.cons_prefix_cons.mp hmore
        exact absurd (by simp) hchars

namespace BeforeAt

open Pattern

variable {E : Place → Place → Prop} {early later later' left left' chars : List Char}
  {s s' : State} {spacing : Spacing}

/-- What is read of the rest of the line leaves less of it. -/
theorem past (h : BeforeAt E early later later' left s s') (chars : List Char)
    (hleft : left = chars ++ left') :
    BeforeAt E early later later' left' (s.past chars (left' ++ '\n' :: later))
      (s'.past chars (left' ++ '\n' :: later')) := by
  obtain ⟨used, hearly, hplace⟩ := h.read
  refine ⟨⟨used ++ chars, ?_, ?_⟩, rfl, rfl, ?_, h.margin, h.blank, h.phrases⟩
  · rw [hearly, hleft, List.append_assoc]
  · rw [List.foldl_append, ← hplace]
    rfl
  · rw [State.past, State.past, h.place]

/-- What both read of the rest of the line is the same text. -/
theorem agrees_past {p : Pattern} (h : BeforeAt E early later later' left s s')
    (chars : List Char) (hleft : left = chars ++ left')
    (hmatches : ∀ u : State, ∀ rest, u.margin = s.margin → u.rest = chars ++ rest →
      p.Matches spacing u (u.past chars rest)) :
    p.Agrees (Before E early later later') spacing s s' := by
  refine .of_matches (hmatches s _ rfl ?_) (hmatches s' _ h.margin ?_) ⟨left', h.past chars hleft⟩
  · rw [h.rest, hleft, List.append_assoc]
  · rw [h.rest', hleft, List.append_assoc]

/-- A text without line feeds is found within the line or not at all. -/
theorem agrees_of_noBreak {p : Pattern} (h : BeforeAt E early later later' left s s')
    (chars : List Char) (hchars : '\n' ∉ chars)
    (hmatches : ∀ u : State, ∀ rest, u.margin = s.margin → u.rest = chars ++ rest →
      p.Matches spacing u (u.past chars rest))
    (hfails : ∀ u : State, u.margin = s.margin → ¬ chars <+: u.rest → p.Fails spacing u) :
    p.Agrees (Before E early later later') spacing s s' := by
  by_cases hprefix : ∃ left', left = chars ++ left'
  · obtain ⟨left', hleft⟩ := hprefix
    exact h.agrees_past chars hleft hmatches
  · refine .of_fails (hfails s rfl fun hs => hprefix ?_) (hfails s' h.margin fun hs => hprefix ?_)
    · rw [h.rest] at hs
      exact prefix_of_prefix_line hchars hs
    · rw [h.rest'] at hs
      exact prefix_of_prefix_line hchars hs

/-- A fixed text without a line feed is found within the line or not at all. -/
theorem agrees_text (h : BeforeAt E early later later' left s s') (hchars : '\n' ∉ chars) :
    (Pattern.text chars).Agrees (Before E early later later') spacing s s' :=
  h.agrees_of_noBreak chars hchars (fun _ _ _ hu => matches_text (State.takeText_append hu))
    fun _ _ hu => fails_text (State.takeText_eq_none hu)

/-- The margin, which is blank, is found within the line or not at all. -/
theorem agrees_margin (h : BeforeAt E early later later' left s s') :
    Pattern.margin.Agrees (Before E early later later') spacing s s' := by
  refine h.agrees_of_noBreak s.margin.flatten (fun hmem => ?_) ?_ ?_
  · exact absurd (h.blank '\n' hmem) (by decide)
  · intro u rest hmargin hu
    refine matches_margin ?_
    rw [hmargin]
    exact State.takeText_append hu
  · intro u hmargin hu
    refine fails_margin (State.takeText_eq_none ?_)
    rwa [hmargin]

/-- What is decided by the next character, which is in the line or the line
feed behind it. -/
theorem agrees_head {p : Pattern} (accepts : Char → Bool)
    (h : BeforeAt E early later later' left s s') (hreturn : '\r' ∉ left)
    (hbreak : accepts '\n' = false)
    (hmatches : ∀ u : State, ∀ c rest, c ≠ '\r' → accepts c = true → u.rest = [c] ++ rest →
      p.Matches spacing u (u.past [c] rest))
    (hfails : ∀ u : State, ∀ c rest, c ≠ '\r' → accepts c = false → u.rest = [c] ++ rest →
      p.Fails spacing u) :
    p.Agrees (Before E early later later') spacing s s' := by
  obtain ⟨hs, hs'⟩ := And.intro h.rest h.rest'
  cases left with
  | nil =>
      exact .of_fails (hfails s '\n' _ (by decide) hbreak hs)
        (hfails s' '\n' _ (by decide) hbreak hs')
  | cons c left =>
      have hc : c ≠ '\r' := fun hc => hreturn (hc ▸ List.mem_cons_self)
      cases haccepts : accepts c with
      | true =>
          exact h.agrees_past [c] rfl fun u rest _ hu => hmatches u c rest hc haccepts hu
      | false => exact .of_fails (hfails s c _ hc haccepts hs) (hfails s' c _ hc haccepts hs')

/-- A class without the line feed takes the same character. -/
theorem agrees_one (h : BeforeAt E early later later' left s s') (hreturn : '\r' ∉ left)
    {set : CharClass} (hset : set.holds '\n' = false) :
    (Pattern.one set).Agrees (Before E early later later') spacing s s' := by
  refine h.agrees_head set.holds hreturn hset ?_ ?_
  · intro u c rest _ hc hu
    exact matches_one hu hc
  · intro u c rest _ hc hu
    refine fails_one fun d more hd => ?_
    obtain ⟨rfl, -⟩ := List.cons.inj (hu.symm.trans hd)
    exact hc

/-- Neither state is at the end of its text. -/
theorem agrees_finish (h : BeforeAt E early later later' left s s') :
    Pattern.finish.Agrees (Before E early later later') spacing s s' := by
  refine .of_fails (fails_finish ?_) (fails_finish ?_)
  · rw [h.rest]
    simp
  · rw [h.rest']
    simp

end BeforeAt

/-! ### Single characters that are not a line feed -/

namespace Pattern

variable {q : Pattern} {stops : Char → Bool} {spacing : Spacing}

/-- Whether the pattern matches is seen from the next character, which is not a
carriage return. -/
def Watches (q : Pattern) (stops : Char → Bool) : Prop :=
  ∀ (spacing : Spacing) (s : State) (c : Char) (rest : List Char), c ≠ '\r' → s.rest = c :: rest →
    if stops c then ∃ t, q.Matches spacing s t else q.Fails spacing s

/-- The next character alone, as a fixed text. -/
theorem matches_text_cons {s : State} {c : Char} {rest : List Char} (hs : s.rest = c :: rest) :
    (Pattern.text [c]).Matches spacing s (s.past [c] rest) :=
  matches_text (State.takeText_append hs)

/-- Another character than the one a fixed text begins with. -/
theorem fails_text_cons {s : State} {c d : Char} {chars rest : List Char} (hs : s.rest = c :: rest)
    (hne : c ≠ d) : (Pattern.text (d :: chars)).Fails spacing s := by
  refine fails_text (State.takeText_eq_none fun hprefix => ?_)
  rw [hs] at hprefix
  exact hne (List.cons_prefix_cons.mp hprefix).1.symm

/-- A line break watches for the line feed. -/
theorem watches_newline : newline.Watches (· == '\n') := by
  intro spacing s c rest hc hs
  by_cases hbreak : c = '\n'
  · subst hbreak
    exact ⟨_, (matches_text_cons hs).choice⟩
  · rw [if_neg (by simpa using hbreak)]
    exact (fails_text_cons hs hbreak).choice_fails
      ((fails_text_cons hs hc).choice_fails (fails_text_cons hs hc))

/-- One more character to watch for. -/
theorem Watches.choice (hq : q.Watches stops) (d : Char) :
    (Pattern.choice (.text [d]) q).Watches fun c => c == d || stops c := by
  intro spacing s c rest hc hs
  by_cases hd : c = d
  · subst hd
    rw [if_pos (by simp)]
    exact ⟨_, (matches_text_cons hs).choice⟩
  · have hfails : (Pattern.text [d]).Fails spacing s := fails_text_cons hs hd
    have hlast := hq spacing s c rest hc hs
    have heq : (c == d || stops c) = stops c := by simp [hd]
    simp only [heq]
    cases hstops : stops c with
    | false =>
        rw [hstops] at hlast
        exact hfails.choice_fails hlast
    | true =>
        rw [hstops] at hlast
        obtain ⟨t, ht⟩ := hlast
        exact ⟨t, hfails.choice ht⟩

/-- One character that the pattern does not stop at. -/
theorem agrees_guarded {E : Place → Place → Prop} {early later later' left : List Char}
    {s s' : State} (hq : q.Watches stops) (hbreak : stops '\n' = true)
    (htight : ∀ u : State, u.skip spacing = u) (h : BeforeAt E early later later' left s s')
    (hreturn : '\r' ∉ left) :
    (Pattern.seq (.absent q) (.one .any)).Agrees (Before E early later later') spacing s s' := by
  refine h.agrees_head (fun c => !stops c) hreturn (by simp [hbreak]) ?_ ?_
  · intro u c rest hc haccepts hu
    have hfails := hq spacing u c rest hc hu
    rw [if_neg (by simpa using haccepts)] at hfails
    refine hfails.absent.seq ?_
    rw [htight]
    exact matches_one hu rfl
  · intro u c rest hc haccepts hu
    have hmatches := hq spacing u c rest hc hu
    rw [if_pos (by simpa using haccepts)] at hmatches
    obtain ⟨t, ht⟩ := hmatches
    exact ht.absent.seq

/-- A backslash and the character behind it. -/
theorem agrees_escaped {E : Place → Place → Prop} {early later later' left : List Char}
    {s s' : State} (htight : ∀ u : State, u.skip spacing = u) (hleft : OpenEnded left)
    (h : BeforeAt E early later later' left s s') :
    (Pattern.seq (.text ['\\']) (.one .any)).Agrees (Before E early later later') spacing s s' := by
  obtain ⟨hs, hs'⟩ := And.intro h.rest h.rest'
  cases left with
  | nil => exact .of_fails (fails_text_cons hs (by decide)).seq (fails_text_cons hs' (by decide)).seq
  | cons c left =>
      by_cases hc : c = '\\'
      · subst hc
        cases left with
        | nil => exact absurd rfl (hleft.noBackslash [])
        | cons d left =>
            refine h.agrees_past ['\\', d] rfl fun u rest _ hu => ?_
            refine (matches_text_cons hu).seq ?_
            rw [htight]
            exact matches_one rfl rfl
      · exact .of_fails (fails_text_cons hs hc).seq (fails_text_cons hs' hc).seq

/-- Characters in comments and in strings. -/
def guarded : List Pattern := [
  parts [.absent newline, .one .any],
  parts [.absent (firstOf [lit "\"", lit "\\", newline]), .one .any],
  parts [.absent (firstOf [lit "'", lit "\\", newline]), .one .any],
  parts [lit "\\", .one .any]]

/-- Patterns that read no line feed. -/
def staysInLine (spacing : Spacing) : Pattern → Bool
  | .text chars => !chars.contains '\n'
  | .one set => set ≠ .any
  | .finish => true
  | p => spacing ≠ .loose && guarded.contains p

end Pattern

namespace Before

open Pattern

variable {E : Place → Place → Prop} {early later later' : List Char} {s s' t t' : State}
  {spacing : Spacing} {p : Pattern} {r : Rule}

section

variable (hopen : OpenEnded early)

include hopen

/-- A line feed behind the rest of the line ends it. -/
theorem openEnded {left : List Char} (h : BeforeAt E early later later' left s s') :
    OpenEnded left := by
  obtain ⟨used, rfl, -⟩ := h.read
  exact hopen.of_append used

/-- A skip stays within the line. -/
theorem skip (h : Before E early later later' s s') (spacing : Spacing) :
    Before E early later later' (s.skip spacing) (s'.skip spacing) := by
  cases spacing with
  | tight | token => exact h
  | loose =>
      obtain ⟨left, h⟩ := h
      obtain ⟨blanks, left', hleft, hskip⟩ := (openEnded hopen h).skipBlanks_eq
      have hs : s.skip .loose = s.past blanks (left' ++ '\n' :: later) := by
        simp only [State.skip, h.rest, hskip]
        rfl
      have hs' : s'.skip .loose = s'.past blanks (left' ++ '\n' :: later') := by
        simp only [State.skip, h.rest', hskip]
        rfl
      rw [hs, hs']
      exact ⟨left', h.past blanks hleft⟩

/-- What stays in the line is matched alike, whatever the lines after it. -/
theorem agrees_staysInLine (hp : staysInLine spacing p = true) (h : Before E early later later' s s') :
    p.Agrees (Before E early later later') spacing s s' := by
  obtain ⟨left, h⟩ := h
  have hleft := openEnded hopen h
  have hguarded : ∀ q : Pattern, (decide (spacing ≠ .loose) && guarded.contains q) = true →
      q.Agrees (Before E early later later') spacing s s' := by
    intro q hq
    simp only [Bool.and_eq_true, decide_eq_true_eq, List.contains_iff_mem, guarded,
      List.mem_cons, List.not_mem_nil, or_false] at hq
    obtain ⟨hspacing, hq⟩ := hq
    have htight : ∀ u : State, u.skip spacing = u := by
      intro u
      cases spacing with
      | loose => exact absurd rfl hspacing
      | tight | token => rfl
    rcases hq with rfl | rfl | rfl | rfl
    · exact agrees_guarded watches_newline rfl htight h hleft.noReturn
    · exact agrees_guarded ((watches_newline.choice '\\').choice '"') rfl htight h hleft.noReturn
    · exact agrees_guarded ((watches_newline.choice '\\').choice '\'') rfl htight h hleft.noReturn
    · exact agrees_escaped htight hleft h
  cases p with
  | text chars => exact h.agrees_text (by simpa [staysInLine] using hp)
  | one set =>
      refine h.agrees_one hleft.noReturn ?_
      cases set with
      | any => cases hp
      | blank | digit | nameStart | nameChar => decide
  | finish => exact h.agrees_finish
  | _ => exact hguarded _ hp

end

/-- Between corresponding states lies the same text. -/
theorem textUpTo_eq (h : Before E early later later' s s') (h' : Before E early later later' t t') :
    s'.textUpTo t' = s.textUpTo t := by
  obtain ⟨left, h⟩ := h
  obtain ⟨left', h'⟩ := h'
  obtain ⟨used, hearly, hplace⟩ := h.read
  obtain ⟨used', hearly', hplace'⟩ := h'.read
  have hlength : used.length + left.length = used'.length + left'.length := by
    rw [← List.length_append, ← List.length_append, ← hearly, ← hearly']
  have hle : t.place.offset - s.place.offset ≤ left.length := by
    rw [hplace, hplace', Place.offset_foldl, Place.offset_foldl]
    omega
  rw [State.textUpTo, State.textUpTo, h.place, h'.place, h.rest, h.rest',
    List.take_append_of_le_length hle, List.take_append_of_le_length hle]

/-- Corresponding states are at corresponding places. -/
theorem place (hE : Stays E early) (h : Before E early later later' s s') : E s.place s'.place := by
  obtain ⟨left, h⟩ := h
  obtain ⟨used, hearly, hused⟩ := h.read
  rw [h.place, hused]
  exact hE used left hearly

/-- The phrases found so far are alike. -/
theorem phrases (h : Before E early later later' s s') : AllAlike E s.phrases s'.phrases := by
  obtain ⟨left, h⟩ := h
  exact h.phrases

theorem freePhrases : FreePhrases E (Before E early later later') := by
  rintro s s' found found' ⟨left, h⟩ hfound
  exact ⟨left, h.read, h.rest, h.rest', h.place, h.margin, h.blank, hfound⟩

/-- A rule is closed at corresponding places, with the same text. -/
theorem closed (hE : Stays E early)
    (hmatches : r.definition.pattern.Matches (r.inside spacing) (s.openRule r spacing) t)
    (h : Before E early later later' s s') (h' : Before E early later later' t t') :
    Before E early later later' (State.afterRule r spacing s t) (State.afterRule r spacing s' t') := by
  exact freePhrases.closed hmatches (h.place hE) (h'.place hE)
    (fun _ _ => congrArg r.sense (textUpTo_eq h h')) h'.phrases h.phrases h'

/-- **A rule inside a line** does not look behind the end of the line. -/
theorem simulation (later later' : List Char) (hopen : OpenEnded early) (hE : Stays E early) :
    Simulation (Before E early later later') staysInLine Rule.isInline where
  skip spacing h := h.skip hopen spacing
  leaves := agrees_staysInLine hopen
  opened := freePhrases.opened
  closed _ hmatches := closed hE hmatches
  rules {r} hr spacing := by
    have hall : ∀ r ∈ Rule.all, r.isInline = true → ∀ spacing ∈ [Spacing.loose, .tight, .token],
        r.definition.pattern.builtFrom (staysInLine (r.inside spacing)) Rule.isInline = true := by
      decide +kernel
    exact hall r r.mem_all hr spacing (by cases spacing <;> simp)

end Before

end FunctionIR.Grammar
