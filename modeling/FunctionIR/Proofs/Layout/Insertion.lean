import FunctionIR.Proofs.Layout.LineEnd
import FunctionIR.Proofs.Grammar.Blocks
import FunctionIR.Proofs.Grammar.Termination

/-!
# One more blank line

A line of blanks and a comment can be put in between two lines of a text, and
the same is matched.  Up to there the two texts are the same (`Before`), and
behind the new line they are the same again, displaced by it (`Displaced`).
The one place where a match can come from here to there is a line break
(`Across.agrees_lineBreak`): it goes on to the next line with something on it,
and finds one more line to go over.

Where the new line comes first, this is the line break before the first
statement, which then need not have been there.
-/

namespace FunctionIR.Grammar

/-- A line of blanks and a comment, with its line feed. -/
def IsBlankLine (line : List Char) : Prop :=
  ∃ blanks comment, line = blanks ++ (comment ++ ['\n']) ∧
    (∀ c ∈ blanks, CharClass.blank.holds c = true) ∧
    (comment = [] ∨ ∃ chars, comment = '#' :: chars ∧ ∀ c ∈ chars, endsLine c = false)

/-- The pattern of such a line. -/
def blankLine : Pattern := .parts [blankRest, newline]

namespace Pattern

variable {line rest : List Char} {s t u : State}

/-- A character of a comment. -/
theorem spells_commentChar {c : Char} (hc : endsLine c = false) :
    (parts [.absent newline, .one .any]).Spells [c] rest := by
  intro s hs
  have hne : c ≠ '\n' ∧ c ≠ '\r' := by
    simpa [endsLine] using hc
  have hfails := watches_newline .token s c rest hne.2 hs
  rw [if_neg (by simpa using hne.1)] at hfails
  exact hfails.absent.seq (matches_one hs rfl)

/-- A comment ends before a line feed. -/
theorem rejects_commentChar : (parts [.absent newline, .one .any]).Rejects ('\n' :: rest) := by
  intro s hs
  obtain ⟨t, ht⟩ := watches_newline .token s '\n' rest (by decide) hs
  exact ht.absent.seq

/-- A blank line is spelled by its pattern, whatever comes after it. -/
theorem spells_blankLine (h : IsBlankLine line) (rest : List Char) : blankLine.Spells line rest := by
  obtain ⟨blanks, comment, rfl, hblanks, hcomment⟩ := h
  have hcommentSpells :
      (Pattern.opt (parts [lit "#", .many (parts [.absent newline, .one .any])])).Spells comment
        (['\n'] ++ rest) := by
    rcases hcomment with rfl | ⟨chars, rfl, hchars⟩
    · have hnone : (Pattern.text ['#']).Rejects ('\n' :: rest) :=
        fun _ hs => fails_text_cons hs (by decide)
      exact Rejects.opt (Rejects.seq hnone)
    · have hmany : (Pattern.many (parts [.absent newline, .one .any])).Spells
          (chars.flatMap fun c => [c]) ('\n' :: rest) :=
        spells_many (fun c hc more => spells_commentChar (hchars c hc)) rejects_commentChar
      rw [List.flatMap_singleton'] at hmany
      have hmark : (Pattern.text ['#']).Spells ['#'] (chars ++ '\n' :: rest) := spells_text ['#']
      exact (hmark.seq hmany).opt
  have hblanksSpells : (Pattern.many (.one .blank)).Spells blanks (comment ++ (['\n'] ++ rest)) := by
    refine spells_many_one hblanks fun c more hc => ?_
    rcases hcomment with rfl | ⟨chars, rfl, -⟩
    · obtain ⟨rfl, -⟩ := List.cons.inj hc
      rfl
    · obtain ⟨rfl, -⟩ := List.cons.inj hc
      rfl
  have hline : newline.Spells ['\n'] rest := (spells_text ['\n']).choice
  have h := (hblanksSpells.seq hcommentSpells).seq hline
  rwa [List.append_assoc] at h

/-- A line break is a blank line with blank lines after it. -/
theorem matches_lineBreak_iff :
    lineBreak.Matches .tight s u ↔
      ∃ t, blankLine.Matches .tight s t ∧ (Pattern.many blankLine).Matches .tight t u := by
  constructor
  · intro h
    obtain ⟨v, hblank, h⟩ := matches_seq_iff.mp h
    obtain ⟨t, hline, hmany⟩ := matches_seq_iff.mp h
    exact ⟨t, hblank.seq hline, hmany⟩
  · rintro ⟨t, hline, hmany⟩
    obtain ⟨v, hblank, hline⟩ := matches_seq_iff.mp hline
    exact hblank.seq (hline.seq hmany)

/-- There is no line break where there is no blank line. -/
theorem fails_lineBreak_iff : lineBreak.Fails .tight s ↔ blankLine.Fails .tight s := by
  constructor
  · intro h
    rcases fails_seq_iff.mp h with h | ⟨t, ht, h⟩
    · exact h.seq
    · rcases fails_seq_iff.mp h with h | ⟨u, -, h⟩
      · exact ht.seq_fails h
      · exact absurd h not_fails_many
  · intro h
    rcases fails_seq_iff.mp h with h | ⟨t, ht, h⟩
    · exact h.seq
    · exact ht.seq_fails h.seq

/-- Before the first statement a line break may be there or not. -/
theorem matches_opt_lineBreak (h : (Pattern.opt lineBreak).Matches .tight s t) :
    (Pattern.many blankLine).Matches .tight s t := by
  rcases matches_opt_iff.mp h with h | ⟨hfails, rfl⟩
  · obtain ⟨u, hfirst, hmany⟩ := matches_lineBreak_iff.mp h
    exact hfirst.many_cons rfl hmany
  · exact (fails_lineBreak_iff.mp hfails).many

end Pattern

/-- The place behind the early text and its line feed. -/
def placeBehind (early : List Char) : Place := (early ++ ['\n']).foldl Place.after .origin

/-- One state is behind the early text, and the other would be, but for one more
blank line. -/
def Behind (Q E : Place → Place → Prop) (s s' : State) : Prop :=
  ∃ t', blankLine.Matches .tight s' t' ∧ Displaced Q E s t'

/-- The states are both before the new line or both behind it. -/
def Across (Q E : Place → Place → Prop) (early line later : List Char) (s s' : State) : Prop :=
  Before E early later (line ++ later) s s' ∨ Displaced Q E s s'

/-- A blank line can be put in behind the early text and its line feed. -/
structure Insertion (Q E : Place → Place → Prop) (early line : List Char) : Prop where
  openEnded : OpenEnded early
  stays : Stays E early
  displacement : Displacement Q E
  blank : IsBlankLine line
  place : Q (placeBehind early) (line.foldl Place.after (placeBehind early))

namespace Across

open Pattern

variable {Q E : Place → Place → Prop} {early line later : List Char} {s s' t t' : State}
  {spacing : Spacing} {p : Pattern} {r : Rule}

/-! ### Line breaks -/

/-- Behind the new line, blank lines are matched alike. -/
theorem displaced_blankLines (hQ : Displacement Q E) (h : Displaced Q E s s')
    (hmany : (Pattern.many blankLine).Matches .tight s t) :
    ∃ t', (Pattern.many blankLine).Matches .tight s' t' ∧ Displaced Q E t t' :=
  ((Displaced.simulation hQ).agrees (by decide) h).1 t hmany

section

variable (hinsert : Insertion Q E early line)

include hinsert

/-- A line feed before the new line, or right before it. -/
theorem agrees_newline (h : Before E early later (line ++ later) s s') :
    newline.Agrees (fun t t' => Before E early later (line ++ later) t t' ∨ Behind Q E t t')
      spacing s s' := by
  obtain ⟨left, h⟩ := h
  obtain ⟨hs, hs'⟩ := And.intro h.rest h.rest'
  have hbreak : ∀ {u : State} {rest}, u.rest = '\n' :: rest →
      newline.Matches spacing u (u.past ['\n'] rest) :=
    fun hu => (matches_text_cons hu).choice
  cases left with
  | nil =>
      refine .of_matches (hbreak hs) (hbreak hs') (.inr ?_)
      obtain ⟨used, hearly, hused⟩ := h.read
      rw [List.append_nil] at hearly
      have hbehind : ['\n'].foldl Place.after s.place = placeBehind early := by
        rw [placeBehind, List.foldl_append, hused, hearly]
      refine ⟨_, (spells_blankLine hinsert.blank later).tight (by decide) rfl, ?_⟩
      refine ⟨rfl, h.margin, ?_, h.phrases⟩
      change Q (['\n'].foldl Place.after s.place)
        (line.foldl Place.after (['\n'].foldl Place.after s'.place))
      rw [h.place, hbehind]
      exact hinsert.place
  | cons c left =>
      have hc : c ≠ '\r' := by
        intro hc
        exact (Before.openEnded hinsert.openEnded h).noReturn (hc ▸ List.mem_cons_self)
      by_cases hfeed : c = '\n'
      · subst hfeed
        exact .of_matches (hbreak hs) (hbreak hs') (.inl ⟨left, h.past ['\n'] rfl⟩)
      · have hfails : ∀ {u : State} {rest}, u.rest = c :: rest → newline.Fails spacing u := by
          intro u rest hu
          have hnone := watches_newline spacing u c rest hc hu
          rwa [if_neg (by simpa using hfeed)] at hnone
        exact .of_fails (hfails hs) (hfails hs')

/-- A blank line before the new one, or right before it. -/
theorem agrees_blankLine (h : Before E early later (line ++ later) s s') :
    blankLine.Agrees (fun t t' => Before E early later (line ++ later) t t' ∨ Behind Q E t t')
      .tight s s' :=
  ((Before.simulation later (line ++ later) hinsert.openEnded hinsert.stays).agrees (by decide) h).seq
    fun _ _ ht => agrees_newline hinsert ht

/-- Blank lines that begin before the new line stay there or come across it. -/
theorem blankLines_before (h : Before E early later (line ++ later) s s')
    (hmany : (Pattern.many blankLine).Matches .tight s t) :
    ∃ t', (Pattern.many blankLine).Matches .tight s' t' ∧ Across Q E early line later t t' := by
  obtain ⟨hrounds, hstop⟩ := (matches_many_iff_rounds State.skip_tight).mp hmany
  clear hmany
  induction hrounds generalizing s' with
  | none s => exact ⟨s', ((agrees_blankLine hinsert h).2 hstop).many, .inl h⟩
  | @more s u t first last ih =>
      obtain ⟨u', hu', hu⟩ := (agrees_blankLine hinsert h).1 u first
      rcases hu with hbefore | ⟨v', hv', hbehind⟩
      · obtain ⟨t', ht', hacross⟩ := ih hbefore hstop
        exact ⟨t', hu'.many_cons rfl ht', hacross⟩
      · have hmany := (matches_many_iff_rounds State.skip_tight).mpr ⟨last, hstop⟩
        obtain ⟨t', ht', ht⟩ := displaced_blankLines hinsert.displacement hbehind hmany
        exact ⟨t', hu'.many_cons rfl (hv'.many_cons rfl ht'), .inr ht⟩

/-- **A line break** stays before the new line or comes across it. -/
theorem agrees_lineBreak (h : Before E early later (line ++ later) s s') :
    lineBreak.Agrees (Across Q E early line later) .tight s s' := by
  have hfirst := agrees_blankLine hinsert h
  constructor
  · intro t ht
    obtain ⟨u, hu, hmany⟩ := matches_lineBreak_iff.mp ht
    obtain ⟨u', hu', hrelated⟩ := hfirst.1 u hu
    rcases hrelated with hbefore | ⟨v', hv', hbehind⟩
    · obtain ⟨t', ht', hacross⟩ := blankLines_before hinsert hbefore hmany
      exact ⟨t', matches_lineBreak_iff.mpr ⟨u', hu', ht'⟩, hacross⟩
    · obtain ⟨t', ht', hdisplaced⟩ := displaced_blankLines hinsert.displacement hbehind hmany
      exact ⟨t', matches_lineBreak_iff.mpr ⟨u', hu', hv'.many_cons rfl ht'⟩, .inr hdisplaced⟩
  · intro hfails
    exact fails_lineBreak_iff.mpr (hfirst.2 (fails_lineBreak_iff.mp hfails))

end

/-! ### All rules -/

/-- An outdent before the new line takes off the same width. -/
theorem agrees_outdent (h : Before E early later (line ++ later) s s') :
    Pattern.outdent.Agrees (Across Q E early line later) spacing s s' := by
  obtain ⟨left, h⟩ := h
  refine .outdent h.margin fun width outer hmargin => ?_
  refine .inl ⟨left, h.read, h.rest, h.rest', h.place, rfl, fun c hc => h.blank c ?_, h.phrases⟩
  rw [hmargin]
  exact List.mem_append_right width hc

/-- An indentation before the new line is measured alike. -/
theorem agrees_indentation (hinsert : Insertion Q E early line)
    (h : Before E early later (line ++ later) s s') :
    (Pattern.indent indentation).Agrees (Across Q E early line later) .tight s s' := by
  have hagrees : indentation.Agrees (Before E early later (line ++ later)) .tight s s' :=
    (Before.simulation later (line ++ later) hinsert.openEnded hinsert.stays).agrees (by decide) h
  refine hagrees.indent fun t t' hmatches ht => ?_
  have htext := Before.textUpTo_eq h ht
  have hwidth := blank_of_indentation hmatches
  obtain ⟨left, ht⟩ := ht
  refine .inl ⟨left, ht.read, ht.rest, ht.rest', ht.place, ?_, ?_, ht.phrases⟩
  · exact List.cons_eq_cons.mpr ⟨htext, ht.margin⟩
  · exact List.forall_mem_append.mpr ⟨hwidth, ht.blank⟩

/-- Patterns that agree on both sides of the new line and across it. -/
def crosses (spacing : Spacing) (p : Pattern) : Bool :=
  staysInLine spacing p || p = .margin || p = .outdent ||
    (spacing = .tight && (p = lineBreak || p = .indent indentation)) ||
    match p with
    | .rule r => r.isInline
    | _ => false

/-- Behind the new line they are nothing special. -/
theorem builtFrom_of_crosses (h : crosses spacing p = true) :
    p.builtFrom Displaced.isLeaf (fun r => r ≠ .module) = true := by
  simp only [crosses, Bool.or_eq_true, Bool.and_eq_true, decide_eq_true_eq] at h
  rcases h with (((h | rfl) | rfl) | ⟨-, rfl | rfl⟩) | h
  · have hguarded : ∀ q ∈ guarded, q.builtFrom Displaced.isLeaf (fun r => r ≠ .module) = true := by
      decide
    have hmem : (decide (spacing ≠ .loose) && guarded.contains p) = true → p ∈ guarded := by
      intro h
      exact List.contains_iff_mem.mp (Bool.and_eq_true_iff.mp h).2
    cases p with
    | text | one | finish => rfl
    | _ => exact hguarded _ (hmem h)
  · decide
  · decide
  · decide
  · decide
  · cases p with
    | rule r =>
        have hne : r ≠ .module := by
          rintro rfl
          cases h
        simpa [builtFrom] using .inr hne
    | _ => cases h

/-- The places on both sides of the new line are related. -/
theorem place (hinsert : Insertion Q E early line) (h : Across Q E early line later s s') :
    E s.place s'.place := by
  rcases h with h | h
  · exact h.place hinsert.stays
  · exact hinsert.displacement.places h.place

/-- The phrases found so far are alike. -/
theorem phrases (h : Across Q E early line later s s') : AllAlike E s.phrases s'.phrases := by
  rcases h with h | h
  · exact h.phrases
  · exact h.phrases

theorem freePhrases : FreePhrases E (Across Q E early line later) := by
  rintro s s' found found' (h | h) hfound
  · exact .inl (Before.freePhrases h hfound)
  · exact .inr (Displaced.freePhrases h hfound)

/-- **A line of blanks and a comment** can be put in anywhere. -/
theorem simulation (hinsert : Insertion Q E early line) :
    Simulation (Across Q E early line later) crosses fun r => !r.isInline && r ≠ .module where
  skip spacing h := by
    rcases h with h | h
    · exact .inl (h.skip hinsert.openEnded spacing)
    · exact .inr (h.skip hinsert.displacement spacing)
  leaves {spacing p s s'} hp h := by
    rcases h with h | h
    · simp only [crosses, Bool.or_eq_true, Bool.and_eq_true, decide_eq_true_eq] at hp
      have hbefore := Before.simulation later (line ++ later) hinsert.openEnded hinsert.stays
      rcases hp with (((hp | rfl) | rfl) | ⟨rfl, rfl | rfl⟩) | hp
      · exact (Before.agrees_staysInLine hinsert.openEnded hp h).mono fun _ _ => .inl
      · obtain ⟨left, h⟩ := h
        exact h.agrees_margin.mono fun _ _ => .inl
      · exact agrees_outdent h
      · exact agrees_lineBreak hinsert h
      · exact agrees_indentation hinsert h
      · cases p with
        | rule r =>
            have hbuilt : (Pattern.rule r).builtFrom (staysInLine spacing) Rule.isInline = true := by
              exact Bool.or_eq_true_iff.mpr (.inr hp)
            exact (hbefore.agrees hbuilt h).mono fun _ _ => .inl
        | _ => cases hp
    · exact ((Displaced.simulation hinsert.displacement).agrees (builtFrom_of_crosses hp) h).mono
        fun _ _ => .inr
  opened := freePhrases.opened
  closed {r spacing s s' t t'} hr hmatches h h' := by
    -- a rule that is spelled is inside a line, and this one is not
    have hplain : r.isSpelled = false := by
      cases r <;> first | rfl | cases hr
    exact freePhrases.closed hmatches (h.place hinsert) (h'.place hinsert)
      (fun _ hspelled => absurd hspelled (by simp [hplain])) h'.phrases h.phrases h'
  rules {r} hr spacing := by
    have hall : ∀ r ∈ Rule.all, (!r.isInline && decide (r ≠ .module)) = true →
        ∀ spacing ∈ [Spacing.loose, .tight, .token],
        r.definition.pattern.builtFrom (crosses (r.inside spacing))
          (fun r => !r.isInline && r ≠ .module) = true := by
      decide
    exact hall r r.mem_all hr spacing (by cases spacing <;> simp)

end Across

/-! ### Whole texts -/

section

open Pattern

variable {Q E : Place → Place → Prop} {early line later text text' : List Char} {s s' : State}

/-- The phrases in a module are those found. -/
theorem parts_module (text : List Char) (t : State) :
    (State.afterRule .module .loose (.ofText text) t).phrases.flatMap Phrase.parts =
      t.phrases.reverse := by
  rw [State.afterRule_of_kept rfl rfl]
  simp [State.ofText, Phrase.parts]

/-- The two texts get the same answer, with phrases that are alike. -/
def SameAnswer (E : Place → Place → Prop) (text text' : List Char) : Prop :=
  (∀ s tried, Rule.module.matchText text = (.matched s, tried) →
    ∃ s' tried', Rule.module.matchText text' = (.matched s', tried') ∧
      AllAlike E (s.phrases.flatMap Phrase.parts) (s'.phrases.flatMap Phrase.parts)) ∧
  ((Rule.module.matchText text).1 = .failed → (Rule.module.matchText text').1 = .failed)

/-- Texts on which the lines of a module agree have the same answer. -/
theorem sameAnswer_of_agrees {R : State → State → Prop}
    (hR : ∀ {t t'}, R t t' → AllAlike E t.phrases t'.phrases)
    (h : moduleLines.Agrees R .tight (.ofText text) (.ofText text')) : SameAnswer E text text' := by
  constructor
  · intro s tried hmatched
    have hin : (Pattern.rule .module).MatchesIn (stepsFor text.length) .loose (.ofText text) s :=
      congrArg Prod.fst hmatched
    obtain ⟨k, -, t, ht, rfl⟩ := hin.module_inv
    obtain ⟨t', ht', hrelated⟩ := h.1 t ht.toMatches
    have hfound := Rule.matchText_of_matches (matches_module ht')
    refine ⟨_, _, Prod.ext hfound rfl, ?_⟩
    rw [parts_module, parts_module]
    exact (hR hrelated).reverse
  · intro hfailed
    have hfails := (fails_module_iff.mpr (h.2 (fails_module_iff.mp ⟨_, hfailed⟩)))
    obtain ⟨n, hn⟩ := hfails
    have hends := Rule.module.matchText_ends text'
    exact (outcome_eq_of_ends hends (by rw [hn]; nofun)).trans hn

/-- **A blank line behind the first lines** of a text. -/
theorem sameAnswer_behind (hinsert : Insertion Q E early line) :
    SameAnswer E (early ++ '\n' :: later) (early ++ '\n' :: (line ++ later)) := by
  have hstart : Across Q E early line later (.ofText (early ++ '\n' :: later))
      (.ofText (early ++ '\n' :: (line ++ later))) :=
    .inl ⟨early, ⟨[], rfl, rfl⟩, rfl, rfl, rfl, rfl, List.forall_mem_nil _, .nil⟩
  exact sameAnswer_of_agrees (fun h => h.phrases)
    ((Across.simulation hinsert).agrees (by decide) hstart)

/-- **A blank line before all others.** -/
theorem sameAnswer_first (hQ : Displacement Q E) (hline : IsBlankLine line)
    (hplace : Q .origin (line.foldl Place.after .origin)) :
    SameAnswer E later (line ++ later) := by
  have hfirst : blankLine.Matches .tight (.ofText (line ++ later))
      ((State.ofText (line ++ later)).past line later) :=
    (spells_blankLine hline later).tight (by decide) rfl
  have hdisplaced : Displaced Q E (.ofText later) ((State.ofText (line ++ later)).past line later) :=
    ⟨rfl, rfl, hplace, .nil⟩
  have hbreak : (Pattern.opt lineBreak).Agrees (Displaced Q E) .tight (.ofText later)
      (.ofText (line ++ later)) := by
    refine ⟨fun t ht => ?_, fun hfails => absurd hfails not_fails_opt⟩
    obtain ⟨t', ht', h⟩ := Across.displaced_blankLines hQ hdisplaced (matches_opt_lineBreak ht)
    exact ⟨t', (matches_lineBreak_iff.mpr ⟨_, hfirst, ht'⟩).opt, h⟩
  exact sameAnswer_of_agrees (R := Displaced Q E) (fun h => h.phrases)
    (hbreak.seq fun _ _ h => (Displaced.simulation hQ).agrees (by decide) h)

end

end FunctionIR.Grammar
