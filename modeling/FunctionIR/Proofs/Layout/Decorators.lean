import FunctionIR.Proofs.Grammar.Framing
import FunctionIR.Proofs.Layout.Indentation
import FunctionIR.Proofs.Layout.Comments

/-!
# A function without its decorators

Blank lines and comments may come before the first statement of a text.  If it
is a decorated function, what comes behind its decorators is matched alike
where they are taken out: the function itself (`decorated_first`,
`plain_first`), and the statements after it, which do not look at the phrases
found before.
-/

namespace FunctionIR.Grammar

/-- Some lines of blanks and comments. -/
def BlankLines (text : List Char) : Prop :=
  ∃ lines : List (List Char), text = lines.flatten ∧ ∀ line ∈ lines, IsBlankLine line

open Pattern

/-- What may follow the first statement of a text. -/
def followingLines : Pattern :=
  .seq (.many (parts [lineBreak, .rule .statement]))
    (parts [.opt lineBreak, blankRest, .rule .endOfInput])

section

variable {a rest text chars : List Char} {s t u x : State} {c : Char} {line n : Nat}

/-! ### Before the first statement -/

/-- A line with something else on it is not blank. -/
theorem rejects_blankLine (hblank : CharClass.blank.holds c = false) (hmark : c ≠ '#')
    (hends : endsLine c = false) : blankLine.Rejects (c :: rest) := by
  have hblanks : (Pattern.many (.one .blank)).Spells [] (c :: rest) := by
    refine Rejects.many (rejects_one fun d more hd => ?_)
    obtain ⟨rfl, -⟩ := List.cons.inj hd
    exact hblank
  have hnoMark : (lit "#").Rejects (c :: rest) := fun s hs => fails_text_cons hs hmark
  have hne : c ≠ '\n' ∧ c ≠ '\r' := by
    simpa [endsLine] using hends
  have hnewline : newline.Rejects (c :: rest) := by
    intro s hs
    have hfails := watches_newline .token s c rest hne.2 hs
    rwa [if_neg (by simpa using hne.1)] at hfails
  exact Spells.seq_rejects (hblanks.seq hnoMark.seq.opt) hnewline

/-- Blank lines match as rounds of one blank line. -/
theorem matches_blankLines (ha : BlankLines a) (hrest : blankLine.Rejects rest)
    (hs : s.rest = a ++ rest) : (Pattern.many blankLine).Matches .tight s (s.past a rest) := by
  obtain ⟨lines, rfl, hlines⟩ := ha
  have h : (Pattern.many blankLine).Spells (lines.flatMap id) rest :=
    spells_many (fun line hline more => spells_blankLine (hlines line hline) more) hrest
  rw [List.flatMap_id] at h
  exact h.tight (by decide) hs

/-- **Blank lines before the first statement** are passed over. -/
theorem matches_leadingLines (ha : BlankLines a) (hrest : blankLine.Rejects rest)
    (hs : s.rest = a ++ rest) : (Pattern.opt lineBreak).Matches .tight s (s.past a rest) := by
  have hmany := matches_blankLines ha hrest hs
  by_cases hbreak : ∃ t, lineBreak.Matches .tight s t
  · obtain ⟨t, ht⟩ := hbreak
    rw [hmany.unique (matches_opt_lineBreak ht.opt)]
    exact ht.opt
  · obtain ⟨lines, rfl, hlines⟩ := ha
    cases lines with
    | nil =>
        have hfails : blankLine.Fails .tight s := (hrest.avoids (by decide)) s hs rfl
        rw [List.flatten_nil, past_nil hs]
        exact (fails_lineBreak_iff.mpr hfails).opt
    | cons line lines =>
        obtain ⟨hline, hlines⟩ := List.forall_mem_cons.mp hlines
        rw [List.flatten_cons, List.append_assoc] at hs
        have hfirst := (spells_blankLine hline (lines.flatten ++ rest)).tight (by decide) hs
        have hmore := matches_blankLines (s := s.past line (lines.flatten ++ rest))
          ⟨lines, rfl, hlines⟩ hrest rfl
        exact absurd ⟨_, matches_lineBreak_iff.mpr ⟨_, hfirst, hmore⟩⟩ hbreak

/-- So a match of a whole text goes on behind them. -/
theorem Pattern.Matches.behind_leadingLines (h : moduleLines.Matches .tight (.ofText (a ++ rest)) t)
    (ha : BlankLines a) (hrest : blankLine.Rejects rest) :
    ∃ u, (Pattern.opt (parts [.rule .statement, .many (parts [lineBreak, .rule .statement])])).Matches
        .tight ((State.ofText (a ++ rest)).past a rest) u ∧
      (parts [.opt lineBreak, blankRest, .rule .endOfInput]).Matches .tight u t := by
  obtain ⟨v, hbreak, h⟩ := matches_seq_iff.mp h
  obtain ⟨u, hstatements, hlast⟩ := matches_seq_iff.mp h
  rw [hbreak.unique (matches_leadingLines ha hrest rfl)] at hstatements
  exact ⟨u, hstatements, hlast⟩

/-- The place is on one of the lines from the first that is not blank to the
last. -/
def OnLine (first : Nat) (text : List Char) (place : Place) : Prop :=
  first ≤ place.line ∧ place.line ≤ 1 + text.count '\n'

/-- The state and all phrases found are on such lines. -/
structure State.From (first : Nat) (text : List Char) (s : State) : Prop where
  inText : s.In text
  below : first ≤ s.place.line
  phrases : ∀ phrase ∈ s.phrases, phrase.All (OnLine first text)

/-- The place of a state on the line is on the line. -/
theorem State.From.place {first : Nat} (h : s.From first text) : OnLine first text s.place := by
  obtain ⟨before, htext, hplace⟩ := h.inText
  refine ⟨h.below, ?_⟩
  rw [hplace, Place.line_foldl, htext, List.count_append]
  change 1 + _ ≤ _
  omega

/-- A match does not leave what lies from the line on. -/
theorem kept_from (first : Nat) (text : List Char) :
    Kept fun s t => s.From first text → t.From first text where
  refl _ h := h
  trans h h' hs := h' (h hs)
  take {s c rest} hrest hs := by
    refine ⟨(kept_in text).take hrest hs.inText, Nat.le_trans hs.below ?_, hs.phrases⟩
    have hline := Place.line_foldl [c] s.place
    change (s.place.after c).line = _ at hline
    change s.place.line ≤ (s.place.after c).line
    omega
  margin _ _ hs := ⟨hs.inText, hs.below, hs.phrases⟩
  rule {r spacing s t} h hs := by
    unfold State.afterRule
    split
    next hvisible =>
      rw [State.openRule_of_visible hvisible] at h
      have ht := h ⟨hs.inText, hs.below, List.forall_mem_nil _⟩
      refine ⟨ht.inText, ht.below, ?_⟩
      unfold State.closeRule
      split
      · refine List.forall_mem_cons.mpr ⟨.mk hs.place ht.place fun part hpart => ?_, hs.phrases⟩
        exact ht.phrases part (List.mem_reverse.mp hpart)
      · exact hs.phrases
    next hhidden =>
      rw [State.openRule, if_neg hhidden] at h
      exact h hs

/-- No phrase is above the first line that is not blank. -/
theorem Pattern.Matches.from_leadingLines
    (h : moduleLines.Matches .tight (.ofText (a ++ rest)) t) (ha : BlankLines a)
    (hrest : blankLine.Rejects rest) : t.From (1 + a.count '\n') (a ++ rest) := by
  obtain ⟨u, ⟨n, hu⟩, ⟨m, ht⟩⟩ := h.behind_leadingLines ha hrest
  have hkept := kept_from (1 + a.count '\n') (a ++ rest)
  refine hkept.of_matched ht (hkept.of_matched hu ⟨⟨a, rfl, rfl⟩, ?_, List.forall_mem_nil _⟩)
  exact Nat.le_of_eq (Place.line_foldl a .origin).symm

/-! ### The first statement -/

/-- No phrases are found behind the last statement. -/
theorem phrases_lastLines
    (h : (parts [.opt lineBreak, blankRest, .rule .endOfInput]).Matches .tight s t) :
    t.phrases = s.phrases := by
  obtain ⟨u, hbreak, h⟩ := matches_seq_iff.mp h
  obtain ⟨v, hblank, h⟩ := matches_seq_iff.mp h
  obtain ⟨⟨n, hbreak⟩, ⟨m, hblank⟩⟩ := And.intro hbreak hblank
  obtain ⟨w, hend, rfl⟩ := matches_rule_iff.mp h
  exact (MatchesIn.keeps (by decide) hblank).2.trans (MatchesIn.keeps (by decide) hbreak).2

/-- Only a decorated function starts so. -/
theorem matches_statement_at (h : (Pattern.rule .statement).Matches .tight s t)
    (hs : s.rest = '@' :: rest) :
    ∃ u, (Pattern.rule .decorated).Matches .loose { s with phrases := [] } u ∧
      t = State.afterRule .statement .tight s u := by
  obtain ⟨u, ⟨n, hu⟩, ht⟩ := matches_rule_iff.mp h
  obtain ⟨r, hr, hu⟩ := MatchesIn.firstOf_inv [.decorated, .functionDef, .ifStatement,
    .whileStatement, .forStatement, .simpleStatements] hu
  have hothers : ∀ r ∈ [Rule.functionDef, .ifStatement, .whileStatement, .forStatement,
      .simpleStatements], (Pattern.rule r).refuses 128 ⟨['@'], false⟩ = true := by
    decide
  rcases List.mem_cons.mp hr with rfl | hr
  · exact ⟨u, hu.toMatches, ht⟩
  · have hsees : Outlook.sees ⟨['@'], false⟩ (s.openRule .statement .tight).rest :=
      ⟨rest, hs, nofun⟩
    exact absurd (fails_of_refuses (hothers r hr) rfl hsees _) hu.toMatches.not_fails

/-- A decorator on a line of its own. -/
theorem adds_decorator
    (h : (Pattern.seq lineBreak (.seq .margin (.rule .decorator))).MatchesIn n .tight s t) :
    Adds (State.Under text []) Phrase.Inline s t := by
  intro hs
  obtain ⟨u, hrule, hu, hphrases, -⟩ := ownLine h hs
  obtain ⟨ht, found, hfound, hinline⟩ := adds_inline (steady_under text []) rfl hrule hu
  exact ⟨ht, found, by rw [hfound, hphrases], hinline⟩

/-- **Before a decorated function** there are decorators only. -/
theorem matches_decorated (h : (Pattern.rule .decorated).Matches .loose s t)
    (hs : s.Under text []) :
    ∃ v u, v.Under text [] ∧ (∀ decorator ∈ v.phrases, decorator.Inline) ∧
      (Pattern.rule .functionDef).Matches .tight v u ∧ t = State.afterRule .decorated .loose s u := by
  obtain ⟨u, ⟨n, hu⟩, rfl⟩ := matches_rule_iff.mp h
  have hpattern : Rule.decorated.definition.pattern.MatchesIn n .tight
      (s.openRule .decorated .loose) u := hu
  rw [State.openRule_of_visible rfl] at hpattern
  obtain ⟨w, hfirst, hrest⟩ := hpattern.seq_inv
  obtain ⟨w', hmore, hlast⟩ := hrest.seq_inv
  have hsteady := steady_under text []
  have hadds : Adds (State.Under text []) Phrase.Inline { s with phrases := [] } w' :=
    (adds_inline hsteady rfl hfirst).trans ((Adds.advances hsteady).of_many adds_decorator hmore)
  obtain ⟨hw', found, hfound, hinline⟩ := hadds (hsteady.phrases [] hs)
  obtain ⟨v, hfunction, hv, hphrases, -⟩ := ownLine hlast hw'
  refine ⟨v, u, hv, ?_, hfunction.toMatches, rfl⟩
  rw [hphrases, State.skip_tight, hfound, List.append_nil]
  exact hinline

/-- A text that starts with decorators. -/
theorem rejects_at : blankLine.Rejects ('@' :: rest) := rejects_blankLine rfl (by decide) rfl

/-- The state behind a statement that is a decorated function. -/
theorem afterDecorated (hs : s.phrases = []) (v x : State) :
    State.afterRule .statement .tight s (State.afterRule .decorated .loose { s with phrases := [] }
      (State.afterRule .functionDef .tight v x)) =
    State.onto [.mk .statement s.place x.place (s.textUpTo x)
      [.mk .decorated s.place x.place (s.textUpTo x) (v.phrases.reverse ++
        [.mk .functionDef v.place x.place (v.textUpTo x) x.phrases.reverse])]]
      { x with phrases := [] } := by
  rw [State.afterRule_of_kept rfl rfl, State.afterRule_of_kept rfl rfl,
    State.afterRule_of_kept rfl rfl, List.reverse_cons, hs]
  rfl

/-- **A decorated function comes first**: it is found behind its decorators, and
so is what follows it, whatever phrases were found before. -/
theorem decorated_first (ha : BlankLines a)
    (h : moduleLines.Matches .tight (.ofText (a ++ '@' :: rest)) t) (ht : t.phrases ≠ []) :
    ∃ (decorators : List Phrase) (v x u : State) (start start' stop stop' : Place)
      (chars chars' chars'' : List Char),
      v.Under (a ++ '@' :: rest) [] ∧ v.phrases = [] ∧ (∀ decorator ∈ decorators, decorator.Inline) ∧
      Rule.functionDef.definition.pattern.Matches .loose v x ∧
      followingLines.Matches .tight { x with phrases := [] } u ∧
      t.phrases = u.phrases ++ [.mk .statement start stop chars [.mk .decorated start' stop' chars'
        (decorators ++ [.mk .functionDef v.place x.place chars'' x.phrases.reverse])]] := by
  obtain ⟨w, hstatements, hlast⟩ := h.behind_leadingLines ha rejects_at
  rcases matches_opt_iff.mp hstatements with hstatements | ⟨-, rfl⟩
  · obtain ⟨w', hstatement, hmore⟩ := matches_seq_iff.mp hstatements
    obtain ⟨y, hdecorated, rfl⟩ := matches_statement_at hstatement rfl
    have hwhole : (State.ofText (a ++ '@' :: rest)).Under (a ++ '@' :: rest) [] :=
      ⟨State.in_ofText _, rfl, List.forall_mem_nil _⟩
    have hbehind := hwhole.of_past (rfl : _ = a ++ '@' :: rest)
    have hstart := (steady_under _ []).phrases [] hbehind
    obtain ⟨v, u, hv, hinline, hfunction, rfl⟩ := matches_decorated hdecorated hstart
    obtain ⟨x, hx, rfl⟩ := matches_rule_iff.mp hfunction
    rw [State.openRule_of_visible rfl] at hx
    have hfollowing : followingLines.Matches .tight _ t := hmore.seq hlast
    rw [State.skip_tight, afterDecorated rfl] at hfollowing
    obtain ⟨u', hu', rfl⟩ := hfollowing.of_onto
    refine ⟨v.phrases.reverse, { v with phrases := [] }, x, u', _, _, _, _, _, _, _,
      (steady_under _ []).phrases [] hv, rfl, ?_, hx, hu', rfl⟩
    exact fun decorator hmem => hinline decorator (List.mem_reverse.mp hmem)
  · rw [phrases_lastLines hlast] at ht
    exact absurd rfl ht

/-- **The function comes first** where its decorators are taken out. -/
theorem plain_first (ha : BlankLines a) (hrest : rest = 'd' :: chars)
    (hx : Rule.functionDef.definition.pattern.Matches .loose ((State.ofText (a ++ rest)).past a rest) x)
    (hu : followingLines.Matches .tight { x with phrases := [] } u) :
    ∃ (t : State) (start stop : Place) (chars' chars'' : List Char),
      moduleLines.Matches .tight (.ofText (a ++ rest)) t ∧
      t.phrases = u.phrases ++ [.mk .statement start stop chars' [.mk .functionDef
        (a.foldl Place.after .origin) x.place chars'' x.phrases.reverse]] := by
  subst hrest
  have hbreak := matches_leadingLines (s := .ofText (a ++ 'd' :: chars)) ha
    (rejects_blankLine rfl (by decide) rfl) rfl
  generalize hs : (State.ofText (a ++ 'd' :: chars)).past a ('d' :: chars) = s at hx hbreak
  have hsrest : s.rest = 'd' :: chars := by rw [← hs]; rfl
  have hsphrases : s.phrases = [] := by rw [← hs]; rfl
  have hplace : s.place = a.foldl Place.after .origin := by rw [← hs]; rfl
  have hopen : ∀ r spacing, r.visible spacing = true → s.openRule r spacing = s := by
    intro r spacing hvisible
    rw [State.openRule_of_visible hvisible, ← hsphrases]
  have hfunction : (Pattern.rule .functionDef).Matches .loose s
      (State.afterRule .functionDef .loose s x) := by
    refine Matches.rule ?_
    rw [hopen .functionDef .loose rfl]
    exact hx
  have hrefuses : (Pattern.rule .decorated).refuses 128 ⟨['d'], false⟩ = true := by decide
  have hfails : (Pattern.rule .decorated).Fails .loose s :=
    fails_of_refuses hrefuses rfl ⟨chars, hsrest, nofun⟩ _
  have hstatement : (Pattern.rule .statement).Matches .tight s
      (State.afterRule .statement .tight s (State.afterRule .functionDef .loose s x)) := by
    refine Matches.rule ?_
    rw [hopen .statement .tight rfl]
    exact hfails.choice hfunction.choice
  rw [State.afterRule_of_kept rfl rfl, State.afterRule_of_kept rfl rfl, hsphrases] at hstatement
  obtain ⟨w, hmore, hlast⟩ := matches_seq_iff.mp (hu.onto _)
  exact ⟨_, _, _, _, _, hbreak.seq ((hstatement.seq hmore).opt.seq hlast), by rw [← hplace]; rfl⟩

/-! ### Without the decorators -/

/-- The second place is so many lines above the first. -/
structure Raised (lines length : Nat) (p p' : Place) : Prop where
  first : 1 ≤ p'.line
  line : p.line = p'.line + lines
  column : p'.column = p.column
  offset : p.offset = p'.offset + length

/-- Raising lines is a displacement of places. -/
theorem raised_displacement (lines length : Nat) :
    Displacement (Raised lines length) (Raised lines length) where
  after {p p'} c h := by
    obtain ⟨hfirst, hline, hcolumn, hoffset⟩ := h
    unfold Place.after
    by_cases hc : c = '\n'
    · rw [if_pos hc, if_pos hc]
      constructor <;> dsimp only <;> omega
    · rw [if_neg hc, if_neg hc]
      constructor <;> dsimp only <;> omega
  distance h h' := by
    rw [h.offset, h'.offset]
    omega
  places h := h

/-- Behind blank lines a line starts. -/
theorem column_blankLines (ha : BlankLines a) : (a.foldl Place.after .origin).column = 0 := by
  obtain ⟨lines, rfl, hlines⟩ := ha
  rcases List.eq_nil_or_concat lines with rfl | ⟨lines, line, rfl⟩
  · rfl
  · obtain ⟨chars, hline, -⟩ := (hlines line (by simp)).ends
    rw [List.concat_eq_append, List.flatten_append, List.flatten_singleton, hline,
      ← List.append_assoc]
    exact Place.column_foldl_break _ _

/-- A function starts with its word. -/
theorem starts_functionDef
    (h : Rule.functionDef.definition.pattern.Matches .loose s t) : ∃ chars, s.rest = 'd' :: chars := by
  obtain ⟨u, hword, -⟩ := matches_seq_iff.mp h
  obtain ⟨v, hword, -⟩ := matches_rule_iff.mp hword
  obtain ⟨w, hdef, -⟩ := matches_seq_iff.mp hword
  obtain ⟨rest, hrest, -⟩ := matches_text_iff.mp hdef
  exact ⟨_, hrest⟩

/-- A state is found by its line and column. -/
theorem State.In.rest_eq (h : s.In (chars ++ rest))
    (hline : s.place.line = (chars.foldl Place.after .origin).line)
    (hcolumn : s.place.column = (chars.foldl Place.after .origin).column) :
    s.rest = rest ∧ s.place = chars.foldl Place.after .origin := by
  obtain ⟨before, htext, hplace⟩ := h
  rw [hplace] at hline hcolumn ⊢
  rcases List.append_eq_append_iff.mp htext with ⟨more, rfl, hrest⟩ | ⟨more, rfl, hrest⟩
  · rw [List.foldl_append] at hline hcolumn
    rw [Place.append_eq_self hline hcolumn] at hrest ⊢
    rw [List.append_nil]
    exact ⟨hrest.symm, rfl⟩
  · rw [List.foldl_append] at hline hcolumn
    rw [Place.append_eq_self hline.symm hcolumn.symm] at hrest ⊢
    rw [List.append_nil]
    exact ⟨hrest, rfl⟩

/-- **Where the decorators are taken out**, the function and what follows it are
matched alike, so many lines further up. -/
theorem plain_of_decorated {d f : List Char} {v : State} (ha : BlankLines a)
    (hd : ∃ chars, d = chars ++ ['\n']) (hv : v.Under (a ++ d ++ f) []) (hphrases : v.phrases = [])
    (hline : v.place.line = ((a ++ d).foldl Place.after .origin).line)
    (hcolumn : v.place.column = ((a ++ d).foldl Place.after .origin).column)
    (hx : Rule.functionDef.definition.pattern.Matches .loose v x)
    (hu : followingLines.Matches .tight { x with phrases := [] } u) :
    ∃ (t x' u' : State) (start stop start' : Place) (chars' chars'' : List Char),
      (∃ word, f = 'd' :: word) ∧ moduleLines.Matches .tight (.ofText (a ++ f)) t ∧
      t.phrases = u'.phrases ++
        [.mk .statement start stop chars' [.mk .functionDef start' x'.place chars'' x'.phrases.reverse]] ∧
      Raised (d.count '\n') d.length v.place start' ∧
      Raised (d.count '\n') d.length x.place x'.place ∧
      AllAlike (Raised (d.count '\n') d.length) x.phrases x'.phrases ∧
      AllAlike (Raised (d.count '\n') d.length) u.phrases u'.phrases := by
  obtain ⟨hrest, hplace⟩ := hv.inText.rest_eq hline hcolumn
  obtain ⟨word, hword⟩ := starts_functionDef hx
  have hraised : Raised (d.count '\n') d.length v.place (a.foldl Place.after .origin) := by
    obtain ⟨chars, rfl⟩ := hd
    rw [hplace]
    refine ⟨?_, ?_, ?_, ?_⟩
    · rw [Place.line_foldl]
      exact Nat.le_add_right 1 _
    · rw [Place.line_foldl, Place.line_foldl, List.count_append, Nat.add_assoc]
    · rw [column_blankLines ha, ← List.append_assoc, Place.column_foldl_break]
    · rw [Place.offset_foldl, Place.offset_foldl, List.length_append, Nat.add_assoc]
  have hstart : Displaced (Raised (d.count '\n') d.length) (Raised (d.count '\n') d.length) v
      ((State.ofText (a ++ f)).past a f) := by
    refine ⟨hrest.symm, hv.around.symm, hraised, ?_⟩
    rw [hphrases]
    exact .nil
  have hsimulation := Displaced.simulation (raised_displacement (d.count '\n') d.length)
  obtain ⟨x', hx', hxx⟩ := (hsimulation.agrees (by decide) hstart).1 x hx
  have hnone : Displaced (Raised (d.count '\n') d.length) (Raised (d.count '\n') d.length)
      { x with phrases := [] } { x' with phrases := [] } := ⟨hxx.rest, hxx.margin, hxx.place, .nil⟩
  obtain ⟨u', hu', huu⟩ := (hsimulation.agrees (by decide) hnone).1 u hu
  obtain ⟨t, start, stop, chars', chars'', ht, htphrases⟩ :=
    plain_first ha (hrest.symm.trans hword) hx' hu'
  exact ⟨t, x', u', start, stop, _, chars', chars'', ⟨word, hrest.symm.trans hword⟩, ht, htphrases,
    hraised, hxx.place, hxx.phrases, huu.phrases⟩

end

end FunctionIR.Grammar
