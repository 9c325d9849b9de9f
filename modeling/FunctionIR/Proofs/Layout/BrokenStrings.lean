import FunctionIR.Proofs.Layout.Comments
import FunctionIR.Proofs.Layout.Returns
import FunctionIR.Proofs.Translation.Discounting

/-!
# Line feeds with and without carriage returns

A program text may end its lines with line feeds or with carriage returns and
line feeds: it has a tree in the one form if and only if it has one in the
other, and the trees are the same (`returns_ignored`), provided that the text is
unbroken.

A broken text has no tree with carriage returns, whatever it has without them.
Up to the string that is broken a match goes through code (`Breaks.keeps`).  It
cannot come through that string either: the backslash hides the carriage return,
and no string goes on at the line feed behind it (`Breaks.stringIn`).  So no match
comes to the end of the text.
-/

namespace FunctionIR

namespace Grammar

open Pattern

/-- Where a regular pattern agrees, a match can be taken back. -/
theorem Pattern.Agrees.back {R : State → State → Prop} {p : Pattern} {spacing : Spacing}
    {s s' t' : State} (h : p.Agrees R spacing s s') (hp : p.regular = true)
    (ht' : p.Matches spacing s' t') : ∃ t, p.Matches spacing s t ∧ R t t' := by
  rcases matches_or_fails hp spacing s with ⟨t, ht⟩ | hfails
  · obtain ⟨u', hu', hR⟩ := h.1 t ht
    rw [ht'.unique hu']
    exact ⟨t, ht, hR⟩
  · exact absurd (h.2 hfails) ht'.not_fails

/-- In the code with carriage returns, before a string that is broken by them. -/
def Breaks (s' : State) : Prop := ∃ s, Returned True .code s s'

/-- In a string that is broken by a carriage return, or right behind that. -/
def InBroken (quote : Char) (s' : State) : Prop :=
  (∃ s, Returned True (.string quote) s s') ∨ ∃ rest, s'.rest = '\n' :: rest

namespace Breaks

variable {s t u : State} {spacing : Spacing} {p : Pattern} {quote : Char} {r : Rule}

/-- Phrases do not matter. -/
theorem with_phrases (h : Breaks s) (phrases : List Phrase) :
    Breaks { s with phrases := phrases } := by
  obtain ⟨s₀, h⟩ := h
  exact ⟨_, Returned.freePhrases h (AllAlike.refl (fun _ => ⟨rfl, rfl⟩) phrases)⟩

/-- Opening a rule keeps the break ahead. -/
theorem openRule (h : Breaks s) : Breaks (s.openRule r spacing) := by
  unfold State.openRule
  split
  · exact h.with_phrases []
  · exact h

/-- Closing a rule keeps the break ahead. -/
theorem afterRule (h : Breaks t) : Breaks (State.afterRule r spacing s t) := by
  unfold State.afterRule State.closeRule
  split
  · exact h.with_phrases _
  · exact h

/-- A skip keeps the break ahead. -/
theorem skip (h : Breaks s) (spacing : Spacing) : Breaks (s.skip spacing) := by
  obtain ⟨s₀, h⟩ := h
  exact ⟨_, h.skip spacing⟩

/-- **Through code** one comes to no end. -/
theorem keeps (hp : Returned.inCode spacing p = true) (h : Breaks s)
    (hmatches : p.Matches spacing s t) : Breaks t := by
  have hregular : p.regular = true := by
    simp only [Returned.inCode, Bool.or_eq_true, Bool.and_eq_true, decide_eq_true_eq] at hp
    rcases hp with (((rfl | rfl) | rfl) | ⟨-, rfl | rfl⟩) | hp
    · decide
    · decide
    · decide
    · decide
    · decide
    · cases p with
      | text | one | finish => rfl
      | _ => cases hp
  obtain ⟨s₀, h⟩ := h
  obtain ⟨t₀, -, ht⟩ := (Returned.agrees_inCode hp h).back hregular hmatches
  exact ⟨t₀, ht⟩

/-- A character of the string that is broken. -/
theorem stringChar (hquote : IsQuote quote) (h : InBroken quote s)
    (hmatches : (stringChar quote).Matches .token s t) : InBroken quote t := by
  have hstops := (stops_newline.choice (d := '\\') (by decide)).choice hquote.ne_return
  rcases h with ⟨s₀, h⟩ | ⟨rest, hs⟩
  · rcases matches_choice_iff.mp hmatches with hmatches | ⟨-, hmatches⟩
    · obtain ⟨u, hslash, hone⟩ := matches_seq_iff.mp hmatches
      obtain ⟨u₀, -, hu, -⟩ := h.agrees_backslash.back rfl hslash
      obtain ⟨c, rest, hrest, -, rfl⟩ := matches_one_iff.mp hone
      rcases hu.heads with ⟨-, hnil⟩ | ⟨left, -, hfeed⟩ | ⟨d, left, hd, hs₀, hs⟩
      · exact nomatch hnil.symm.trans hrest
      · obtain ⟨-, rfl⟩ := List.cons.inj (hrest.symm.trans hfeed)
        exact .inr ⟨_, rfl⟩
      · obtain ⟨rfl, rfl⟩ := List.cons.inj (hrest.symm.trans hs)
        have hne : c ≠ '\n' := by
          rintro rfl
          cases hd
        exact .inl ⟨_, hu.past_char hs₀ hd (if_neg hne)⟩
    · obtain ⟨t₀, -, ht, -⟩ := (h.agrees_stringGuard hquote).back rfl hmatches
      exact .inl ⟨t₀, ht⟩
  · -- no character of a string is a line feed
    exfalso
    rcases matches_choice_iff.mp hmatches with hmatches | ⟨-, hmatches⟩
    · obtain ⟨u, hslash, -⟩ := matches_seq_iff.mp hmatches
      exact absurd (fails_text_cons hs (by decide)) hslash.not_fails
    · obtain ⟨u, habsent, -⟩ := matches_seq_iff.mp hmatches
      obtain ⟨hfails, -⟩ := matches_absent_iff.mp habsent
      have hseen := hstops.watches .token s '\n' rest (by decide) hs
      rw [if_pos hstops.feed] at hseen
      obtain ⟨v, hv⟩ := hseen
      exact absurd hfails hv.not_fails

/-- A string in a quote does not go over the break. -/
theorem stringIn (hquote : IsQuote quote) (h : Breaks s)
    (hmatches : (stringIn (.text [quote])).Matches .token s t) : Breaks t := by
  obtain ⟨s₀, h⟩ := h
  obtain ⟨u, hfirst, hmatches⟩ := matches_seq_iff.mp hmatches
  obtain ⟨v, hmany, hlast⟩ := matches_seq_iff.mp hmatches
  obtain ⟨u₀, -, hu, -⟩ := (h.agrees_text hquote.on_line hquote.opens).back rfl hfirst
  obtain ⟨hrounds, -⟩ := (matches_many_iff_rounds State.skip_token).mp hmany
  rw [State.skip_token] at hrounds
  have hstart : InBroken quote u := .inl ⟨u₀, hu⟩
  have hall : InBroken quote v := by
    clear hmany hlast hmatches hfirst hu
    induction hrounds with
    | none => exact hstart
    | more hround _ ih =>
        rw [State.skip_token] at hround
        exact ih (stringChar hquote hstart hround)
  rcases hall with ⟨v₀, hv⟩ | ⟨rest, hfeed⟩
  · obtain ⟨t₀, -, ht, -⟩ := (hv.agrees_text hquote.on_line hquote.closes).back rfl hlast
    exact ⟨t₀, ht⟩
  · exact absurd (fails_text_cons hfeed hquote.ne_feed.symm) hlast.not_fails

/-- **Through a string** neither. -/
theorem string (h : Breaks s) (hmatches : (Pattern.rule .string).Matches spacing s t) :
    Breaks t := by
  obtain ⟨u, hu, rfl⟩ := matches_rule_iff.mp hmatches
  rcases matches_choice_iff.mp hu with hu | ⟨-, hu⟩
  · exact (h.openRule.stringIn (.inl rfl) hu).afterRule
  · exact (h.openRule.stringIn (.inr rfl) hu).afterRule

/-- A match that starts before a broken string ends before it. -/
theorem simulation :
    Simulation (fun s s' => s' = s ∧ Breaks s) Returned.inUnbroken
      fun r => r ≠ .string && r ≠ .module where
  skip spacing := by
    rintro ⟨rfl, h⟩
    exact ⟨rfl, h.skip spacing⟩
  leaves {spacing p s s'} hp := by
    rintro ⟨rfl, h⟩
    refine ⟨fun t ht => ⟨t, ht, rfl, ?_⟩, id⟩
    rw [Returned.inUnbroken, Bool.or_eq_true, decide_eq_true_eq] at hp
    rcases hp with hp | rfl
    · exact h.keeps hp ht
    · exact h.string ht
  opened := by
    rintro r spacing s s' ⟨rfl, h⟩
    exact ⟨rfl, h.openRule⟩
  closed := by
    rintro r spacing s s' t t' - - ⟨rfl, -⟩ ⟨rfl, h⟩
    exact ⟨rfl, h.afterRule⟩
  rules hr spacing := Returned.builtFrom_inUnbroken hr spacing

end Breaks

section

variable {text : List Char} {s : State}

/-- The lines of a module end with the text. -/
theorem rest_of_moduleLines {t : State} (h : moduleLines.Matches .tight s t) : t.rest = [] := by
  obtain ⟨u, -, h⟩ := matches_seq_iff.mp h
  obtain ⟨v, -, h⟩ := matches_seq_iff.mp h
  obtain ⟨w, -, h⟩ := matches_seq_iff.mp h
  obtain ⟨x, -, h⟩ := matches_seq_iff.mp h
  obtain ⟨y, hfinish, rfl⟩ := matches_rule_iff.mp h
  obtain ⟨hnil, rfl⟩ := matches_finish_iff.mp hfinish
  rw [State.afterRule_rest]
  exact hnil

/-- **A broken text is refused with carriage returns.** -/
theorem refused_withReturns (hreturn : '\r' ∉ text) (hbroken : ¬ Unbroken text) :
    ∀ s tried, Rule.module.matchText (withReturns text) ≠ (.matched s, tried) := by
  intro s tried hmatched
  have hin : (Pattern.rule .module).MatchesIn (stepsFor (withReturns text).length) .loose
      (.ofText (withReturns text)) s :=
    congrArg Prod.fst hmatched
  obtain ⟨k, -, t, ht, rfl⟩ := hin.module_inv
  have hstart : Breaks (.ofText (withReturns text)) :=
    ⟨.ofText text, rfl, hreturn, iff_true_intro (not_not.mp hbroken), ⟨rfl, rfl, rfl⟩, rfl,
      List.forall_mem_nil _, .nil⟩
  obtain ⟨t', -, -, t₀, hbreaks⟩ :=
    (Breaks.simulation.agrees (by decide) ⟨rfl, hstart⟩).1 t ht.toMatches
  rcases hbreaks.heads with ⟨hnil, -⟩ | ⟨rest, -, hrest⟩ | ⟨c, rest, -, -, hrest⟩
  · have hfate := hbreaks.fate
    rw [hnil] at hfate
    exact nomatch hfate.mpr trivial
  · exact nomatch hrest.symm.trans (rest_of_moduleLines ht.toMatches)
  · exact nomatch hrest.symm.trans (rest_of_moduleLines ht.toMatches)

end

end Grammar

open Grammar Numbered Reading

/-- Carriage returns are blank. -/
theorem Source.isEmpty_withReturns (name path : String) (text : List Char) :
    (Source.ofProgram name path (withReturns text)).isEmpty =
      (Source.ofProgram name path text).isEmpty := by
  rw [Source.isEmpty_ofProgram, Source.isEmpty_ofProgram]
  induction text with
  | nil => rfl
  | cons c text ih =>
      by_cases hc : c = '\n'
      · subst hc
        rw [withReturns_feed, List.all_cons, List.all_cons, ih, List.all_cons]
        rfl
      · rw [withReturns_cons hc, List.all_cons, List.all_cons, ih]

/-- A text that has a tree with carriage returns is unbroken. -/
theorem Source.unbroken_of_tree {name path : String} {text : List Char} (hreturn : '\r' ∉ text)
    {counter next : Nat} {tree : Node}
    (h : (Source.ofProgram name path (withReturns text)).tree.runFrom counter = (.ok tree, next)) :
    Unbroken text := by
  obtain ⟨-, s, tried, hmatched, -⟩ := Source.match_of_tree rfl h
  rw [Source.ofProgram, String.toList_ofList] at hmatched
  by_contra hbroken
  exact refused_withReturns hreturn hbroken s tried hmatched

/-- **Carriage returns before the line feeds are ignored**, unless they break a
string. -/
theorem returns_ignored (name path : String) {text : List Char} (hreturn : '\r' ∉ text)
    (counter counter' : Nat) :
    ((∃ tree next, (Source.ofProgram name path (withReturns text)).tree.runFrom counter' =
        (.ok tree, next)) ↔
      Unbroken text ∧
        ∃ tree next, (Source.ofProgram name path text).tree.runFrom counter = (.ok tree, next)) ∧
    ∀ tree next tree' next',
      (Source.ofProgram name path text).tree.runFrom counter = (.ok tree, next) →
      (Source.ofProgram name path (withReturns text)).tree.runFrom counter' = (.ok tree', next') →
      tree'.anonymous = tree.anonymous := by
  have hE : OnLines (fun line => line) SamePlace := id
  have hempty := Source.isEmpty_withReturns name path text
  have hforth : Unbroken text → Mirrors (Node.Moves fun line => line)
      (Source.ofProgram name path text).tree (Source.ofProgram name path (withReturns text)).tree := by
    intro hunbroken counter tree next htree
    have hblank := hempty.trans (Source.match_of_tree rfl htree).1
    exact mirrors_tree name path hE (sameAnswer_withReturns hreturn hunbroken) hblank _ _ _ htree
  have hback : Unbroken text → Mirrors (Node.Moves fun line => line)
      (Source.ofProgram name path (withReturns text)).tree (Source.ofProgram name path text).tree := by
    intro hunbroken counter tree next htree
    have hblank := hempty.symm.trans (Source.match_of_tree rfl htree).1
    have hanswer : SameAnswer SamePlace (withReturns text) text :=
      (sameAnswer_withReturns hreturn hunbroken).flip fun h => ⟨h.1.symm, h.2.symm⟩
    exact mirrors_tree name path hE hanswer hblank _ _ _ htree
  refine ⟨⟨?_, ?_⟩, ?_⟩
  · rintro ⟨tree', next', htree'⟩
    have hunbroken := Source.unbroken_of_tree hreturn htree'
    obtain ⟨tree, next, htree, -⟩ := hback hunbroken counter' tree' next' htree' counter
    exact ⟨hunbroken, tree, next, htree⟩
  · rintro ⟨hunbroken, tree, next, htree⟩
    obtain ⟨tree', next', htree', -⟩ := hforth hunbroken counter tree next htree counter'
    exact ⟨tree', next', htree'⟩
  · intro tree next tree' next' htree htree'
    have hunbroken := Source.unbroken_of_tree hreturn htree'
    obtain ⟨other, last, hother, hmoves⟩ := hforth hunbroken counter tree next htree counter'
    cases hother.symm.trans htree'
    rw [hmoves.anonymous_eq, Node.onLines_self]

/-- A sum that goes on behind a backslash, with a comment and a string of quotes. -/
theorem returns_ignored_in_sum :
    let text := "def f(a):  # \"\n    return a + \\\n        '\"\\''\n".toList
    '\r' ∉ text ∧ Unbroken text ∧
      (∃ tree, ((Source.ofProgram "m" "m" text).tree.runFrom 1).1 = .ok tree ∧
        tree.head.kind = .module) ∧
      ((∃ tree next, (Source.ofProgram "m" "m" (withReturns text)).tree.runFrom 1 =
          (.ok tree, next)) ↔
        Unbroken text ∧
          ∃ tree next, (Source.ofProgram "m" "m" text).tree.runFrom 1 = (.ok tree, next)) ∧
      ∀ tree next tree' next',
        (Source.ofProgram "m" "m" text).tree.runFrom 1 = (.ok tree, next) →
        (Source.ofProgram "m" "m" (withReturns text)).tree.runFrom 1 = (.ok tree', next') →
        tree'.anonymous = tree.anonymous := by
  intro text
  have hreturn : '\r' ∉ text := by decide +kernel
  exact ⟨hreturn, by decide +kernel, by decide +kernel, returns_ignored "m" "m" hreturn 1 1⟩

/-- A text that has a tree with line feeds, and none with carriage returns. -/
theorem returns_break_string :
    let text := "def f():\n    return \"a\\\nb\"\n".toList
    '\r' ∉ text ∧
      (∃ tree, ((Source.ofProgram "m" "m" text).tree.runFrom 1).1 = .ok tree ∧
        tree.head.kind = .module) ∧
      ¬ ∃ tree next, (Source.ofProgram "m" "m" (withReturns text)).tree.runFrom 1 =
        (.ok tree, next) := by
  intro text
  have hreturn : '\r' ∉ text := by decide +kernel
  have hbroken : ¬ Unbroken text := by decide +kernel
  refine ⟨hreturn, by decide +kernel, ?_⟩
  rintro ⟨tree, next, htree⟩
  exact hbroken (Source.unbroken_of_tree hreturn htree)

end FunctionIR
