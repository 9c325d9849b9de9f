import FunctionIR.Proofs.Grammar.Inversion
import FunctionIR.Proofs.Grammar.Termination
import FunctionIR.Proofs.Listing.Line
import FunctionIR.Proofs.Reading.Holds
import FunctionIR.Source

/-!
# Modules

A program text with one statement on each line is read as the module of these
statements (`tree_of_lines`), if each statement is laid out where the next
line, or the end, comes after it.  It does not matter whether a line break
comes last.
-/

namespace FunctionIR.Listing

open Grammar Grammar.Pattern Numbered Reading

variable {ι : Type} {spell : ι → List Char} {found : ι → List Phrase → Prop} {first : ι}
  {more : List ι} {ready : List Char → Prop} {tail : List Char}

/-- An item begins with a character that a statement can begin with. -/
def AllBegin (spell : ι → List Char) (items : List ι) : Prop :=
  ∀ item ∈ items, ∃ c chars, spell item = c :: chars ∧ Begins c

/-- An item with some text after it is a line. -/
theorem AllBegin.line {items : List ι} (h : AllBegin spell items) {item : ι}
    (hmem : item ∈ items) (follow : List Char) : Line (spell item ++ follow) := by
  obtain ⟨c, chars, hspell, hc⟩ := h item hmem
  exact .inr ⟨0, c, chars ++ follow, by rw [hspell]; rfl, hc⟩

theorem avoids_statement_nil : Avoids .tight [] (.rule .statement) [] :=
  avoids_of_refuses ⟨[], true⟩ (n := 128) (by decide +kernel) (by decide)
    ⟨[], rfl, fun _ => rfl⟩ _ _

/-- The text may stop, with or without a line break. -/
def Last (tail : List Char) : Prop := tail = [] ∨ tail = ['\n']

/-- Where the text stops there are no further lines. -/
theorem Last.avoids_more (h : Last tail) :
    Avoids .tight [] (parts [lineBreak, .rule .statement]) tail := by
  rcases h with rfl | rfl
  · exact avoids_lineBreak.seq
  · exact (lays_lineBreak (.inl rfl)).seq_avoids avoids_statement_nil

/-- The end of a module. -/
theorem Last.lays (h : Last tail) :
    Lays .tight [] [] (parts [.opt lineBreak, blankRest, .rule .endOfInput]) tail [] Nothing := by
  have hbreak : Lays .tight [] [] (.opt lineBreak) tail [] Nothing := by
    rcases h with rfl | rfl
    · exact avoids_lineBreak.opt
    · exact (lays_lineBreak (.inl rfl)).opt
  have hblank : Lays .tight [] [] blankRest ([] ++ []) [] Nothing :=
    blankRest_nil.lays (by decide)
  have hend : Lays .tight [] [] (.rule .endOfInput) [] [] Nothing := .mute rfl rfl lays_finish
  exact (hbreak.seq (hblank.seq hend)).mono fun _ h => Both.of_nothing (Both.of_nothing h)

/-- **Lines of statements** are laid out by the pattern of a module. -/
theorem lays_lines (htail : Last tail) (hready : ready tail)
    (hbegins : AllBegin spell (first :: more))
    (hspell : ∀ item ∈ more, ∀ follow, ready ('\n' :: (spell item ++ follow)))
    (hitem : ∀ item ∈ first :: more, ∀ follow, ready follow →
      Lays .tight [] [] (.rule .statement) (spell item ++ follow) follow (found item)) :
    Lays .tight [] [] moduleLines
      (spell first ++ (more.flatMap (fun item => '\n' :: spell item) ++ tail)) []
      (Each found (first :: more)) := by
  have hline : ∀ item ∈ more, ∀ follow, ready follow →
      Lays .tight [] [] (parts [lineBreak, .rule .statement]) ('\n' :: spell item ++ follow)
        follow (found item) := by
    intro item hmem follow hfollow
    have hmem' := List.mem_cons_of_mem first hmem
    exact ((lays_lineBreak (hbegins.line hmem' follow)).seq (hitem item hmem' follow hfollow)).mono
      fun _ h => Both.of_nothing h
  have hmore := lays_many hready hspell hline htail.avoids_more
  have hfirst : ready (more.flatMap (fun item => '\n' :: spell item) ++ tail) := by
    cases more with
    | nil => exact hready
    | cons next more =>
        rw [List.flatMap_cons, List.append_assoc]
        exact hspell next (by simp) _
  generalize htext : more.flatMap (fun item => '\n' :: spell item) ++ tail = text at hfirst hmore ⊢
  have hnone : Lays .tight [] [] (.opt lineBreak) (spell first ++ text) (spell first ++ text)
      Nothing := by
    obtain ⟨c, chars, hspell, hc⟩ := hbegins first (by simp)
    rw [hspell]
    refine Avoids.opt (Rejects.avoids ?_ (by decide))
    have hblank : blankRest.Spells (spaces 0) (c :: (chars ++ text)) :=
      blankRest_spells (by rintro d _ ⟨⟩; exact ⟨hc.blank, hc.2⟩)
    exact hblank.seq_rejects (newline_rejects (by rintro d _ ⟨⟩; exact hc.breaks)).seq
  have hlines := ((hitem first (by simp) _ hfirst).seq hmore).opt
  refine (hnone.seq (hlines.seq htail.lays)).mono fun phrases h => ?_
  exact Both.to_nothing (Both.of_nothing h)

/-- What the pattern of a module lays out is the phrase of a module. -/
theorem matchText_module {text : List Char} {inside : List Phrase → Prop}
    (h : Lays .tight [] [] moduleLines text [] inside) :
    ∃ t, (Rule.module.matchText text).1 = .matched t ∧ Phrased .module inside t.phrases := by
  generalize hs : State.ofText text = s
  have hopen : s.openRule .module .loose = s := by simp [State.openRule, ← hs, State.ofText]
  obtain ⟨t, parts, ht, -, -, hparts, hinside⟩ := h s (by simp [← hs, State.ofText])
    (by simp [← hs, State.ofText])
  have hstart : Pattern.start.Matches .tight s s := matches_start (by simp [← hs, State.ofText]; rfl)
  have hmatches : Rule.module.definition.pattern.Matches .tight (s.openRule .module .loose) t := by
    rw [hopen]
    exact hstart.seq ht
  refine ⟨_, Rule.matchText_of_matches (hs ▸ Matches.rule (r := .module) hmatches),
    s.place, t.place, s.textUpTo t, parts, ?_, hinside⟩
  have hkept : Rule.module.definition.kept = true := rfl
  simp [State.afterRule, State.closeRule, hkept, hparts, ← hs, State.ofText]

/-- The form of a module. -/
def moduleForm (body : List Value) : Value :=
  .plain .module [("body", .list body), ("type_ignores", .list [])]

/-- **A program text of lines** is read as the module of its statements. -/
theorem tree_of_lines {file : String} {tree : ι → Value} (htail : Last tail) (hready : ready tail)
    (hbegins : AllBegin spell (first :: more))
    (hspell : ∀ item ∈ more, ∀ follow, ready ('\n' :: (spell item ++ follow)))
    (hitem : ∀ item ∈ first :: more, ∀ follow, ready follow →
      Lays .tight [] [] (.rule .statement) (spell item ++ follow) follow
        (IsStatement file (tree item))) (counter : Nat) :
    ∃ node next, (Source.ofText file (String.ofList
        (spell first ++ (more.flatMap (fun item => '\n' :: spell item) ++ tail)))
        .program).tree.runFrom counter = (.ok node, next) ∧
      node.toValue.form = moduleForm ((first :: more).map tree) := by
  obtain ⟨t, ht, start, stop, text, parts, hphrases, hparts⟩ :=
    matchText_module (lays_lines htail hready hbegins hspell hitem)
  have hbody : HoldAll file (t.phrases.flatMap Phrase.parts) ((first :: more).map tree) := by
    simpa [hphrases, Phrase.parts] using holdAll_each hparts
  have hempty : (Source.ofText file (String.ofList
      (spell first ++ (more.flatMap (fun item => '\n' :: spell item) ++ tail)))
      .program).isEmpty = false := by
    obtain ⟨c, chars, hfirst, hc⟩ := hbegins first (by simp)
    simp [Source.isEmpty, Source.ofText, Text.allBlank, hfirst, hc.1]
  have hgives : (moduleTree file (t.phrases.flatMap Phrase.parts)).Gives
      (·.toValue.form = moduleForm ((first :: more).map tree)) := by
    refine Gives.bind hbody fun body hbody => ?_
    refine (gives_head .module none none).bind fun head hhead => .pure ?_
    simp only [Node.toValue, Value.form, Value.formFields, Value.formItems, hhead.1, hbody,
      moduleForm, Value.plain]
  have htree : (Source.ofText file (String.ofList
      (spell first ++ (more.flatMap (fun item => '\n' :: spell item) ++ tail)))
      .program).tree = moduleTree file (t.phrases.flatMap Phrase.parts) := by
    rw [Source.tree, hempty]
    generalize hmatch : Rule.module.matchText
      (spell first ++ (more.flatMap (fun item => '\n' :: spell item) ++ tail)) = result at ht
    obtain ⟨outcome, tried⟩ := result
    cases ht
    simp [Source.ofText, Source.programTree, hmatch]
  rw [htree]
  exact hgives counter

end FunctionIR.Listing
