import FunctionIR.Proofs.Printing.Value

/-!
# Expressions in brackets

Expressions between commas are read one by one, up to the closing bracket
(`takes_commaList`).  With this go all expressions that have brackets: a
parenthesized expression, a tuple, a list, and what a value is called or
indexed with.

A call, an index or an attribute extends the value on its left.  Like a chain
of operators, such a value is read by a repetition that can be gone on from
(`Extendable`).
-/

namespace FunctionIR.Printing

open Grammar Grammar.Pattern Reading

variable {file : String} {rest : List Char}

/-! ### Expressions between commas -/

/-- A comma or a closing bracket may come next. -/
structure Closing (follow : List Char) : Prop where
  stops : Stops .conditional follow
  assigns : (Pattern.rule .assignOp).Misses (clear follow)

/-- A comma closes an expression. -/
theorem closing_comma (more : List Char) : Closing (' ' :: ',' :: more) :=
  ⟨stops_comma more, misses_of_refuses ⟨[','], false⟩ (n := 16)
    (by decide) (by decide) (sees_clear [','] (by decide))⟩

/-- A closing bracket. -/
def IsBracket (c : Char) : Prop := c = ')' ∨ c = ']'

/-- A closing bracket closes an expression. -/
theorem closing_bracket {c : Char} (hc : IsBracket c) (more : List Char) :
    Closing (' ' :: c :: more) := by
  rcases hc with rfl | rfl
  · exact ⟨stops_parenthesis more, misses_of_refuses ⟨[')'], false⟩ (n := 16)
      (by decide) (by decide) (sees_clear [')'] (by decide))⟩
  · exact ⟨stops_bracket more, misses_of_refuses ⟨[']'], false⟩ (n := 16)
      (by decide) (by decide) (sees_clear [']'] (by decide))⟩

/-- A closing bracket begins nothing that is refused before it. -/
theorem misses_bracket {p : Pattern} {c : Char} (hc : IsBracket c)
    (h : p.refuses 64 ⟨[')'], false⟩ = true ∧ p.refuses 64 ⟨[']'], false⟩ = true)
    (more : List Char) : p.Misses (clear (' ' :: c :: more)) := by
  rw [clear_space]
  rcases hc with rfl | rfl
  · exact misses_of_refuses _ h.1 (by decide) (sees_clear [')'] (by decide))
  · exact misses_of_refuses _ h.2 (by decide) (sees_clear [']'] (by decide))

/-- **Items between commas.**  A pattern with commas between its rounds takes a
list of items, each of which it takes where a comma, after a gap, or the rest
may come next. -/
theorem takes_commaList {ι : Type} {p q : Pattern} {spell : ι → List Char}
    {found : ι → List Phrase → Prop} {found' : List Phrase → Prop} {first : ι} {more : List ι}
    {ready : List Char → Prop} (gap : List Char) {rest rest' : List Char}
    (hgap : ∀ more, clear (gap ++ ',' :: more) = ',' :: more)
    (hready : ∀ more, ready (gap ++ ',' :: more))
    (hclear : ∀ item ∈ first :: more, ∀ follow,
      clear (spell item ++ follow) = spell item ++ follow)
    (hitem : ∀ item ∈ first :: more, ∀ follow, ready follow →
      p.Takes (spell item ++ follow) follow (found item))
    (hrest : ready rest) (hstop : (Pattern.seq (lit ",") p).Misses (clear rest))
    (hq : q.Takes (clear rest) rest' found') :
    (parts (commaList p ++ [q])).Takes
      (spell first ++ (more.flatMap (fun item => gap ++ ',' :: ' ' :: spell item) ++ rest)) rest'
      (Both (Each found (first :: more)) found') := by
  -- a round takes the comma and the item behind it
  have hround : ∀ item ∈ more, ∀ follow, ready follow →
      (Pattern.seq (lit ",") p).Takes
        (clear (gap ++ ',' :: ' ' :: spell item ++ follow)) follow (found item) := by
    intro item hmem follow hfollow
    have hmem' := List.mem_cons_of_mem first hmem
    have hcomma : clear (gap ++ ',' :: ' ' :: spell item ++ follow) =
        ",".toList ++ (' ' :: (spell item ++ follow)) := by
      rw [List.append_assoc, List.cons_append, hgap]
      rfl
    rw [hcomma]
    refine ((takes_text _ _).seq ?_).mono fun _ => Both.of_nothing
    rw [clear_space, hclear item hmem']
    exact hitem item hmem' follow hfollow
  have hspell : ∀ item ∈ more, ∀ follow,
      ready (gap ++ ',' :: ' ' :: spell item ++ follow) := by
    intro item _ follow
    rw [List.append_assoc]
    exact hready _
  have hmore := repeats_flatMap hrest hspell hround
  have hfirst : ready (more.flatMap (fun item => gap ++ ',' :: ' ' :: spell item) ++ rest) := by
    cases more with
    | nil => exact hrest
    | cons next more =>
        rw [List.flatMap_cons, List.append_assoc]
        exact hspell next (by simp) _
  have h := (hitem first (by simp) _ hfirst).seq ((hmore.many hstop).seq hq)
  refine h.mono ?_
  rintro phrases ⟨before, after, rfl, hbefore, among, last, rfl, hamong, hlast⟩
  exact ⟨before ++ among, last, (List.append_assoc ..).symm, ⟨before, among, rfl, hbefore, hamong⟩,
    hlast⟩

/-- A comma comes right after the blank before it. -/
theorem clear_comma (more : List Char) : clear ([' '] ++ ',' :: more) = ',' :: more := by
  rw [List.cons_append, clear_space]
  exact clear_cons (by decide) (by decide) (by decide) _

/-- Every expression of a list is read. -/
def AllRead (file : String) (items : List Printing) : Prop :=
  ∀ item ∈ items, item.Grouped ∧ Reads file .conditional item

/-- Each of the expressions is taken where something closes it. -/
theorem AllRead.takes {items : List Printing} (h : AllRead file items) :
    ∀ item ∈ items, ∀ follow, Closing follow →
      (Pattern.rule .expression).Takes (item.text ++ follow) follow
        (Shows file .expression item.tree) :=
  fun item hmem follow hfollow => (h item hmem).2 follow hfollow.stops

/-- Phrases of expressions are read one by one. -/
theorem denoteAll_each {items : List Printing} {r : Rule} {phrases : List Phrase}
    (h : Each (fun item => Shows file r (tree item)) items phrases) :
    DenoteAll file phrases (trees items) := by
  induction items generalizing phrases with
  | nil =>
      cases h
      exact denoteAll_nil
  | cons item items ih =>
      obtain ⟨before, after, rfl, ⟨phrase, rfl, -, hphrase⟩, hafter⟩ := h
      exact DenoteAll.cons hphrase (ih hafter)

/-- With commas between them, too. -/
theorem elementsDenote_each {items : List Printing} {phrases more : List Phrase}
    {comma : Bool} (hmore : ElementsDenote file more [] comma)
    (h : Each (fun item => Shows file .expression (tree item)) items phrases) :
    ElementsDenote file (phrases ++ more) (trees items) comma := by
  induction items generalizing phrases with
  | nil =>
      cases h
      exact hmore
  | cons item items ih =>
      obtain ⟨before, after, rfl, ⟨phrase, rfl, hrule, hphrase⟩, hafter⟩ := h
      rw [List.append_assoc]
      exact .cons hrule hphrase (ih hafter)

/-- The phrase of an expression list. -/
def Elements (file : String) (forms : List Value) (comma : Bool) (phrases : List Phrase) :
    Prop :=
  ∃ start stop text parts, phrases = [.mk .expressionList start stop text parts] ∧
    ElementsDenote file parts forms comma

/-- **An expression list** before a closing bracket. -/
theorem takes_expressionList {first : Printing} {more : List Printing} (comma : Bool)
    (hitems : AllRead file (first :: more)) {c : Char} (hc : IsBracket c) (end' : List Char) :
    (Pattern.rule .expressionList).Takes
      (first.text ++ (more.flatMap (fun item => ' ' :: ',' :: ' ' :: item.text) ++
        ((if comma then [' ', ','] else []) ++ ' ' :: c :: end')))
      (' ' :: c :: end') (Elements file (trees (first :: more)) comma) := by
  have hclear : ∀ item ∈ first :: more, ∀ follow,
      clear (item.text ++ follow) = item.text ++ follow :=
    fun item hmem follow => (hitems item hmem).1.clear_text follow
  have hbracket : (Pattern.rule .expression).Misses (clear (' ' :: c :: end')) :=
    misses_bracket hc (by decide +kernel) end'
  have hrule : ∀ phrases, Phrased .expressionList
      (fun parts => ElementsDenote file parts (trees (first :: more)) comma) phrases →
      Elements file (trees (first :: more)) comma phrases := by
    rintro phrases ⟨start, stop, text, parts, heq, h⟩
    exact ⟨start, stop, text, parts, heq, h⟩
  refine (Takes.rule rfl rfl ?_).mono hrule
  cases comma with
  | false =>
      have hnext : (Pattern.seq (lit ",") (.rule .expression)).Misses
          (clear (' ' :: c :: end')) := misses_bracket hc (by decide +kernel) end'
      have hlast : (Pattern.opt (.rule .trailingComma)).Takes (clear (' ' :: c :: end'))
          (' ' :: c :: end') Nothing :=
        (misses_bracket hc (by decide +kernel) end').opt.of_clear
      refine (takes_commaList [' '] clear_comma closing_comma hclear hitems.takes
        (closing_bracket hc end') hnext hlast).mono ?_
      intro phrases h
      have h := elementsDenote_each elementsDenote_nil (Both.to_nothing h)
      rwa [List.append_nil] at h
  | true =>
      have hcomma : clear (' ' :: ',' :: ' ' :: c :: end') = ",".toList ++ ' ' :: c :: end' := by
        rw [clear_space]
        exact clear_cons (by decide) (by decide) (by decide) _
      have hnext : (Pattern.seq (lit ",") (.rule .expression)).Misses
          (clear (' ' :: ',' :: ' ' :: c :: end')) := by
        rw [hcomma]
        exact (takes_text _ _).seq_misses hbracket
      have hlast : (Pattern.opt (.rule .trailingComma)).Takes
          (clear (' ' :: ',' :: ' ' :: c :: end')) (' ' :: c :: end')
          (Phrased .trailingComma Nothing) := by
        rw [hcomma]
        exact (Takes.rule (r := .trailingComma) rfl rfl (takes_text _ _)).opt
      refine (takes_commaList [' '] clear_comma closing_comma hclear hitems.takes
        (closing_comma _) hnext hlast).mono ?_
      rintro phrases ⟨before, after, rfl, hbefore, start, stop, text, parts, rfl, rfl⟩
      exact elementsDenote_each elementsDenote_comma hbefore

/-! ### Parentheses and lists -/

/-- A closing bracket is taken. -/
theorem takes_bracket (word : String) {c : Char} (hc : IsBracket c) (hword : word.toList = [c])
    (rest : List Char) : (lit word).Takes (clear (' ' :: c :: rest)) rest Nothing := by
  have h := takes_text word.toList rest
  rw [hword] at h
  rw [clear_space]
  rcases hc with rfl | rfl
  · rwa [clear_cons (by decide) (by decide) (by decide), lit, hword]
  · rwa [clear_cons (by decide) (by decide) (by decide), lit, hword]

/-- What is in parentheses is a value. -/
theorem isAtom_parenthesized {e : Printing} (inside : List Char)
    (found : List Phrase → Prop) (htext : e.text = '(' :: (inside ++ [' ', ')']))
    (hinside : ∀ rest, (Pattern.opt (.rule .expressionList)).Takes
      (clear (inside ++ ' ' :: ')' :: rest)) (' ' :: ')' :: rest) found)
    (hdenotes : ∀ start stop text parts, found parts →
      Denotes file (.mk .parenthesized start stop text parts) e.tree) : IsAtom file e := by
  intro rest _
  have hpattern := ((takes_text "(".toList _).seq
    ((hinside rest).seq (takes_bracket ")" (.inl rfl) rfl rest))).mono
      fun phrases h => Both.to_nothing (Both.of_nothing h)
  have hrule := takes_rule (r := .parenthesized) rfl rfl hpattern hdenotes
  have hbefore : ∀ q ∈ atomParts.take 7, q.Misses ('(' :: (inside ++ ' ' :: ')' :: rest)) :=
    misses_of_first (by decide) (by decide)
  have htext' : e.text ++ rest = '(' :: (inside ++ ' ' :: ')' :: rest) := by simp [htext]
  rw [htext']
  exact (Takes.nth atomParts 7 (by decide) hbefore hrule).mono
    fun phrases h => h.denoted

/-- An expression in parentheses is a value. -/
theorem isAtom_group {inner : Printing} (hgrouped : inner.Grouped)
    (hreads : Reads file .conditional inner) : IsAtom file (group inner) := by
  refine isAtom_parenthesized (' ' :: inner.text) (Elements file [inner.tree] false) rfl
    (fun rest => ?_) ?_
  · rw [List.cons_append, clear_space, hgrouped.clear_text]
    have hitems : AllRead file [inner] := by simp [AllRead, hgrouped, hreads]
    exact (takes_expressionList false hitems (.inl rfl) rest).opt
  · rintro start stop text parts ⟨start', stop', text', parts', rfl, h⟩
    exact denotes_parenthesized (denotes_single h)

/-- A tuple is a value; a single item has a comma behind it. -/
theorem isAtom_tuple {items : List Printing} {comma : Bool} (hitems : AllRead file items)
    (hone : items.length = 1 → comma = true) (hnone : items = [] → comma = false) :
    IsAtom file (tuple items comma) := by
  cases items with
  | nil =>
      cases hnone rfl
      refine isAtom_parenthesized [] Nothing rfl (fun rest => ?_) ?_
      · exact (misses_bracket (.inl rfl) (by decide) rest).opt.of_clear
      · rintro start stop text parts rfl
        exact denotes_empty_tuple
  | cons first more =>
      have hfirst := (hitems first (by simp)).1
      refine isAtom_parenthesized (' ' :: (first.text ++
          (more.flatMap (fun item => ' ' :: ',' :: ' ' :: item.text) ++
            (if comma then [' ', ','] else []))))
        (Elements file (trees (first :: more)) comma) ?_ (fun rest => ?_) ?_
      · simp [text, texts_eq_map, commaSeparated, List.flatMap_map]
      · rw [List.cons_append, clear_space, List.append_assoc, hfirst.clear_text,
          List.append_assoc]
        exact (takes_expressionList comma hitems (.inl rfl) rest).opt
      · rintro start stop text parts ⟨start', stop', text', parts', rfl, h⟩
        refine denotes_parenthesized (denotes_tuple h fun hlength => hone ?_)
        cases more with
        | nil => rfl
        | cons => simp [trees] at hlength

/-- A comma list in brackets, without a comma after the last item. -/
theorem takes_items (rest : List Char) {ι : Type} {p : Pattern} {spell : ι → List Char}
    {found : ι → List Phrase → Prop} {items : List ι} {c : Char} (hc : IsBracket c)
    (hclear : ∀ item ∈ items, ∀ follow, clear (spell item ++ follow) = spell item ++ follow)
    (hitem : ∀ item ∈ items, ∀ follow, Closing follow →
      p.Takes (spell item ++ follow) follow (found item))
    (hp : p.Misses (clear (' ' :: c :: rest))) :
    (Pattern.opt (parts (commaList p ++ [.opt (lit ",")]))).Takes
      (clear (commaSeparated (items.map spell) ++ ' ' :: c :: rest)) (' ' :: c :: rest)
      (Each found items) := by
  have hcomma : (lit ",").Misses (clear (' ' :: c :: rest)) :=
    misses_bracket hc (by decide +kernel) rest
  cases items with
  | nil => exact (hp.seq.opt).of_clear
  | cons first more =>
      have htext : commaSeparated ((first :: more).map spell) ++ ' ' :: c :: rest =
          ' ' :: (spell first ++ (more.flatMap (fun item => ' ' :: ',' :: ' ' :: spell item) ++
            ' ' :: c :: rest)) := by
        simp [commaSeparated, List.flatMap_map]
      rw [htext, clear_space, hclear first (by simp)]
      exact ((takes_commaList [' '] clear_comma closing_comma hclear hitem (closing_bracket hc rest) hcomma.seq
        hcomma.opt.of_clear).mono fun phrases h => Both.to_nothing h).opt

/-- A list is a value. -/
theorem isAtom_list {items : List Printing} (hitems : AllRead file items) :
    IsAtom file (list items) := by
  intro rest _
  have hbefore : ∀ more, ∀ q ∈ atomParts.take 8, q.Misses ('[' :: more) :=
    fun more => misses_of_first (by decide) (by decide)
  have hinside := takes_items rest (.inr rfl)
    (fun item hmem follow => (hitems item hmem).1.clear_text follow) hitems.takes
    (misses_bracket (.inr rfl) (by decide) rest)
  have hpattern := ((takes_text "[".toList _).seq
    (hinside.seq (takes_bracket "]" (.inr rfl) rfl rest))).mono
      fun phrases h => denoteAll_each (Both.to_nothing (Both.of_nothing h))
  have hrule : (Pattern.rule .listDisplay).Takes _ rest
      (Shows file .listDisplay (list items).tree) :=
    takes_rule rfl rfl hpattern fun start stop text parts h => denotes_list h
  have htext : (list items).text ++ rest =
      '[' :: (commaSeparated (items.map text) ++ ' ' :: ']' :: rest) := by
    simp [text, texts_eq_map]
  rw [htext]
  exact (Takes.nth atomParts 8 (by decide) (hbefore _) hrule).mono
    fun phrases h => h.denoted

/-! ### Calls, attributes and subscripts -/

/-- A value in a call, plain or named. -/
abbrev Argument := Printing ⊕ (Identifier × Printing)

/-- The text of an argument. -/
def Argument.text : Argument → List Char
  | .inl value => Printing.text value
  | .inr (ident, value) => ident.text ++ ' ' :: '=' :: ' ' :: Printing.text value

/-- The phrases of a value in a call. -/
def Argument.Found (file : String) : Argument → List Phrase → Prop
  | .inl value => Shows file .expression value.tree
  | .inr (ident, value) => fun phrases => ∃ start stop text name inner,
      phrases = [.mk .keywordArgument start stop text [name, inner]] ∧
        name.text = ident.text ∧ Denotes file inner value.tree

/-- The values of a call, the named ones last. -/
def argumentsOf (args : List Printing) (keywords : List (Identifier × Printing)) :
    List Argument := args.map .inl ++ keywords.map .inr

/-- The texts of plain and of named arguments, one after the other. -/
theorem argumentsOf_text (args : List Printing) (keywords : List (Identifier × Printing)) :
    texts args ++ keywordTexts keywords = (argumentsOf args keywords).map Argument.text := by
  simp only [texts_eq_map, keywordTexts_eq_map, argumentsOf, List.map_append, List.map_map]
  rfl

/-- Phrases of the values of a call are passed to it. -/
theorem passes_each {args : List Printing} {keywords : List (Identifier × Printing)}
    {phrases : List Phrase}
    (h : Each (Argument.Found file) (argumentsOf args keywords) phrases) :
    Passes file phrases (trees args) (keywordTrees keywords) := by
  induction args generalizing phrases with
  | nil =>
      induction keywords generalizing phrases with
      | nil =>
          cases h
          exact passes_nil
      | cons keyword keywords ih =>
          obtain ⟨before, after, rfl, ⟨start, stop, text, name, inner, rfl, hname, hinner⟩,
            hafter⟩ := h
          have hpasses : Passes file
              (.mk .keywordArgument start stop text [name, inner] :: after) _ _ :=
            Passes.named hinner (ih hafter)
          rwa [hname] at hpasses
  | cons arg args ih =>
      obtain ⟨before, after, rfl, ⟨phrase, rfl, hrule, hphrase⟩, hafter⟩ := h
      exact Passes.plain hrule hphrase (ih hafter)

/-- The values of a call can be read. -/
def ArgumentsRead (file : String) (args : List Argument) : Prop :=
  ∀ arg ∈ args, match arg with
    | .inl value => value.Grouped ∧ Reads file .conditional value
    | .inr (_, value) => value.Grouped ∧ Reads file .conditional value

/-- No blanks come before a name. -/
theorem Identifier.clear_text (ident : Identifier) (rest : List Char) :
    clear (ident.text ++ rest) = ident.text ++ rest := by
  obtain ⟨c, more, htext, hc⟩ := ident.starts
  rw [htext]
  refine clear_cons ?_ ?_ ?_ _ <;> rintro rfl <;> revert hc <;> decide

/-- No blanks come before an argument. -/
theorem ArgumentsRead.clear_text {args : List Argument} (h : ArgumentsRead file args) :
    ∀ arg ∈ args, ∀ follow, clear (arg.text ++ follow) = arg.text ++ follow := by
  intro arg hmem follow
  have harg := h arg hmem
  cases arg with
  | inl value => exact harg.1.clear_text follow
  | inr keyword =>
      simp only [Argument.text, List.append_assoc]
      exact keyword.1.clear_text _

/-- An equals sign that assigns, and the blanks around it. -/
theorem takes_assign (more : List Char) :
    (Pattern.rule .assignOp).Takes (clear (' ' :: '=' :: ' ' :: more)) (' ' :: more) Nothing := by
  rw [clear_space, clear_cons (by decide) (by decide) (by decide)]
  have hnext : (Pattern.absent (lit "=")).Spells [] (' ' :: more) :=
    (rejects_lit _ rfl (by rintro c _ ⟨⟩; decide)).absent
  have hsign : Rule.assignOp.definition.pattern.Spells ['='] (' ' :: more) :=
    (spells_text ['=']).seq hnext
  exact Spells.mute rfl rfl hsign

/-- **A value in a call** is read as what it is: a plain one does not begin like
a named one. -/
theorem ArgumentsRead.takes {args : List Argument} (h : ArgumentsRead file args) :
    ∀ arg ∈ args, ∀ follow, Closing follow →
      argument.Takes (arg.text ++ follow) follow (arg.Found file) := by
  intro arg hmem follow hfollow
  have harg := h arg hmem
  cases arg with
  | inl value =>
      have hnamed := harg.1.misses_named (p := .rule .expression) hfollow.stops.apart
        hfollow.assigns
      exact (Misses.rule (r := .keywordArgument) rfl hnamed).choice
        (harg.2 follow hfollow.stops)
  | inr keyword =>
      obtain ⟨ident, value⟩ := keyword
      have hvalue : (Pattern.rule .expression).Takes (clear (' ' :: (value.text ++ follow))) follow
          (Shows file .expression value.tree) := by
        rw [clear_space, harg.1.clear_text]
        exact harg.2 follow hfollow.stops
      have hpattern := (ident.takes (apart_space ('=' :: ' ' :: (value.text ++ follow))).bounded).seq
        ((takes_assign _).seq hvalue)
      have hrule := (Takes.rule (r := .keywordArgument) rfl rfl hpattern).choice
        (q := .rule .expression)
      have htext : Argument.text (.inr (ident, value)) ++ follow =
          ident.text ++ ' ' :: '=' :: ' ' :: (value.text ++ follow) := by
        simp [Argument.text]
      rw [htext]
      refine hrule.mono ?_
      rintro phrases ⟨start, stop, text, parts, rfl, before, after, rfl, ⟨start', stop', rfl⟩,
        hafter⟩
      obtain ⟨inner, rfl, -, hinner⟩ := Both.of_nothing hafter
      exact ⟨start, stop, text, _, inner, rfl, rfl, hinner⟩

/-- The value can be gone on from with calls, attributes and subscripts. -/
def Extendable (file : String) (e : Printing) : Prop :=
  ∀ rest, Apart rest → ∃ mid found found',
    atom.Takes (e.text ++ rest) mid found ∧ trailer.Repeats mid rest found' ∧
    ∀ phrases, Both found found' phrases → ∃ first more form,
      phrases = first :: more ∧ Denotes file first form ∧ Extends file more form e.tree

/-- A value can be extended. -/
theorem IsAtom.extendable {e : Printing} (h : IsAtom file e) : Extendable file e := by
  intro rest hrest
  refine ⟨rest, _, Nothing, h rest hrest, Repeats.none _ rest, ?_⟩
  rintro phrases ⟨before, after, rfl, ⟨phrase, rfl, hphrase⟩, rfl⟩
  exact ⟨phrase, [], e.tree, rfl, hphrase, .none _⟩

/-- What can be gone on from is read where nothing extends it. -/
theorem Extendable.reads {e : Printing} (h : Extendable file e) : Reads file .primary e := by
  intro rest hstops
  obtain ⟨mid, found, found', hfirst, hmore, hextends⟩ := h rest hstops.apart
  have hstop := hstops.misses .primary (Level.le_refl _) rfl
  refine takes_rule (r := .primary) rfl rfl (hfirst.seq_many hmore hstop) ?_
  intro start stop text parts hparts
  obtain ⟨first, more, form, rfl, hdenotes, hextends⟩ := hextends parts hparts
  exact denotes_primary hdenotes hextends

/-- A value with one thing more that extends it. -/
theorem Extendable.extend {value e : Printing} (hvalue : Extendable file value) (c : Char)
    (suffix : List Char) (htext : e.text = value.text ++ ' ' :: c :: suffix)
    (htrailer : ∀ rest, Apart rest → trailer.Takes (clear (' ' :: c :: (suffix ++ rest))) rest
      fun phrases => Extends file phrases value.tree e.tree) : Extendable file e := by
  intro rest hrest
  obtain ⟨mid, found, found', hfirst, hmore, hextends⟩ :=
    hvalue (' ' :: c :: (suffix ++ rest)) (apart_space _)
  rw [htext, List.append_assoc]
  refine ⟨mid, found, _, hfirst, hmore.trans (htrailer rest hrest).repeats, ?_⟩
  rintro phrases ⟨before, after, rfl, hbefore, others, last, rfl, hothers, hlast⟩
  obtain ⟨first, more, form, heq, hdenotes, hothers⟩ :=
    hextends (before ++ others) ⟨before, others, rfl, hbefore, hothers⟩
  refine ⟨first, more ++ last, form, ?_, hdenotes, hothers.trans hlast⟩
  rw [← List.append_assoc, heq]
  rfl

/-- A value with an attribute can be extended. -/
theorem extendable_attr {value : Printing} {ident : Identifier} (h : Extendable file value) :
    Extendable file (attr value ident) := by
  refine h.extend '.' (' ' :: ident.text) (by simp [text]) ?_
  intro rest hrest
  have hname : (Pattern.rule .identifier).Takes (clear (' ' :: (ident.text ++ rest))) rest
      (Leaf .identifier ident.text) := by
    rw [clear_space, ident.clear_text]
    exact ident.takes hrest.bounded
  have hpattern := (takes_text ".".toList _).seq hname
  have hrule := Takes.rule (r := .attr) rfl rfl hpattern
  have hcall : ∀ q ∈ [Pattern.rule .call], q.Misses ('.' :: ' ' :: (ident.text ++ rest)) :=
    misses_of_first (by decide) (by decide)
  have htakes := Takes.nth [.rule .call, .rule .attr, .rule .subscript] 1
    (by decide) hcall hrule
  rw [clear_space, clear_cons (by decide) (by decide) (by decide)]
  refine htakes.mono ?_
  rintro phrases ⟨start, stop, text, parts, rfl, before, after, rfl, rfl, start', stop', rfl⟩
  exact .attr (.none _)

/-- A value with a subscript can be extended. -/
theorem extendable_subscript {value index : Printing} (h : Extendable file value)
    (hgrouped : index.Grouped) (hindex : Reads file .conditional index) :
    Extendable file (subscript value index) := by
  refine h.extend '[' (' ' :: (index.text ++ [' ', ']'])) (by simp [text]) ?_
  intro rest _
  have hitems : AllRead file [index] := by simp [AllRead, hgrouped, hindex]
  have hlist := takes_expressionList false hitems (.inr rfl) rest
  have hinside : (Pattern.rule .expressionList).Takes
      (clear (' ' :: (index.text ++ ' ' :: ']' :: rest))) (' ' :: ']' :: rest)
      (Elements file [index.tree] false) := by
    rw [clear_space, hgrouped.clear_text]
    exact hlist
  have hpattern := (takes_text "[".toList _).seq
    (hinside.seq (takes_bracket "]" (.inr rfl) rfl rest))
  have hrule := Takes.rule (r := .subscript) rfl rfl hpattern
  have hbefore : ∀ q ∈ [Pattern.rule .call, .rule .attr],
      q.Misses ('[' :: ' ' :: (index.text ++ ' ' :: ']' :: rest)) :=
    misses_of_first (by decide) (by decide)
  have htakes := Takes.nth [.rule .call, .rule .attr, .rule .subscript] 2
    (by decide) hbefore hrule
  have htext : ' ' :: '[' :: (' ' :: (index.text ++ [' ', ']']) ++ rest) =
      ' ' :: '[' :: ' ' :: (index.text ++ ' ' :: ']' :: rest) := by simp
  rw [htext, clear_space, clear_cons (by decide) (by decide) (by decide)]
  refine htakes.mono ?_
  rintro phrases ⟨start, stop, text, parts, rfl, hparts⟩
  obtain ⟨start', stop', text', parts', rfl, hdenotes⟩ :=
    Both.to_nothing (Both.of_nothing hparts)
  exact .subscript (denotes_single hdenotes) (.none _)

/-- A call can be extended. -/
theorem extendable_call {func : Printing} {args : List Printing}
    {keywords : List (Identifier × Printing)} (h : Extendable file func)
    (hargs : ArgumentsRead file (argumentsOf args keywords)) :
    Extendable file (call func args keywords) := by
  refine h.extend '('
    (commaSeparated ((argumentsOf args keywords).map Argument.text) ++ [' ', ')']) ?_ ?_
  · rw [text, argumentsOf_text]
  intro rest _
  have hinside := takes_items rest (.inl rfl) hargs.clear_text hargs.takes
    (misses_bracket (.inl rfl) (by decide) rest)
  have hpattern := (takes_text "(".toList _).seq
    (hinside.seq (takes_bracket ")" (.inl rfl) rfl rest))
  have hrule := Takes.rule (r := .call) rfl rfl hpattern
  rw [clear_space, clear_cons (by decide) (by decide) (by decide), List.append_assoc]
  refine (Takes.nth [.rule .call, .rule .attr, .rule .subscript] 0 (by decide)
    (by simp) hrule).mono ?_
  rintro phrases ⟨start, stop, text, parts, rfl, hparts⟩
  exact .call (passes_each (Both.to_nothing (Both.of_nothing hparts))) (.none _)

end FunctionIR.Printing
