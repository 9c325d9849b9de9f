import FunctionIR.Proofs.Grammar.Inline
import FunctionIR.Proofs.Layout.Lines
import FunctionIR.Proofs.Reading.StatementFindings
import Mathlib.Data.List.Rotate

/-!
# How blocks are indented

The statements of a block stand on lines of their own, and so do the further
lines that belong to a statement: its decorators, the `def` after them, its
`elif` and `else` (`Phrase.lines`).  All of them but one have the same leading
text.  It is made of what stands before the line of the enclosing compound
statement, the **outer** text, and of some blanks more, the **extra** text.

The order of the two is not what one expects.  The block's first line has the
outer text first, as it is being found out there how much deeper the block is;
every later line is compared with the margin, in which the innermost
indentation comes first, and so has the extra text first
(`block_indentation`).  As the enclosing line, too, can be a first or a later
line of its block, the outer text is its leading text up to rotation.

Where all these blanks are the same character the order cannot be seen, and the
lines of a block all have the leading text of the enclosing line followed by
the extra blanks.  With spaces and tabs it can be seen: there are accepted
texts whose blocks are not indented uniformly, and uniformly indented texts
that are refused.

The proof follows a match rule by rule.  What a rule leaves depends on whether
it may start anywhere, as parts of a compound statement do, or only at the
beginning of a line.
-/

namespace FunctionIR.Grammar

/-! ### Lines that belong to a phrase -/

/-- The parts of the rule stand on lines of their own. -/
def Rule.hasLines : Rule → Bool
  | .block | .decorated | .elseClause | .loopElse => true
  | _ => false

namespace Phrase

mutual

/-- Where the lines begin that belong to the phrase, leaving out those of the
blocks inside it. -/
def lines : Phrase → List Place
  | .mk rule _ _ _ parts => (if rule.hasLines then parts.map start else []) ++ linesOfParts parts

/-- The same of several phrases. -/
def linesOfParts : List Phrase → List Place
  | [] => []
  | part :: rest => (if part.rule = .block then [] else part.lines) ++ linesOfParts rest

/-- The phrase and all phrases inside it. -/
def inner : Phrase → List Phrase
  | .mk rule start stop text parts => .mk rule start stop text parts :: innerOfParts parts

/-- The same of several phrases. -/
def innerOfParts : List Phrase → List Phrase
  | [] => []
  | part :: rest => part.inner ++ innerOfParts rest

end

/-- A phrase inside several is inside one of them. -/
theorem mem_innerOfParts {phrase : Phrase} {parts : List Phrase} :
    phrase ∈ innerOfParts parts ↔ ∃ part ∈ parts, phrase ∈ part.inner := by
  induction parts with
  | nil => simp [innerOfParts]
  | cons part rest ih => simp [innerOfParts, ih]

/-- What goes from phrases to their parts goes to all phrases inside. -/
theorem forall_inner {P : Phrase → Prop}
    (hparts : ∀ phrase, P phrase → ∀ part ∈ phrase.parts, P part) :
    {whole : Phrase} → P whole → ∀ phrase ∈ whole.inner, P phrase
  | .mk _ _ _ _ parts, h => by
      refine List.forall_mem_cons.mpr ⟨h, fun phrase hphrase => ?_⟩
      obtain ⟨part, hpart, hinside⟩ := mem_innerOfParts.mp hphrase
      exact forall_inner hparts (hparts _ h part hpart) phrase hinside
termination_by whole => sizeOf whole
decreasing_by
  have hsize := List.sizeOf_lt_of_mem hpart
  simp only [Phrase.mk.sizeOf_spec]
  omega

/-- A phrase is inside itself. -/
theorem mem_inner_self (phrase : Phrase) : phrase ∈ phrase.inner := by
  obtain ⟨_, _, _, _, _⟩ := phrase
  exact List.mem_cons_self

/-- The parts of a phrase inside are inside, too. -/
theorem mem_inner_of_part {phrase part : Phrase} : {whole : Phrase} → phrase ∈ whole.inner →
    part ∈ phrase.parts → part ∈ whole.inner
  | .mk rule start stop text parts, h, hpart => by
      refine List.mem_cons_of_mem _ (mem_innerOfParts.mpr ?_)
      rcases List.mem_cons.mp h with rfl | h
      · exact ⟨part, hpart, part.mem_inner_self⟩
      · obtain ⟨other, hother, hinside⟩ := mem_innerOfParts.mp h
        exact ⟨other, hother, mem_inner_of_part hinside hpart⟩
termination_by whole => sizeOf whole
decreasing_by
  have hsize := List.sizeOf_lt_of_mem hother
  simp only [Phrase.mk.sizeOf_spec]
  omega

/-- The lines of several phrases are those of each that is no block. -/
theorem mem_linesOfParts {place : Place} {parts : List Phrase} :
    place ∈ linesOfParts parts ↔ ∃ part ∈ parts, part.rule ≠ .block ∧ place ∈ part.lines := by
  induction parts with
  | nil => simp [linesOfParts]
  | cons part rest ih =>
      rw [linesOfParts, List.mem_append, ih]
      by_cases hrule : part.rule = .block <;> simp [hrule]

/-- The block is indented with respect to the outer text. -/
def IndentedBy (text outer : List Char) (block : Phrase) : Prop :=
  ∃ extra first rest, block.parts = first :: rest ∧
    extra ≠ [] ∧ (∀ c ∈ extra, CharClass.blank.holds c = true) ∧
    leading text first.start = outer ++ extra ∧
    ∀ place ∈ block.lines, place = first.start ∨ leading text place = extra ++ outer

/-- All lines of the block have before them what stands before the header on
its line, and after it the same blanks. -/
def UniformUnder (text : List Char) (header block : Phrase) : Prop :=
  ∃ extra, extra ≠ [] ∧ (∀ c ∈ extra, CharClass.blank.holds c = true) ∧
    ∀ place ∈ block.lines, leading text place = leading text header.start ++ extra

/-- Every block inside the phrase is indented with respect to the line of the
compound statement that it belongs to. -/
def Indented (text : List Char) (phrase : Phrase) : Prop :=
  ∀ header ∈ phrase.inner, ∀ block ∈ header.parts, block.rule = .block →
    ∃ outer, (∀ c ∈ outer, CharClass.blank.holds c = true) ∧
      outer ~r leading text header.start ∧ block.IndentedBy text outer

/-- The phrase is a part of a compound statement that starts behind the outer
text: a block, or something without lines, or with lines like the first. -/
def Laid (text outer : List Char) (phrase : Phrase) : Prop :=
  phrase.Indented text ∧
    if phrase.rule = .block then phrase.IndentedBy text outer
    else ∀ place ∈ phrase.lines, leading text place = outer

/-- The phrase starts a line; the other lines that belong to it have the outer
text. -/
def Begun (text outer : List Char) (phrase : Phrase) : Prop :=
  phrase.Indented text ∧ phrase.rule ≠ .block ∧
    ∀ place ∈ phrase.lines, place = phrase.start ∨ leading text place = outer

/-- The phrase starts a line that has the outer text before it. -/
def Follows (text outer : List Char) (phrase : Phrase) : Prop :=
  leading text phrase.start = outer ∧ phrase.Begun text outer

/-- All lines of the phrase have the outer text before them. -/
theorem Follows.leading_eq {text outer : List Char} {phrase : Phrase}
    (h : phrase.Follows text outer) : ∀ place ∈ phrase.lines, leading text place = outer := by
  intro place hplace
  rcases h.2.2.2 place hplace with rfl | hleading
  · exact h.1
  · exact hleading

variable {text outer chars : List Char} {rule : Rule} {start stop : Place} {parts : List Phrase}

/-- A phrase is indented well if its parts are and the blocks among them are. -/
theorem indented_mk (hparts : ∀ part ∈ parts, part.Indented text)
    (hblocks : ∀ block ∈ parts, block.rule = .block →
      ∃ outer, (∀ c ∈ outer, CharClass.blank.holds c = true) ∧ outer ~r leading text start ∧
        block.IndentedBy text outer) :
    (Phrase.mk rule start stop chars parts).Indented text := by
  intro header hheader block hmem hrule
  rcases List.mem_cons.mp hheader with rfl | hheader
  · exact hblocks block hmem hrule
  · obtain ⟨part, hpart, hinside⟩ := mem_innerOfParts.mp hheader
    exact hparts part hpart header hinside block hmem hrule

/-- What starts lines is no block of the phrase around it. -/
theorem indented_of_begun (hparts : ∀ part ∈ parts, part.Begun text outer) :
    (Phrase.mk rule start stop chars parts).Indented text :=
  indented_mk (fun part hpart => (hparts part hpart).1)
    fun block hmem hblock => absurd hblock (hparts block hmem).2.1

/-- The lines that belong to a phrase whose parts, but for the first, have lines
of their own. -/
theorem leading_of_begun {first : Phrase} {more : List Phrase} (hfirst : first.Begun text outer)
    (hmore : ∀ part ∈ more, part.Follows text outer) :
    ∀ place ∈ (Phrase.mk rule start stop chars (first :: more)).lines,
      place = first.start ∨ leading text place = outer := by
  intro place hplace
  rcases List.mem_append.mp hplace with hown | hinside
  · split at hown
    · rcases List.mem_cons.mp hown with hplace | hplace
      · exact .inl hplace
      · obtain ⟨part, hpart, rfl⟩ := List.mem_map.mp hplace
        exact .inr (hmore part hpart).1
    · cases hown
  · obtain ⟨part, hpart, -, hmem⟩ := mem_linesOfParts.mp hinside
    rcases List.mem_cons.mp hpart with rfl | hpart
    · exact hfirst.2.2 place hmem
    · exact .inr ((hmore part hpart).leading_eq place hmem)

/-! ### Phrases inside a line -/

namespace Inline

variable {phrase : Phrase}

/-- No lines belong to it but the one it is on. -/
theorem lines_eq_nil (h : phrase.Inline) : phrase.lines = [] := by
  induction h with
  | @mk rule start stop chars parts hrule _ ih =>
      have hlines : rule.hasLines = false := by
        cases rule <;> first | rfl | cases hrule
      rw [lines, hlines, if_neg Bool.false_ne_true, List.nil_append]
      refine List.eq_nil_iff_forall_not_mem.mpr fun place hplace => ?_
      obtain ⟨part, hpart, -, hmem⟩ := mem_linesOfParts.mp hplace
      rw [ih part hpart] at hmem
      cases hmem

/-- There are no blocks in it. -/
theorem indented (h : phrase.Inline) (text : List Char) : phrase.Indented text := by
  induction h with
  | mk _ hparts ih =>
      exact indented_mk ih fun block hmem hblock => absurd hblock (hparts block hmem).ne_block

/-- An inline phrase is laid anywhere. -/
theorem laid (h : phrase.Inline) (text outer : List Char) : phrase.Laid text outer := by
  refine ⟨h.indented text, ?_⟩
  rw [if_neg h.ne_block, h.lines_eq_nil]
  exact List.forall_mem_nil _

/-- An inline phrase begins anywhere. -/
theorem begun (h : phrase.Inline) (text outer : List Char) : phrase.Begun text outer := by
  refine ⟨h.indented text, h.ne_block, ?_⟩
  rw [h.lines_eq_nil]
  exact List.forall_mem_nil _

end Inline

end Phrase

/-! ### Lines of their own -/

/-- The state is one in the text, under a margin of blanks. -/
structure State.Under (text : List Char) (margin : List (List Char)) (s : State) : Prop where
  inText : s.In text
  around : s.margin = margin
  blank : ∀ c ∈ margin.flatten, CharClass.blank.holds c = true

/-- Being in the text under a margin is kept by every step. -/
theorem steady_under (text : List Char) (margin : List (List Char)) :
    Steady (State.Under text margin) where
  take hrest h := ⟨(kept_in text).take hrest h.inText, h.around, h.blank⟩
  phrases _ h := ⟨h.inText, h.around, h.blank⟩

/-- Phrases that are laid are added under the margin. -/
def AddsLaid (text : List Char) (margin : List (List Char)) : State → State → Prop :=
  Adds (State.Under text margin) (Phrase.Laid text margin.flatten)

/-- A phrase is added that starts a line under the margin. -/
def Begins (text : List Char) (margin : List (List Char)) (s t : State) : Prop :=
  s.Under text margin → leading text s.place ~r margin.flatten →
    t.Under text margin ∧ ∃ phrase, t.phrases = phrase :: s.phrases ∧ phrase.start = s.place ∧
      phrase.Begun text margin.flatten

section Lines

open Pattern

variable {text : List Char} {margin : List (List Char)} {n : Nat} {s t : State} {p : Pattern}
  {r : Rule}

/-- A state past a piece of text is in the text under the same margin. -/
theorem State.Under.of_past {chars rest : List Char} (hs : s.Under text margin)
    (hrest : s.rest = chars ++ rest) : (s.past chars rest).Under text margin :=
  ⟨(kept_in text).takeText (State.takeText_append hrest) hs.inText, hs.around, hs.blank⟩

/-- Behind a line break and the margin, what stands before on the line is the
margin. -/
theorem ownLine (h : (Pattern.seq lineBreak (.seq .margin p)).MatchesIn n .tight s t)
    (hs : s.Under text margin) :
    ∃ u, p.MatchesIn n .tight u t ∧ u.Under text margin ∧ u.phrases = s.phrases ∧
      leading text u.place = margin.flatten := by
  obtain ⟨u, hbreak, h⟩ := h.seq_inv
  obtain ⟨v, hmargin, hp⟩ := h.seq_inv
  obtain ⟨haround, hphrases⟩ := hbreak.keeps (by decide)
  have hu : u.Under text margin :=
    ⟨hbreak.toMatches.in_text hs.inText, haround.trans hs.around, hs.blank⟩
  simp only [State.skip_tight] at hmargin hp
  obtain ⟨rest, hrest, rfl⟩ := matches_margin_iff.mp hmargin.toMatches
  rw [hu.around] at hrest hp
  refine ⟨_, hp, hu.of_past hrest, hphrases, ?_⟩
  have hleading := hu.inText.leading_past hrest fun c hc => endsLine_of_blank (hs.blank c hc)
  rw [leading_lineBreak hbreak.toMatches hs.inText, List.nil_append] at hleading
  exact hleading

/-- A rule on a line of its own. -/
theorem adds_line (hbegins : ∀ {s t}, (Pattern.rule r).MatchesIn n .tight s t → Begins text margin s t)
    (h : (Pattern.seq lineBreak (.seq .margin (.rule r))).MatchesIn n .tight s t) :
    Adds (State.Under text margin) (Phrase.Follows text margin.flatten) s t := by
  intro hs
  obtain ⟨u, hrule, hu, hphrases, hleading⟩ := ownLine h hs
  have hrotated : leading text u.place ~r margin.flatten := by rw [hleading]
  obtain ⟨ht, phrase, hphrase, hstart, hbegun⟩ := hbegins hrule hu hrotated
  refine ⟨ht, [phrase], ?_, List.forall_mem_singleton.mpr ⟨?_, hbegun⟩⟩
  · rw [hphrase, hphrases]
    rfl
  · rw [hstart, hleading]

/-- Any number of such lines. -/
theorem adds_lines
    (hbegins : ∀ {s t}, (Pattern.rule r).MatchesIn n .tight s t → Begins text margin s t)
    (h : (Pattern.many (.seq lineBreak (.seq .margin (.rule r)))).MatchesIn n .tight s t) :
    Adds (State.Under text margin) (Phrase.Follows text margin.flatten) s t :=
  (Adds.advances (steady_under text margin)).of_many (adds_line hbegins) h

/-- A first part and the lines after it. -/
theorem Begins.followed {u : State} (hfirst : Begins text margin s t)
    (hmore : Adds (State.Under text margin) (Phrase.Follows text margin.flatten) t u)
    (hs : s.Under text margin) (hleading : leading text s.place ~r margin.flatten)
    (hphrases : s.phrases = []) :
    u.Under text margin ∧ ∃ first more, u.phrases.reverse = first :: more ∧
      first.start = s.place ∧ first.Begun text margin.flatten ∧
      ∀ part ∈ more, part.Follows text margin.flatten := by
  obtain ⟨ht, first, hphrase, hstart, hbegun⟩ := hfirst hs hleading
  obtain ⟨hu, found, hfound, hfollow⟩ := hmore ht
  refine ⟨hu, first, found.reverse, ?_, hstart, hbegun, ?_⟩
  · rw [hfound, hphrase, hphrases, List.reverse_append]
    rfl
  · intro part hpart
    exact hfollow part (List.mem_reverse.mp hpart)

/-- Some blanks more than the margin make a wider margin, with these blanks
first, though they come last on the line. -/
theorem widened (h : (Pattern.indent indentation).MatchesIn n .tight s t) (hs : s.Under text margin)
    (hleading : leading text s.place = margin.flatten) :
    ∃ extra, extra ≠ [] ∧ (∀ c ∈ extra, CharClass.blank.holds c = true) ∧
      t.Under text (extra :: margin) ∧ leading text t.place = margin.flatten ++ extra ∧
      t.phrases = s.phrases := by
  obtain ⟨u, hwidth, rfl⟩ := h.indent_inv
  obtain ⟨extra, rest, hrest, rfl, hne, hblank⟩ := indentation_matches hwidth.toMatches
  have hu := hs.of_past hrest
  refine ⟨extra, hne, hblank, ⟨hu.inText, ?_, ?_⟩, ?_, rfl⟩
  · rw [State.textUpTo_past hrest, hu.around]
  · exact List.forall_mem_append.mpr ⟨hblank, hs.blank⟩
  · rw [← hleading]
    exact hs.inText.leading_past hrest fun c hc => endsLine_of_blank (hblank c hc)

end Lines

/-! ### Rule by rule -/

/-- A rule that may start anywhere in a line. -/
def Rule.isPart (r : Rule) : Bool :=
  r.isInline || r = .block || r = .elseClause || r = .loopElse

/-- A rule that starts a line, and goes on to others only inside its parts. -/
def Rule.isHeader : Rule → Bool
  | .functionDef | .ifStatement | .elifClause | .elseBlock | .whileStatement | .forStatement => true
  | _ => false

/-- A rule that starts a line. -/
def Rule.startsLine (r : Rule) : Bool :=
  r.isHeader || r = .statement || r = .decorated || r = .decorator || r = .simpleStatements

/-- The pattern of a header is made of parts of lines. -/
theorem Rule.uses_isPart {r : Rule} (h : r.isHeader = true) :
    r.definition.pattern.uses isPart = true := by
  revert r
  have hall : ∀ r ∈ Rule.all, r.isHeader = true → r.definition.pattern.uses isPart = true := by
    decide
  exact fun {r} h => hall r r.mem_all h

/-- What starts lines is kept and visible. -/
theorem Rule.kept_of_startsLine {r : Rule} (h : r.startsLine = true) :
    r.definition.kept = true ∧ ∀ spacing, r.visible spacing = true := by
  cases r <;> first | exact ⟨rfl, fun _ => rfl⟩ | cases h

/-- Rules matched within so many steps are laid out as they should be. -/
structure LaidOut (text : List Char) (n : Nat) : Prop where
  lays : ∀ {r spacing s t margin}, r.isPart = true → (Pattern.rule r).MatchesIn n spacing s t →
    AddsLaid text margin s t
  begins : ∀ {r spacing s t margin}, r.startsLine = true →
    (Pattern.rule r).MatchesIn n spacing s t → Begins text margin s t

namespace LaidOut

open Pattern

variable {text : List Char} {margin : List (List Char)} {n : Nat} {spacing : Spacing}
  {s u : State} {r : Rule} (h : LaidOut text n)

/-- A phrase is left behind its pattern. -/
theorem begins_of_begun (hr : r.startsLine = true)
    (hbegun : s.Under text margin → leading text s.place ~r margin.flatten →
      u.Under text margin ∧ ∀ stop chars,
        (Phrase.mk r s.place stop chars u.phrases.reverse).Begun text margin.flatten) :
    Begins text margin s (State.afterRule r spacing s u) := by
  intro hs hleading
  obtain ⟨hkept, hvisible⟩ := Rule.kept_of_startsLine hr
  obtain ⟨hu, hbegun⟩ := hbegun hs hleading
  rw [State.afterRule_of_kept (hvisible spacing) hkept]
  exact ⟨(steady_under text margin).phrases _ hu, _, rfl, rfl, hbegun _ _⟩

include h

/-- A header begins a line, and its blocks are indented from there. -/
theorem header (hr : r.isHeader = true)
    (hu : r.definition.pattern.MatchesIn n (r.inside spacing) (s.openRule r spacing) u) :
    Begins text margin s (State.afterRule r spacing s u) := by
  have hstarts : r.startsLine = true := by
    rw [Rule.startsLine, hr]
    rfl
  refine begins_of_begun hstarts fun hs hleading => ?_
  have hlays : AddsLaid text margin (s.openRule r spacing) u :=
    (Adds.advances (steady_under text margin)).of_uses (fun hpart => h.lays hpart)
      (Rule.uses_isPart hr) hu
  obtain ⟨hu, hparts⟩ :=
    hlays.parts (steady_under text margin) ((Rule.kept_of_startsLine hstarts).2 spacing) hs
  refine ⟨hu, fun stop chars => ⟨?_, ?_, ?_⟩⟩
  · refine Phrase.indented_mk (fun part hpart => (hparts part hpart).1) fun block hmem hblock => ?_
    have hlaid := (hparts block hmem).2
    rw [if_pos hblock] at hlaid
    exact ⟨margin.flatten, hs.blank, hleading.symm, hlaid⟩
  · intro hblock
    change r = .block at hblock
    subst hblock
    cases hr
  · intro place hplace
    have hown : r.hasLines = false := by cases r <;> first | rfl | cases hr
    rw [Phrase.lines, hown, if_neg Bool.false_ne_true, List.nil_append] at hplace
    obtain ⟨part, hpart, hne, hmem⟩ := Phrase.mem_linesOfParts.mp hplace
    have hlaid := (hparts part hpart).2
    rw [if_neg hne] at hlaid
    exact .inr (hlaid place hmem)

/-- A statement begins a line as the phrase in it does. -/
theorem statement
    (hu : Rule.statement.definition.pattern.MatchesIn n .loose (s.openRule .statement spacing) u) :
    Begins text margin s (State.afterRule .statement spacing s u) := by
  refine begins_of_begun rfl fun hs hleading => ?_
  rw [State.openRule_of_visible rfl] at hu
  obtain ⟨r, hr, hmatch⟩ := MatchesIn.firstOf_inv [.decorated, .functionDef, .ifStatement,
    .whileStatement, .forStatement, .simpleStatements] hu
  have hstarts : r.startsLine = true := by
    clear hmatch
    revert r
    decide
  have hopen := (steady_under text margin).phrases [] hs
  obtain ⟨hunder, phrase, hphrase, hstart, hbegun⟩ := h.begins hstarts hmatch hopen hleading
  change phrase.start = s.place at hstart
  rw [hphrase, ← hstart]
  refine ⟨hunder, fun stop chars => ⟨?_, nofun, ?_⟩⟩
  · exact Phrase.indented_of_begun (List.forall_mem_singleton.mpr hbegun)
  · exact Phrase.leading_of_begun hbegun (List.forall_mem_nil _)

/-- A decorated function begins a line, and its further lines follow the first. -/
theorem decorated
    (hu : Rule.decorated.definition.pattern.MatchesIn n .tight (s.openRule .decorated spacing) u) :
    Begins text margin s (State.afterRule .decorated spacing s u) := by
  refine begins_of_begun rfl fun hs hleading => ?_
  rw [State.openRule_of_visible rfl] at hu
  obtain ⟨v, hfirst, hu⟩ := hu.seq_inv
  obtain ⟨w, hmore, hlast⟩ := hu.seq_inv
  have hlines : Adds (State.Under text margin) (Phrase.Follows text margin.flatten) v u :=
    (adds_lines (h.begins rfl) hmore).trans (adds_line (h.begins rfl) hlast)
  have hopen := (steady_under text margin).phrases [] hs
  obtain ⟨hunder, first, more, hparts, hstart, hbegun, hfollow⟩ :=
    (h.begins rfl hfirst).followed hlines hopen hleading rfl
  change first.start = s.place at hstart
  rw [hparts, ← hstart]
  refine ⟨hunder, fun stop chars => ⟨?_, nofun, Phrase.leading_of_begun hbegun hfollow⟩⟩
  exact Phrase.indented_of_begun (List.forall_mem_cons.mpr
    ⟨hbegun, fun part hpart => (hfollow part hpart).2⟩)

/-- The clause after a body is on a line of its own. -/
theorem clause (rules : List Rule) (hrules : ∀ r ∈ rules, r.isHeader = true)
    (hclause : r = .elseClause ∨ r = .loopElse)
    (hu : (Pattern.seq lineBreak (.seq .margin (.firstOf (rules.map .rule)))).MatchesIn n .tight
      (s.openRule r spacing) u) : AddsLaid text margin s (State.afterRule r spacing s u) := by
  have hkept : r.definition.kept = true ∧ r.visible spacing = true ∧ r ≠ .block := by
    rcases hclause with rfl | rfl <;> exact ⟨rfl, rfl, nofun⟩
  obtain ⟨hkept, hvisible, hne⟩ := hkept
  intro hs
  rw [State.openRule_of_visible hvisible] at hu
  obtain ⟨v, hchoice, hv, hphrases, hleading⟩ := ownLine hu ((steady_under text margin).phrases [] hs)
  obtain ⟨r', hr', hmatch⟩ := MatchesIn.firstOf_inv rules hchoice
  have hstarts : r'.startsLine = true := by
    rw [Rule.startsLine, hrules r' hr']
    rfl
  have hrotated : leading text v.place ~r margin.flatten := by rw [hleading]
  obtain ⟨hunder, phrase, hphrase, hstart, hbegun⟩ := h.begins hstarts hmatch hv hrotated
  have hfollows : phrase.Follows text margin.flatten := ⟨by rw [hstart, hleading], hbegun⟩
  have hparts : u.phrases.reverse = [phrase] := by simp [hphrase, hphrases]
  rw [State.afterRule_of_kept hvisible hkept, hparts]
  refine ⟨(steady_under text margin).phrases _ hunder, [_], rfl,
    List.forall_mem_singleton.mpr ⟨?_, ?_⟩⟩
  · exact Phrase.indented_of_begun (List.forall_mem_singleton.mpr hbegun)
  · rw [if_neg (show ¬ (Phrase.mk r _ _ _ _).rule = .block from hne)]
    intro place hplace
    rcases Phrase.leading_of_begun hbegun (List.forall_mem_nil _) place hplace with rfl | hplace
    · exact hfollows.1
    · exact hplace

/-- **A block.**  On its first line the margin is found to be wider. -/
theorem block
    (hu : Rule.block.definition.pattern.MatchesIn n .tight (s.openRule .block spacing) u) :
    AddsLaid text margin s (State.afterRule .block spacing s u) := by
  intro hs
  rw [State.openRule_of_visible rfl] at hu
  obtain ⟨v, hbody, hv, hphrases, hleading⟩ := ownLine hu ((steady_under text margin).phrases [] hs)
  obtain ⟨w, hindent, hbody⟩ := hbody.seq_inv
  obtain ⟨x, hfirst, hbody⟩ := hbody.seq_inv
  obtain ⟨y, hmore, hend⟩ := hbody.seq_inv
  obtain ⟨extra, hne, hblank, hw, hplace, hwider⟩ := widened hindent hv hleading
  have hrotated : leading text w.place ~r (extra :: margin).flatten := by
    rw [hplace, List.flatten_cons]
    exact List.isRotated_append
  obtain ⟨hy, first, more, hparts, hstart, hbegun, hfollow⟩ :=
    (h.begins rfl hfirst).followed (adds_lines (h.begins rfl) hmore) hw hrotated
      (hwider.trans hphrases)
  obtain ⟨width, outer, hmargin, rfl⟩ := matches_outdent_iff.mp hend.toMatches
  change y.margin = width :: outer at hmargin
  rw [hy.around] at hmargin
  obtain ⟨rfl, rfl⟩ := List.cons.inj hmargin
  rw [State.afterRule_of_kept rfl rfl]
  refine ⟨⟨hy.inText, rfl, hs.blank⟩, [_], rfl, List.forall_mem_singleton.mpr ?_⟩
  change Phrase.Laid text margin.flatten (Phrase.mk .block _ _ _ y.phrases.reverse)
  rw [hparts]
  refine ⟨?_, ?_⟩
  · exact Phrase.indented_of_begun (List.forall_mem_cons.mpr
      ⟨hbegun, fun part hpart => (hfollow part hpart).2⟩)
  · rw [if_pos (show (Phrase.mk Rule.block _ _ _ _).rule = .block from rfl)]
    refine ⟨extra, first, more, rfl, hne, hblank, ?_, Phrase.leading_of_begun hbegun hfollow⟩
    rw [hstart]
    exact hplace

end LaidOut

open Pattern in
/-- A rule inside a line that is kept starts where the match starts. -/
theorem begins_inline {text : List Char} {margin : List (List Char)} {n : Nat} {spacing : Spacing}
    {s u : State} {r : Rule} (hr : r.isInline = true) (hstarts : r.startsLine = true)
    (h : (Pattern.rule r).MatchesIn n spacing s u) : Begins text margin s u := by
  intro hs _
  obtain ⟨hu, found, hfound, hinline⟩ := adds_inline (steady_under text margin) hr h hs
  obtain ⟨k, -, t, -, rfl⟩ := h.rule_inv
  obtain ⟨hkept, hvisible⟩ := Rule.kept_of_startsLine hstarts
  rw [State.afterRule_of_kept (hvisible spacing) hkept] at hfound hu ⊢
  rw [← List.singleton_append] at hfound
  obtain ⟨rfl⟩ := List.append_cancel_right hfound
  have hphrase := hinline _ (List.mem_singleton.mpr rfl)
  exact ⟨hu, _, rfl, rfl, hphrase.begun text margin.flatten⟩

/-- **Every match is laid out.**  The steps go down with every rule. -/
theorem laidOut (text : List Char) (n : Nat) : LaidOut text n := by
  induction n using Nat.strongRecOn with
  | _ n ih =>
  constructor
  · intro r spacing s t margin hr h
    cases hinline : r.isInline with
    | true =>
        exact (adds_inline (steady_under text margin) hinline h).mono
          fun phrase hphrase => hphrase.laid text margin.flatten
    | false =>
        obtain ⟨k, hk, u, hu, rfl⟩ := h.rule_inv
        simp only [Rule.isPart, hinline, Bool.false_or, Bool.or_eq_true, decide_eq_true_eq] at hr
        rcases hr with (rfl | rfl) | rfl
        · exact (ih k hk).block hu
        · exact (ih k hk).clause [.elifClause, .elseBlock] (by decide) (.inl rfl) hu
        · exact (ih k hk).clause [.elseBlock] (by decide) (.inr rfl) hu
  · intro r spacing s t margin hr h
    cases hheader : r.isHeader with
    | true =>
        obtain ⟨k, hk, u, hu, rfl⟩ := h.rule_inv
        exact (ih k hk).header hheader hu
    | false =>
        simp only [Rule.startsLine, hheader, Bool.false_or, Bool.or_eq_true,
          decide_eq_true_eq] at hr
        rcases hr with ((rfl | rfl) | rfl) | rfl
        · obtain ⟨k, hk, u, hu, rfl⟩ := h.rule_inv
          exact (ih k hk).statement hu
        · obtain ⟨k, hk, u, hu, rfl⟩ := h.rule_inv
          exact (ih k hk).decorated hu
        · exact begins_inline rfl rfl h
        · exact begins_inline rfl rfl h

/-! ### Whole texts -/

namespace Pattern

variable {text : List Char} {n : Nat} {s t : State}

/-- A pattern without rules and without margins adds nothing. -/
theorem MatchesIn.adds_of_uses {p : Pattern} {spacing : Spacing} {margin : List (List Char)}
    {P : Phrase → Prop} (h : p.MatchesIn n spacing s t) (hp : p.uses (fun _ => false) = true) :
    Adds (State.Under text margin) P s t :=
  (Adds.advances (steady_under text margin)).of_uses (fun hr => by cases hr) hp h

/-- Statements of a whole text start lines without a margin. -/
theorem adds_statements (hlaid : LaidOut text n)
    (h : (Pattern.parts [.rule .statement, .many (.parts [lineBreak, .rule .statement])]).MatchesIn n
      .tight s t) (hleading : leading text s.place = []) :
    Adds (State.Under text []) (Phrase.Begun text []) s t := by
  have hstatement : ∀ {s t}, (Pattern.rule .statement).MatchesIn n .tight s t →
      leading text s.place = [] → Adds (State.Under text []) (Phrase.Begun text []) s t := by
    intro s t h hleading hs
    obtain ⟨ht, phrase, hphrase, -, hbegun⟩ :=
      hlaid.begins rfl h hs (by rw [hleading]; exact .refl _)
    exact ⟨ht, [phrase], hphrase, List.forall_mem_singleton.mpr hbegun⟩
  obtain ⟨u, hfirst, hmore⟩ := h.seq_inv
  refine (hstatement hfirst hleading).trans
    ((Adds.advances (steady_under text [])).of_many (fun {s t} hline => ?_) hmore)
  intro hs
  obtain ⟨v, hbreak, hnext⟩ := hline.seq_inv
  have hlast := hstatement hnext (leading_lineBreak hbreak.toMatches hs.inText)
  exact ((hbreak.adds_of_uses (by decide)).trans hlast) hs

end Pattern

open Pattern in
/-- **A text that is matched is indented** block by block. -/
theorem indented_of_matchText {text : List Char} {s : State} {tried : Attempts}
    (h : Rule.module.matchText text = (.matched s, tried)) :
    ∀ whole ∈ s.phrases, whole.Indented text := by
  have hmatched : (Pattern.rule .module).MatchesIn (stepsFor text.length) .loose (.ofText text) s :=
    congrArg Prod.fst h
  obtain ⟨k, -, u, hu, rfl⟩ := hmatched.module_inv
  obtain ⟨b, hbreak, hbehind⟩ := hu.seq_inv
  obtain ⟨c, hstatements, hlast⟩ := hbehind.seq_inv
  simp only [State.skip_tight] at hstatements hlast
  have hunder : State.Under text [] (.ofText text) :=
    ⟨State.in_ofText text, rfl, List.forall_mem_nil _⟩
  have hleading : leading text b.place = [] := by
    rcases hbreak.opt_inv with hbreak | ⟨-, rfl⟩
    · exact leading_lineBreak hbreak.toMatches hunder.inText
    · rfl
  have hlaid := laidOut text k
  have hbody : Adds (State.Under text []) (Phrase.Begun text []) b c := by
    rcases hstatements.opt_inv with hstatements | ⟨-, rfl⟩
    · exact adds_statements hlaid hstatements hleading
    · exact .none id rfl
  have hend :
      (Pattern.parts [.opt lineBreak, blankRest, .rule .endOfInput]).uses Rule.isInline = true := by
    decide
  have hrest : Adds (State.Under text []) Phrase.Inline c u :=
    (Adds.advances (steady_under text [])).of_uses (adds_inline (steady_under text [])) hend hlast
  have hall : Adds (State.Under text []) (fun phrase => phrase.Begun text []) (.ofText text) u :=
    ((hbreak.adds_of_uses (by decide)).trans hbody).trans
      (hrest.mono fun phrase hphrase => hphrase.begun text [])
  intro whole hwhole
  obtain ⟨-, found, hfound, hbegun⟩ := hall hunder
  rw [State.afterRule_of_kept rfl rfl] at hwhole
  rw [List.mem_singleton.mp hwhole]
  refine Phrase.indented_of_begun fun part hpart => hbegun part ?_
  rw [hfound] at hpart
  simpa [State.ofText] using hpart

/-- Where all lines start with one kind of blank, the order of outer and extra
text cannot be seen. -/
theorem Phrase.IndentedBy.uniform {text outer : List Char} {header block : Phrase}
    (h : block.IndentedBy text outer) (hrule : block.rule = .block)
    (houter : outer ~r leading text header.start) {b : Char}
    (hb : ∀ place ∈ header.start :: block.lines, ∀ c ∈ leading text place, c = b) :
    header.UniformUnder text block := by
  obtain ⟨hheader, hlines⟩ := List.forall_mem_cons.mp hb
  obtain ⟨extra, first, more, hparts, hne, hblank, hfirst, hall⟩ := h
  have hmem : first.start ∈ block.lines := by
    obtain ⟨rule, start, stop, chars, parts⟩ := block
    change rule = .block at hrule
    change parts = first :: more at hparts
    subst hrule hparts
    exact List.mem_append_left _ List.mem_cons_self
  have hchars := hlines first.start hmem
  rw [hfirst, List.forall_mem_append] at hchars
  have hswap : extra ++ outer = outer ++ extra := by
    rw [List.eq_replicate_of_mem hchars.1, List.eq_replicate_of_mem hchars.2,
      List.replicate_append_replicate, List.replicate_append_replicate, Nat.add_comm]
  have hsame : leading text header.start = outer := by
    rw [List.eq_replicate_of_mem hheader, List.eq_replicate_of_mem hchars.1,
      houter.perm.length_eq]
  refine ⟨extra, hne, hblank, fun place hplace => ?_⟩
  rw [hsame]
  rcases hall place hplace with rfl | hleading
  · exact hfirst
  · exact hleading.trans hswap

end FunctionIR.Grammar

namespace FunctionIR

open Grammar

/-- **How blocks are indented.**  In a program text that has a tree, the lines
of every block start with the blanks around it and the block's own blanks, in
this order on the first line and in the other order on all others.  Where they
are all of one kind the block is indented uniformly. -/
theorem block_indentation {source : Source} (hformat : source.format = .program)
    {counter next : Nat} {tree : Node} (h : source.tree.runFrom counter = (.ok tree, next)) :
    ∃ s tried, Rule.module.matchText source.text.toList = (.matched s, tried) ∧
      ∀ whole ∈ s.phrases, ∀ header ∈ whole.inner, ∀ block ∈ header.parts, block.rule = .block →
        (∃ outer, outer ~r leading source.text.toList header.start ∧
          block.IndentedBy source.text.toList outer) ∧
        ∀ b, (∀ place ∈ header.start :: block.lines,
            ∀ c ∈ leading source.text.toList place, c = b) →
          header.UniformUnder source.text.toList block := by
  obtain ⟨-, s, tried, hmatched, -⟩ := Source.match_of_tree hformat h
  refine ⟨s, tried, hmatched, fun whole hwhole header hinside block hmem hrule => ?_⟩
  obtain ⟨outer, -, houter, hblock⟩ :=
    indented_of_matchText hmatched whole hwhole header hinside block hmem hrule
  exact ⟨⟨outer, houter, hblock⟩, fun b hb => hblock.uniform hrule houter hb⟩

/-- A block with two branches. -/
theorem block_indentation_branches :
    let source := Source.ofText "m" "def f(a):\n  if a:\n    x\n  else:\n    y\n" .program
    ∃ tree, (source.tree.runFrom 1).1 = .ok tree ∧ tree.head.kind = .module ∧
      ∃ s tried, Rule.module.matchText source.text.toList = (.matched s, tried) ∧
      ∀ whole ∈ s.phrases, ∀ header ∈ whole.inner, ∀ block ∈ header.parts, block.rule = .block →
        (∃ outer, outer ~r leading source.text.toList header.start ∧
          block.IndentedBy source.text.toList outer) ∧
        ∀ b, (∀ place ∈ header.start :: block.lines,
            ∀ c ∈ leading source.text.toList place, c = b) →
          header.UniformUnder source.text.toList block := by
  intro source
  obtain ⟨tree, hread, hkind⟩ :
      ∃ tree, (source.tree.runFrom 1).1 = .ok tree ∧ tree.head.kind = .module := by
    decide +kernel
  have hrun : source.tree.runFrom 1 = (.ok tree, (source.tree.runFrom 1).2) :=
    Prod.ext hread rfl
  exact ⟨tree, hread, hkind, block_indentation rfl hrun⟩

/-- What a match of a text can be asked. -/
instance decidableExistsMatched {p : State → Prop} [DecidablePred p]
    (result : Outcome × Attempts) : Decidable (∃ s tried, result = (.matched s, tried) ∧ p s) :=
  match result with
  | (.matched s, tried) =>
    decidable_of_iff (p s)
      ⟨fun h => ⟨s, tried, rfl, h⟩, fun ⟨_, _, hs, h⟩ =>
        Outcome.matched.inj (congrArg Prod.fst hs) ▸ h⟩
  | (.failed, _) | (.exhausted, _) => .isFalse nofun

/-- A text with a block that is not indented uniformly: the lines of the inner
block start with two spaces and a tab, and with a tab and two spaces. -/
theorem block_not_uniform :
    let source := Source.ofText "m" "def f():\n  if a:\n  \tx\n\t  y\n" .program
    (∃ tree, (source.tree.runFrom 1).1 = .ok tree ∧ tree.head.kind = .module) ∧
    ∃ s tried, Rule.module.matchText source.text.toList = (.matched s, tried) ∧
      ∃ whole ∈ s.phrases, ∃ header ∈ whole.inner, ∃ block ∈ header.parts, block.rule = .block ∧
        block.lines.map (leading source.text.toList) = [[' ', ' ', '\t'], ['\t', ' ', ' ']] ∧
        ¬ header.UniformUnder source.text.toList block := by
  intro source
  refine ⟨by decide +kernel, ?_⟩
  obtain ⟨s, tried, hmatched, whole, hwhole, header, hheader, block, hblock, hrule, hlines⟩ :
      ∃ s tried, Rule.module.matchText source.text.toList = (.matched s, tried) ∧
        ∃ whole ∈ s.phrases, ∃ header ∈ whole.inner, ∃ block ∈ header.parts, block.rule = .block ∧
        block.lines.map (leading source.text.toList) = [[' ', ' ', '\t'], ['\t', ' ', ' ']] := by
    decide +kernel
  refine ⟨s, tried, hmatched, whole, hwhole, header, hheader, block, hblock, hrule, hlines, ?_⟩
  rintro ⟨extra, -, -, hall⟩
  have hsame : ∀ chars ∈ block.lines.map (leading source.text.toList),
      chars = leading source.text.toList header.start ++ extra := by
    intro chars hchars
    obtain ⟨place, hplace, rfl⟩ := List.mem_map.mp hchars
    exact hall place hplace
  rw [hlines] at hsame
  obtain ⟨hfirst, hrest⟩ := List.forall_mem_cons.mp hsame
  have hsecond := hrest _ List.mem_cons_self
  have heq := hfirst.trans hsecond.symm
  revert heq
  decide

end FunctionIR
