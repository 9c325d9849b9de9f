import FunctionIR.Proofs.Printing.Escapes
import FunctionIR.Proofs.Printing.Precedence
import FunctionIR.Proofs.Reading.Findings

/-!
# Quotation

Every string can be written as a literal in either quote (`Quote.literal`): the
backslash, the quote, the line feed and the carriage return behind a backslash,
every other character as it is.

Wherever an expression may start, such a literal is read as one token, whatever
comes behind it.  A rule that starts with an expression goes down, level by level,
to a value without operators, and on the way nothing else takes a quote; what
comes behind the value is optional at every level, so it cannot undo the match
(`Pattern.Opens`).  The token stands for the string.
-/

namespace FunctionIR

open Grammar Grammar.Pattern

/-! ### The token at the beginning of a phrase -/

/-- The phrase begins with the token: it is the token, or its first part begins
with it. -/
inductive Grammar.Phrase.Leads (token : Phrase) : Phrase → Prop
  | self : Phrase.Leads token token
  | part {rule : Rule} {start stop : Place} {text : List Char} {first : Phrase}
      {more : List Phrase} :
      Phrase.Leads token first → Phrase.Leads token (.mk rule start stop text (first :: more))

namespace Grammar.Pattern

variable {p q : Pattern} {token : Place → Phrase} {input : List Char}

/-- Wherever the input comes next, the pattern matches, and what it finds begins
with the token that starts there. -/
def Opens (p : Pattern) (token : Place → Phrase) (input : List Char) : Prop :=
  ∀ s : State, s.rest = input → ∃ t first more, p.Matches .loose s t ∧
    t.phrases = more ++ first :: s.phrases ∧ (token s.place).Leads first

/-- The pattern matches everywhere. -/
def Always (p : Pattern) : Prop := ∀ s : State, ∃ t, p.Matches .loose s t

/-- An optional part always matches. -/
theorem always_opt (h : (Pattern.opt p).regular = true) : (Pattern.opt p).Always :=
  fun s => (matches_or_fails h .loose s).resolve_right not_fails_opt

/-- A repetition always matches. -/
theorem always_many (h : (Pattern.many p).regular = true) : (Pattern.many p).Always :=
  fun s => (matches_or_fails h .loose s).resolve_right not_fails_many

/-- A sequence of patterns that always match does. -/
theorem Always.seq (hp : p.Always) (hq : q.Always) : (Pattern.seq p q).Always := by
  intro s
  obtain ⟨t, ht⟩ := hp s
  obtain ⟨u, hu⟩ := hq (t.skip .loose)
  exact ⟨u, ht.seq hu⟩

/-- What comes behind can only add phrases. -/
theorem Opens.seq (hp : p.Opens token input) (hq : q.Always) :
    (Pattern.seq p q).Opens token input := by
  intro s hs
  obtain ⟨t, first, more, ht, hphrases, hleads⟩ := hp s hs
  obtain ⟨u, n, hu⟩ := hq (t.skip .loose)
  obtain ⟨_, found, -, -, hfound, -⟩ := kept_covers.of_matched hu
  refine ⟨u, first, found.reverse ++ more, ht.seq ⟨n, hu⟩, ?_, hleads⟩
  rw [hfound, State.skip_phrases, hphrases, List.append_assoc]

/-- A choice opens with the token as its first part does. -/
theorem Opens.choice (hp : p.Opens token input) : (Pattern.choice p q).Opens token input := by
  intro s hs
  obtain ⟨t, first, more, ht, h⟩ := hp s hs
  exact ⟨t, first, more, ht.choice, h⟩

/-- A choice opens as its second part does where the first misses. -/
theorem Misses.choice_opens (hp : p.Misses input) (hq : q.Opens token input) :
    (Pattern.choice p q).Opens token input := by
  intro s hs
  obtain ⟨t, first, more, ht, h⟩ := hq s hs
  exact ⟨t, first, more, (hp s hs).choice ht, h⟩

/-- The first of several that does not miss the input opens it. -/
theorem Opens.firstOf (before after : List Pattern)
    (hbefore : ∀ q ∈ before, q.Misses input) (hp : p.Opens token input) :
    (Pattern.firstOf (before ++ p :: after)).Opens token input :=
  firstOf_split (·.Opens token input) (·.Misses input) Opens.choice Misses.choice_opens before after
    hbefore hp

/-- A rule makes a phrase of what its pattern finds, with the same beginning. -/
theorem Opens.rule {r : Rule} (hinside : r.inside .loose = .loose)
    (hkept : r.definition.kept = true) (h : r.definition.pattern.Opens token input) :
    (Pattern.rule r).Opens token input := by
  intro s hs
  have hopen : s.openRule r .loose = { s with phrases := [] } := by simp [State.openRule]
  obtain ⟨t, first, more, ht, hphrases, hleads⟩ := h { s with phrases := [] } hs
  refine ⟨State.afterRule r .loose s t, .mk r s.place t.place (s.textUpTo t) t.phrases.reverse, [],
    Matches.rule (by rwa [hinside, hopen]), ?_, ?_⟩
  · simp [State.afterRule, State.closeRule, hkept]
  · rw [hphrases, List.reverse_append, List.reverse_cons, List.reverse_nil, List.nil_append,
      List.singleton_append]
    exact .part hleads

/-- What a rule finds is one phrase of it. -/
theorem Opens.exists_phrase {r : Rule} (hvisible : r.visible .loose = true)
    (hkept : r.definition.kept = true) (h : (Pattern.rule r).Opens token input) {s : State}
    (hs : s.rest = input) : ∃ t phrase, (Pattern.rule r).Matches .loose s t ∧
      t.phrases = phrase :: s.phrases ∧ phrase.rule = r ∧ (token s.place).Leads phrase := by
  obtain ⟨t, first, more, ht, hphrases, hleads⟩ := h s hs
  obtain ⟨u, -, rfl⟩ := matches_rule_iff.mp ht
  have hafter := State.afterRule_of_kept hvisible hkept s u
  rw [hafter] at hphrases
  have hnone : more = [] := by
    have hlength := congrArg List.length hphrases
    simp only [List.length_cons, List.length_append] at hlength
    exact List.length_eq_zero_iff.mp (by omega)
  rw [hnone, List.nil_append, List.cons.injEq] at hphrases
  refine ⟨_, first, ht, ?_, by rw [← hphrases.1]; rfl, hleads⟩
  rw [hafter, hphrases.1]

/-- A token rule makes a phrase of the text that it spells. -/
theorem Spells.opens {r : Rule} {text rest : List Char} (hinside : r.inside .loose = .token)
    (hkept : r.definition.kept = true) (h : r.definition.pattern.Spells text rest) :
    (Pattern.rule r).Opens
      (fun place => .mk r place (text.foldl Place.after place) text []) (text ++ rest) := by
  intro s hs
  have hopen : s.openRule r .loose = { s with phrases := [] } := by simp [State.openRule]
  refine ⟨_, _, [], Matches.rule (by rw [hinside, hopen]; exact h { s with phrases := [] } hs),
    ?_, .self⟩
  have htext : s.textUpTo (({ s with phrases := [] } : State).past text rest) = text :=
    State.textUpTo_past hs
  simpa [State.afterRule, State.closeRule, hkept, State.past] using htext

end Grammar.Pattern

/-! ### Where an expression may start -/

namespace Printing

/-- The rules that begin with an expression: those of the levels, and targets and
lists. -/
def expressionRules : List Rule :=
  Level.all.map Level.rule ++ [.expressionList, .target, .targetList, .expressionStatement]

section

variable {token : Place → Phrase} {input : List Char}

/-- What opens an atom opens the tightest level. -/
theorem opens_primary (h : atom.Opens token input) :
    (Pattern.rule .primary).Opens token input :=
  Opens.rule rfl rfl (h.seq (always_many (by decide)))

/-- What opens the next tighter level opens the level, where no sign and no negation
stands. -/
theorem opens_looser {level : Level} (h : (Pattern.rule (tighter level).rule).Opens token input)
    (hsign : (Pattern.rule .unaryOp).Misses input) (hnot : (Pattern.rule .kwNot).Misses input) :
    (Pattern.rule level.rule).Opens token input := by
  cases level with
  | conditional => exact Opens.rule rfl rfl (h.seq (always_opt (by decide +kernel)))
  | disjunction | conjunction | comparison | sum | term =>
      exact Opens.rule rfl rfl (h.seq (always_many (by decide +kernel)))
  | inversion => exact Opens.rule rfl rfl (hnot.seq.choice_opens h)
  | factor => exact Opens.rule rfl rfl (hsign.seq.choice_opens h)
  | power => exact Opens.rule rfl rfl (h.seq (always_opt (by decide +kernel)))
  | primary => exact h

/-- What opens an atom opens every level. -/
theorem opens_level (h : atom.Opens token input) (hsign : (Pattern.rule .unaryOp).Misses input)
    (hnot : (Pattern.rule .kwNot).Misses input) (level : Level) :
    (Pattern.rule level.rule).Opens token input := by
  have hstep (level : Level) (h : (Pattern.rule (tighter level).rule).Opens token input) :
      (Pattern.rule level.rule).Opens token input := opens_looser h hsign hnot
  have hprimary := opens_primary h
  have hpower := hstep .power hprimary
  have hfactor := hstep .factor hpower
  have hterm := hstep .term hfactor
  have hsum := hstep .sum hterm
  have hcomparison := hstep .comparison hsum
  have hinversion := hstep .inversion hcomparison
  have hconjunction := hstep .conjunction hinversion
  have hdisjunction := hstep .disjunction hconjunction
  cases level with
  | conditional => exact hstep .conditional hdisjunction
  | disjunction => exact hdisjunction
  | conjunction => exact hconjunction
  | inversion => exact hinversion
  | comparison => exact hcomparison
  | sum => exact hsum
  | term => exact hterm
  | factor => exact hfactor
  | power => exact hpower
  | primary => exact hprimary

/-- What opens an atom opens every rule that begins with an expression. -/
theorem opens_expression (h : atom.Opens token input)
    (hsign : (Pattern.rule .unaryOp).Misses input) (hnot : (Pattern.rule .kwNot).Misses input) :
    ∀ rule ∈ expressionRules, (Pattern.rule rule).Opens token input := by
  have hlevel := opens_level h hsign hnot
  have hlist : (Pattern.rule .expressionList).Opens token input :=
    Opens.rule rfl rfl (Opens.seq (hlevel .conditional)
      ((always_many (by decide +kernel)).seq (always_opt (by decide +kernel))))
  have htarget : (Pattern.rule .target).Opens token input := Opens.rule rfl rfl (hlevel .primary)
  have htargets : (Pattern.rule .targetList).Opens token input :=
    Opens.rule rfl rfl (Opens.seq htarget
      ((always_many (by decide +kernel)).seq (always_opt (by decide +kernel))))
  intro rule hrule
  rcases List.mem_append.mp hrule with hrule | hrule
  · obtain ⟨level, -, rfl⟩ := List.mem_map.mp hrule
    exact hlevel level
  · simp only [List.mem_cons, List.not_mem_nil, or_false] at hrule
    rcases hrule with rfl | rfl | rfl | rfl
    · exact hlist
    · exact htarget
    · exact htargets
    · exact Opens.rule rfl rfl hlist

end

/-- A literal opens every rule that begins with an expression. -/
theorem StringLiteral.opens (literal : StringLiteral) (after : List Char) :
    ∀ rule ∈ expressionRules, (Pattern.rule rule).Opens
      (fun place => .mk .string place (literal.text.foldl Place.after place) literal.text [])
      (literal.text ++ after) := by
  have hquote : (∀ q ∈ atomParts.take 5 ++ [.rule .unaryOp, .rule .kwNot],
      q.refuses 40 ⟨[literal.quote.char], false⟩ = true) ∧
      (Outlook.mk [literal.quote.char] false).blank = false := by
    cases literal.quote <;> decide
  have hmisses : ∀ q ∈ atomParts.take 5 ++ [.rule .unaryOp, .rule .kwNot],
      q.Misses (literal.text ++ after) := misses_of_first hquote.1 hquote.2
  have hatom : atom.Opens _ (literal.text ++ after) :=
    Opens.firstOf (atomParts.take 5) (atomParts.drop 6)
      (fun q hq => hmisses q (List.mem_append_left _ hq)) (Spells.opens rfl rfl literal.spells)
  exact opens_expression hatom (hmisses _ (by decide)) (hmisses _ (by decide))

/-! ### Every string has a literal -/

/-- A character as it is written between the quotes. -/
def Quote.encode (quote : Quote) (c : Char) : List Char :=
  if c = '\\' then ['\\', '\\']
  else if c = quote.char then ['\\', quote.char]
  else if c = '\n' then ['\\', 'n']
  else if c = '\r' then ['\\', 'r']
  else [c]

/-- The literal of a string. -/
def Quote.literal (quote : Quote) (value : String) : List Char :=
  quote.char :: (value.toList.flatMap quote.encode ++ [quote.char])

/-- The escape of the quote itself. -/
def Quote.escape : Quote → Escape
  | .double => .quotation
  | .single => .apostrophe

theorem Quote.escape_letter (quote : Quote) : quote.escape.letter = quote.char := by
  cases quote <;> rfl

/-- The escape for a quote stands for the quote. -/
theorem Quote.escape_char (quote : Quote) : quote.escape.char = quote.char := by
  cases quote <;> rfl

/-- Every character is written as some piece that stands for it. -/
theorem Quote.exists_piece (quote : Quote) (c : Char) :
    ∃ piece : StringPiece, piece.text = quote.encode c ∧ piece.value = [c] ∧ piece.Fits quote := by
  unfold Quote.encode
  split
  next h => exact ⟨.escape .backslash, rfl, by rw [h]; rfl, trivial⟩
  next hslash =>
  split
  next h =>
    refine ⟨.escape quote.escape, ?_, ?_, trivial⟩
    · rw [StringPiece.text, quote.escape_letter]
    · rw [StringPiece.value, quote.escape_char, h]
  next hquote =>
  split
  next h => exact ⟨.escape .lineFeed, rfl, by rw [h]; rfl, trivial⟩
  next hline =>
  split
  next h => exact ⟨.escape .carriageReturn, rfl, by rw [h]; rfl, trivial⟩
  next hreturn => exact ⟨.plain c, rfl, rfl, hquote, hslash, hline, hreturn⟩

/-- Every text can be written in pieces between two quotes. -/
theorem Quote.exists_pieces (quote : Quote) (chars : List Char) :
    ∃ pieces : List StringPiece, pieces.flatMap StringPiece.text = chars.flatMap quote.encode ∧
      pieces.flatMap StringPiece.value = chars ∧ ∀ piece ∈ pieces, piece.Fits quote := by
  induction chars with
  | nil => exact ⟨[], rfl, rfl, List.forall_mem_nil _⟩
  | cons c chars ih =>
      obtain ⟨piece, htext, hvalue, hfits⟩ := quote.exists_piece c
      obtain ⟨pieces, htexts, hvalues, hall⟩ := ih
      refine ⟨piece :: pieces, ?_, ?_, List.forall_mem_cons.mpr ⟨hfits, hall⟩⟩
      · rw [List.flatMap_cons, List.flatMap_cons, htext, htexts]
      · rw [List.flatMap_cons, hvalue, hvalues, List.singleton_append]

/-- The literal of a string is a string literal with this value. -/
theorem Quote.exists_literal (quote : Quote) (value : String) :
    ∃ literal : StringLiteral, literal.text = quote.literal value ∧ literal.value = value := by
  obtain ⟨pieces, htext, hvalue, hfits⟩ := quote.exists_pieces value.toList
  refine ⟨⟨quote, pieces, hfits⟩, ?_, ?_⟩
  · rw [StringLiteral.text, htext, Quote.literal]
  · rw [StringLiteral.value, hvalue, String.ofList_toList]

open Reading in
/-- **String literals stand for the strings they are made of.**  The literal of a
string is read as one token, with the text of the literal, by every rule that begins
with an expression, wherever that rule is tried and whatever comes behind.  The token
is read as a constant that holds the string, and where the expression stops behind
it, so is the whole expression.  In every literal that is accepted, the stretches
that the decoder resolves are those that the grammar takes. -/
theorem literal_read (file : String) (quote : Quote) (value : String) :
    (∀ rule ∈ expressionRules, ∀ (s : State) (after : List Char),
      s.rest = quote.literal value ++ after →
      ∃ t phrase, (Pattern.rule rule).Matches .loose s t ∧ t.phrases = phrase :: s.phrases ∧
        phrase.rule = rule ∧
        (Phrase.mk .string s.place ((quote.literal value).foldl Place.after s.place)
          (quote.literal value) []).Leads phrase) ∧
    (∀ start stop counter,
      (expression file (.mk .string start stop (quote.literal value) [])).runFrom counter =
        (.ok (.node (placedHead file counter .constant start stop)
          [("value", .str value), ("kind", .absent)]), counter + 1)) ∧
    (∀ level rest, Stops level rest →
      (Pattern.rule level.rule).Takes (quote.literal value ++ rest) rest
        (Shows file level.rule (constantForm (.str value)))) ∧
    ∀ spacing s t, (Pattern.rule .string).Matches spacing s t →
      ∃ quote body, ReadInPairs quote body s t := by
  obtain ⟨literal, htext, hvalue⟩ := quote.exists_literal value
  rw [← htext]
  refine ⟨fun rule hrule s after hs => ?_, fun start stop counter => ?_, fun level rest hstops => ?_,
    fun _ _ _ h => readInPairs_of_matches h⟩
  · have hrules : ∀ rule ∈ expressionRules,
        rule.visible .loose = true ∧ rule.definition.kept = true := by decide
    obtain ⟨hvisible, hkept⟩ := hrules rule hrule
    exact (literal.opens after rule hrule).exists_phrase hvisible hkept hs
  · have hread : stringValue literal.text = value := literal.stringValue_text.trans hvalue
    rw [← hread]
    rfl
  · have hle : ∀ level, level ≤ Level.primary := by
      intro level
      cases level <;> decide
    have hreads := Grouped.reads file (.string literal) (hle level) rest hstops
    rwa [tree, hvalue] at hreads

/-- A string with both quotes, a backslash and both ends of a line, as the left side
of a sum. -/
theorem literal_read_in_sum :
    Quote.single.literal "it's\\\n\r\"é\"" = "'it\\'s\\\\\\n\\r\"é\"'".toList ∧
    (∃ t phrase, (Pattern.rule .sum).Matches .loose
        (.ofText (Quote.single.literal "it's\\\n\r\"é\"" ++ " + x".toList)) t ∧
      t.phrases = [phrase] ∧
      (Phrase.mk .string .origin
        ((Quote.single.literal "it's\\\n\r\"é\"").foldl Place.after .origin)
        (Quote.single.literal "it's\\\n\r\"é\"") []).Leads phrase) ∧
    (Pattern.rule .expression).Takes (Quote.single.literal "it's\\\n\r\"é\"" ++ []) []
      (Shows "m" .expression (Reading.constantForm (.str "it's\\\n\r\"é\""))) ∧
    ∃ s t, (Pattern.rule .string).Matches .loose s t ∧ ∃ quote body, ReadInPairs quote body s t := by
  obtain ⟨hopens, -, hreads, hpairs⟩ := literal_read "m" .single "it's\\\n\r\"é\""
  obtain ⟨t, phrase, ht, hphrases, -, hleads⟩ := hopens .sum (by decide) (.ofText _) _ rfl
  have hstring : (Pattern.rule .string).Matches .loose (.ofText "''".toList) _ := ⟨40, rfl⟩
  exact ⟨by decide, ⟨t, phrase, ht, hphrases, hleads⟩, hreads .conditional [] stops_nil,
    _, _, hstring, hpairs _ _ _ hstring⟩

end Printing

end FunctionIR
