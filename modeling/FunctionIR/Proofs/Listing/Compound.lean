import FunctionIR.Proofs.Listing.Block
import FunctionIR.Proofs.Printing.Target

/-!
# Conditionals and loops

A statement with a body is laid out if its body is, and what comes after it.
The conditional, its `elif` and the loop with a condition differ in their
words only (`lays_tested`).
-/

namespace FunctionIR.Listing

open Grammar Grammar.Pattern Printing Reading

variable {file : String} {n : Nat} {margin : List (List Char)} {rest follow : List Char}

/-- The kinds of statements, in the order in which they are tried. -/
def statementParts : List Pattern := [
  .rule .decorated, .rule .functionDef, .rule .ifStatement, .rule .whileStatement,
  .rule .forStatement, .rule .simpleStatements]

/-- **A kind of statement is reached** if those before it are refused. -/
theorem lays_statement (word : List Char) {more : List Char} {form : Value} (i : Nat)
    (hi : i < statementParts.length)
    (hrefuses : ∀ q ∈ statementParts.take i, q.refuses 32 ⟨word, false⟩ = true)
    (hblank : (Outlook.mk word false).blank = false)
    (h : Lays .loose margin margin statementParts[i] (word ++ more) rest
      (IsStatement file form)) :
    Lays .tight margin margin (.rule .statement) (word ++ more) rest
      (IsStatement file form) := by
  have hbefore : ∀ q ∈ statementParts.take i, Avoids .loose margin q (word ++ more) :=
    fun q hq => avoids_of_refuses _ (hrefuses q hq) hblank (Outlook.sees_append _ _) _ _
  have hpattern : Lays .loose margin margin Rule.statement.definition.pattern (word ++ more) rest
      (IsStatement file form) := Lays.nth _ i hi hbefore h
  refine (Lays.rule rfl rfl hpattern).mono ?_
  rintro phrases ⟨start, stop, text, parts, rfl, phrase, rfl, hphrase⟩
  exact ⟨_, rfl, holds_statement hphrase⟩

/-- No separator comes before a line that dedents. -/
theorem Dedents.misses {word : String} {c : Char} {chars : List Char} (h : Dedents n rest)
    (hword : word.toList = c :: chars) (hc : c ≠ '\n') : (lit word).Misses rest := by
  refine misses_lit hword ?_
  cases h with
  | finish => nofun
  | newline | line =>
      rintro d _ ⟨⟩
      exact hc.symm

/-- No word goes on where the text dedents. -/
theorem Dedents.bounded (h : Dedents n rest) : Bounded rest := by
  cases h with
  | finish => nofun
  | newline | line =>
      rintro c _ ⟨⟩
      decide

/-- **A line with `pass`.** -/
theorem laid_pass : Listing.pass.Laid file := by
  intro n margin rest hmargin hrest
  have hdedents := hrest.dedents
  have hword : (Pattern.rule .passStatement).Takes ("pass".toList ++ rest) rest
      (Leaf .passStatement "pass".toList) := takes_word _ rfl hdedents.bounded
  have hstatement : simpleStatement.Takes ("pass".toList ++ rest) rest _ := hword.choice
  have hmore : (parts [lit ";", simpleStatement]).Misses (clear rest) := by
    rw [hdedents.clear_eq]
    exact (hdedents.misses rfl (by decide)).seq
  have hlast : (lit ";").Misses (clear (clear rest)) := by
    rw [clear_clear, hdedents.clear_eq]
    exact hdedents.misses rfl (by decide)
  have hend := (hmore.many.seq hlast.opt).mono fun _ h => Both.of_nothing h
  have hline := Takes.rule (r := .simpleStatements) rfl rfl (hstatement.seq hend.of_clear.of_clear)
  refine lays_statement "pass".toList 5 (by decide) (by decide) (by decide)
    ((hline.lays hdedents.clear_eq margin).mono ?_)
  rintro phrases ⟨start, stop, text, parts, rfl, hparts⟩
  obtain ⟨start', stop', rfl⟩ := Both.to_nothing hparts
  exact ⟨_, rfl, holds_simple gives_pass⟩

/-! ### Statements with a condition -/

/-- The phrases of a condition, a body and what comes after it. -/
abbrev Tested (file : String) (test : Printing) (body : Body) (found : List Phrase → Prop) :
    List Phrase → Prop :=
  Both (Shows file .expression test.tree) (Both (IsBlock file body.trees) found)

/-- **A word, a condition and a body.** -/
theorem lays_tested (r kw : Rule) (word : String) (test : Printing.Whole) (spacing : Spacing)
    {q : Pattern} {body : Body} {found : List Phrase → Prop}
    (hr : r.definition = loose (parts [.rule kw, .rule .expression, lit ":", suite, q]))
    (hkw : kw.definition = (Grammar.word word).mute) (hbody : body.Laid file)
    (hmargin : margin.flatten = spaces n) (hfollow : Dedents n follow)
    (hq : Lays .loose margin margin q follow rest found) :
    Lays spacing margin margin (.rule r)
      (word.toList ++ ' ' :: (test.val.text ++ ':' :: (body.text n ++ follow))) rest
      (Phrased r (Tested file test.val body found)) := by
  have hword : (Pattern.rule kw).Takes
      (word.toList ++ ' ' :: (test.val.text ++ ':' :: (body.text n ++ follow)))
      (' ' :: (test.val.text ++ ':' :: (body.text n ++ follow))) Nothing :=
    takes_mute_word _ hkw (apart_space _).bounded
  have hcolon := hbody.colon_seq hmargin hfollow hq
  rw [← clear_colon] at hcolon
  have hreads := test.property.reads file (Level.conditional_le _)
  have htest := (hreads _ (stops_colon (body.text n ++ follow))).seq_lays hcolon
  rw [← test.property.clear_text, ← clear_space] at htest
  have hpattern := (hword.seq_lays htest).mono fun _ h => Both.of_nothing h
  have hinside : r.inside spacing = .loose := by rw [Rule.inside, hr]; rfl
  refine Lays.rule (by rw [Rule.visible, hinside]; rfl) (by rw [hr]; rfl) ?_
  rw [hinside, hr]
  exact hpattern

/-- A branch is laid out if its body and its other branches are. -/
theorem laid_branch {test : Printing.Whole} {body : Body} {orelse : Otherwise}
    (hbody : body.Laid file) (horelse : orelse.Laid file) :
    (Listing.branch test body orelse).Laid file := by
  intro n margin rest hmargin hrest
  have h := lays_tested .ifStatement .kwIf "if" test .loose rfl rfl hbody hmargin
    (hrest.otherwise orelse)
    (horelse n margin rest hmargin hrest)
  have htext : (Listing.branch test body orelse).text n ++ rest = "if ".toList ++
      (test.val.text ++ ':' :: (body.text n ++ (orelse.text n ++ rest))) := by
    simp
  rw [htext]
  refine lays_statement _ 2 (by decide) (by decide) (by decide) (h.mono ?_)
  rintro phrases ⟨start, stop, text, parts, rfl, _, _, rfl, ⟨test', rfl, -, htest⟩,
    _, orelse', rfl, ⟨body', rfl, -, hbody⟩, horelse⟩
  exact ⟨_, rfl, holds_branch (.inl rfl) htest hbody horelse⟩

/-- An `elif` goes on with the conditional before it. -/
theorem laid_otherwise_branch {test : Printing.Whole} {body : Body} {orelse : Otherwise}
    (hbody : body.Laid file) (horelse : orelse.Laid file) :
    (Otherwise.branch test body orelse).Laid file := by
  intro n margin rest hmargin hrest
  have h := lays_tested .elifClause .kwElif "elif" test .tight rfl rfl hbody hmargin
    (hrest.otherwise orelse)
    (horelse n margin rest hmargin hrest)
  have hline := lays_marginLine hmargin (line_else n _) (h.choice (q := .rule .elseBlock))
  have htext : (Otherwise.branch test body orelse).text n ++ rest = '\n' :: (spaces n ++
      ("elif".toList ++ ' ' ::
        (test.val.text ++ ':' :: (body.text n ++ (orelse.text n ++ rest))))) := by
    simp
  rw [htext]
  refine (Lays.rule (r := .elseClause) rfl rfl hline).opt.mono ?_
  rintro phrases ⟨start, stop, text, parts, rfl, start', stop', text', parts', rfl, _, _, rfl,
    ⟨test', rfl, -, htest⟩, _, orelse', rfl, ⟨body', rfl, -, hbody⟩, horelse⟩
  exact IsClause.holdAll ⟨_, rfl, holds_elseClause (holds_branch (.inr rfl) htest hbody horelse)⟩

/-- A `while` loop is laid out if its body and its `else` are. -/
theorem laid_whileLoop {test : Printing.Whole} {body : Body} {orelse : LoopElse}
    (hbody : body.Laid file) (horelse : orelse.Laid file) :
    (Listing.whileLoop test body orelse).Laid file := by
  intro n margin rest hmargin hrest
  have h := lays_tested .whileStatement .kwWhile "while" test .loose rfl rfl hbody hmargin
    (hrest.loopElse orelse)
    (horelse n margin rest hmargin hrest)
  have htext : (Listing.whileLoop test body orelse).text n ++ rest = "while ".toList ++
      (test.val.text ++ ':' :: (body.text n ++ (orelse.text n ++ rest))) := by
    simp
  rw [htext]
  refine lays_statement _ 3 (by decide) (by decide) (by decide) (h.mono ?_)
  rintro phrases ⟨start, stop, text, parts, rfl, _, _, rfl, ⟨test', rfl, -, htest⟩,
    _, orelse', rfl, ⟨body', rfl, -, hbody⟩, horelse⟩
  exact ⟨_, rfl, holds_while htest hbody horelse⟩

/-! ### Loops over items -/

/-- The word `in` behind its blank. -/
theorem clear_in (more : List Char) : clear (' ' :: ("in".toList ++ more)) = "in".toList ++ more :=
  clear_compare .member more

/-- A name ends before the word `in`. -/
theorem takes_loopTarget (file : String) (target : Identifier) (more : List Char) :
    (Pattern.rule .targetList).Takes (target.text ++ ' ' :: ("in".toList ++ more))
      (' ' :: ("in".toList ++ more)) (Shows file .targetList (nameForm target.text .load)) := by
  refine target.takes_target ((stops_compare .member more).mono (by decide)) ?_
  rw [clear_in]
  exact misses_lit rfl (by rintro c _ ⟨⟩; decide)

/-- **A loop over items.** -/
theorem laid_forLoop {target : Identifier} {iter : Printing.Whole} {body : Body}
    {orelse : LoopElse} (hbody : body.Laid file) (horelse : orelse.Laid file) :
    (Listing.forLoop target iter body orelse).Laid file := by
  intro n margin rest hmargin hrest
  generalize hfollow : body.text n ++ (orelse.text n ++ rest) = follow
  have hcolon := hbody.colon_seq hmargin (hrest.loopElse orelse)
    (horelse n margin rest hmargin hrest)
  rw [hfollow, ← clear_colon] at hcolon
  have hcomma : (lit ",").Misses (clear (':' :: follow)) := by
    rw [clear_colon]
    exact misses_lit rfl (by rintro c _ ⟨⟩; decide)
  have hiter := (takes_single (iter.property.reads file (Level.conditional_le _))
    (stops_colon follow) hcomma).seq_lays hcolon
  rw [← iter.property.clear_text, ← clear_space] at hiter
  have hin : (Pattern.rule .kwIn).Takes ("in".toList ++ ' ' :: (iter.val.text ++ ':' :: follow))
      (' ' :: (iter.val.text ++ ':' :: follow)) Nothing :=
    takes_mute_word _ rfl (apart_space _).bounded
  have hitems := (hin.seq_lays hiter).mono fun _ h => Both.of_nothing h
  rw [← clear_in] at hitems
  have htarget := (takes_loopTarget file target
    (' ' :: (iter.val.text ++ ':' :: follow))).seq_lays hitems
  rw [← target.clear_text, ← clear_space] at htarget
  have hfor : (Pattern.rule .kwFor).Takes ("for".toList ++ ' ' ::
      (target.text ++ ' ' :: ("in".toList ++ ' ' :: (iter.val.text ++ ':' :: follow)))) _ Nothing :=
    takes_mute_word _ rfl (apart_space _).bounded
  have hpattern := (hfor.seq_lays htarget).mono fun _ h => Both.of_nothing h
  have htext : (Listing.forLoop target iter body orelse).text n ++ rest = "for ".toList ++
      (target.text ++ ' ' :: ("in".toList ++ ' ' :: (iter.val.text ++ ':' :: follow))) := by
    simp [← hfollow]
  rw [htext]
  refine lays_statement _ 4 (by decide) (by decide) (by decide)
    ((Lays.rule (r := .forStatement) rfl rfl hpattern).mono ?_)
  rintro phrases ⟨start, stop, text, parts, rfl, _, _, rfl, ⟨target', rfl, -, htarget⟩,
    _, _, rfl, ⟨iter', rfl, -, hiter⟩, _, orelse', rfl, ⟨body', rfl, -, hbody⟩, horelse⟩
  exact ⟨_, rfl, holds_for htarget hiter hbody horelse⟩

end FunctionIR.Listing
