import FunctionIR.Proofs.Listing.Module
import FunctionIR.Proofs.Listing.Statement

/-!
# Blocks of lines

What comes after a statement decides where it ends.  A text **closes** an
indentation (`Closes`) if it dedents to it and no `else` or `elif` comes next
at just this indentation: such a word would be taken for a part of the
statement.  A body needs less, because its own indentation is wider: whatever
dedents to the surroundings closes it (`Dedents.closes`).

From this a body is laid out if its statements are (`laid_body`), and so is
what comes after the word `else`.
-/

namespace FunctionIR.Listing

open Grammar Grammar.Pattern Reading

variable {file : String} {n m : Nat} {margin : List (List Char)} {rest : List Char}

/-- The words that go on with a statement on a line of their own. -/
def continuations : List Rule := [.kwElif, .kwElse]

/-- The text dedents, and no word at the indentation goes on with a statement. -/
structure Closes (n : Nat) (rest : List Char) : Prop where
  dedents : Dedents n rest
  misses : ∀ line, rest = '\n' :: (spaces n ++ line) →
    ∀ r ∈ continuations, (Pattern.rule r).Misses line

/-- **What ends the surroundings closes what is inside.** -/
theorem Dedents.closes (h : Dedents n rest) (hlt : n < m) : Closes m rest := by
  have hnone : ∀ line, rest ≠ '\n' :: (spaces m ++ line) := by
    intro line heq
    obtain ⟨d, rfl⟩ : ∃ d, m = d + 1 := ⟨m - 1, by omega⟩
    cases h with
    | finish => cases heq
    | newline => simp [spaces, List.replicate_succ] at heq
    | line hk hc more =>
        exact not_prefix_spaces (n := d + 1) (by omega) hc ⟨line, (List.cons.inj heq).2.symm⟩
  exact ⟨h.mono (Nat.le_of_lt hlt), fun line heq => absurd heq (hnone line)⟩

/-- The end of the text closes the outermost statements. -/
theorem closes_last (h : Last rest) : Closes 0 rest := by
  rcases h with rfl | rfl
  · exact ⟨.finish, nofun⟩
  · refine ⟨.newline, ?_⟩
    rintro line heq r hr
    cases heq
    have hrefuses : ∀ r ∈ continuations, (Pattern.rule r).refuses 16 ⟨[], true⟩ = true := by
      decide
    exact misses_of_refuses _ (hrefuses r hr) (by decide) ⟨[], rfl, fun _ => rfl⟩

/-! ### How statements begin -/

/-- The words that a statement can begin with. -/
def openings : List String := ["pass", "if ", "while ", "for ", "@", "def "]

/-- A statement begins with one of the words. -/
theorem text_opens (l : Listing) (n : Nat) :
    ∃ word ∈ openings, ∃ more, l.text n = word.toList ++ more := by
  cases l with
  | pass => exact ⟨"pass", by decide, [], rfl⟩
  | branch => exact ⟨"if ", by decide, _, rfl⟩
  | whileLoop => exact ⟨"while ", by decide, _, rfl⟩
  | forLoop => exact ⟨"for ", by decide, _, rfl⟩
  | function decorators =>
      cases decorators with
      | nil => exact ⟨"def ", by decide, _, rfl⟩
      | cons => exact ⟨"@", by decide, _, rfl⟩

/-- A statement begins with a character that statements begin with. -/
theorem text_begins (l : Listing) (n : Nat) :
    ∃ c chars, l.text n = c :: chars ∧ Begins c := by
  obtain ⟨word, hword, more, htext⟩ := l.text_opens n
  have hbegins : ∃ c chars, word.toList = c :: chars ∧ Begins c := by
    simp only [openings, List.mem_cons, List.not_mem_nil, or_false] at hword
    rcases hword with rfl | rfl | rfl | rfl | rfl | rfl <;>
      exact ⟨_, _, rfl, by decide, by decide⟩
  obtain ⟨c, chars, hchars, hc⟩ := hbegins
  exact ⟨c, chars ++ more, by rw [htext, hchars]; rfl, hc⟩

/-- No statement begins with `elif` or `else`. -/
theorem text_misses (l : Listing) (n : Nat) (follow : List Char) :
    ∀ r ∈ continuations, (Pattern.rule r).Misses (l.text n ++ follow) := by
  intro r hr
  obtain ⟨word, hword, more, htext⟩ := l.text_opens n
  have hrefuses : ∀ word ∈ openings, ∀ r ∈ continuations,
      (Pattern.rule r).refuses 16 ⟨word.toList, false⟩ = true ∧
        (Outlook.mk word.toList false).blank = false := by decide
  obtain ⟨hrefuses, hblank⟩ := hrefuses word hword r hr
  rw [htext, List.append_assoc]
  exact misses_of_refuses _ hrefuses hblank (Outlook.sees_append _ _)

/-- A further statement at the same indentation closes the one before it. -/
theorem closes_next (l : Listing) (n : Nat) (follow : List Char) :
    Closes n ('\n' :: (spaces n ++ (l.text n ++ follow))) := by
  obtain ⟨c, chars, htext, hc⟩ := l.text_begins n
  refine ⟨?_, ?_⟩
  · rw [htext]
    exact .line (Nat.le_refl n) hc _
  · intro line heq
    simp only [List.cons.injEq, List.append_cancel_left_eq, true_and] at heq
    rw [← heq]
    exact l.text_misses n follow

/-! ### Bodies -/

/-- The statement is laid out where its indentation is closed after it. -/
def Laid (file : String) (l : Listing) : Prop :=
  ∀ n margin rest, margin.flatten = spaces n → Closes n rest →
    Lays .tight margin margin (.rule .statement) (l.text n ++ rest) rest
      (IsStatement file l.tree)

/-- The body is laid out where the text dedents after it. -/
def Body.Laid (file : String) (b : Body) : Prop :=
  ∀ n margin rest, margin.flatten = spaces n → Dedents n rest →
    Lays .loose margin margin suite (b.text n ++ rest) rest (IsBlock file b.trees)

/-- Blanks make a body deeper. -/
theorem lays_indentation (margin : List (List Char)) (extra : Nat) {tail : List Char}
    (h : ∀ c more, tail = c :: more → CharClass.blank.holds c = false) :
    Lays .tight margin (spaces (extra + 1) :: margin) (.indent indentation)
      (spaces (extra + 1) ++ tail) tail Nothing := by
  have hspells : indentation.Spells (spaces (extra + 1)) tail := by
    have hmany := spells_many_one (spaces_blank extra) h
    have hone : (Pattern.one .blank).Spells [' '] (spaces extra ++ tail) := spells_one rfl
    exact hone.seq hmany
  exact lays_indent fun s hs => hspells.tight (by decide) hs

/-- The trees of further lines, line by line. -/
theorem linesTrees_eq_map (more : List Listing) : linesTrees more = more.map tree := by
  induction more with
  | nil => rfl
  | cons next more ih =>
      rw [List.map_cons, ← ih]
      rfl

/-- A line at the margin is avoided with what would be on it. -/
theorem avoids_marginLine {p : Pattern} {line : List Char} (hmargin : margin.flatten = spaces n)
    (hline : Line (spaces n ++ line)) (hp : Avoids .tight margin p line) :
    Avoids .tight margin (parts [lineBreak, .margin, p]) ('\n' :: (spaces n ++ line)) := by
  rw [← hmargin] at hline ⊢
  exact (lays_lineBreak hline).seq_avoids (lays_margin.seq_avoids hp)

/-- The text of a further line at the indentation. -/
def lineText (n : Nat) (l : Listing) : List Char := '\n' :: (spaces n ++ l.text n)

/-- The text of further lines, line by line. -/
theorem linesText_eq (n : Nat) (more : List Listing) :
    linesText n more = more.flatMap (lineText n) := linesText_eq_flatMap n more

/-- A line at the margin. -/
theorem lays_marginLine {p : Pattern} {line : List Char} {found : List Phrase → Prop}
    (hmargin : margin.flatten = spaces n) (hline : Line (spaces n ++ line))
    (hp : Lays .tight margin margin p line rest found) :
    Lays .tight margin margin (parts [lineBreak, .margin, p]) ('\n' :: (spaces n ++ line)) rest
      found := by
  have hmargins : Lays .tight margin margin .margin (spaces n ++ line) line Nothing := by
    rw [← hmargin]
    exact lays_margin
  exact ((lays_lineBreak hline).seq (hmargins.seq hp)).mono
    fun _ h => Both.of_nothing (Both.of_nothing h)

/-- A line at the margin is laid out if its statement is. -/
theorem Laid.line {l : Listing} (h : l.Laid file) (hmargin : margin.flatten = spaces n)
    (hrest : Closes n rest) :
    Lays .tight margin margin (parts [lineBreak, .margin, .rule .statement])
      (lineText n l ++ rest) rest (IsStatement file l.tree) := by
  obtain ⟨c, chars, htext, hc⟩ := l.text_begins n
  have hline : Line (spaces n ++ (l.text n ++ rest)) :=
    .inr ⟨n, c, chars ++ rest, by rw [htext]; rfl, hc⟩
  have htext : lineText n l ++ rest = '\n' :: (spaces n ++ (l.text n ++ rest)) := by
    simp [lineText]
  rw [htext]
  exact lays_marginLine hmargin hline (h n margin rest hmargin hrest)

/-- A further line at the indentation closes the statement before it. -/
theorem closes_line (l : Listing) (n : Nat) (follow : List Char) :
    Closes n (lineText n l ++ follow) := by
  have h := l.closes_next n follow
  rwa [← List.append_assoc, ← List.cons_append] at h

/-- **A body is laid out** if its statements are. -/
theorem laid_body {extra : Nat} {first : Listing} {more : List Listing}
    (h : ∀ l ∈ first :: more, l.Laid file) : (Body.mk extra first more).Laid file := by
  intro n margin rest hmargin hrest
  -- `m` is the width of the lines in the body, and of the margin inside of it
  generalize hm : n + extra + 1 = m
  have hwidth : spaces m = margin.flatten ++ spaces (extra + 1) := by
    rw [hmargin, spaces_append, ← hm, Nat.add_assoc]
  have hinner : (spaces (extra + 1) :: margin).flatten = spaces m := by
    rw [List.flatten_cons, hmargin, spaces_append, ← hm]
    congr 1
    omega
  have hmore := lays_many (hrest.closes (m := m) (by omega))
    (fun l _ => l.closes_line m)
    (fun l hl follow => (h l (List.mem_cons_of_mem first hl)).line hinner)
    (hrest.avoids_line (p := .rule .statement) (by omega) hinner)
  have hfollow : Closes m (more.flatMap (lineText m) ++ rest) := by
    cases more with
    | nil => exact hrest.closes (by omega)
    | cons next more =>
        rw [List.flatMap_cons, List.append_assoc]
        exact next.closes_line m _
  have hfirst := h first (by simp) m _ _ hinner hfollow
  obtain ⟨c, chars, hbegins, hc⟩ := first.text_begins m
  generalize hlines : more.flatMap (lineText m) ++ rest = follow at hmore hfirst
  have hdeep : ∀ d more, first.text m ++ follow = d :: more → CharClass.blank.holds d = false := by
    intro d _ heq
    rw [hbegins] at heq
    cases heq
    exact hc.blank
  have hindent := lays_indentation margin extra hdeep
  have hline : Line (margin.flatten ++ (spaces (extra + 1) ++ (first.text m ++ follow))) := by
    rw [← List.append_assoc, ← hwidth, hbegins]
    exact .inr ⟨m, c, chars ++ follow, rfl, hc⟩
  have hblock := (lays_lineBreak hline).seq (lays_margin.seq (hindent.seq
    (hfirst.seq (hmore.seq lays_outdent))))
  have htext : (Body.mk extra first more).text n ++ rest =
      '\n' :: (margin.flatten ++ (spaces (extra + 1) ++ (first.text m ++ follow))) := by
    rw [← List.append_assoc margin.flatten, ← hwidth, ← hlines, ← linesText_eq]
    simp [hm]
  rw [htext]
  refine ((Lays.rule (r := .block) rfl rfl hblock).mono ?_).choice
  rintro phrases ⟨start, stop, text, parts, rfl, hparts⟩
  obtain ⟨before, after, rfl, ⟨phrase, rfl, hphrase⟩, hafter⟩ :=
    Both.of_nothing (Both.of_nothing (Both.of_nothing hparts))
  refine ⟨_, rfl, rfl, holds_block ?_⟩
  have hmore := holdAll_each (Both.to_nothing hafter)
  rw [← linesTrees_eq_map] at hmore
  exact HoldAll.cons hphrase hmore

/-! ### What comes after the word `else` -/

/-- No blanks come before a body. -/
theorem Body.clear_text (b : Body) (n : Nat) (follow : List Char) :
    clear (b.text n ++ follow) = b.text n ++ follow := by
  cases b
  exact clear_cons (by decide) (by decide) (by decide) _

/-- A colon and a body, and what comes after them. -/
theorem Body.Laid.colon_seq {b : Body} {q : Pattern} {follow : List Char}
    {found : List Phrase → Prop} (h : b.Laid file) (hmargin : margin.flatten = spaces n)
    (hfollow : Dedents n follow) (hq : Lays .loose margin margin q follow rest found) :
    Lays .loose margin margin (parts [lit ":", suite, q]) (':' :: (b.text n ++ follow)) rest
      (Both (IsBlock file b.trees) found) := by
  have hcolon : Lays .loose margin margin (lit ":") (':' :: (b.text n ++ follow))
      (b.text n ++ follow) Nothing := lays_text ":".toList
  rw [← hfollow.clear_eq] at hq
  have hbody := (h n margin follow hmargin hfollow).seq hq
  rw [← b.clear_text n follow] at hbody
  exact (hcolon.seq hbody).mono fun _ h => Both.of_nothing h

/-- A body that is laid out is laid out behind its colon. -/
theorem Body.Laid.colon {b : Body} (h : b.Laid file) (hmargin : margin.flatten = spaces n)
    (hrest : Dedents n rest) :
    Lays .loose margin margin (parts [lit ":", suite]) (':' :: (b.text n ++ rest)) rest
      (IsBlock file b.trees) := by
  have hbody := h n margin rest hmargin hrest
  rw [← b.clear_text n rest] at hbody
  have hcolon : Lays .loose margin margin (lit ":") (':' :: (b.text n ++ rest))
      (b.text n ++ rest) Nothing := lays_text ":".toList
  exact (hcolon.seq hbody).mono fun _ h => Both.of_nothing h

theorem clear_colon (more : List Char) : clear (':' :: more) = ':' :: more :=
  clear_cons (by decide) (by decide) (by decide) _

/-- The word `else` and a body. -/
theorem Body.Laid.elseBlock {b : Body} (h : b.Laid file) (hmargin : margin.flatten = spaces n)
    (hrest : Dedents n rest) :
    Lays .tight margin margin (.rule .elseBlock) ("else:".toList ++ (b.text n ++ rest)) rest
      (IsClause file b.trees) := by
  have hcolon := h.colon hmargin hrest
  rw [← clear_colon] at hcolon
  have hword : (Pattern.rule .kwElse).Takes ("else".toList ++ ':' :: (b.text n ++ rest))
      (':' :: (b.text n ++ rest)) Nothing := takes_mute_word _ rfl (by rintro c _ ⟨⟩; decide)
  refine (Lays.rule (r := .elseBlock) rfl rfl (hword.seq_lays hcolon)).mono ?_
  rintro phrases ⟨start, stop, text, parts, rfl, hparts⟩
  obtain ⟨phrase, rfl, -, hphrase⟩ := Both.of_nothing hparts
  exact ⟨_, rfl, holds_elseBlock hphrase⟩

/-- A line that dedents ends the text, is at the indentation, or is less deep. -/
theorem Dedents.cases (h : Dedents n rest) : rest = [] ∨
    (∃ line, rest = '\n' :: (spaces n ++ line) ∧ Line (spaces n ++ line)) ∨
    ∃ k < n, Dedents k rest := by
  cases h with
  | finish => exact .inl rfl
  | newline =>
      cases n with
      | zero => exact .inr (.inl ⟨[], rfl, .inl rfl⟩)
      | succ n => exact .inr (.inr ⟨0, by omega, .newline⟩)
  | @line k c hk hc more =>
      rcases Nat.eq_or_lt_of_le hk with rfl | hlt
      · exact .inr (.inl ⟨_, rfl, .inr ⟨_, c, more, rfl, hc⟩⟩)
      · exact .inr (.inr ⟨k, hlt, .line (Nat.le_refl k) hc more⟩)

/-- **A closed indentation** is followed by nothing that begins with `elif` or
`else` on a line at the margin. -/
theorem Closes.avoids {p : Pattern} (h : Closes n rest) (hmargin : margin.flatten = spaces n)
    (hp : ∀ line, (∀ r ∈ continuations, (Pattern.rule r).Misses line) →
      Avoids .tight margin p line) :
    Avoids .tight margin (parts [lineBreak, .margin, p]) rest := by
  rcases h.dedents.cases with rfl | ⟨line, rfl, hline⟩ | ⟨k, hlt, hdedents⟩
  · exact avoids_lineBreak.seq
  · exact avoids_marginLine hmargin hline (hp line (h.misses line rfl))
  · exact hdedents.avoids_line hlt hmargin

/-- No `else` where none of the words goes on. -/
theorem avoids_elseBlock {line : List Char}
    (h : ∀ r ∈ continuations, (Pattern.rule r).Misses line) :
    Avoids .tight margin (.rule .elseBlock) line :=
  .rule (.seq ((h .kwElse (by decide)).avoids margin))

/-- No `elif` where none of the words goes on. -/
theorem avoids_elifClause {line : List Char}
    (h : ∀ r ∈ continuations, (Pattern.rule r).Misses line) :
    Avoids .tight margin (.rule .elifClause) line :=
  .rule (.seq ((h .kwElif (by decide)).avoids margin))

/-- What comes after the body of a conditional is laid out. -/
def Otherwise.Laid (file : String) (o : Otherwise) : Prop :=
  ∀ n margin rest, margin.flatten = spaces n → Closes n rest →
    Lays .loose margin margin (.opt (.rule .elseClause)) (o.text n ++ rest) rest
      (HoldAll file · o.trees)

/-- What comes after the body of a loop is laid out. -/
def LoopElse.Laid (file : String) (o : LoopElse) : Prop :=
  ∀ n margin rest, margin.flatten = spaces n → Closes n rest →
    Lays .loose margin margin (.opt (.rule .loopElse)) (o.text n ++ rest) rest
      (HoldAll file · o.trees)

theorem laid_otherwise_nothing : Otherwise.nothing.Laid file := by
  intro n margin rest hmargin hrest
  have havoids : Avoids .loose margin (.rule .elseClause) rest :=
    .rule (hrest.avoids hmargin fun line h => (avoids_elifClause h).choice_avoids (avoids_elseBlock h))
  refine havoids.opt.mono ?_
  rintro phrases rfl
  exact holdAll_nil

theorem laid_loopElse_nothing : LoopElse.nothing.Laid file := by
  intro n margin rest hmargin hrest
  have havoids : Avoids .loose margin (.rule .loopElse) rest :=
    .rule (hrest.avoids hmargin fun line h => avoids_elseBlock h)
  refine havoids.opt.mono ?_
  rintro phrases rfl
  exact holdAll_nil

theorem line_else (n : Nat) (more : List Char) : Line (spaces n ++ 'e' :: more) :=
  .inr ⟨n, 'e', more, rfl, by decide, by decide⟩

/-- An `else` with a body is laid out if the body is. -/
theorem laid_otherwise_body {b : Body} (h : b.Laid file) : (Otherwise.body b).Laid file := by
  intro n margin rest hmargin hrest
  have helif : Avoids .tight margin (.rule .elifClause) ("else:".toList ++ (b.text n ++ rest)) :=
    avoids_of_refuses ⟨"else:".toList, false⟩ (n := 16) (by decide) (by decide)
      (Outlook.sees_append _ _) _ _
  have hblock := lays_marginLine hmargin (line_else n _)
    (helif.choice (h.elseBlock hmargin hrest.dedents))
  have htext : (Otherwise.body b).text n ++ rest =
      '\n' :: (spaces n ++ ("else:".toList ++ (b.text n ++ rest))) := by
    simp
  rw [htext]
  refine (Lays.rule (r := .elseClause) rfl rfl hblock).opt.mono ?_
  rintro phrases ⟨start, stop, text, parts, rfl, phrase, rfl, hphrase⟩
  exact IsClause.holdAll ⟨_, rfl, holds_elseClause hphrase⟩

/-- An `else` behind a loop is laid out if its body is. -/
theorem laid_loopElse_body {b : Body} (h : b.Laid file) : (LoopElse.body b).Laid file := by
  intro n margin rest hmargin hrest
  have hblock := lays_marginLine hmargin (line_else n _) (h.elseBlock hmargin hrest.dedents)
  have htext : (LoopElse.body b).text n ++ rest =
      '\n' :: (spaces n ++ ("else:".toList ++ (b.text n ++ rest))) := by
    simp
  rw [htext]
  refine (Lays.rule (r := .loopElse) rfl rfl hblock).opt.mono ?_
  rintro phrases ⟨start, stop, text, parts, rfl, phrase, rfl, hphrase⟩
  exact IsClause.holdAll ⟨_, rfl, holds_loopElse hphrase⟩

/-- What closes an indentation closes it behind an `else`, too. -/
theorem Closes.otherwise (h : Closes n rest) (o : Otherwise) : Dedents n (o.text n ++ rest) := by
  cases o with
  | nothing => exact h.dedents
  | body | branch =>
      simp only [text_otherwise_body, text_otherwise_branch, List.cons_append, List.append_assoc]
      exact .line (Nat.le_refl n) (c := 'e') ⟨by decide, by decide⟩ _

/-- What closes a loop dedents, with an `else` or without. -/
theorem Closes.loopElse (h : Closes n rest) (o : LoopElse) : Dedents n (o.text n ++ rest) := by
  cases o with
  | nothing => exact h.dedents
  | body =>
      simp only [text_loopElse_body, List.cons_append, List.append_assoc]
      exact .line (Nat.le_refl n) (c := 'e') ⟨by decide, by decide⟩ _

end FunctionIR.Listing
