import FunctionIR.Proofs.Listing.Module
import FunctionIR.Proofs.Printing.Target

/-!
# Assigned expressions

A text that assigns an expression to a name is read as a module with this
assignment, and the assigned value is the tree of the expression
(`Grouped.tree_of_assignment`).  So precedence and associativity are what the
parentheses of an expression say, and parentheses are needed only where
`Grouped` asks for them.
-/

namespace FunctionIR.Printing

open Grammar Grammar.Pattern Reading Listing

variable {file : String} {e : Printing} {tail : List Char}

/-- A text that assigns an expression to a name. -/
def assignmentText (ident : Identifier) (e : Printing) : List Char :=
  ident.text ++ ' ' :: '=' :: ' ' :: e.text

/-- Every expression ends where the text does. -/
theorem stops_last (h : Last tail) : Stops .conditional tail := by
  rcases h with rfl | rfl
  · exact stops_nil
  · exact stops_newline []

/-- No blanks come at the end of the text. -/
theorem clear_last (h : Last tail) : clear tail = tail := by
  rcases h with rfl | rfl <;> rfl

/-- Nothing else is on the line. -/
theorem misses_last {word : String} {c : Char} {chars : List Char} (h : Last tail)
    (hword : word.toList = c :: chars) (hc : c ≠ '\n') : (lit word).Misses (clear tail) := by
  rw [clear_last h]
  rcases h with rfl | rfl
  · exact misses_lit hword nofun
  · exact misses_lit hword (by rintro d _ ⟨⟩; exact hc.symm)

/-- The end of the text ends an expression. -/
theorem ends_last (h : Last tail) : Ends tail where
  stops := (stops_last h).mono (by decide)
  comma := misses_last h rfl (by decide)
  assign := by
    rw [clear_last h]
    have hsign : (lit "=").Rejects tail := by
      rcases h with rfl | rfl
      · exact rejects_lit _ rfl nofun
      · exact rejects_lit _ rfl (by rintro c _ ⟨⟩; decide)
    exact Rejects.token rfl hsign.seq

/-- A name and an equals sign. -/
theorem Identifier.takes_target_assign (ident : Identifier) (file : String) (more : List Char) :
    (parts [.rule .targetList, .rule .assignOp]).Takes
      (ident.text ++ ' ' :: '=' :: ' ' :: more) (' ' :: more)
      (Shows file .targetList (nameForm ident.text .load)) := by
  have hstops : Stops .primary (' ' :: (['='] ++ ' ' :: more)) :=
    stops_space _ _ (by decide)
  have hcomma : (lit ",").Misses (clear (' ' :: '=' :: ' ' :: more)) := by
    rw [clear_space, clear_cons (by decide) (by decide) (by decide)]
    exact misses_lit rfl (by rintro c _ ⟨⟩; decide)
  exact ((ident.takes_target hstops hcomma).seq (takes_assign more)).mono fun _ => Both.to_nothing

/-- **An assignment** has one target, and its value is the whole rest of the
line. -/
theorem Grouped.takes_assignment (h : e.Grouped) (file : String) (ident : Identifier)
    (htail : Last tail) :
    (Pattern.rule .assignment).Takes (assignmentText ident e ++ tail) tail
      (Phrased .assignment (Both (Shows file .targetList (nameForm ident.text .load))
        (Shows file .expressionList e.tree))) := by
  have hvalue : (Pattern.rule .expressionList).Takes (clear (e.text ++ tail)) tail
      (Shows file .expressionList e.tree) := by
    rw [h.clear_text]
    exact takes_single (h.reads file (by cases e.level <;> decide)) (stops_last htail)
      (misses_last htail rfl (by decide))
  have hstop : (parts [.rule .targetList, .rule .assignOp]).Misses
      (clear (' ' :: (e.text ++ tail))) := by
    rw [clear_space, h.clear_text]
    exact h.misses_target tail (ends_last htail)
  have htargets := (ident.takes_target_assign file (e.text ++ tail)).seq_many
    (Repeats.none _ _) hstop
  have htext : assignmentText ident e ++ tail =
      ident.text ++ ' ' :: '=' :: ' ' :: (e.text ++ tail) := by
    simp [assignmentText]
  rw [htext]
  rw [← clear_space] at hvalue
  refine Takes.rule rfl rfl ((htargets.seq hvalue).mono ?_)
  rintro phrases ⟨before, after, rfl, hbefore, hafter⟩
  exact ⟨before, after, rfl, Both.to_nothing hbefore, hafter⟩

/-- No word of a statement is the name that is assigned to. -/
theorem Identifier.misses_statement (ident : Identifier) (more : List Char) :
    (∀ r ∈ [Rule.passStatement, .breakStatement, .continueStatement, .returnStatement],
      (Pattern.rule r).Misses (ident.text ++ ' ' :: more)) ∧
    ∀ r ∈ [Rule.decorated, .functionDef, .ifStatement, .whileStatement, .forStatement],
      Avoids .loose [] (.rule r) (ident.text ++ ' ' :: more) := by
  have hword : ∀ {r : Rule} {word : String},
      r.definition = Grammar.word word ∨ r.definition = (Grammar.word word).mute →
      word ∈ reservedWords → (Pattern.rule r).Misses (ident.text ++ ' ' :: more) :=
    fun hr hword => ident.misses_word hr hword (apart_space more).bounded
  have hat : (lit "@").Misses (ident.text ++ ' ' :: more) := by
    obtain ⟨c, chars, htext, hc⟩ := ident.starts
    rw [htext]
    exact misses_lit rfl (by rintro d _ ⟨⟩ rfl; exact absurd hc (by decide))
  constructor
  · intro r hr
    simp only [List.mem_cons, List.not_mem_nil, or_false] at hr
    rcases hr with rfl | rfl | rfl | rfl
    · exact hword (.inl rfl) (by decide)
    · exact hword (.inl rfl) (by decide)
    · exact hword (.inl rfl) (by decide)
    · exact .rule (r := .returnStatement) rfl (hword (r := .kwReturn) (.inr rfl) (by decide)).seq
  · intro r hr
    simp only [List.mem_cons, List.not_mem_nil, or_false] at hr
    rcases hr with rfl | rfl | rfl | rfl | rfl
    · exact .rule (.seq (.rule (.seq (hat.avoids []))))
    · exact .rule (.seq ((hword (r := .kwDef) (.inr rfl) (by decide)).avoids []))
    · exact .rule (.seq ((hword (r := .kwIf) (.inr rfl) (by decide)).avoids []))
    · exact .rule (.seq ((hword (r := .kwWhile) (.inr rfl) (by decide)).avoids []))
    · exact .rule (.seq ((hword (r := .kwFor) (.inr rfl) (by decide)).avoids []))

theorem assignmentText_append (ident : Identifier) (e : Printing) (tail : List Char) :
    assignmentText ident e ++ tail = ident.text ++ ' ' :: ('=' :: ' ' :: (e.text ++ tail)) := by
  simp [assignmentText]

/-- An assignment is a line of its own. -/
theorem Grouped.takes_line (h : e.Grouped) (file : String) (ident : Identifier) (htail : Last tail) :
    (Pattern.rule .simpleStatements).Takes (assignmentText ident e ++ tail) tail
      (Phrased .simpleStatements (Phrased .assignment
        (Both (Shows file .targetList (nameForm ident.text .load))
          (Shows file .expressionList e.tree)))) := by
  have hbefore := (ident.misses_statement ('=' :: ' ' :: (e.text ++ tail))).1
  rw [← assignmentText_append] at hbefore
  have hstatement : simpleStatement.Takes _ tail _ :=
    Takes.nth _ 4 (by decide) (by
      intro q hq
      obtain ⟨r, hr, rfl⟩ : ∃ r ∈ [Rule.passStatement, .breakStatement, .continueStatement,
          .returnStatement], q = .rule r := by simpa using hq
      exact hbefore r hr) (h.takes_assignment file ident htail)
  have hmore : (parts [lit ";", simpleStatement]).Misses (clear tail) :=
    (misses_last htail rfl (by decide)).seq
  have hlast : (lit ";").Misses (clear (clear tail)) := by
    rw [clear_clear]
    exact misses_last htail rfl (by decide)
  have hrest := (hmore.many.seq hlast.opt).mono fun _ h => Both.of_nothing h
  exact Takes.rule rfl rfl ((hstatement.seq hrest.of_clear.of_clear).mono fun _ => Both.to_nothing)

/-- And a statement of a module. -/
theorem Grouped.lays_assignment (h : e.Grouped) (ident : Identifier) (htail : Last tail) :
    Lays .tight [] [] (.rule .statement) (assignmentText ident e ++ tail) tail
      (IsStatement file (assignForm (nameForm ident.text .store) e.tree)) := by
  have hbefore := (ident.misses_statement ('=' :: ' ' :: (e.text ++ tail))).2
  rw [← assignmentText_append] at hbefore
  have hline := (h.takes_line file ident htail).lays (clear_last htail) []
  have hstatement : Lays .loose [] [] Rule.statement.definition.pattern _ tail _ :=
    Lays.nth _ 5 (by decide) (by
      intro q hq
      obtain ⟨r, hr, rfl⟩ : ∃ r ∈ [Rule.decorated, .functionDef, .ifStatement, .whileStatement,
          .forStatement], q = .rule r := by simpa using hq
      exact hbefore r hr) hline
  refine (Lays.rule rfl rfl hstatement).mono ?_
  rintro phrases ⟨start, stop, text, parts, rfl, start', stop', text', parts', rfl,
    start'', stop'', text'', parts'', rfl, before, after, rfl, ⟨target, rfl, -, htarget⟩,
    ⟨value, rfl, -, hvalue⟩⟩
  exact ⟨_, rfl, holds_statement (holds_simple (gives_assignment htarget hvalue))⟩

/-- **An assigned expression is the tree that its parentheses say.** -/
theorem Grouped.tree_of_assignment (h : e.Grouped) (ident : Identifier) (htail : Last tail)
    (file : String) (counter : Nat) :
    ∃ node next, (Source.ofText file (String.ofList (assignmentText ident e ++ tail))
        .program).tree.runFrom counter = (.ok node, next) ∧
      node.toValue.form = moduleForm [assignForm (nameForm ident.text .store) e.tree] := by
  have hbegins : AllBegin (fun _ : Unit => assignmentText ident e) [()] := by
    intro item _
    obtain ⟨c, more, htext, hc⟩ := ident.starts
    refine ⟨c, more ++ ' ' :: '=' :: ' ' :: e.text, by simp [assignmentText, htext],
      begins_of_nameStart hc⟩
  have hitem : ∀ item ∈ [()], ∀ follow, Last follow →
      Lays .tight [] [] (.rule .statement) (assignmentText ident e ++ follow) follow
        (IsStatement file (assignForm (nameForm ident.text .store) e.tree)) :=
    fun _ _ follow hfollow => h.lays_assignment ident hfollow
  exact tree_of_lines htail htail hbegins nofun hitem counter

/-- Sums group to the left, and a sign binds less tightly than the power after
it but more tightly than a product. -/
theorem tree_of_assignment_signs :
    ∃ node next, (Source.ofText "signs.py" "x = x - x - - x ** ( x + x ) * x" .program).tree.runFrom 7 =
        (.ok node, next) ∧
      node.toValue.form = moduleForm [assignForm (nameForm ['x'] .store)
        (operationForm .sub (operationForm .sub (nameForm ['x'] .load) (nameForm ['x'] .load))
          (operationForm .mult
            (.plain .unaryOp [("op", .plain (.unary .minus) []), ("operand",
              operationForm .pow (nameForm ['x'] .load)
                (operationForm .add (nameForm ['x'] .load) (nameForm ['x'] .load)))])
            (nameForm ['x'] .load)))] := by
  have hx : (name .x).Grouped := .name .x
  have hsum : (binary .add (name .x) (name .x)).Grouped := .binary hx hx (by decide) (by decide)
  have hpower : (binary .pow (name .x) _).Grouped :=
    .binary hx hsum.group (by decide) (by decide)
  have hsign : (unary .minus _).Grouped := .unary hpower (by decide)
  have hproduct : (binary .mult _ (name .x)).Grouped := .binary hsign hx (by decide) (by decide)
  have hleft : (binary .sub (name .x) (name .x)).Grouped := .binary hx hx (by decide) (by decide)
  have h : (binary .sub _ _).Grouped := .binary hleft hproduct (by decide) (by decide)
  exact h.tree_of_assignment .x (.inl rfl) "signs.py" 7

end FunctionIR.Printing
