import FunctionIR.Proofs.Listing.Function

/-!
# Nesting

Every statement is laid out, by induction on listings: each kind of statement
is laid out if its bodies are, and a body is if its statements are.  So a
program text with one statement on each line is read as a module with just
this nesting (`tree_of_listing`): every statement is in the body it was listed
in, and every `elif` and `else` belongs to the statement at its own
indentation.
-/

namespace FunctionIR.Listing

open Grammar.Pattern Reading

variable {file : String} {tail : List Char}

mutual

/-- **Every statement is laid out.** -/
theorem laid (file : String) : (l : Listing) → l.Laid file
  | .pass => laid_pass
  | .branch _ body orelse => laid_branch (Body.laid file body) (Otherwise.laid file orelse)
  | .whileLoop _ body orelse => laid_whileLoop (Body.laid file body) (LoopElse.laid file orelse)
  | .forLoop _ _ body orelse => laid_forLoop (Body.laid file body) (LoopElse.laid file orelse)
  | .function _ _ _ body => laid_function (Body.laid file body)

/-- Every body is laid out, as its statements are. -/
theorem Body.laid (file : String) : (b : Body) → b.Laid file
  | .mk _ first more =>
      laid_body (List.forall_mem_cons.mpr ⟨Listing.laid file first, allLaid file more⟩)

/-- So are all of several statements. -/
theorem allLaid (file : String) : (ls : List Listing) → ∀ l ∈ ls, l.Laid file
  | [] => nofun
  | next :: more => List.forall_mem_cons.mpr ⟨Listing.laid file next, allLaid file more⟩

/-- So is whatever stands behind a branch. -/
theorem Otherwise.laid (file : String) : (o : Otherwise) → o.Laid file
  | .nothing => laid_otherwise_nothing
  | .body body => laid_otherwise_body (Body.laid file body)
  | .branch _ body orelse =>
      laid_otherwise_branch (Body.laid file body) (Otherwise.laid file orelse)

/-- So is whatever stands behind a loop. -/
theorem LoopElse.laid (file : String) : (o : LoopElse) → o.Laid file
  | .nothing => laid_loopElse_nothing
  | .body body => laid_loopElse_body (Body.laid file body)

end

/-- The text of statements at the left edge. -/
def programText (first : Listing) (more : List Listing) : List Char :=
  first.text 0 ++ linesText 0 more

/-- **Listed statements are read back with their nesting.** -/
theorem tree_of_listing (first : Listing) (more : List Listing) (htail : Last tail)
    (file : String) (counter : Nat) :
    ∃ node next, (Source.ofText file (String.ofList (programText first more ++ tail))
        .program).tree.runFrom counter = (.ok node, next) ∧
      node.toValue.form = moduleForm ((first :: more).map tree) := by
  have hitem : ∀ l ∈ first :: more, ∀ follow, Closes 0 follow →
      Lays .tight [] [] (.rule .statement) (l.text 0 ++ follow) follow
        (IsStatement file l.tree) :=
    fun l _ follow hfollow => laid file l 0 [] follow rfl hfollow
  have h := tree_of_lines htail (closes_last htail) (fun l _ => l.text_begins 0)
    (fun l _ follow => l.closes_line 0 follow) hitem counter
  have htext : programText first more ++ tail =
      first.text 0 ++ (more.flatMap (fun l => '\n' :: l.text 0) ++ tail) := by
    rw [programText, linesText_eq_flatMap, List.append_assoc]
    rfl
  rw [htext]
  exact h

/-- A loop with an `else` in the `elif` of a conditional in an `else`. -/
def nested : Listing :=
  let test : Printing.Whole := ⟨.name .x, .name .x⟩
  let loop := .whileLoop test (.mk 0 .pass []) (.body (.mk 0 .pass []))
  .branch test (.mk 1 .pass [])
    (.body (.mk 0 (.branch test (.mk 4 .pass []) (.branch test (.mk 0 loop []) .nothing)) []))

/-- Each `else` belongs to what stands above it at its own indentation: the
first to the outer conditional, the second to the loop. -/
theorem tree_of_listing_nested :
    ∃ node next, (Source.ofText "else.py"
        "if x:\n  pass\nelse:\n if x:\n      pass\n elif x:\n  while x:\n   pass\n  else:\n   pass\n"
        .program).tree.runFrom 1 = (.ok node, next) ∧
      node.toValue.form = moduleForm [
        branchForm (nameForm ['x'] .load) [.plain .passStmt []] [
          branchForm (nameForm ['x'] .load) [.plain .passStmt []] [
            branchForm (nameForm ['x'] .load) [
              .plain .whileStmt [("test", nameForm ['x'] .load),
                ("body", .list [.plain .passStmt []]),
                ("orelse", .list [.plain .passStmt []])]] []]]] := by
  have htext : String.ofList (programText nested [] ++ ['\n']) =
      "if x:\n  pass\nelse:\n if x:\n      pass\n elif x:\n  while x:\n   pass\n  else:\n   pass\n" := by
    decide
  have h := tree_of_listing nested [] (.inr rfl) "else.py" 1
  rw [htext] at h
  exact h

end FunctionIR.Listing
