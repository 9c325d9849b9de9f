import FunctionIR.Proofs.Listing.Line
import FunctionIR.Proofs.Printing.Expression
import FunctionIR.Proofs.Reading.Holds

/-!
# Statements as they are listed

A listing is a statement with everything that its lines show and its tree does
not: how far each body is indented beyond its surroundings, and whether the
conditional in an `else` is spelled as `elif`.  Its text
(`Listing.text`) has one statement on each line and every body on lines of its
own; all of it but the first line is indented, which is why the indentation is
an argument.  Its tree is a form (`Listing.tree`).

Bodies are nested in statements and statements in bodies, so a listing is
defined together with its bodies, and with what may come after the word
`else`.
-/

namespace FunctionIR

/-- An expression with parentheses wherever it needs them. -/
abbrev Printing.Whole := { e : Printing // e.Grouped }

mutual

/-- A statement as it is listed. -/
inductive Listing where
  | pass
  /-- A conditional. -/
  | branch (test : Printing.Whole) (body : Listing.Body) (orelse : Listing.Otherwise)
  | whileLoop (test : Printing.Whole) (body : Listing.Body) (orelse : Listing.LoopElse)
  | forLoop (target : Printing.Identifier) (iter : Printing.Whole) (body : Listing.Body)
    (orelse : Listing.LoopElse)
  | function (decorators : List Printing.Whole) (name : Printing.Identifier)
    (parameters : List Printing.Identifier) (body : Listing.Body)

/-- Statements that are indented by one blank and some more beyond their
surroundings. -/
inductive Listing.Body where
  | mk (extra : Nat) (first : Listing) (more : List Listing)

/-- What comes after the body of a conditional. -/
inductive Listing.Otherwise where
  | nothing
  /-- The word `else` and a body. -/
  | body (body : Listing.Body)
  /-- The word `elif`: a conditional again. -/
  | branch (test : Printing.Whole) (body : Listing.Body) (orelse : Listing.Otherwise)

/-- What comes after the body of a loop. -/
inductive Listing.LoopElse where
  | nothing
  | body (body : Listing.Body)

end

namespace Listing

/-- The names of parameters between parentheses. -/
def parametersText : List Printing.Identifier → List Char
  | [] => []
  | first :: more => first.text ++ more.flatMap fun next => ',' :: ' ' :: next.text

/-- The lines of decorators, each with the indentation of the line after it. -/
def decoratorsText (indent : Nat) (decorators : List Printing.Whole) : List Char :=
  decorators.flatMap fun decorator => '@' :: (decorator.val.text ++ '\n' :: spaces indent)

mutual

/-- The text of a statement whose lines after the first are indented. -/
def text (indent : Nat) : Listing → List Char
  | .pass => "pass".toList
  | .branch test body orelse =>
    "if ".toList ++ (test.val.text ++ ':' :: (body.text indent ++ orelse.text indent))
  | .whileLoop test body orelse =>
    "while ".toList ++ (test.val.text ++ ':' :: (body.text indent ++ orelse.text indent))
  | .forLoop target iter body orelse =>
    "for ".toList ++ (target.text ++ " in ".toList ++
      (iter.val.text ++ ':' :: (body.text indent ++ orelse.text indent)))
  | .function decorators name parameters body =>
    decoratorsText indent decorators ++ ("def ".toList ++ (name.text ++
      '(' :: (parametersText parameters ++ ')' :: ':' :: body.text indent)))

/-- The text of a body in the indentation of its surroundings. -/
def Body.text (indent : Nat) : Body → List Char
  | .mk extra first more =>
    '\n' :: (spaces (indent + extra + 1) ++ (first.text (indent + extra + 1) ++
      linesText (indent + extra + 1) more))

/-- The text of further statements. -/
def linesText (indent : Nat) : List Listing → List Char
  | [] => []
  | next :: more =>
    '\n' :: (spaces indent ++ (next.text indent ++ linesText indent more))

/-- The text of what stands behind a branch. -/
def Otherwise.text (indent : Nat) : Otherwise → List Char
  | .nothing => []
  | .body body => '\n' :: (spaces indent ++ ("else:".toList ++ body.text indent))
  | .branch test body orelse =>
    '\n' :: (spaces indent ++ ("elif ".toList ++
      (test.val.text ++ ':' :: (body.text indent ++ orelse.text indent))))

/-- The text of what stands behind a loop. -/
def LoopElse.text (indent : Nat) : LoopElse → List Char
  | .nothing => []
  | .body body => '\n' :: (spaces indent ++ ("else:".toList ++ body.text indent))

end

mutual

/-- The form of the tree of a statement. -/
def tree : Listing → Value
  | .pass => .plain .passStmt []
  | .branch test body orelse => Reading.branchForm test.val.tree body.trees orelse.trees
  | .whileLoop test body orelse =>
    .plain .whileStmt [("test", test.val.tree), ("body", .list body.trees),
      ("orelse", .list orelse.trees)]
  | .forLoop target iter body orelse =>
    .plain .forStmt [("target", Reading.nameForm target.text .store), ("iter", iter.val.tree),
      ("body", .list body.trees), ("orelse", .list orelse.trees), ("type_comment", .absent)]
  | .function decorators name parameters body =>
    Reading.functionForm name.text (parameters.map Printing.Identifier.text) body.trees
      (decorators.map fun decorator => decorator.val.tree)

/-- The forms of the statements of a body. -/
def Body.trees : Body → List Value
  | .mk _ first more => first.tree :: linesTrees more

/-- The trees of several statements. -/
def linesTrees : List Listing → List Value
  | [] => []
  | next :: more => next.tree :: linesTrees more

/-- An `elif` is the conditional that it abbreviates. -/
def Otherwise.trees : Otherwise → List Value
  | .nothing => []
  | .body body => body.trees
  | .branch test body orelse =>
    [Reading.branchForm test.val.tree body.trees orelse.trees]

/-- The trees behind a loop. -/
def LoopElse.trees : LoopElse → List Value
  | .nothing => []
  | .body body => body.trees

end

section Texts

variable (n : Nat) (test iter : Printing.Whole) (body : Body)

/-- The text of a branch. -/
@[simp]
theorem text_branch (orelse : Otherwise) :
    (Listing.branch test body orelse).text n =
      "if ".toList ++ (test.val.text ++ ':' :: (body.text n ++ orelse.text n)) := rfl

/-- The text of a `while` loop. -/
@[simp]
theorem text_whileLoop (orelse : LoopElse) :
    (Listing.whileLoop test body orelse).text n =
      "while ".toList ++ (test.val.text ++ ':' :: (body.text n ++ orelse.text n)) := rfl

/-- The text of a `for` loop. -/
@[simp]
theorem text_forLoop (target : Printing.Identifier) (orelse : LoopElse) :
    (Listing.forLoop target iter body orelse).text n =
      "for ".toList ++ (target.text ++ " in ".toList ++
        (iter.val.text ++ ':' :: (body.text n ++ orelse.text n))) := rfl

/-- The text of a function with its decorators. -/
@[simp]
theorem text_function (decorators : List Printing.Whole) (name : Printing.Identifier)
    (parameters : List Printing.Identifier) :
    (Listing.function decorators name parameters body).text n =
      decoratorsText n decorators ++ ("def ".toList ++ (name.text ++
        '(' :: (parametersText parameters ++ ')' :: ':' :: body.text n))) := rfl

/-- The text of a body. -/
@[simp]
theorem text_body (extra : Nat) (first : Listing) (more : List Listing) :
    (Body.mk extra first more).text n =
      '\n' :: (spaces (n + extra + 1) ++ (first.text (n + extra + 1) ++
        linesText (n + extra + 1) more)) := rfl

/-- The text of an `else`. -/
@[simp]
theorem text_otherwise_body :
    (Otherwise.body body).text n =
      '\n' :: (spaces n ++ ("else:".toList ++ body.text n)) := rfl

/-- The text of an `elif`. -/
@[simp]
theorem text_otherwise_branch (orelse : Otherwise) :
    (Otherwise.branch test body orelse).text n = '\n' :: (spaces n ++ ("elif ".toList ++
      (test.val.text ++ ':' :: (body.text n ++ orelse.text n)))) := rfl

/-- The text of an `else` behind a loop. -/
@[simp]
theorem text_loopElse_body :
    (LoopElse.body body).text n = '\n' :: (spaces n ++ ("else:".toList ++ body.text n)) := rfl

end Texts

/-- The text of further lines, one after the other. -/
theorem linesText_eq_flatMap (indent : Nat) (more : List Listing) :
    linesText indent more =
      more.flatMap fun next => '\n' :: (spaces indent ++ next.text indent) := by
  induction more with
  | nil => rfl
  | cons next more ih =>
      rw [List.flatMap_cons, ← ih]
      simp only [List.cons_append, List.append_assoc]
      rfl

end Listing

end FunctionIR
