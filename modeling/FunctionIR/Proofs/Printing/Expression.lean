import FunctionIR.Proofs.Printing.Literal
import FunctionIR.Proofs.Reading.Denotes

/-!
# Expressions as they are written

A printing is an expression with everything that its text shows and its tree
does not: how each literal is written, and where there are parentheses.  Its
text has a single blank between any two tokens (`Printing.text`), its tree is
a form (`Printing.tree`).

The levels of precedence are ordered from the loosest to the tightest.  A
printing is **grouped** (`Printing.Grouped`) if every operand is at least as
tight as its place asks for, so that parentheses stand wherever precedence
and associativity need them; they may stand anywhere else too.  Sums and
products may have one of their own level on the left only, a power may have
one on its right, and also a sign there.
-/

namespace FunctionIR

/-- The token of an operator between two operands. -/
def BinaryOp.token : BinaryOp → String
  | .add => "+"
  | .sub => "-"
  | .mult => "*"
  | .matMult => "@"
  | .div => "/"
  | .floorDiv => "//"
  | .mod => "%"
  | .pow => "**"

/-- An operator of two operands is told by its token. -/
theorem BinaryOp.ofToken_token (op : BinaryOp) : ofToken op.token = some op := by
  cases op <;> rfl

/-- The token of an operator before one operand. -/
def UnaryOp.token : UnaryOp → String
  | .invert => "~"
  | .not => "not"
  | .plus => "+"
  | .minus => "-"

/-- An operator of one operand is told by its token. -/
theorem UnaryOp.ofToken_token (op : UnaryOp) : ofToken op.token = some op := by
  cases op <;> rfl

/-- The token of a comparison, or its two words. -/
def CompareOp.token : CompareOp → String
  | .eq => "=="
  | .notEq => "!="
  | .lt => "<"
  | .ltE => "<="
  | .gt => ">"
  | .gtE => ">="
  | .same => "is"
  | .notSame => "is not"
  | .member => "in"
  | .notMember => "not in"

/-- A comparison is told by its token. -/
theorem CompareOp.ofToken_token (op : CompareOp) : ofToken op.token = some op := by
  cases op <;> rfl

/-- The word that joins two conditions. -/
def BoolOp.token : BoolOp → String
  | .and => "and"
  | .or => "or"

/-- How tightly an expression holds together. -/
inductive Level where
  | conditional | disjunction | conjunction | inversion | comparison
  | sum | term | factor | power | primary
deriving DecidableEq

namespace Level

/-- The place of a level among all, from the loosest. -/
def rank : Level → Nat
  | conditional => 0
  | disjunction => 1
  | conjunction => 2
  | inversion => 3
  | comparison => 4
  | sum => 5
  | term => 6
  | factor => 7
  | power => 8
  | primary => 9

/-- Tighter levels are greater. -/
instance : LE Level := ⟨fun a b => a.rank ≤ b.rank⟩

/-- Levels can be compared. -/
instance (a b : Level) : Decidable (a ≤ b) := Nat.decLe a.rank b.rank

protected theorem le_refl (a : Level) : a ≤ a := Nat.le_refl a.rank

protected theorem le_trans {a b c : Level} (hab : a ≤ b) (hbc : b ≤ c) : a ≤ c :=
  Nat.le_trans hab hbc

/-- The level of a conditional is the loosest. -/
theorem conditional_le (a : Level) : conditional ≤ a := Nat.zero_le a.rank

end Level

/-- The level of an operation. -/
def BinaryOp.level : BinaryOp → Level
  | .add | .sub => .sum
  | .mult | .matMult | .div | .floorDiv | .mod => .term
  | .pow => .power

/-- The loosest left operand of an operation. -/
def BinaryOp.leftLevel : BinaryOp → Level
  | .add | .sub => .sum
  | .mult | .matMult | .div | .floorDiv | .mod => .term
  | .pow => .primary

/-- The loosest right operand of an operation. -/
def BinaryOp.rightLevel : BinaryOp → Level
  | .add | .sub => .term
  | .mult | .matMult | .div | .floorDiv | .mod | .pow => .factor

/-- The level of an operator before its operand, and the loosest operand. -/
def UnaryOp.level : UnaryOp → Level
  | .not => .inversion
  | .invert | .plus | .minus => .factor

/-- The level of joined conditions. -/
def BoolOp.level : BoolOp → Level
  | .and => .conjunction
  | .or => .disjunction

/-- The loosest of the conditions that are joined. -/
def BoolOp.innerLevel : BoolOp → Level
  | .and => .inversion
  | .or => .conjunction

/-- An expression as it is written. -/
inductive Printing where
  | noneWord
  | trueWord
  | falseWord
  | integer (literal : Printing.IntegerLiteral)
  | float (literal : Printing.FloatLiteral)
  | string (literal : Printing.StringLiteral)
  | name (ident : Printing.Identifier)
  /-- An expression in parentheses. -/
  | group (inner : Printing)
  /-- A tuple in its parentheses, perhaps with a comma after the last item. -/
  | tuple (items : List Printing) (comma : Bool)
  | list (items : List Printing)
  | call (func : Printing) (args : List Printing)
    (keywords : List (Printing.Identifier × Printing))
  | attr (value : Printing) (ident : Printing.Identifier)
  | subscript (value index : Printing)
  | unary (op : UnaryOp) (operand : Printing)
  | binary (op : BinaryOp) (left right : Printing)
  | compare (left : Printing) (op : CompareOp) (right : Printing)
    (more : List (CompareOp × Printing))
  /-- Two or more conditions joined by the same word. -/
  | joined (word : BoolOp) (first second : Printing) (more : List Printing)
  | conditional (body test orelse : Printing)

namespace Printing

/-- Texts with commas between them, each after a blank. -/
def commaSeparated : List (List Char) → List Char
  | [] => []
  | first :: more => ' ' :: (first ++ more.flatMap fun text => ' ' :: ',' :: ' ' :: text)

mutual

/-- The text of an expression. -/
def text : Printing → List Char
  | noneWord => "None".toList
  | trueWord => "True".toList
  | falseWord => "False".toList
  | integer literal => literal.text
  | float literal => literal.text
  | string literal => literal.text
  | name ident => ident.text
  | group inner => '(' :: ' ' :: (inner.text ++ [' ', ')'])
  | tuple items comma =>
    '(' :: (commaSeparated (texts items) ++ (if comma then [' ', ','] else []) ++ [' ', ')'])
  | list items => '[' :: (commaSeparated (texts items) ++ [' ', ']'])
  | call func args keywords =>
    func.text ++ ' ' :: '(' ::
      (commaSeparated (texts args ++ keywordTexts keywords) ++ [' ', ')'])
  | attr value ident => value.text ++ ' ' :: '.' :: ' ' :: ident.text
  | subscript value index =>
    value.text ++ ' ' :: '[' :: ' ' :: (index.text ++ [' ', ']'])
  | unary op operand => op.token.toList ++ ' ' :: operand.text
  | binary op left right => left.text ++ ' ' :: (op.token.toList ++ ' ' :: right.text)
  | compare left op right more =>
    left.text ++ ' ' :: (op.token.toList ++ ' ' :: (right.text ++ compareText more))
  | joined word first second more =>
    first.text ++ ' ' :: (word.token.toList ++ ' ' :: (second.text ++ joinedText word more))
  | conditional body test orelse =>
    body.text ++ ' ' :: ("if".toList ++ ' ' :: (test.text ++
      ' ' :: ("else".toList ++ ' ' :: orelse.text)))

/-- The texts of several expressions. -/
def texts : List Printing → List (List Char)
  | [] => []
  | item :: rest => item.text :: texts rest

/-- The texts of named values. -/
def keywordTexts : List (Identifier × Printing) → List (List Char)
  | [] => []
  | (ident, value) :: rest =>
    (ident.text ++ ' ' :: '=' :: ' ' :: value.text) :: keywordTexts rest

/-- The text of further comparisons. -/
def compareText : List (CompareOp × Printing) → List Char
  | [] => []
  | (op, right) :: rest =>
    ' ' :: (op.token.toList ++ ' ' :: (right.text ++ compareText rest))

/-- The text of further conditions. -/
def joinedText (word : BoolOp) : List Printing → List Char
  | [] => []
  | next :: rest => ' ' :: (word.token.toList ++ ' ' :: (next.text ++ joinedText word rest))

end

/-- The texts of items, item by item. -/
theorem texts_eq_map (items : List Printing) : texts items = items.map text := by
  induction items with
  | nil => rfl
  | cons item items ih => rw [texts, ih, List.map_cons]

/-- The texts of keyword arguments, one by one. -/
theorem keywordTexts_eq_map (keywords : List (Identifier × Printing)) :
    keywordTexts keywords =
      keywords.map fun keyword => keyword.1.text ++ ' ' :: '=' :: ' ' :: keyword.2.text := by
  induction keywords with
  | nil => rfl
  | cons keyword keywords ih => rw [keywordTexts, ih, List.map_cons]

/-- The text of further comparisons, one after the other. -/
theorem compareText_eq_flatMap (more : List (CompareOp × Printing)) :
    compareText more =
      more.flatMap fun next => ' ' :: (next.1.token.toList ++ ' ' :: next.2.text) := by
  induction more with
  | nil => rfl
  | cons next more ih => simp [compareText, ih]

/-- The text of further operands of a word, one after the other. -/
theorem joinedText_eq_flatMap (word : BoolOp) (more : List Printing) :
    joinedText word more =
      more.flatMap fun next => ' ' :: (word.token.toList ++ ' ' :: next.text) := by
  induction more with
  | nil => rfl
  | cons next more ih => simp [joinedText, ih]

mutual

/-- The form of the tree of an expression. -/
def tree : Printing → Value
  | noneWord => Reading.constantForm .none
  | trueWord => Reading.constantForm (.bool true)
  | falseWord => Reading.constantForm (.bool false)
  | integer literal => Reading.constantForm (.int literal.value)
  | float literal => Reading.constantForm (.real literal.value)
  | string literal => Reading.constantForm (.str literal.value)
  | name ident => Reading.nameForm ident.text .load
  | group inner => inner.tree
  | tuple items _ => Reading.tupleForm (trees items)
  | list items =>
    .plain .list [("elts", .list (trees items)), ("ctx", .plain (.context .load) [])]
  | call func args keywords =>
    .plain .call [("func", func.tree), ("args", .list (trees args)),
      ("keywords", .list (keywordTrees keywords))]
  | attr value ident =>
    .plain .attr [("value", value.tree), ("attr", .str (String.ofList ident.text)),
      ("ctx", .plain (.context .load) [])]
  | subscript value index =>
    .plain .subscript [("value", value.tree), ("slice", index.tree),
      ("ctx", .plain (.context .load) [])]
  | unary op operand =>
    .plain .unaryOp [("op", .plain (.unary op) []), ("operand", operand.tree)]
  | binary op left right => Reading.operationForm op left.tree right.tree
  | compare left op right more =>
    .plain .compare [("left", left.tree),
      ("ops", .list (.plain (.comparison op) [] :: operators more)),
      ("comparators", .list (right.tree :: comparators more))]
  | joined word first second more =>
    .plain .boolOp [("op", .plain (.boolean word) []),
      ("values", .list (first.tree :: second.tree :: trees more))]
  | conditional body test orelse =>
    .plain .ifExp [("test", test.tree), ("body", body.tree), ("orelse", orelse.tree)]

/-- The trees of several expressions. -/
def trees : List Printing → List Value
  | [] => []
  | item :: rest => item.tree :: trees rest

/-- The trees of named values. -/
def keywordTrees : List (Identifier × Printing) → List Value
  | [] => []
  | (ident, value) :: rest =>
    Reading.keywordForm ident.text value.tree :: keywordTrees rest

/-- The operators of further comparisons. -/
def operators : List (CompareOp × Printing) → List Value
  | [] => []
  | (op, _) :: rest => .plain (.comparison op) [] :: operators rest

/-- The right operands of further comparisons. -/
def comparators : List (CompareOp × Printing) → List Value
  | [] => []
  | (_, right) :: rest => right.tree :: comparators rest

end

/-- How tightly the expression holds together. -/
def level : Printing → Level
  | unary op _ => op.level
  | binary op _ _ => op.level
  | compare .. => .comparison
  | joined word _ _ _ => word.level
  | conditional .. => .conditional
  | _ => .primary

/-- Parentheses stand wherever precedence and associativity need them, and a
tuple of one item has its comma. -/
inductive Grouped : Printing → Prop
  | noneWord : Grouped noneWord
  | trueWord : Grouped trueWord
  | falseWord : Grouped falseWord
  | integer (literal : IntegerLiteral) : Grouped (integer literal)
  | float (literal : FloatLiteral) : Grouped (float literal)
  | string (literal : StringLiteral) : Grouped (string literal)
  | name (ident : Identifier) : Grouped (name ident)
  | group {inner : Printing} (hinner : Grouped inner) : Grouped (group inner)
  | tuple {items : List Printing} {comma : Bool} (hitems : ∀ item ∈ items, Grouped item)
      (hone : items.length = 1 → comma = true) (hnone : items = [] → comma = false) :
      Grouped (tuple items comma)
  | list {items : List Printing} (hitems : ∀ item ∈ items, Grouped item) :
      Grouped (list items)
  | call {func : Printing} {args : List Printing} {keywords : List (Identifier × Printing)}
      (hfunc : Grouped func) (hlevel : Level.primary ≤ func.level)
      (hargs : ∀ arg ∈ args, Grouped arg)
      (hkeywords : ∀ keyword ∈ keywords, Grouped keyword.2) :
      Grouped (call func args keywords)
  | attr {value : Printing} {ident : Identifier} (hvalue : Grouped value)
      (hlevel : Level.primary ≤ value.level) : Grouped (attr value ident)
  | subscript {value index : Printing} (hvalue : Grouped value)
      (hlevel : Level.primary ≤ value.level) (hindex : Grouped index) :
      Grouped (subscript value index)
  | unary {op : UnaryOp} {operand : Printing} (hoperand : Grouped operand)
      (hlevel : op.level ≤ operand.level) : Grouped (unary op operand)
  | binary {op : BinaryOp} {left right : Printing} (hleft : Grouped left)
      (hright : Grouped right) (hleftLevel : op.leftLevel ≤ left.level)
      (hrightLevel : op.rightLevel ≤ right.level) : Grouped (binary op left right)
  | compare {left right : Printing} {op : CompareOp} {more : List (CompareOp × Printing)}
      (hleft : Grouped left) (hright : Grouped right)
      (hmore : ∀ next ∈ more, Grouped next.2) (hleftLevel : Level.sum ≤ left.level)
      (hrightLevel : Level.sum ≤ right.level)
      (hmoreLevel : ∀ next ∈ more, Level.sum ≤ next.2.level) :
      Grouped (compare left op right more)
  | joined {word : BoolOp} {first second : Printing} {more : List Printing}
      (hfirst : Grouped first) (hsecond : Grouped second) (hmore : ∀ next ∈ more, Grouped next)
      (hfirstLevel : word.innerLevel ≤ first.level)
      (hsecondLevel : word.innerLevel ≤ second.level)
      (hmoreLevel : ∀ next ∈ more, word.innerLevel ≤ next.level) :
      Grouped (joined word first second more)
  | conditional {body test orelse : Printing} (hbody : Grouped body) (htest : Grouped test)
      (horelse : Grouped orelse) (hbodyLevel : Level.disjunction ≤ body.level)
      (htestLevel : Level.disjunction ≤ test.level) :
      Grouped (conditional body test orelse)

end Printing

end FunctionIR
