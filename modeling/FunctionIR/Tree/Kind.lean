import FunctionIR.Text.Lowercase

/-!
# Kinds of tree nodes

Every node of a syntax tree has a kind.  The kinds are those of the Python
syntax trees that the reader of source text builds; an operator or an
expression context is a node too, so the operators appear as kinds, grouped
by what they operate on.  A tree that comes from elsewhere may use tags that
are none of these: such a node keeps its tag as it is.

`Kind.tag` is the name a kind has in a serialized tree and `Kind.ofTag` finds
it again (`ofTag_tag`).  The three tables from operator tokens to operators
are partial: a token that is no operator of that sort has none.
-/

namespace FunctionIR

/-- Operators between two operands. -/
inductive BinaryOp where
  | add | sub | mult | matMult | div | floorDiv | mod | pow
deriving DecidableEq

/-- Operators before one operand. -/
inductive UnaryOp where
  | invert | not | plus | minus
deriving DecidableEq

/-- Operators of a chain of comparisons. -/
inductive CompareOp where
  | eq | notEq | lt | ltE | gt | gtE | same | notSame | member | notMember
deriving DecidableEq

/-- Operators that join conditions. -/
inductive BoolOp where
  | and | or
deriving DecidableEq

/-- What an expression is used for: its value is read, or it is assigned
to. -/
inductive Context where
  | load | store
deriving DecidableEq

/-- The kind of a node. -/
inductive Kind where
  | module | functionDef | arguments | arg | keyword
  | passStmt | breakStmt | continueStmt | returnStmt | assign | augAssign
  | exprStmt | ifStmt | whileStmt | forStmt
  | boolOp | binOp | unaryOp | compare | ifExp | call | attr | subscript
  | name | constant | list | tuple
  | context (c : Context)
  | boolean (op : BoolOp)
  | binary (op : BinaryOp)
  | unary (op : UnaryOp)
  | comparison (op : CompareOp)
  /-- A kind of another tree producer, by its tag. -/
  | other (tag : String)
deriving DecidableEq

namespace Kind

/-- The name of the kind in a serialized tree. -/
def tag : Kind → String
  | .module => "Module"
  | .functionDef => "FunctionDef"
  | .arguments => "arguments"
  | .arg => "arg"
  | .keyword => "keyword"
  | .passStmt => "Pass"
  | .breakStmt => "Break"
  | .continueStmt => "Continue"
  | .returnStmt => "Return"
  | .assign => "Assign"
  | .augAssign => "AugAssign"
  | .exprStmt => "Expr"
  | .ifStmt => "If"
  | .whileStmt => "While"
  | .forStmt => "For"
  | .boolOp => "BoolOp"
  | .binOp => "BinOp"
  | .unaryOp => "UnaryOp"
  | .compare => "Compare"
  | .ifExp => "IfExp"
  | .call => "Call"
  | .attr => "Attribute"
  | .subscript => "Subscript"
  | .name => "Name"
  | .constant => "Constant"
  | .list => "List"
  | .tuple => "Tuple"
  | .context .load => "Load"
  | .context .store => "Store"
  | .boolean .and => "And"
  | .boolean .or => "Or"
  | .binary .add => "Add"
  | .binary .sub => "Sub"
  | .binary .mult => "Mult"
  | .binary .matMult => "MatMult"
  | .binary .div => "Div"
  | .binary .floorDiv => "FloorDiv"
  | .binary .mod => "Mod"
  | .binary .pow => "Pow"
  | .unary .invert => "Invert"
  | .unary .not => "Not"
  | .unary .plus => "UAdd"
  | .unary .minus => "USub"
  | .comparison .eq => "Eq"
  | .comparison .notEq => "NotEq"
  | .comparison .lt => "Lt"
  | .comparison .ltE => "LtE"
  | .comparison .gt => "Gt"
  | .comparison .gtE => "GtE"
  | .comparison .same => "Is"
  | .comparison .notSame => "IsNot"
  | .comparison .member => "In"
  | .comparison .notMember => "NotIn"
  | .other tag => tag

/-- Every kind but the foreign ones. -/
def known : List Kind := [
  .module, .functionDef, .arguments, .arg, .keyword,
  .passStmt, .breakStmt, .continueStmt, .returnStmt, .assign, .augAssign,
  .exprStmt, .ifStmt, .whileStmt, .forStmt,
  .boolOp, .binOp, .unaryOp, .compare, .ifExp, .call, .attr, .subscript,
  .name, .constant, .list, .tuple,
  .context .load, .context .store, .boolean .and, .boolean .or,
  .binary .add, .binary .sub, .binary .mult, .binary .matMult, .binary .div,
  .binary .floorDiv, .binary .mod, .binary .pow,
  .unary .invert, .unary .not, .unary .plus, .unary .minus,
  .comparison .eq, .comparison .notEq, .comparison .lt, .comparison .ltE,
  .comparison .gt, .comparison .gtE, .comparison .same, .comparison .notSame,
  .comparison .member, .comparison .notMember]

/-- The kind with a tag. -/
def ofTag (tag : String) : Kind :=
  (known.find? fun kind => kind.tag == tag).getD (.other tag)

/-- A known kind is found by its tag. -/
theorem ofTag_tag {kind : Kind} (h : kind ∈ known) : ofTag kind.tag = kind := by
  revert kind
  decide +kernel

/-- No kind is turned into one with another tag. -/
theorem tag_ofTag (tag : String) : (ofTag tag).tag = tag := by
  unfold ofTag
  cases h : known.find? fun kind => kind.tag == tag with
  | none => rfl
  | some kind => simpa using List.find?_some h

/-- The kind is foreign. -/
def isOther : Kind → Bool
  | .other _ => true
  | _ => false

/-- The name of the rule that would translate the kind. -/
def handlerName (kind : Kind) : String := "on_" ++ Text.lowercase kind.tag

/-- The kinds that may stand on the left of an assignment. -/
def isAssignable : Kind → Bool
  | .name | .attr | .subscript | .tuple | .list => true
  | _ => false

end Kind

/-- The operator of a token between two operands. -/
def BinaryOp.ofToken (token : String) : Option BinaryOp :=
  match token with
  | "+" => some .add
  | "-" => some .sub
  | "*" => some .mult
  | "@" => some .matMult
  | "/" => some .div
  | "//" => some .floorDiv
  | "%" => some .mod
  | "**" => some .pow
  | _ => none

/-- The operator of a token before one operand. -/
def UnaryOp.ofToken (token : String) : Option UnaryOp :=
  match token with
  | "~" => some .invert
  | "not" => some .not
  | "+" => some .plus
  | "-" => some .minus
  | _ => none

/-- The operator of a comparison token; an operator of two words has a
single blank between them. -/
def CompareOp.ofToken (token : String) : Option CompareOp :=
  match token with
  | "==" => some .eq
  | "!=" => some .notEq
  | "<" => some .lt
  | "<=" => some .ltE
  | ">" => some .gt
  | ">=" => some .gtE
  | "is" => some .same
  | "is not" => some .notSame
  | "in" => some .member
  | "not in" => some .notMember
  | _ => none

end FunctionIR
