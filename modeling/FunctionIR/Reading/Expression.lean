import FunctionIR.Grammar.Matching
import FunctionIR.Reading.Literal
import FunctionIR.Text.Blank
import FunctionIR.Tree.Numbering

/-!
# Expressions

How the phrases of an expression become nodes.  The grammar has a rule for
every level of precedence, so that a name alone is a phrase inside a dozen
others; a level without an operator adds no node.  Sums and products fold to
the left, powers and conditionals nest to the right, conditions joined by
the same word and chains of comparisons make one node.  Parentheses leave no
trace but their effect, and a comma makes a tuple.

The order in which nodes are created is part of what is computed here,
because it numbers them: each equation below creates its nodes in the order
in which its lines stand.

A target is an expression first.  `store` then turns it into something to
assign to, going into tuples and lists, or finds the part that cannot be
assigned to.
-/

namespace FunctionIR.Reading

open Grammar (Phrase Place Rule)

/-- The location of a place in a file. -/
def locate (file : String) (place : Place) : Location :=
  ⟨file, place.line, place.column⟩

/-- The span between two places in a file. -/
def spanOf (file : String) (start stop : Place) : Span :=
  ⟨locate file start, locate file stop⟩

/-- The head of a new node that covers the text between two places. -/
def headAt (file : String) (kind : Kind) (start stop : Place) : Numbered Head :=
  Numbered.head kind (some (locate file start)) (some (spanOf file start stop))

/-- The fault that a phrase stands where it cannot be used. -/
def misplaced {α : Type} (file : String) (phrase : Phrase) : Numbered α :=
  throw (.badSyntax .error (.misplaced phrase.rule)
    (some (locate file phrase.start))
    (some (spanOf file phrase.start phrase.stop)))

/-- A new context node. -/
def context (c : Context) : Numbered Value := Numbered.bare (.context c)

/-- A new constant that covers the text between two places. -/
def constant (file : String) (value : Scalar) (start stop : Place) :
    Numbered Value := do
  let head ← headAt file .constant start stop
  return .node head [("value", .scalar value), ("kind", .absent)]

/-- The text with every run of blanks made a single one. -/
def squeeze : List Char → List Char
  | [] => []
  | c :: rest =>
    if Text.isBlank c then
      match squeeze rest with
      | ' ' :: more => ' ' :: more
      | more => ' ' :: more
    else c :: squeeze rest

/-- The operator that a phrase between two operands names. -/
def binaryOp (file : String) (phrase : Phrase) : Numbered BinaryOp :=
  match BinaryOp.ofToken (String.ofList phrase.text) with
  | some op => return op
  | none => misplaced file phrase

/-- The operator that a phrase before an operand names. -/
def unaryOp (file : String) (phrase : Phrase) : Numbered UnaryOp :=
  match UnaryOp.ofToken (String.ofList phrase.text) with
  | some op => return op
  | none => misplaced file phrase

/-- The operator that a phrase in a comparison names. -/
def compareOp (file : String) (phrase : Phrase) : Numbered CompareOp :=
  match CompareOp.ofToken (String.ofList (squeeze phrase.text)) with
  | some op => return op
  | none => misplaced file phrase

/-- A sequence of expressions: alone and without a comma after it, an
expression stands for itself, otherwise they make a tuple. -/
def tupleOf (file : String) (start stop : Place) (items : List Value)
    (trailingComma : Bool) : Numbered Value :=
  match items, trailingComma with
  | [item], false => return item
  | _, _ => do
    let head ← headAt file .tuple start stop
    let ctx ← context .load
    return .node head [("elts", .list items), ("ctx", ctx)]

mutual

/-- The node of an expression. -/
def expression (file : String) : Phrase → Numbered Value
  | .mk .expression start stop _ [body, test, orelse] => do
    let body ← expression file body
    let head ← headAt file .ifExp start stop
    let test ← expression file test
    let orelse ← expression file orelse
    return .node head [("test", test), ("body", body), ("orelse", orelse)]
  | .mk .disjunction start stop _ (first :: second :: rest) => do
    let first ← expression file first
    let second ← expression file second
    let rest ← expressions file rest
    let head ← headAt file .boolOp start stop
    let op ← Numbered.bare (.boolean .or)
    return .node head [("op", op), ("values", .list (first :: second :: rest))]
  | .mk .conjunction start stop _ (first :: second :: rest) => do
    let first ← expression file first
    let second ← expression file second
    let rest ← expressions file rest
    let head ← headAt file .boolOp start stop
    let op ← Numbered.bare (.boolean .and)
    return .node head [("op", op), ("values", .list (first :: second :: rest))]
  | .mk .inversion start stop _ [_, operand] => do
    let operand ← expression file operand
    let head ← headAt file .unaryOp start stop
    let op ← Numbered.bare (.unary .not)
    return .node head [("op", op), ("operand", operand)]
  | .mk .comparison start stop _ (left :: op :: right :: rest) => do
    let left ← expression file left
    let (ops, comparators) ← comparisons file (op :: right :: rest)
    let head ← headAt file .compare start stop
    return .node head
      [("left", left), ("ops", .list ops), ("comparators", .list comparators)]
  | .mk .sum start _ _ (first :: op :: right :: rest) => do
    let first ← expression file first
    operations file start first (op :: right :: rest)
  | .mk .term start _ _ (first :: op :: right :: rest) => do
    let first ← expression file first
    operations file start first (op :: right :: rest)
  | .mk .factor start stop _ [op, operand] => do
    let op ← unaryOp file op
    let head ← headAt file .unaryOp start stop
    let op ← Numbered.bare (.unary op)
    let operand ← expression file operand
    return .node head [("op", op), ("operand", operand)]
  | .mk .power start stop _ [base, exponent] => do
    let base ← expression file base
    let head ← headAt file .binOp start stop
    let op ← Numbered.bare (.binary .pow)
    let exponent ← expression file exponent
    return .node head [("left", base), ("op", op), ("right", exponent)]
  | .mk .primary _ _ _ (atom :: trailer :: rest) => do
    let value ← expression file atom
    trailers file atom.start value (trailer :: rest)
  | .mk .parenthesized start stop _ [] =>
    tupleOf file start stop [] false
  | .mk .listDisplay start stop _ items => do
    let items ← expressions file items
    let head ← headAt file .list start stop
    let ctx ← context .load
    return .node head [("elts", .list items), ("ctx", ctx)]
  | .mk .expressionList start stop _ parts => do
    let (items, trailingComma) ← elements file parts
    tupleOf file start stop items trailingComma
  | .mk .targetList start stop _ parts => do
    let (items, trailingComma) ← elements file parts
    tupleOf file start stop items trailingComma
  | .mk .identifier start stop text _ => do
    let head ← headAt file .name start stop
    let ctx ← context .load
    return .node head [("id", .str (String.ofList text)), ("ctx", ctx)]
  | .mk .noneLiteral start stop _ _ => constant file .none start stop
  | .mk .trueLiteral start stop _ _ => constant file (.bool true) start stop
  | .mk .falseLiteral start stop _ _ => constant file (.bool false) start stop
  | .mk .integer start stop text _ =>
    match integerValue text with
    | some value => constant file (.int value) start stop
    | none =>
      throw (.badSyntax .error (.integerOutOfRange (String.ofList text))
        (some (locate file start)) (some (spanOf file start stop)))
  | .mk .float start stop text _ =>
    constant file (.real (floatValue text)) start stop
  | .mk .string start stop text _ =>
    constant file (.str (stringValue text)) start stop
  | .mk _ _ _ _ [inner] => expression file inner
  | phrase => misplaced file phrase

/-- The nodes of several expressions. -/
def expressions (file : String) : List Phrase → Numbered (List Value)
  | [] => return []
  | phrase :: rest => do
    let value ← expression file phrase
    let values ← expressions file rest
    return value :: values

/-- The nodes of an expression list, and whether a comma comes last. -/
def elements (file : String) : List Phrase → Numbered (List Value × Bool)
  | [] => return ([], false)
  | .mk .trailingComma _ _ _ _ :: rest => do
    let (values, _) ← elements file rest
    return (values, true)
  | phrase :: rest => do
    let value ← expression file phrase
    let (values, trailingComma) ← elements file rest
    return (value :: values, trailingComma)

/-- The operators and right operands of a chain of comparisons. -/
def comparisons (file : String) :
    List Phrase → Numbered (List Value × List Value)
  | op :: right :: rest => do
    let op ← compareOp file op
    let op ← Numbered.bare (.comparison op)
    let right ← expression file right
    let (ops, comparators) ← comparisons file rest
    return (op :: ops, right :: comparators)
  | [phrase] => misplaced file phrase
  | [] => return ([], [])

/-- The node of a chain of operations that starts with `left`. -/
def operations (file : String) (start : Place) (left : Value) :
    List Phrase → Numbered Value
  | op :: right :: rest => do
    let stop := right.stop
    let op ← binaryOp file op
    let right ← expression file right
    let head ← headAt file .binOp start stop
    let op ← Numbered.bare (.binary op)
    operations file start
      (.node head [("left", left), ("op", op), ("right", right)]) rest
  | [phrase] => misplaced file phrase
  | [] => return left

/-- The node of a value with calls, attributes and subscripts after it. -/
def trailers (file : String) (start : Place) (value : Value) :
    List Phrase → Numbered Value
  | .mk .call _ stop _ parts :: rest => do
    let (args, keywords) ← arguments file parts
    let head ← headAt file .call start stop
    trailers file start
      (.node head
        [("func", value), ("args", .list args), ("keywords", .list keywords)])
      rest
  | .mk .attr _ stop _ [name] :: rest => do
    let head ← headAt file .attr start stop
    let ctx ← context .load
    trailers file start
      (.node head
        [("value", value), ("attr", .str (String.ofList name.text)), ("ctx", ctx)])
      rest
  | .mk .subscript _ stop _ [index] :: rest => do
    let head ← headAt file .subscript start stop
    let slice ← expression file index
    let ctx ← context .load
    trailers file start
      (.node head [("value", value), ("slice", slice), ("ctx", ctx)]) rest
  | phrase :: _ => misplaced file phrase
  | [] => return value

/-- The plain and the named values in a call. -/
def arguments (file : String) : List Phrase → Numbered (List Value × List Value)
  | [] => return ([], [])
  | .mk .keywordArgument start stop _ [name, value] :: rest => do
    let head ← headAt file .keyword start stop
    let value ← expression file value
    let (args, keywords) ← arguments file rest
    return (args,
      .node head [("arg", .str (String.ofList name.text)), ("value", value)] ::
        keywords)
  | phrase :: rest => do
    let arg ← expression file phrase
    let (args, keywords) ← arguments file rest
    return (arg :: args, keywords)

end

mutual

/-- A value made a target.  What is no node stays as it is. -/
def store : Value → Numbered Value
  | .node head fields => do
    if !head.kind.isAssignable then
      throw (.badSyntax .error (.notAssignable head.kind) head.location head.span)
    let fields ←
      if head.kind = .tuple ∨ head.kind = .list then storeElements fields
      else pure fields
    let ctx ← context .store
    return .node head (Members.set "ctx" ctx fields)
  | other => return other

/-- The fields of a tuple or list, with its elements made targets. -/
def storeElements : List (String × Value) → Numbered (List (String × Value))
  | [] => return []
  | ("elts", .list items) :: rest => do
    let items ← storeAll items
    return ("elts", .list items) :: rest
  | field :: rest => do
    let fields ← storeElements rest
    return field :: fields

/-- Values made targets one after the other. -/
def storeAll : List Value → Numbered (List Value)
  | [] => return []
  | value :: rest => do
    let value ← store value
    let values ← storeAll rest
    return value :: values

end

/-- The node of an expression that is assigned to. -/
def target (file : String) (phrase : Phrase) : Numbered Value := do
  let value ← expression file phrase
  store value

end FunctionIR.Reading
