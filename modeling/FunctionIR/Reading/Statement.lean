import FunctionIR.Reading.Parameters

/-!
# Statements

How the phrases of statements become nodes.  One phrase can hold several
statements, so `statements` returns a list: a line of simple statements has
one for each, a block has those of all its lines, an `else` has those of its
body, and an `elif` has the one conditional that it abbreviates.

What is written last is sometimes read first: the `else` part of a
conditional or loop is turned into nodes before its condition and body are,
and the numbers of the nodes show it.  A function's decorators come before
everything else in it, and the function itself comes last.
-/

namespace FunctionIR.Reading

open Grammar (Phrase Place Rule)

/-- The targets of an assignment and the phrase of its value. -/
def assignmentTargets (file : String) :
    List Phrase → Numbered (List Value × List Phrase)
  | target :: next :: rest => do
    let target ← Reading.target file target
    let (targets, value) ← assignmentTargets file (next :: rest)
    return (target :: targets, value)
  | value => return ([], value)

/-- The node of a statement without a body. -/
def simpleStatement (file : String) : Phrase → Numbered Value
  | .mk .passStatement start stop _ _ => do
    let head ← headAt file .passStmt start stop
    return .node head []
  | .mk .breakStatement start stop _ _ => do
    let head ← headAt file .breakStmt start stop
    return .node head []
  | .mk .continueStatement start stop _ _ => do
    let head ← headAt file .continueStmt start stop
    return .node head []
  | .mk .returnStatement start stop _ [] => do
    let head ← headAt file .returnStmt start stop
    return .node head [("value", .absent)]
  | .mk .returnStatement start stop _ [value] => do
    let value ← expression file value
    let head ← headAt file .returnStmt start stop
    return .node head [("value", value)]
  | .mk .assignment start stop text parts => do
    match ← assignmentTargets file parts with
    | (targets, [value]) =>
      let value ← expression file value
      let head ← headAt file .assign start stop
      return .node head
        [("targets", .list targets), ("value", value), ("type_comment", .absent)]
    | _ => misplaced file (.mk .assignment start stop text parts)
  | .mk .augAssignment start stop _ [target, op, value] => do
    let target ← Reading.target file target
    let value ← expression file value
    match BinaryOp.ofToken (String.ofList op.text.dropLast) with
    | some op =>
      let head ← headAt file .augAssign start stop
      let op ← Numbered.bare (.binary op)
      return .node head [("target", target), ("op", op), ("value", value)]
    | none => misplaced file op
  | .mk .expressionStatement start stop _ [value] => do
    let value ← expression file value
    let head ← headAt file .exprStmt start stop
    return .node head [("value", value)]
  | phrase => misplaced file phrase

/-- The nodes of several statements without bodies. -/
def simpleStatements (file : String) : List Phrase → Numbered (List Value)
  | [] => return []
  | phrase :: rest => do
    let statement ← simpleStatement file phrase
    let statements ← simpleStatements file rest
    return statement :: statements

/-- The parts of a function definition. -/
structure FunctionParts where
  name : String
  arguments : Option Value
  returns : Option Value
  body : List Value

/-- The node of a function with its decorators. -/
def FunctionParts.toNode (file : String) (decorators : List Value)
    (start stop : Place) (parts : FunctionParts) : Numbered Value := do
  let arguments ← match parts.arguments with
    | some arguments => pure arguments
    | none => Parameters.empty.toNode
  let head ← headAt file .functionDef start stop
  return .node head
    [("name", .str parts.name), ("args", arguments), ("body", .list parts.body),
     ("decorator_list", .list decorators),
     ("returns", parts.returns.getD .absent), ("type_comment", .absent)]

mutual

/-- The statements that a phrase holds. -/
def statements (file : String) : Phrase → Numbered (List Value)
  | .mk .statement _ _ _ [inner] => statements file inner
  | .mk .simpleStatements _ _ _ parts => simpleStatements file parts
  | .mk .block _ _ _ parts => allStatements file parts
  | .mk .elseClause _ _ _ [inner] => statements file inner
  | .mk .elseBlock _ _ _ [inner] => statements file inner
  | .mk .loopElse _ _ _ [inner] => statements file inner
  | .mk .decorated _ _ _ parts => decorated file parts []
  | .mk .functionDef start stop _ parts => do
    let parts ← functionParts file parts ⟨"", none, none, []⟩
    let function ← parts.toNode file [] start stop
    return [function]
  | .mk .ifStatement start stop _ (test :: body :: orelse)
  | .mk .elifClause start stop _ (test :: body :: orelse) => do
    let orelse ← allStatements file orelse
    let head ← headAt file .ifStmt start stop
    let test ← expression file test
    let body ← statements file body
    return [.node head
      [("test", test), ("body", .list body), ("orelse", .list orelse)]]
  | .mk .whileStatement start stop _ (test :: body :: orelse) => do
    let orelse ← allStatements file orelse
    let head ← headAt file .whileStmt start stop
    let test ← expression file test
    let body ← statements file body
    return [.node head
      [("test", test), ("body", .list body), ("orelse", .list orelse)]]
  | .mk .forStatement start stop _ (target :: iter :: body :: orelse) => do
    let orelse ← allStatements file orelse
    let head ← headAt file .forStmt start stop
    let target ← Reading.target file target
    let iter ← expression file iter
    let body ← statements file body
    return [.node head
      [("target", target), ("iter", iter), ("body", .list body),
       ("orelse", .list orelse), ("type_comment", .absent)]]
  | phrase => misplaced file phrase

/-- The statements that several phrases hold. -/
def allStatements (file : String) : List Phrase → Numbered (List Value)
  | [] => return []
  | phrase :: rest => do
    let first ← statements file phrase
    let others ← allStatements file rest
    return first ++ others

/-- The node of a function after the given decorators and those before it,
in a list. -/
def decorated (file : String) :
    List Phrase → List Value → Numbered (List Value)
  | .mk .decorator _ _ _ [inner] :: rest, decorators => do
    let decorator ← expression file inner
    decorated file rest (decorators ++ [decorator])
  | .mk .functionDef start stop _ parts :: _, decorators => do
    let parts ← functionParts file parts ⟨"", none, none, []⟩
    let function ← parts.toNode file decorators start stop
    return [function]
  | phrase :: _, _ => misplaced file phrase
  | [], _ => return []

/-- The parts of a function definition, in order. -/
def functionParts (file : String) :
    List Phrase → FunctionParts → Numbered FunctionParts
  | [], sofar => return sofar
  | .mk .identifier _ _ text _ :: rest, sofar =>
    functionParts file rest { sofar with name := String.ofList text }
  | .mk .parameters _ _ _ parts :: rest, sofar => do
    let parameters ← Reading.parameters file parts .empty
    let arguments ← parameters.toNode
    functionParts file rest { sofar with arguments := some arguments }
  | .mk .returns _ _ _ [inner] :: rest, sofar => do
    let value ← expression file inner
    functionParts file rest { sofar with returns := some value }
  | body :: rest, sofar => do
    let body ← statements file body
    functionParts file rest { sofar with body := body }

end

/-- The tree of a whole source text, which has no place of its own. -/
def moduleTree (file : String) (phrases : List Phrase) : Numbered Node := do
  let body ← allStatements file phrases
  let head ← Numbered.head .module none none
  return ⟨head, [("body", .list body), ("type_ignores", .list [])]⟩

end FunctionIR.Reading
