/-!
# Rules of the grammar

The names of the grammar's rules, in the order in which the grammar gives
them.  A message about unreadable text lists rules by their written names in
this order; the end of the input comes first.
-/

namespace FunctionIR.Grammar

/-- A rule of the grammar. -/
inductive Rule where
  | endOfInput
  | module | statement | block
  | decorated | decorator | functionDef | returns
  | parameters | plainParameter | varargsParameter | kwargsParameter
  | positionalMarker | typeHint | defaultValue
  | ifStatement | elseClause | elifClause | elseBlock
  | whileStatement | forStatement | loopElse
  | simpleStatements | passStatement | breakStatement | continueStatement
  | returnStatement | assignment | augAssignment | expressionStatement
  | assignOp | augOp | targetList | target
  | expressionList | trailingComma
  | expression | disjunction | conjunction | inversion | comparison | compOp
  | sum | sumOp | term | termOp | factor | unaryOp | power
  | primary | call | keywordArgument | attr | subscript
  | noneLiteral | trueLiteral | falseLiteral | float | integer | string
  | parenthesized | listDisplay
  | reserved | identifier
  | kwDef | kwReturn | kwIf | kwElif | kwElse | kwWhile | kwFor | kwIn
  | kwOr | kwAnd | kwNot
deriving DecidableEq

namespace Rule

/-- Every rule, in the order of the grammar. -/
def all : List Rule := [
  .endOfInput,
  .module, .statement, .block,
  .decorated, .decorator, .functionDef, .returns,
  .parameters, .plainParameter, .varargsParameter, .kwargsParameter,
  .positionalMarker, .typeHint, .defaultValue,
  .ifStatement, .elseClause, .elifClause, .elseBlock,
  .whileStatement, .forStatement, .loopElse,
  .simpleStatements, .passStatement, .breakStatement, .continueStatement,
  .returnStatement, .assignment, .augAssignment, .expressionStatement,
  .assignOp, .augOp, .targetList, .target,
  .expressionList, .trailingComma,
  .expression, .disjunction, .conjunction, .inversion, .comparison, .compOp,
  .sum, .sumOp, .term, .termOp, .factor, .unaryOp, .power,
  .primary, .call, .keywordArgument, .attr, .subscript,
  .noneLiteral, .trueLiteral, .falseLiteral, .float, .integer, .string,
  .parenthesized, .listDisplay,
  .reserved, .identifier,
  .kwDef, .kwReturn, .kwIf, .kwElif, .kwElse, .kwWhile, .kwFor, .kwIn,
  .kwOr, .kwAnd, .kwNot]

/-- No rule is missing from the list. -/
theorem mem_all (rule : Rule) : rule ∈ all := by
  cases rule <;> decide

/-- The written name of the rule. -/
def name : Rule → String
  | .endOfInput => "EOI"
  | .module => "module"
  | .statement => "statement"
  | .block => "block"
  | .decorated => "decorated"
  | .decorator => "decorator"
  | .functionDef => "function_def"
  | .returns => "returns"
  | .parameters => "parameters"
  | .plainParameter => "plain_parameter"
  | .varargsParameter => "varargs_parameter"
  | .kwargsParameter => "kwargs_parameter"
  | .positionalMarker => "positional_marker"
  | .typeHint => "annotation"
  | .defaultValue => "default_value"
  | .ifStatement => "if_statement"
  | .elseClause => "else_clause"
  | .elifClause => "elif_clause"
  | .elseBlock => "else_block"
  | .whileStatement => "while_statement"
  | .forStatement => "for_statement"
  | .loopElse => "loop_else"
  | .simpleStatements => "simple_statements"
  | .passStatement => "pass_statement"
  | .breakStatement => "break_statement"
  | .continueStatement => "continue_statement"
  | .returnStatement => "return_statement"
  | .assignment => "assignment"
  | .augAssignment => "aug_assignment"
  | .expressionStatement => "expression_statement"
  | .assignOp => "assign_op"
  | .augOp => "aug_op"
  | .targetList => "target_list"
  | .target => "target"
  | .expressionList => "expression_list"
  | .trailingComma => "trailing_comma"
  | .expression => "expression"
  | .disjunction => "disjunction"
  | .conjunction => "conjunction"
  | .inversion => "inversion"
  | .comparison => "comparison"
  | .compOp => "comp_op"
  | .sum => "sum"
  | .sumOp => "sum_op"
  | .term => "term"
  | .termOp => "term_op"
  | .factor => "factor"
  | .unaryOp => "unary_op"
  | .power => "power"
  | .primary => "primary"
  | .call => "call"
  | .keywordArgument => "keyword_argument"
  | .attr => "attribute"
  | .subscript => "subscript"
  | .noneLiteral => "none_literal"
  | .trueLiteral => "true_literal"
  | .falseLiteral => "false_literal"
  | .float => "float"
  | .integer => "integer"
  | .string => "string"
  | .parenthesized => "parenthesized"
  | .listDisplay => "list_display"
  | .reserved => "keyword"
  | .identifier => "identifier"
  | .kwDef => "kw_def"
  | .kwReturn => "kw_return"
  | .kwIf => "kw_if"
  | .kwElif => "kw_elif"
  | .kwElse => "kw_else"
  | .kwWhile => "kw_while"
  | .kwFor => "kw_for"
  | .kwIn => "kw_in"
  | .kwOr => "kw_or"
  | .kwAnd => "kw_and"
  | .kwNot => "kw_not"

end Rule

end FunctionIR.Grammar
