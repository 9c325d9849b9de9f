import FunctionIR.Grammar.Pattern

/-!
# The language

The grammar of the source language, a subset of Python: function definitions
with decorators and annotated parameters, conditionals, loops, assignments
and the operators of expressions.

A block's first line repeats the margin of its surroundings and goes on with
some blanks; these belong to the margin of every further line of the block
and are dropped at its end.  On the first line the block's own blanks come
last, on the further lines they come first.  So the lines of a block start
with the same characters wherever a program is indented by one kind of
blank, and a block that adds tabs to spaces, or spaces to tabs, has a single
line unless the two orders spell the same text.

A compound rule (`tight` spacing) spells out its line breaks.  A statement
and everything inside parentheses that is not a token is `loose`.  Words of
the language are tokens that must not run on into a name; they are not kept
as phrases, except the `not` that tells a negation from its operand.
-/

namespace FunctionIR.Grammar

open Pattern (lit parts firstOf)

/-- A line feed, a carriage return, or both. -/
def newline : Pattern := firstOf [lit "\n", lit "\r\n", lit "\r"]

/-- The end of a name or word. -/
def wordEnd : Pattern := .absent (.one .nameChar)

/-- Blanks and a comment. -/
def blankRest : Pattern :=
  parts [
    .many (.one .blank),
    .opt (parts [lit "#", .many (parts [.absent newline, .one .any])])]

/-- The end of a line, with any blank lines after it. -/
def lineBreak : Pattern :=
  parts [blankRest, newline, .many (parts [blankRest, newline])]

/-- What makes a block deeper than its surroundings. -/
def indentation : Pattern := .some (.one .blank)

/-- The body of a compound statement. -/
def suite : Pattern := .choice (.rule .block) (.rule .simpleStatements)

/-- Any form of parameter. -/
def parameter : Pattern :=
  firstOf [
    .rule .kwargsParameter, .rule .varargsParameter, .rule .positionalMarker,
    .rule .plainParameter]

/-- A statement without a body. -/
def simpleStatement : Pattern :=
  firstOf [
    .rule .passStatement, .rule .breakStatement, .rule .continueStatement,
    .rule .returnStatement, .rule .assignment, .rule .augAssignment,
    .rule .expressionStatement]

/-- What can follow a value directly. -/
def trailer : Pattern :=
  firstOf [.rule .call, .rule .attr, .rule .subscript]

/-- A value in a call. -/
def argument : Pattern := .choice (.rule .keywordArgument) (.rule .expression)

/-- A value without operators. -/
def atom : Pattern :=
  firstOf [
    .rule .noneLiteral, .rule .trueLiteral, .rule .falseLiteral, .rule .float,
    .rule .integer, .rule .string, .rule .identifier, .rule .parenthesized,
    .rule .listDisplay]

/-- Digits, single underscores allowed between them. -/
def digits : Pattern :=
  parts [.one .digit, .many (parts [.opt (lit "_"), .one .digit])]

/-- The exponent of a number. -/
def exponent : Pattern :=
  parts [.choice (lit "e") (lit "E"), .opt (.choice (lit "+") (lit "-")), digits]

/-- A string in the given quotes, on one line. -/
def stringIn (quote : Pattern) : Pattern :=
  parts [
    quote,
    .many (firstOf [
      parts [lit "\\", .one .any],
      parts [.absent (firstOf [quote, lit "\\", newline]), .one .any]]),
    quote]

/-- The reserved words. -/
def reservedWords : List String := [
  "False", "None", "True", "and", "as", "break", "class", "continue", "def",
  "del", "elif", "else", "for", "from", "global", "if", "import", "in", "is",
  "lambda", "nonlocal", "not", "or", "pass", "return", "while", "with", "yield"]

/-- A list of parts with commas between them. -/
def commaList (part : Pattern) : List Pattern :=
  [part, .many (parts [lit ",", part])]

/-- Operands with operators between them. -/
def chain (operand operator : Pattern) : Pattern :=
  parts [operand, .many (parts [operator, operand])]

/-- A rule that takes the spacing of its surroundings. -/
def plain (pattern : Pattern) : Definition := ⟨none, true, pattern⟩

/-- A rule with blanks between its parts. -/
def loose (pattern : Pattern) : Definition := ⟨some .loose, true, pattern⟩

/-- A rule without blanks between its parts. -/
def tight (pattern : Pattern) : Definition := ⟨some .tight, true, pattern⟩

/-- A token. -/
def token (pattern : Pattern) : Definition := ⟨some .token, true, pattern⟩

/-- A word of the language, as a token. -/
def word (text : String) : Definition := token (parts [lit text, wordEnd])

/-- A token that is not kept as a phrase. -/
def Definition.mute (definition : Definition) : Definition :=
  { definition with kept := false }

/-- What each rule stands for. -/
def Rule.definition : Rule → Definition
  | .endOfInput => (plain .finish).mute
  | .module => tight <| parts [
      .start, .opt lineBreak,
      .opt (parts [
        .rule .statement, .many (parts [lineBreak, .rule .statement])]),
      .opt lineBreak, blankRest, .rule .endOfInput]
  | .statement => loose <| firstOf [
      .rule .decorated, .rule .functionDef, .rule .ifStatement,
      .rule .whileStatement, .rule .forStatement, .rule .simpleStatements]
  | .block => tight <| parts [
      lineBreak, .margin, .indent indentation, .rule .statement,
      .many (parts [lineBreak, .margin, .rule .statement]), .outdent]
  | .decorated => tight <| parts [
      .rule .decorator,
      .many (parts [lineBreak, .margin, .rule .decorator]),
      lineBreak, .margin, .rule .functionDef]
  | .decorator => loose <| parts [lit "@", .rule .expression]
  | .functionDef => loose <| parts [
      .rule .kwDef, .rule .identifier, lit "(", .opt (.rule .parameters),
      lit ")", .opt (.rule .returns), lit ":", suite]
  | .returns => plain <| parts [lit "->", .rule .expression]
  | .parameters => plain <| parts (commaList parameter ++ [.opt (lit ",")])
  | .plainParameter => plain <| parts [
      .rule .identifier, .opt (.rule .typeHint), .opt (.rule .defaultValue)]
  | .varargsParameter => plain <| parts [
      lit "*", .opt (parts [.rule .identifier, .opt (.rule .typeHint)])]
  | .kwargsParameter => plain <| parts [
      lit "**", .rule .identifier, .opt (.rule .typeHint)]
  | .positionalMarker => plain (lit "/")
  | .typeHint => plain <| parts [lit ":", .rule .expression]
  | .defaultValue => plain <| parts [.rule .assignOp, .rule .expression]
  | .ifStatement => loose <| parts [
      .rule .kwIf, .rule .expression, lit ":", suite, .opt (.rule .elseClause)]
  | .elseClause => tight <| parts [
      lineBreak, .margin, .choice (.rule .elifClause) (.rule .elseBlock)]
  | .elifClause => loose <| parts [
      .rule .kwElif, .rule .expression, lit ":", suite, .opt (.rule .elseClause)]
  | .elseBlock => loose <| parts [.rule .kwElse, lit ":", suite]
  | .whileStatement => loose <| parts [
      .rule .kwWhile, .rule .expression, lit ":", suite, .opt (.rule .loopElse)]
  | .forStatement => loose <| parts [
      .rule .kwFor, .rule .targetList, .rule .kwIn, .rule .expressionList,
      lit ":", suite, .opt (.rule .loopElse)]
  | .loopElse => tight <| parts [lineBreak, .margin, .rule .elseBlock]
  | .simpleStatements => loose <| parts [
      simpleStatement, .many (parts [lit ";", simpleStatement]), .opt (lit ";")]
  | .passStatement => word "pass"
  | .breakStatement => word "break"
  | .continueStatement => word "continue"
  | .returnStatement => plain <| parts [
      .rule .kwReturn, .opt (.rule .expressionList)]
  | .assignment => plain <| parts [
      .some (parts [.rule .targetList, .rule .assignOp]), .rule .expressionList]
  | .augAssignment => plain <| parts [
      .rule .target, .rule .augOp, .rule .expressionList]
  | .expressionStatement => plain (.rule .expressionList)
  | .assignOp => (token <| parts [lit "=", .absent (lit "=")]).mute
  | .augOp => token <| firstOf [
      lit "+=", lit "-=", lit "**=", lit "*=", lit "//=", lit "/=", lit "%=",
      lit "@="]
  | .targetList => plain <| parts
      (commaList (.rule .target) ++ [.opt (.rule .trailingComma)])
  | .target => plain (.rule .primary)
  | .expressionList => plain <| parts
      (commaList (.rule .expression) ++ [.opt (.rule .trailingComma)])
  | .trailingComma => plain (lit ",")
  | .expression => plain <| parts [
      .rule .disjunction,
      .opt (parts [
        .rule .kwIf, .rule .disjunction, .rule .kwElse, .rule .expression])]
  | .disjunction => plain (chain (.rule .conjunction) (.rule .kwOr))
  | .conjunction => plain (chain (.rule .inversion) (.rule .kwAnd))
  | .inversion => plain <|
      .choice (parts [.rule .kwNot, .rule .inversion]) (.rule .comparison)
  | .comparison => plain (chain (.rule .sum) (.rule .compOp))
  | .compOp => token <| firstOf [
      lit "==", lit "!=", lit "<=", lit ">=", lit "<", lit ">",
      parts [lit "not", .some (.one .blank), lit "in", wordEnd],
      parts [lit "is", .some (.one .blank), lit "not", wordEnd],
      parts [lit "in", wordEnd],
      parts [lit "is", wordEnd]]
  | .sum => plain (chain (.rule .term) (.rule .sumOp))
  | .sumOp => plain (firstOf [lit "+", lit "-"])
  | .term => plain (chain (.rule .factor) (.rule .termOp))
  | .termOp => plain (firstOf [lit "//", lit "*", lit "/", lit "%", lit "@"])
  | .factor => plain <|
      .choice (parts [.rule .unaryOp, .rule .factor]) (.rule .power)
  | .unaryOp => plain (firstOf [lit "+", lit "-", lit "~"])
  | .power => plain <| parts [
      .rule .primary, .opt (parts [lit "**", .rule .factor])]
  | .primary => plain <| parts [atom, .many trailer]
  | .call => plain <| parts [
      lit "(", .opt (parts (commaList argument ++ [.opt (lit ",")])), lit ")"]
  | .keywordArgument => plain <| parts [
      .rule .identifier, .rule .assignOp, .rule .expression]
  | .attr => plain <| parts [lit ".", .rule .identifier]
  | .subscript => plain <| parts [lit "[", .rule .expressionList, lit "]"]
  | .noneLiteral => word "None"
  | .trueLiteral => word "True"
  | .falseLiteral => word "False"
  | .float => token <| .choice
      (parts [
        .choice (parts [digits, lit ".", .opt digits]) (parts [lit ".", digits]),
        .opt exponent])
      (parts [digits, exponent])
  | .integer => token digits
  | .string => token (.choice (stringIn (lit "\"")) (stringIn (lit "'")))
  | .parenthesized => plain <| parts [
      lit "(", .opt (.rule .expressionList), lit ")"]
  | .listDisplay => plain <| parts [
      lit "[",
      .opt (parts (commaList (.rule .expression) ++ [.opt (lit ",")])),
      lit "]"]
  | .reserved => token <| parts [firstOf (reservedWords.map lit), wordEnd]
  | .identifier => token <| parts [
      .absent (.rule .reserved), .one .nameStart, .many (.one .nameChar)]
  | .kwDef => (word "def").mute
  | .kwReturn => (word "return").mute
  | .kwIf => (word "if").mute
  | .kwElif => (word "elif").mute
  | .kwElse => (word "else").mute
  | .kwWhile => (word "while").mute
  | .kwFor => (word "for").mute
  | .kwIn => (word "in").mute
  | .kwOr => (word "or").mute
  | .kwAnd => (word "and").mute
  | .kwNot => word "not"

/-- How many patterns the grammar is made of. -/
def size : Nat :=
  Rule.all.foldr (fun rule total => rule.definition.pattern.size + total) 0

end FunctionIR.Grammar
