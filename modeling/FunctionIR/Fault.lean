import FunctionIR.Grammar.Rule
import FunctionIR.Json.Printer
import FunctionIR.Json.Reader
import FunctionIR.Location
import FunctionIR.Tree.Kind

/-!
# What can go wrong

A fault says why a source could not be obtained, read, translated or
exported.  Its constructors are the seven sorts of fault, and where a sort
has several causes each cause is a constructor of its own, so that a
theorem can speak of the cause and not of its wording.  The wording is in
`message`, who raises a fault is in `issuer`, and two one-line forms carry
both to the outside: `report` for users and `record` for logs.
-/

namespace FunctionIR

/-- How grave a fault is. -/
inductive Severity where
  | info | warning | error | critical
deriving DecidableEq

/-- The written name of a severity. -/
def Severity.name : Severity → String
  | .info => "INFO"
  | .warning => "WARNING"
  | .error => "ERROR"
  | .critical => "CRITICAL"

/-- Why a source text or a serialized tree is refused. -/
inductive SyntaxCause where
  /-- The text is not in the language; these rules could have gone on. -/
  | expected (rules : List Grammar.Rule)
  /-- A rule matched text that the tree builder has no use for. -/
  | misplaced (rule : Grammar.Rule)
  | integerOutOfRange (digits : String)
  | notAssignable (kind : Kind)
  | misplacedSlash
  | defaultMissing
  | secondStar
  | badDocument (error : Json.ReadError)
  | rootUntagged
  | tagNotText (found : Json)
  /-- A cause given in words. -/
  | stated (message issuer : String)

/-- Why a tree cannot be translated although its values have the right
shape. -/
inductive MalformedCause where
  | moduleWithoutBody
  | moduleBodyNotList
  | moduleEmpty
  | functionWithoutName
  | functionWithoutBody (name : String)
  /-- The root resolves to something else than a function. -/
  | rootNotFunction (found : String)
  /-- A cause given in words. -/
  | stated (message issuer : String)

/-- A fault. -/
inductive Fault where
  | emptySource (name : String)
  | missingSource (path reason : String)
  | badSyntax (severity : Severity) (cause : SyntaxCause)
      (location : Option Location) (span : Option Span)
  | malformedTree (cause : MalformedCause)
      (location : Option Location) (span : Option Span)
  | unsupportedShape (owner field : Option String) (raw : Json)
      (location : Option Location) (span : Option Span)
  | tooDeep (limit : Nat) (location : Option Location)
  | exportFailed (function cause : String) (location : Option Location)

/-- Alternatives in words: `a`, `a or b`, `a, b, or c`. -/
def alternatives : List String → String
  | [] => ""
  | [a] => a
  | [a, b] => a ++ " or " ++ b
  | many => ", ".intercalate many.dropLast ++ ", or " ++ many.getLastD ""

/-- What a list of possible rules amounts to. -/
def expectedText (rules : List Grammar.Rule) : String :=
  if rules.isEmpty then "unknown parsing error"
  else "expected " ++ alternatives (rules.map Grammar.Rule.name)

/-- The wording of a cause. -/
def SyntaxCause.message : SyntaxCause → String
  | .expected rules => "Invalid syntax: " ++ expectedText rules
  | .misplaced rule => "Unexpected rule: " ++ rule.name
  | .integerOutOfRange digits => "Integer literal out of range: " ++ digits
  | .notAssignable kind => "Cannot assign to " ++ kind.tag ++ "."
  | .misplacedSlash => "Invalid position for '/' in parameter list."
  | .defaultMissing => "Non-default argument follows default argument."
  | .secondStar => "Only one '*' is allowed in a parameter list."
  | .badDocument error => "Invalid JSON tree: " ++ error.message
  | .rootUntagged =>
    "The root of a JSON tree must be an object with a `_type` member."
  | .tagNotText found =>
    "`_type` must be a string, found Some(" ++ found.describe ++ ")"
  | .stated message _ => message

/-- Who raises a cause. -/
def SyntaxCause.issuer : SyntaxCause → String
  | .expected _ => "canopy.syntax.parse_python"
  | .misplaced _ => "canopy.expr.parse_expression_rule"
  | .integerOutOfRange _ => "canopy.expr.parse_expression_rule"
  | .notAssignable _ => "canopy.expr.into_store"
  | .misplacedSlash | .defaultMissing | .secondStar =>
    "canopy.stmt.parse_parameters_rule"
  | .badDocument _ | .rootUntagged => "canopy.syntax.json.tree_from_json"
  | .tagNotText _ => "canopy.syntax.json.node_from_object"
  | .stated _ issuer => issuer

/-- The wording of a cause. -/
def MalformedCause.message : MalformedCause → String
  | .moduleWithoutBody => "Module has no `body` field."
  | .moduleBodyNotList => "Module `body` is not a sequence."
  | .moduleEmpty => "Module has no statements."
  | .functionWithoutName => "FunctionDef has no `name`."
  | .functionWithoutBody name =>
    "FunctionDef `" ++ name ++ "` has no `body` sequence."
  | .rootNotFunction found =>
    "Root of the tree does not resolve to a function definition (got " ++
      found ++ ")."
  | .stated message _ => message

/-- Who raises a cause. -/
def MalformedCause.issuer : MalformedCause → String
  | .moduleWithoutBody | .moduleBodyNotList | .moduleEmpty =>
    "canopy.ir.handlers.on_module"
  | .functionWithoutName | .functionWithoutBody _ =>
    "canopy.ir.handlers.on_functiondef"
  | .rootNotFunction _ => "canopy.ir.builder.translate_in"
  | .stated _ issuer => issuer

namespace Fault

/-- Where a value of an unsupported shape was met, as far as it is known. -/
def site : Option String → Option String → String
  | some owner, some field => " in field `" ++ field ++ "` of " ++ owner
  | some owner, none => " under " ++ owner
  | none, _ => ""

/-- The wording of a fault. -/
def message : Fault → String
  | .emptySource name => "The source of `" ++ name ++ "` is empty."
  | .missingSource path reason =>
    "Cannot read source at " ++ Text.quoted path ++ ": " ++ reason
  | .badSyntax _ cause _ _ => cause.message
  | .malformedTree cause _ _ => cause.message
  | .unsupportedShape owner field raw _ _ =>
    "Unsupported node shape" ++ site owner field ++ ": " ++ raw.compact
  | .tooDeep limit _ =>
    "Tree is nested deeper than " ++ toString limit ++ " levels."
  | .exportFailed function cause _ =>
    "Cannot export function `" ++ function ++ "`: " ++ cause

/-- Who raises a fault. -/
def issuer : Fault → String
  | .emptySource _ => "canopy.syntax.generate_tree_from_source"
  | .missingSource _ _ => "canopy.source"
  | .badSyntax _ cause _ _ => cause.issuer
  | .malformedTree cause _ _ => cause.issuer
  | .unsupportedShape _ _ _ _ _ => "canopy.ir.builder.generate"
  | .tooDeep _ _ => "canopy.ir.builder.generate_node"
  | .exportFailed _ _ _ => "canopy.ir.node.to_json"

/-- How grave a fault is. -/
def severity : Fault → Severity
  | .badSyntax severity _ _ _ => severity
  | .tooDeep _ _ => .critical
  | _ => .error

/-- The place of a fault.  An empty source has no place inside it, so its
start is given. -/
def location : Fault → Option Location
  | .emptySource name => some ⟨name, 1, 0⟩
  | .missingSource _ _ => none
  | .badSyntax _ _ location _ => location
  | .malformedTree _ location _ => location
  | .unsupportedShape _ _ _ location _ => location
  | .tooDeep _ location => location
  | .exportFailed _ _ location => location

/-- The stretch of source that a fault concerns. -/
def span : Fault → Option Span
  | .badSyntax _ _ _ span => span
  | .malformedTree _ _ span => span
  | .unsupportedShape _ _ _ _ span => span
  | _ => none

/-- The wording of a fault by itself: a fault of a source or of a tree's
form ends with its place. -/
def text (fault : Fault) : String :=
  let placed := match fault with
    | .emptySource _ | .badSyntax _ _ _ _ | .malformedTree _ _ _ => fault.location
    | _ => none
  match placed with
  | some location => fault.message ++ " (at " ++ location.text ++ ")"
  | none => fault.message

/-- The line that tells a user of a fault. -/
def report (fault : Fault) : String :=
  let place := match fault.location with
    | some location => location.text
    | none => "unknown location"
  "CANOPY | " ++ fault.severity.name ++ " | " ++ place ++ " | " ++ fault.message

/-- The line that records all there is to a fault. -/
def record (fault : Fault) : String :=
  let place := match fault.location with
    | some location => location.text
    | none => "unknown"
  let stretch := match fault.span with
    | some span => span.text
    | none => "span:none"
  "CANOPY | " ++ fault.severity.name ++ " | " ++ place ++ " | " ++ fault.issuer ++
    " | " ++ stretch ++ " | " ++ fault.message

end Fault

end FunctionIR
