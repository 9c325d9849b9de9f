import FunctionIR.Json.Reader
import FunctionIR.Tree.Numbering

/-!
# Trees as JSON

A serialized tree is a JSON document.  A node is an object with a member
`_type` that holds the tag of its kind; its other members are its fields, in
order, except for four that hold its place: `lineno`, `col_offset`,
`end_lineno` and `end_col_offset`.  An object without `_type` is no node and
is kept as it is.

A node has a location if it has a line, the column being 0 where there is
none, and a span if moreover both ends of it are given.  The four members
count only as integers that are not negative; whatever else they hold is
dropped.

Importing numbers the nodes in document order, a node before its fields.
Exporting writes the fields between the tag and the place.
-/

namespace FunctionIR.Exchange

/-- The member that makes an object a node. -/
def typeKey : String := "_type"

/-- The members that hold the place of a node. -/
def placeKeys : List String := ["lineno", "col_offset", "end_lineno", "end_col_offset"]

/-- A member that can be a line or a column. -/
def count? (members : List (String × Json)) (name : String) : Option Nat :=
  match Members.get? name members with
  | some (.number (.integer value)) => if 0 ≤ value then some value.toNat else none
  | _ => none

/-- The location that an object's members give. -/
def locationOf (file : String) (members : List (String × Json)) :
    Option Location :=
  (count? members "lineno").map fun line =>
    ⟨file, line, (count? members "col_offset").getD 0⟩

/-- The span that an object's members give. -/
def spanFrom (file : String) (members : List (String × Json)) : Option Span := do
  let start ← locationOf file members
  let line ← count? members "end_lineno"
  let column ← count? members "end_col_offset"
  return ⟨start, ⟨file, line, column⟩⟩

/-- The leaf that a number becomes: an integer if it fits a signed word, and
otherwise a double. -/
def scalarOfNumber : Json.Number → Scalar
  | .integer value =>
    if Int64.minValue.toInt ≤ value ∧ value ≤ Int64.maxValue.toInt then
      .int (Int64.ofInt value)
    else .real (.ofMagnitude (value < 0) (Binary64.nearest value.natAbs 1))
  | .real value => .real value

/-- The head of the node that an object with members stands for. -/
def headOf (file : String) (members : List (String × Json)) : Numbered Head :=
  match Members.get? typeKey members with
  | some (.string tag) =>
    Numbered.head (Kind.ofTag tag) (locationOf file members) (spanFrom file members)
  | other =>
    throw (.badSyntax .error (.tagNotText (other.getD .null)) none none)

mutual

/-- The value that a document stands for. -/
def importValue (file : String) : Json → Numbered Value
  | .null => return .absent
  | .bool value => return .scalar (.bool value)
  | .number value => return .scalar (scalarOfNumber value)
  | .string value => return .str value
  | .array items => do
    let items ← importItems file items
    return .list items
  | .object members =>
    if (Members.get? typeKey members).isSome then do
      let head ← headOf file members
      let fields ← importFields file members
      return .node head fields
    else return .foreign (.object members)

/-- The values that several documents stand for. -/
def importItems (file : String) : List Json → Numbered (List Value)
  | [] => return []
  | item :: rest => do
    let value ← importValue file item
    let values ← importItems file rest
    return value :: values

/-- The fields that members stand for. -/
def importFields (file : String) : List (String × Json) → Numbered Fields
  | [] => return []
  | (name, item) :: rest =>
    if name = typeKey ∨ name ∈ placeKeys then importFields file rest
    else do
      let value ← importValue file item
      let fields ← importFields file rest
      return (name, value) :: fields

end

/-- The fault that a document is no node. -/
def untagged (file : String) : Fault :=
  .badSyntax .error .rootUntagged (some ⟨file, 1, 0⟩) none

/-- The tree of a serialized text. -/
def importTree (file : String) (text : String) : Numbered Node :=
  match Json.read text with
  | .error error =>
    throw (.badSyntax .error (.badDocument error)
      (some ⟨file, error.line, error.column - 1⟩) none)
  | .ok (.object members) =>
    if (Members.get? typeKey members).isSome then do
      let head ← headOf file members
      let fields ← importFields file members
      return ⟨head, fields⟩
    else throw (untagged file)
  | .ok _ => throw (untagged file)

/-- A count as a document. -/
def ofCount (n : Nat) : Json := .number (.integer n)

/-- A leaf as a document. -/
def exportScalar : Scalar → Json
  | .none => .null
  | .bool value => .bool value
  | .int value => .number (.integer value.toInt)
  | .real value => .number (.real value)
  | .str value => .string value

/-- The members for the place of a node. -/
def placeMembers (head : Head) : List (String × Json) :=
  (match head.location with
   | some location =>
     [("lineno", ofCount location.line), ("col_offset", ofCount location.column)]
   | none => []) ++
  (match head.span with
   | some span =>
     [("end_lineno", ofCount span.stop.line),
      ("end_col_offset", ofCount span.stop.column)]
   | none => [])

mutual

/-- A value as a document. -/
def exportValue : Value → Json
  | .scalar s => exportScalar s
  | .node head fields =>
    .object ((typeKey, .string head.kind.tag) ::
      (exportFields fields ++ placeMembers head))
  | .list items => .array (exportItems items)
  | .foreign document => document

/-- Several values as documents. -/
def exportItems : List Value → List Json
  | [] => []
  | item :: rest => exportValue item :: exportItems rest

/-- Fields as members. -/
def exportFields : List (String × Value) → List (String × Json)
  | [] => []
  | (name, value) :: rest => (name, exportValue value) :: exportFields rest

end

/-- A tree as a document. -/
def exportTree (tree : Node) : Json := exportValue tree.toValue

/-- The serialized text of a tree. -/
def exportText (tree : Node) : String := (exportTree tree).indented

end FunctionIR.Exchange
