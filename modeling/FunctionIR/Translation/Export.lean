import FunctionIR.Translation.Fragment
import FunctionIR.Tree.Exchange

/-!
# Fragments as JSON

A function becomes an object with its name, its place and its parts.  A
generic node becomes an object that starts with a member `node`, which tells
its number and the node it comes from, and goes on with a member for each
field.  A field that is itself called `node` takes the place of that first
member.  Lists become arrays, and a double that is no number becomes `null`.

The identity numbers of the tree nodes are exported only on request.
-/

namespace FunctionIR.Fragment

/-- The member that tells where a generic node comes from. -/
def originOf (syntaxIds : Bool) (id : Nat) (origin : Head) : Json :=
  .object <|
    [("id", Exchange.ofCount id), ("_type", .string origin.kind.tag)] ++
    (if syntaxIds then [("syntax_id", Exchange.ofCount origin.id)] else []) ++
    (match origin.location with
     | some location =>
       [("lineno", Exchange.ofCount location.line),
        ("col_offset", Exchange.ofCount location.column)]
     | none => [])

/-- A leaf as a document. -/
def exportLeaf (s : Scalar) : Json :=
  match s with
  | .real value => if value.isFinite then Exchange.exportScalar s else .null
  | _ => Exchange.exportScalar s

mutual

/-- A fragment as a document. -/
def toJson (syntaxIds : Bool) : Fragment → Json
  | .function head decorators arguments returns body =>
    .object [
      ("_type", .string "Function"),
      ("id", Exchange.ofCount head.id),
      ("name", .string head.name),
      ("qualified_name", .string head.qualifiedName),
      ("line", Exchange.ofCount head.line),
      ("column", Exchange.ofCount head.column),
      ("decorators", toJson syntaxIds decorators),
      ("arguments", toJson syntaxIds arguments),
      ("returns", toJson syntaxIds returns),
      ("body", .array (toJsonItems syntaxIds body))]
  | .node id origin fields =>
    .object (toJsonFields syntaxIds [("node", originOf syntaxIds id origin)] fields)
  | .list items => .array (toJsonItems syntaxIds items)
  | .scalar s => exportLeaf s

/-- Several fragments as documents. -/
def toJsonItems (syntaxIds : Bool) : List Fragment → List Json
  | [] => []
  | item :: rest => toJson syntaxIds item :: toJsonItems syntaxIds rest

/-- Named fragments put one by one among the members that are there. -/
def toJsonFields (syntaxIds : Bool) (members : List (String × Json)) :
    List (String × Fragment) → List (String × Json)
  | [] => members
  | (name, value) :: rest =>
    toJsonFields syntaxIds
      (Members.set name (toJson syntaxIds value) members) rest

end

end FunctionIR.Fragment
