import FunctionIR.Json.Value
import FunctionIR.Location
import FunctionIR.Tree.Kind

/-!
# Syntax trees

A tree is made of nodes, and a node of a **head** and **fields**.  The head
says what the node is and where it stands: its identity number, its kind,
and its location and span if it has a place of its own.  The fields are
named values in order.  A value is a scalar, a node, a list of values, or a
piece of a foreign document that is none of these.

Recursion over trees is recursion over `Value`, with the two lists it nests
through; a `Node` is a head with fields, and is the value `Node.toValue`.
-/

namespace FunctionIR

/-- A leaf of a tree. -/
inductive Scalar where
  | none
  | bool (value : Bool)
  | int (value : Int64)
  | real (value : Binary64)
  | str (value : String)
deriving DecidableEq

/-- All of a node but its fields. -/
structure Head where
  id : Nat
  kind : Kind
  location : Option Location
  span : Option Span
deriving DecidableEq

/-- What a field of a node can hold. -/
inductive Value where
  | scalar (s : Scalar)
  | node (head : Head) (fields : List (String × Value))
  | list (items : List Value)
  | foreign (document : Json)

/-- Named values in order. -/
abbrev Fields := List (String × Value)

/-- A node of a tree. -/
structure Node where
  head : Head
  fields : Fields

/-- The node as a value. -/
def Node.toValue (node : Node) : Value := .node node.head node.fields

namespace Value

/-- The absent value. -/
def absent : Value := .scalar .none

/-- A text. -/
def str (text : String) : Value := .scalar (.str text)

/-- A list of nodes. -/
def ofNodes (nodes : List Node) : Value := .list (nodes.map Node.toValue)

/-- A node, or the absent value. -/
def ofNode? : Option Node → Value
  | some owner => owner.toValue
  | none => absent

/-- The value as a node. -/
def asNode : Value → Option Node
  | .node head fields => some ⟨head, fields⟩
  | _ => none

/-- The value as a list. -/
def asList : Value → Option (List Value)
  | .list items => some items
  | _ => none

/-- The value as a text. -/
def asText : Value → Option String
  | .scalar (.str text) => some text
  | _ => none

end Value

namespace Node

/-- The value of a field. -/
def field? (node : Node) (name : String) : Option Value :=
  Members.get? name node.fields

/-- The text in a field. -/
def textField? (node : Node) (name : String) : Option String :=
  (node.field? name).bind Value.asText

/-- The list in a field. -/
def listField? (node : Node) (name : String) : Option (List Value) :=
  (node.field? name).bind Value.asList

/-- The node with a field set: a new field comes last, an old one keeps its
place. -/
def setField (node : Node) (name : String) (value : Value) : Node :=
  { node with fields := Members.set name value node.fields }

/-- The line of the node's location. -/
def line? (node : Node) : Option Nat := node.head.location.map Location.line

/-- The column of the node's location. -/
def column? (node : Node) : Option Nat := node.head.location.map Location.column

end Node

/-- The scalars are the same, doubles being compared as numbers. -/
def Scalar.agrees : Scalar → Scalar → Bool
  | .none, .none => true
  | .bool a, .bool b => a == b
  | .int a, .int b => a == b
  | .real a, .real b => a.numEq b
  | .str a, .str b => a == b
  | _, _ => false

namespace Value

mutual

/-- The values are the same, identity numbers and places included; only the
order of a node's fields is free. -/
def agrees : Value → Value → Bool
  | .scalar a, .scalar b => a.agrees b
  | .node head fields, .node head' fields' =>
    head == head' && fields.length == fields'.length && fieldsAgree fields fields'
  | .list items, .list items' => itemsAgree items items'
  | .foreign a, .foreign b => a.agrees b
  | _, _ => false

/-- The values are the same one by one. -/
def itemsAgree : List Value → List Value → Bool
  | [], [] => true
  | a :: as, b :: bs => agrees a b && itemsAgree as bs
  | _, _ => false

/-- Every field has its like, by name, among the others. -/
def fieldsAgree : List (String × Value) → List (String × Value) → Bool
  | [], _ => true
  | (name, a) :: rest, others =>
    (match Members.get? name others with
     | some b => agrees a b
     | none => false) && fieldsAgree rest others

end

end Value

/-- The nodes are the same up to the order of fields. -/
def Node.agrees (a b : Node) : Bool := a.toValue.agrees b.toValue

end FunctionIR
