import FunctionIR.Tree.Value

/-!
# Moving a tree by lines

`Node.shift` moves every place in a tree by the same number of lines.

The **decorator discount** uses it to report a decorated function as if its
decorators were not there: all lines move up by the distance between the
`def` line and the first decorator.  The function is the root itself or the
first statement of a module; where there is no such function, no decorator
with a place, or no decorator above the `def`, nothing moves.
-/

namespace FunctionIR

/-- A head some lines on. -/
def Head.shift (delta : Int) (head : Head) : Head :=
  { head with
    location := head.location.map (Location.shift delta)
    span := head.span.map (Span.shift delta) }

namespace Value

mutual

/-- A value some lines on. -/
def shift (delta : Int) : Value → Value
  | .scalar s => .scalar s
  | .node head fields => .node (head.shift delta) (shiftFields delta fields)
  | .list items => .list (shiftItems delta items)
  | .foreign document => .foreign document

/-- A list of values some lines on. -/
def shiftItems (delta : Int) : List Value → List Value
  | [] => []
  | item :: rest => shift delta item :: shiftItems delta rest

/-- Fields some lines on. -/
def shiftFields (delta : Int) : List (String × Value) → List (String × Value)
  | [] => []
  | (name, value) :: rest => (name, shift delta value) :: shiftFields delta rest

end

end Value

namespace Node

/-- A tree some lines on. -/
def shift (delta : Int) (node : Node) : Node :=
  ⟨node.head.shift delta, Value.shiftFields delta node.fields⟩

/-- The function definition that a tree stands for: the root, or the first
statement of a module. -/
def leadingFunction (tree : Node) : Option Node := do
  let node ← match tree.head.kind with
    | .functionDef => some tree
    | .module => do
      let body ← tree.listField? "body"
      let first ← body.head?
      first.asNode
    | _ => none
  if node.head.kind = .functionDef then some node else none

/-- How many lines the first decorator of the leading function stands above
its `def`, if it does. -/
def decoratorOffset (tree : Node) : Option Nat := do
  let function ← tree.leadingFunction
  let line ← function.line?
  let decorators ← function.listField? "decorator_list"
  let first ← ((decorators.filterMap Value.asNode).filterMap Node.line?).min?
  if first < line then some (line - first) else none

/-- The tree with the lines of its decorators discounted, if `discount`. -/
def prepare (discount : Bool) (tree : Node) : Node :=
  match discount, tree.decoratorOffset with
  | true, some offset => tree.shift (-signedLine offset)
  | _, _ => tree

end Node

end FunctionIR
