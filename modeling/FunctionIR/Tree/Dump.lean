import FunctionIR.Tree.Value
import FunctionIR.Json.Printer

/-!
# Dumps

A dump shows a tree on one line, without places and identity numbers:
`Kind(field=value, ...)` for a node, the items in brackets for a list, and
the leaves as literals.  Texts are in double quotes and doubles always have a
point or an exponent, so every leaf shows what sort it is.
-/

namespace FunctionIR

/-- How a double is written in a dump: positionally from `1e-4` up to
`1e16`, otherwise with an exponent that has a sign only if it is
negative. -/
def dumpLayout : Decimal.Layout where
  tieUp := true
  firstPositional := -4
  lastPositional := 15
  plus := ""
  infinite := fun negative => if negative then "-inf" else "inf"
  notANumber := "NaN"

/-- A leaf as a literal. -/
def Scalar.dump : Scalar → String
  | .none => "None"
  | .bool true => "True"
  | .bool false => "False"
  | .int value => toString value.toInt
  | .real value => dumpLayout.write value
  | .str value => Text.quoted value

namespace Value

mutual

/-- The value on one line. -/
def dump : Value → String
  | .scalar s => s.dump
  | .node head fields => head.kind.tag ++ "(" ++ dumpFields fields ++ ")"
  | .list items => "[" ++ dumpItems items ++ "]"
  | .foreign document => "<opaque " ++ document.compact ++ ">"

/-- The items of a list, with commas between them. -/
def dumpItems : List Value → String
  | [] => ""
  | [item] => dump item
  | item :: rest => dump item ++ ", " ++ dumpItems rest

/-- The fields of a node, with commas between them. -/
def dumpFields : List (String × Value) → String
  | [] => ""
  | [(name, value)] => name ++ "=" ++ dump value
  | (name, value) :: rest => name ++ "=" ++ dump value ++ ", " ++ dumpFields rest

end

end Value

/-- The tree on one line. -/
def Node.dump (node : Node) : String := node.toValue.dump

end FunctionIR
