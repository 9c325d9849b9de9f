import FunctionIR.Translation.Fragment

/-!
# The registry

The registry keeps a summary of every function that was translated as a
whole, in the order of translation.  Functions inside other functions are not
registered, and the same function translated twice is there twice.
-/

namespace FunctionIR

/-- What is kept of a function. -/
structure Registration where
  id : Nat
  name : String
  qualifiedName : String
  line : Nat
  column : Nat
  nodeCount : Nat
deriving DecidableEq

/-- The summary of a function. -/
def Function.registration (f : Function) : Registration :=
  { id := f.head.id
    name := f.head.name
    qualifiedName := f.head.qualifiedName
    line := f.head.line
    column := f.head.column
    nodeCount := f.nodeCount }

/-- Summaries in the order of registration. -/
abbrev Registry := List Registration

/-- The earliest function of a name. -/
def Registry.find (registry : Registry) (name : String) : Option Registration :=
  List.find? (fun entry => entry.name == name) registry

end FunctionIR
