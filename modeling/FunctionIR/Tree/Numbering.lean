import FunctionIR.Fault
import FunctionIR.Tree.Value

/-!
# Numbering nodes

Every node that is ever created gets the next number of one counter, in the
order of creation.  The counter is a state that a fault does not undo: a
source that turns out to be unreadable half way has used up the numbers of
the nodes made until then, and so has a node that is replaced by another.
-/

namespace FunctionIR

/-- A computation that creates nodes and may fail. -/
abbrev Numbered (α : Type) := ExceptT Fault (StateM Nat) α

namespace Numbered

/-- The next number. -/
def next : Numbered Nat := do
  let id ← get
  set (id + 1)
  return id

/-- The head of a new node. -/
def head (kind : Kind) (location : Option Location) (span : Option Span) :
    Numbered Head := do
  let id ← next
  return ⟨id, kind, location, span⟩

/-- A new node without a place and without fields. -/
def bare (kind : Kind) : Numbered Value := do
  let head ← head kind none none
  return .node head []

/-- Run from a counter; returns the outcome and the counter after it. -/
def runFrom {α : Type} (counter : Nat) (m : Numbered α) : Except Fault α × Nat :=
  StateT.run (ExceptT.run m) counter

end Numbered

/-- Whether a run ends in a value with a property can be seen from the run. -/
instance decidableExistsOk {α : Type} {p : α → Prop} [DecidablePred p] (result : Except Fault α) :
    Decidable (∃ a, result = .ok a ∧ p a) :=
  match result with
  | .ok a => decidable_of_iff (p a) ⟨fun h => ⟨a, rfl, h⟩, fun ⟨_, ha, h⟩ => Except.ok.inj ha ▸ h⟩
  | .error _ => .isFalse nofun

end FunctionIR
