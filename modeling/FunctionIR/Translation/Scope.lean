/-!
# Scopes

A scope is the stack of the names of the functions around a place, outermost
first, together with the separator that joins them into a qualified name.

Entering and leaving come in pairs.  An empty name enters nothing, so the
leave that pairs with it takes nothing off either: `leave` is told the name
that was entered, and `leave_enter` says that the pair cancels out.
-/

namespace FunctionIR

/-- The names of the scopes around a place, outermost first. -/
structure Scope where
  separator : String
  names : List String
deriving DecidableEq

namespace Scope

/-- The separator of qualified names where none is chosen. -/
def defaultSeparator : String := "_"

/-- No scope around. -/
def top (separator : String) : Scope := ⟨separator, []⟩

/-- The qualified name of the innermost scope, empty at the top. -/
def current (scope : Scope) : String := scope.separator.intercalate scope.names

/-- How many scopes are around. -/
def depth (scope : Scope) : Nat := scope.names.length

/-- The scope inside `name`. -/
def enter (name : String) (scope : Scope) : Scope :=
  if name = "" then scope else { scope with names := scope.names ++ [name] }

/-- The scope around, after `name` was entered. -/
def leave (name : String) (scope : Scope) : Scope :=
  if name = "" then scope else { scope with names := scope.names.dropLast }

/-- Leaving undoes entering. -/
theorem leave_enter (name : String) (scope : Scope) :
    (scope.enter name).leave name = scope := by
  by_cases h : name = "" <;> simp [enter, leave, h]

end Scope

end FunctionIR
