import FunctionIR.Fault
import FunctionIR.Translation.Fragment
import FunctionIR.Translation.Scope

/-!
# Translation

A translation goes through a tree depth first.  Two kinds of node have rules
of their own.  A module stands for its first statement, whatever else it
holds.  A function definition becomes a function: its decorators, parameters
and return annotation are translated in the scope it is declared in, its body
in the scope it opens.  Every other node becomes a generic node.

How deep nodes may be nested is bounded; lists do not count.  A node too deep
is refused before it is looked at.

The translator's state holds the counter that numbers fragments, the scope,
and the record of events.  A fault stops a translation where it is but does
not undo the state: numbers stay used and events stay recorded.  Only the
scope is restored, because a scope that was entered is left however its
inside ends (`within`).

A function takes its number after its parameters and before its body, a
generic node before its fields.
-/

namespace FunctionIR

/-- What can be chosen about a translation. -/
structure Config where
  /-- Joins the names of scopes into qualified names. -/
  separator : String
  /-- Nodes nested deeper than this are refused. -/
  maxDepth : Nat
  /-- Report the lines of a decorated function as if it had no
  decorators. -/
  discountDecorators : Bool
deriving DecidableEq

/-- The choices where none is made. -/
def Config.standard : Config := ⟨Scope.defaultSeparator, 500, true⟩

/-- What happens on the way from a source to a function. -/
inductive Event where
  /-- A rule for the kind is applied at a depth. -/
  | reached (kind : Kind) (depth : Nat)
  /-- A function's scope of this qualified name is entered. -/
  | entered (scope : String)
  /-- A function's scope of this qualified name is complete. -/
  | completed (scope : String)
  /-- A function is registered. -/
  | registered (name : String) (id : Nat)
  /-- Lines of decorators are discounted. -/
  | discounted (lines : Nat)
  /-- A program text is refused by the grammar. -/
  | refused (name text : String) (rules : List Grammar.Rule) (place : Location)

/-- The event as it shows in a trace, if it concerns a scope. -/
def Event.trace? : Event → Option String
  | .entered scope => some ("enter " ++ scope)
  | .completed scope => some ("done " ++ scope)
  | _ => none

/-- The state of a translator. -/
structure Translator where
  /-- The number of the next fragment. -/
  nextId : Nat
  scope : Scope
  /-- What has happened, in order. -/
  events : List Event

/-- A computation of a translator that may fail. -/
abbrev Translating (α : Type) := ExceptT Fault (StateM Translator) α

namespace Translating

/-- Run from a state; returns the outcome and the state after it. -/
def runFrom {α : Type} (t : Translator) (m : Translating α) :
    Except Fault α × Translator :=
  StateT.run (ExceptT.run m) t

/-- The next number. -/
def next : Translating Nat := do
  let t ← get
  set { t with nextId := t.nextId + 1 }
  return t.nextId

/-- Record an event. -/
def record (event : Event) : Translating Unit :=
  modify fun t => { t with events := t.events ++ [event] }

/-- Work inside the scope of a name; it is left also after a fault. -/
def within {α : Type} (name : String) (m : Translating α) : Translating α :=
  ExceptT.mk fun t =>
    let (outcome, t) := m.runFrom { t with scope := t.scope.enter name }
    (outcome, { t with scope := t.scope.leave name })

end Translating

open Translating (next record within)

/-- The fault that a node's form is wrong. -/
def malformed (cause : MalformedCause) (head : Head) : Fault :=
  .malformedTree cause head.location head.span

/-- The name and the body of a function definition, or the fault that one of
them is missing. -/
def functionForm (head : Head) (fields : Fields) : Except Fault (String × List Value) :=
  match (Members.get? "name" fields).bind Value.asText with
  | none => .error (malformed .functionWithoutName head)
  | some name =>
    match (Members.get? "body" fields).bind Value.asList with
    | none => .error (malformed (.functionWithoutBody name) head)
    | some body => .ok (name, body)

mutual

/-- Translate a value at a depth of nesting. -/
def translateValue (config : Config) (depth : Nat) : Value → Translating Fragment
  | .scalar s => return .scalar s
  | .list items => do
    let items ← translateItems config depth items
    return .list items
  | .foreign raw => throw (.unsupportedShape none none raw none none)
  | .node head fields =>
    if config.maxDepth < depth then
      throw (.tooDeep config.maxDepth head.location)
    else
      match head.kind with
      | .module => do
        record (.reached .module depth)
        translateFirst config depth head fields
      | .functionDef => do
        record (.reached .functionDef depth)
        match functionForm head fields with
        | .error fault => throw fault
        | .ok (name, _) =>
          let declaredIn := (← get).scope.current
          let decorators ←
            translateField config (depth + 1) "decorator_list" (.list []) fields
          let arguments ←
            translateField config (depth + 1) "args" (.scalar .none) fields
          let returns ←
            translateField config (depth + 1) "returns" (.scalar .none) fields
          let id ← next
          let body ← within name do
            record (.entered (← get).scope.current)
            let body ← translateBody config (depth + 1) fields
            record (.completed (← get).scope.current)
            return body
          return .function
            { id := id
              name := name
              qualifiedName := declaredIn
              line := (head.location.map Location.line).getD 0
              column := (head.location.map Location.column).getD 0
              origin := head }
            decorators arguments returns body
      | _ => do
        let id ← next
        let fields ← translateFields config (depth + 1) head fields
        return .node id head fields

/-- Translate values one after the other. -/
def translateItems (config : Config) (depth : Nat) :
    List Value → Translating (List Fragment)
  | [] => return []
  | item :: rest => do
    let fragment ← translateValue config depth item
    let fragments ← translateItems config depth rest
    return fragment :: fragments

/-- Translate the fields of a generic node. -/
def translateFields (config : Config) (depth : Nat) (owner : Head) :
    List (String × Value) → Translating (List (String × Fragment))
  | [] => return []
  | (name, .foreign raw) :: _ =>
    throw (.unsupportedShape (some owner.kind.tag) (some name) raw
      owner.location owner.span)
  | (name, value) :: rest => do
    let fragment ← translateValue config depth value
    let fragments ← translateFields config depth owner rest
    return (name, fragment) :: fragments

/-- Translate the field of a name, if there is one. -/
def translateField (config : Config) (depth : Nat) (name : String)
    (absent : Fragment) : List (String × Value) → Translating Fragment
  | [] => return absent
  | (key, value) :: rest =>
    if key = name then translateValue config depth value
    else translateField config depth name absent rest

/-- Translate the statements in the body of a function. -/
def translateBody (config : Config) (depth : Nat) :
    List (String × Value) → Translating (List Fragment)
  | [] => return []
  | (key, value) :: rest =>
    if key = "body" then
      match value with
      | .list items => translateItems config depth items
      | _ => return []
    else translateBody config depth rest

/-- Translate the first statement of a module. -/
def translateFirst (config : Config) (depth : Nat) (head : Head) :
    List (String × Value) → Translating Fragment
  | [] => throw (malformed .moduleWithoutBody head)
  | (key, value) :: rest =>
    if key = "body" then
      match value with
      | .list (first :: _) => translateValue config (depth + 1) first
      | .list [] => throw (malformed .moduleEmpty head)
      | _ => throw (malformed .moduleBodyNotList head)
    else translateFirst config depth head rest

end

/-- Translate a tree that stands for a function, in the current scope. -/
def translateTree (config : Config) (tree : Node) : Translating Function := do
  let fragment ← translateValue config 0 tree.toValue
  match fragment.asFunction with
  | some function => return function
  | none => throw (malformed (.rootNotFunction fragment.description) tree.head)

end FunctionIR
