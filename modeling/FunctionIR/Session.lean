import FunctionIR.Source
import FunctionIR.Translation.Export
import FunctionIR.Translation.Registry
import FunctionIR.Translation.Translator

/-!
# Sessions

A session is one run of the library: sources are loaded and trees translated
one after the other, with one counter for the nodes of trees, one for the
nodes of fragments, one registry and one record of events throughout.  Steps
that fail are steps too; whatever they used up or recorded stays.

A session also has a scope of its own, which the caller enters and leaves.
Scopes that are entered are **live** until they are left, the innermost
first.  `translateIn` and `generate` work in this scope and hand it back as
it was; `translate` works at the top, whatever scopes are live.
-/

namespace FunctionIR

/-- The state of a run. -/
structure Session where
  config : Config
  /-- The number of the next tree node. -/
  nextNode : Nat
  /-- The counter of fragments, the scope and the events. -/
  translator : Translator
  /-- The names that were entered and not left, innermost first. -/
  live : List String
  registry : Registry

namespace Session

/-- The start of a run, with the separator of its own scope. -/
def begin (config : Config) (separator : String) : Session :=
  { config := config
    nextNode := 1
    translator := ⟨1, .top separator, []⟩
    live := []
    registry := [] }

/-- Record events. -/
def record (events : List Event) (session : Session) : Session :=
  { session with
    translator := { session.translator with
      events := session.translator.events ++ events } }

/-- Create tree nodes. -/
def number {α : Type} (m : Numbered α) (session : Session) :
    Except Fault α × Session :=
  let (outcome, counter) := m.runFrom session.nextNode
  (outcome, { session with nextNode := counter })

/-- Read a source into a tree. -/
def read (source : Source) (session : Session) : Except Fault Node × Session :=
  match session.number source.tree with
  | (.error (.badSyntax severity (.expected rules) (some place) span), session) =>
    (.error (.badSyntax severity (.expected rules) (some place) span),
      session.record [.refused source.name source.text rules place])
  | other => other

/-- Discount the decorators of a tree, if the session does. -/
def prepare (tree : Node) (session : Session) : Node × Session :=
  (tree.prepare session.config.discountDecorators,
    match session.config.discountDecorators, tree.decoratorOffset with
    | true, some lines => session.record [.discounted lines]
    | _, _ => session)

/-- Read a source into a tree and prepare it. -/
def load (source : Source) (session : Session) : Except Fault Node × Session :=
  match session.read source with
  | (.ok tree, session) =>
    let (tree, session) := session.prepare tree
    (.ok tree, session)
  | failed => failed

/-- Enter a scope. -/
def enter (name : String) (session : Session) : Session :=
  { session with
    translator := { session.translator with
      scope := session.translator.scope.enter name }
    live := name :: session.live }

/-- Leave the innermost live scope, if there is one. -/
def leave (session : Session) : Option Session :=
  match session.live with
  | [] => none
  | name :: rest => some { session with
      translator := { session.translator with
        scope := session.translator.scope.leave name }
      live := rest }

/-- Translate a field value in the session's scope. -/
def generate (value : Value) (session : Session) :
    Except Fault Fragment × Session :=
  let (outcome, translator) :=
    (translateValue session.config 0 value).runFrom session.translator
  (outcome, { session with translator := translator })

/-- Register a function. -/
def register (function : Function) (session : Session) : Session :=
  let session :=
    session.record [.registered function.head.name function.head.id]
  { session with registry := session.registry ++ [function.registration] }

/-- Translate a tree in the session's scope and register the function. -/
def translateIn (tree : Node) (session : Session) :
    Except Fault Function × Session :=
  let (outcome, translator) :=
    (translateTree session.config tree).runFrom session.translator
  let session := { session with translator := translator }
  match outcome with
  | .ok function => (.ok function, session.register function)
  | .error fault => (.error fault, session)

/-- Translate a tree at the top and register the function. -/
def translate (tree : Node) (session : Session) :
    Except Fault Function × Session :=
  let scope := session.translator.scope
  let inside := { session with
    translator := { session.translator with
      scope := .top session.config.separator } }
  let (outcome, after) := inside.translateIn tree
  (outcome, { after with translator := { after.translator with scope := scope } })

/-- The events of a scope, as lines. -/
def trace (events : List Event) : List String := events.filterMap Event.trace?

end Session

end FunctionIR
