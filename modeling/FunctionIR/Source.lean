import FunctionIR.Grammar.Expectation
import FunctionIR.Reading.Statement
import FunctionIR.Text.Blank
import FunctionIR.Tree.Exchange
import FunctionIR.Tree.Lines

/-!
# Sources

A source is a named text in one of two forms: program text, which the
grammar takes apart, or a serialized tree.  `Source.tree` is the tree of a
source and `Source.load` the tree prepared for translation.  A text of
nothing but white space is refused before either form is looked at.

The name of a source stands in every location of its tree.  A source that
comes from a file is named after the last part of its path, and the path's
extension decides the form.
-/

namespace FunctionIR

/-- How the text of a source is to be read. -/
inductive SourceFormat where
  /-- Program text. -/
  | program
  /-- A serialized tree. -/
  | tree
deriving DecidableEq

/-- A named text to be read. -/
structure Source where
  name : String
  path : String
  text : String
  format : SourceFormat

namespace Path

/-- The parts of a path between its slashes, without those that say
nothing. -/
def components (path : String) : List String :=
  ((path.splitOn "/").filter (· ≠ "")).filter (· ≠ ".")

/-- The last part of a path, unless it leads upwards. -/
def fileName (path : String) : Option String :=
  (components path).getLast?.filter (· ≠ "..")

/-- What follows the last dot of a file name, unless the dot comes first. -/
def extension (path : String) : Option String := do
  let name ← fileName path
  match (name.splitOn ".").reverse with
  | last :: _ :: [] => if name.startsWith "." then none else some last
  | last :: _ :: _ :: _ => some last
  | _ => none

/-- A file named like a JSON document holds a tree, every other one program
text. -/
def format (path : String) : SourceFormat :=
  if (extension path).map String.toLower = some "json" then .tree else .program

end Path

namespace Source

/-- A source that is given as a text. -/
def ofText (name text : String) (format : SourceFormat) : Source :=
  ⟨name, name, text, format⟩

/-- A source that was read from a file. -/
def ofFile (path text : String) : Source :=
  ⟨(Path.fileName path).getD "", path, text, Path.format path⟩

/-- The source has no text to read. -/
def isEmpty (source : Source) : Bool := Text.allBlank source.text

/-- The source in words. -/
def description (source : Source) : String :=
  "Callable: " ++ source.name ++ " at " ++ Text.quoted source.path

/-- The fault that a text is not in the language. -/
def unreadable (name : String) (tried : Grammar.Attempts) : Fault :=
  let expectation := tried.survey .initial
  let location := Reading.locate name expectation.place
  .badSyntax .error (.expected expectation.alternatives)
    (some location) (some ⟨location, location⟩)

/-- The tree of a program text. -/
def programTree (name text : String) : Numbered Node :=
  match Grammar.Rule.module.matchText text.toList with
  | (.matched s, _) =>
    Reading.moduleTree name (s.phrases.flatMap Grammar.Phrase.parts)
  | (_, tried) => throw (unreadable name tried)

/-- The tree of a source. -/
def tree (source : Source) : Numbered Node :=
  if source.isEmpty then throw (.emptySource source.name)
  else match source.format with
    | .program => programTree source.name source.text
    | .tree => Exchange.importTree source.name source.text

/-- The tree of a source with the lines of its decorators discounted, if
`discount`. -/
def load (discount : Bool) (source : Source) : Numbered Node := do
  let tree ← source.tree
  return tree.prepare discount

end Source

end FunctionIR
