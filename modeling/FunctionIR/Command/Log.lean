import FunctionIR.Text.Control
import FunctionIR.Translation.Translator

/-!
# The log of a run

The events of a run are told as log lines, the more of them the more verbose
the run is asked to be.  A line names its level and the part of the program
it comes from; a text of several lines is indented after the first.  What
would act on the terminal is left out.

A refused program text is told with an excerpt: the line where reading could
not go on, a mark under the place, and what was expected there.
-/

namespace FunctionIR.Command

/-- How much detail a line of the log is. -/
inductive LogLevel where
  | info | debug | trace
deriving DecidableEq

/-- The written name of a level, as wide as the widest. -/
def LogLevel.label : LogLevel → String
  | .info => "INFO "
  | .debug => "DEBUG"
  | .trace => "TRACE"

/-- The verbosity from which on a level is told. -/
def LogLevel.verbosity : LogLevel → Nat
  | .info => 1
  | .debug => 2
  | .trace => 3

/-- A line of the log. -/
structure LogEntry where
  level : LogLevel
  target : String
  text : String

/-- The entry as it is told. -/
def LogEntry.line (entry : LogEntry) : String :=
  Text.withoutControls ("[" ++ entry.level.label ++ " " ++ entry.target ++ "] " ++
    "\n    ".intercalate (entry.text.splitOn "\n"))

/-- A line of a text, counted from one, with the line end it has. -/
def lineOf : Nat → List String → List Char
  | _, [] => []
  | 0, _ => []
  | 1, [last] => last.toList
  | 1, line :: _ :: _ => line.toList ++ ['\n']
  | n + 2, _ :: rest => lineOf (n + 1) rest

/-- The characters of a line as they are shown: a mark stands for each line
end if reading stopped at one, otherwise line ends are left out. -/
def shownLine (chars : List Char) (column : Nat) : List Char :=
  match chars[column]? with
  | some '\n' | some '\r' =>
    chars.map fun c => if c == '\n' then '␊' else if c == '\r' then '␍' else c
  | _ => chars.filter fun c => c != '\n' && c != '\r'

/-- What is under a line up to a column: blanks, and the tabs it has. -/
def underline (chars : List Char) (column : Nat) : String :=
  String.ofList ((chars.take column).map fun c => if c == '\t' then '\t' else ' ')

/-- A place in a text shown with what was expected there. -/
def excerpt (text : String) (place : Location) (message : String) : String :=
  let number := toString place.line
  let margin := String.ofList (List.replicate number.length ' ')
  let shown := shownLine (lineOf place.line (text.splitOn "\n")) place.column
  margin ++ "--> " ++ number ++ ":" ++ toString (place.column + 1) ++ "\n" ++
  margin ++ " |\n" ++
  number ++ " | " ++ String.ofList shown ++ "\n" ++
  margin ++ " | " ++ underline shown place.column ++ "^---\n" ++
  margin ++ " |\n" ++
  margin ++ " = " ++ message

/-- The part of the program that translates. -/
def builderTarget : String := "canopy_core::ir::builder"

/-- The part of the program that follows scopes. -/
def traceTarget : String := "canopy_core::ir::trace"

/-- An event as an entry of the log. -/
def LogEntry.ofEvent : Event → LogEntry
  | .reached kind depth =>
    ⟨.trace, builderTarget, kind.handlerName ++ " at depth " ++ toString depth⟩
  | .discounted lines =>
    ⟨.debug, builderTarget, "discounting " ++ toString lines ++ " decorator line(s)"⟩
  | .entered scope => ⟨.debug, traceTarget, "entered scope `" ++ scope ++ "`"⟩
  | .completed scope => ⟨.debug, traceTarget, "completed scope `" ++ scope ++ "`"⟩
  | .registered name id =>
    ⟨.debug, "canopy_core::graph",
      "registering function `" ++ name ++ "` (id " ++ toString id ++ ")"⟩
  | .refused name text rules place =>
    ⟨.debug, "canopy_core::syntax",
      "pest rejected " ++ name ++ ": " ++ excerpt text place (expectedText rules)⟩

/-- The lines of the entries that a verbosity asks for. -/
def logLines (verbosity : Nat) (entries : List LogEntry) : List String :=
  (entries.filter fun entry => entry.level.verbosity ≤ verbosity).map LogEntry.line

end FunctionIR.Command
