import FunctionIR.Command.Invocation
import FunctionIR.Command.Log
import FunctionIR.Command.Snapshot
import FunctionIR.Command.Table
import FunctionIR.Session

/-!
# Runs of the command

A run has three steps.  First every operand is turned into paths: a pattern
stands for what it finds, any other operand for itself.  Then the run is
worked out into a `Report`, given the texts of the files: what is told on the
way, the document that comes of it, and what is told after the document is
handed over.  Last, the report becomes the `Outcome` that is seen from the
outside, once it is known whether the document could be saved.

Only the first and the last step touch files.  The second is a function of
the texts, and all files of a run are translated in one session, so that
numbers are never used twice.  A file that fails is told about and left out
of the document; the files after it are translated as if nothing had
happened, except that numbers stay used.
-/

namespace FunctionIR.Command

/-- What an operand comes to. -/
inductive Selection where
  | found (paths : List String)
  | unmatched (pattern : String)
  | invalid (pattern : String) (error : GlobError)

/-- The paths of a selection. -/
def Selection.paths : Selection → List String
  | .found paths => paths
  | .unmatched _ | .invalid _ _ => []

/-- What is told about a selection without paths. -/
def Selection.complaint : Selection → Option String
  | .found _ => none
  | .unmatched pattern => some ("Pattern `" ++ pattern ++ "` matched no files")
  | .invalid pattern error =>
    some ("Invalid pattern `" ++ pattern ++ "`: " ++ error.message)

/-- What an operand comes to in a search. -/
def Selection.ofOperand {m : Type → Type} [Monad m] (search : Glob → m (List String))
    (operand : String) : m Selection :=
  if Glob.isPattern operand then
    match Glob.ofText operand with
    | .error error => return .invalid operand error
    | .ok glob => do
      let paths ← search glob
      return if paths.isEmpty then .unmatched operand else .found paths
  else return .found [operand]

/-- What the operands of a task come to.  Patterns are for translating
only. -/
def Task.select {m : Type → Type} [Monad m] (search : Glob → m (List String)) :
    Task → m (List Selection)
  | .parse file _ => return [.found [file]]
  | .translate operands _ _ _ => operands.mapM (Selection.ofOperand search)

/-- Where the document of a task goes, if not to the standard output. -/
def Task.output : Task → Option String
  | .parse _ output => output
  | .translate _ output _ _ => output

/-- The texts of files, or why they cannot be read. -/
abbrev Contents := String → Except String String

/-- The source in a file. -/
def Contents.source (contents : Contents) (path : String) : Except Fault Source :=
  match contents path with
  | .ok text => .ok (.ofFile path text)
  | .error reason => .error (.missingSource path reason)

/-- What came of translating a file. -/
structure Attempt where
  /-- The name of the file and its function, or what went wrong. -/
  outcome : Except Fault (String × Function)
  /-- What happened on the way. -/
  events : List Event

/-- Translate the function in a file. -/
def translateFile (contents : Contents) (path : String) (session : Session) :
    Except Fault (String × Function) × Session :=
  match contents.source path with
  | .error fault => (.error fault, session)
  | .ok source =>
    match session.load source with
    | (.error fault, session) => (.error fault, session)
    | (.ok tree, session) =>
      match session.translate tree with
      | (.error fault, session) => (.error fault, session)
      | (.ok function, session) => (.ok (source.name, function), session)

/-- Translate the functions in files, one after the other. -/
def translateFiles (contents : Contents) : List String → Session →
    List Attempt × Session
  | [], session => ([], session)
  | path :: rest, session =>
    let before := session.translator.events.length
    let (outcome, session) := translateFile contents path session
    let (attempts, after) := translateFiles contents rest session
    (⟨outcome, session.translator.events.drop before⟩ :: attempts, after)

/-- The functions that attempts brought, with the names of their files. -/
def translated (attempts : List Attempt) : List (String × Function) :=
  attempts.filterMap fun attempt => attempt.outcome.toOption

/-- The lines that tell of an attempt: the log, and the report of a fault. -/
def Attempt.notes (verbosity : Nat) (attempt : Attempt) : List String :=
  logLines verbosity (attempt.events.map LogEntry.ofEvent) ++
    match attempt.outcome with
    | .ok _ => []
    | .error fault => [fault.report]

/-- The document of the functions that were translated: a single function by
itself if there was one path only, an array of them otherwise, nothing if
there is none. -/
def documentOf (paths : List String) (functions : List Function) : Option Json :=
  match paths, functions with
  | _, [] => none
  | [_], [f] => some (f.toFragment.toJson true)
  | _, _ => some (.array (functions.map fun f => f.toFragment.toJson true))

/-- What a run comes to, before its document is handed over. -/
structure Report where
  /-- The lines told before. -/
  notes : List String
  document : Option String
  /-- The lines told after. -/
  closing : List String
  /-- Something went wrong. -/
  failed : Bool

/-- The report of a run that writes the tree of a file. -/
def parseReport (verbosity : Nat) (file : String) (contents : Contents) : Report :=
  match contents.source file with
  | .error fault => ⟨[fault.report], none, [], true⟩
  | .ok source =>
    let (outcome, session) :=
      (Session.begin .standard Scope.defaultSeparator).read source
    let logged := logLines verbosity (session.translator.events.map LogEntry.ofEvent)
    match outcome with
    | .ok tree => ⟨logged, some (Exchange.exportText tree), [], false⟩
    | .error fault => ⟨logged ++ [fault.report], none, [], true⟩

/-- The entry of the log that sums up a run. -/
def LogEntry.totals (done all registered : Nat) : LogEntry :=
  ⟨.info, "canopy",
    "translated " ++ toString done ++ " of " ++ toString all ++ " file(s), " ++
      toString registered ++ " function(s) registered"⟩

/-- The report of a run that translates files. -/
def translateReport (verbosity : Nat) (config : Config) (summary : Bool)
    (selections : List Selection) (contents : Contents) : Report :=
  let paths := selections.flatMap Selection.paths
  let complaints := selections.filterMap Selection.complaint
  let (attempts, session) :=
    translateFiles contents paths (.begin config Scope.defaultSeparator)
  let done := translated attempts
  { notes := complaints ++ attempts.flatMap (Attempt.notes verbosity) ++
      logLines verbosity [.totals done.length paths.length session.registry.length]
    document := (documentOf paths (done.map Prod.snd)).map Json.indented
    closing :=
      if summary && !done.isEmpty then
        [drawTable (done.map fun (file, f) => tableRow file f)]
      else []
    failed := !complaints.isEmpty || done.length != attempts.length }

/-- The report of a run. -/
def Invocation.report (invocation : Invocation) (selections : List Selection)
    (contents : Contents) : Report :=
  match invocation.task with
  | .parse file _ => parseReport invocation.verbosity file contents
  | .translate _ _ config summary =>
    translateReport invocation.verbosity config summary selections contents

/-- The file and the text that are to be saved in a run. -/
def Report.saves (report : Report) (output : Option String) :
    Option (String × String) := do
  let path ← output
  let document ← report.document
  return (path, document)

/-- What is seen of a run from the outside. -/
structure Outcome where
  stdout : String
  stderr : String
  code : Nat
deriving DecidableEq

/-- Lines as a text. -/
def linesText (lines : List String) : String :=
  String.join (lines.map fun line => line ++ "\n")

/-- The exit code that tells whether something went wrong. -/
def exitCode (failed : Bool) : Nat := if failed then 1 else 0

/-- The outcome of a report.  `refusal` is why the document could not be
saved, if it was to be and could not; the run then ends there. -/
def Report.outcome (report : Report) (output refusal : Option String) : Outcome :=
  match report.saves output, refusal with
  | some (path, _), some reason =>
    { stdout := ""
      stderr := linesText (report.notes ++
        ["Failed to write " ++ path ++ ": " ++ reason])
      code := 1 }
  | some _, none =>
    ⟨"", linesText (report.notes ++ report.closing), exitCode report.failed⟩
  | none, _ =>
    ⟨linesText report.document.toList, linesText (report.notes ++ report.closing),
      exitCode report.failed⟩

/-- The outcome of a command line that is not understood. -/
def misunderstood : Outcome :=
  { stdout := ""
    stderr := linesText [
      "usage: canopy [-v]... parse [-o FILE] <file>",
      "       canopy [-v]... translate [-o FILE] [--separator SEP] [--max-depth N]",
      "              [--keep-decorator-lines] [--summary] <files>..."]
    code := 2 }

/-- A run in a snapshot: its outcome, and the snapshot after it. -/
def Entry.run (root : Entry) (args : List String) : Outcome × Entry :=
  match Invocation.ofArgs args with
  | none => (misunderstood, root)
  | some invocation =>
    let selections : List Selection :=
      Id.run (invocation.task.select fun glob => glob.search root.view)
    let report := invocation.report selections fun path =>
      (root.readText path).mapError Obstacle.message
    let output := invocation.task.output
    match report.saves output with
    | none => (report.outcome output none, root)
    | some (path, text) =>
      match root.save path text with
      | .ok root => (report.outcome output none, root)
      | .error obstacle => (report.outcome output (some obstacle.message), root)

end FunctionIR.Command
