import FunctionIR.Command.Run

/-!
# The program

The command line on a real disk.  Files are looked for, read and written
here; everything in between is a `Report`.
-/

namespace FunctionIR

open Command

/-- The number of a refusal, which the system gives as it is or negated. -/
def refusalNumber (code : UInt32) : Nat :=
  if code.toNat < 0x80000000 then code.toNat else (0 - code).toNat

/-- Why the system refused. -/
def systemReason (error : IO.Error) : String :=
  match error with
  | .noFileOrDirectory _ _ _ => Obstacle.missing.message
  | .inappropriateType _ code details =>
    if refusalNumber code = 21 then Obstacle.isDirectory.message
    else if refusalNumber code = 20 then Obstacle.notDirectory.message
    else details
  | .invalidArgument _ code details =>
    if refusalNumber code = 36 then Obstacle.nameTooLong.message else details
  | .permissionDenied _ _ _ => "Permission denied (os error 13)"
  | other => toString other

/-- The text of a file on the disk. -/
def readDisk (path : String) : IO (Except String String) := do
  match ← (IO.FS.readBinFile path).toBaseIO with
  | .error error => return .error (systemReason error)
  | .ok bytes =>
    match String.fromUTF8? bytes with
    | some text => return .ok text
    | none => return .error Obstacle.notText.message

/-- Whether a path on the disk leads to a directory, if it leads
anywhere. -/
def probeDisk (path : String) : IO (Option Bool) := do
  let place := System.mkFilePath [path]
  if ← place.isDir then return some true
  else if ← place.pathExists then return some false
  else return none

/-- The names in a directory on the disk, none if it cannot be read. -/
def listDisk (path : String) : IO (List String) := do
  match ← (System.mkFilePath [path]).readDir.toBaseIO with
  | .error _ => return []
  | .ok found =>
    let names := found.toList.map fun entry => entry.fileName
    return names.mergeSort fun a b => decide (a ≤ b)

/-- The disk as it is looked at in a search. -/
def diskView : View IO where
  isDirectory := probeDisk
  entries path := do
    (← listDisk path).mapM fun name => do
      return (name, (← probeDisk (joinPath path name)) == some true)

/-- Save a document on the disk; the result is why it could not be. -/
def saveDisk (path text : String) : IO (Option String) := do
  match ← (IO.FS.writeFile path text).toBaseIO with
  | .ok _ => return none
  | .error error => return some (systemReason error)

/-- Run an invocation on the disk. -/
def runOnDisk (invocation : Invocation) : IO Outcome := do
  let selections ← invocation.task.select fun glob => glob.search diskView
  let texts ← (selections.flatMap Selection.paths).mapM fun path => do
    return (path, ← readDisk path)
  let report := invocation.report selections fun path =>
    (Members.get? path texts).getD (.error Obstacle.missing.message)
  let output := invocation.task.output
  let refusal ← match report.saves output with
    | some (path, text) => saveDisk path text
    | none => pure none
  return report.outcome output refusal

end FunctionIR

/-- The program. -/
def main (args : List String) : IO UInt32 := do
  let outcome ← match FunctionIR.Command.Invocation.ofArgs args with
    | some invocation => FunctionIR.runOnDisk invocation
    | none => pure FunctionIR.Command.misunderstood
  (← IO.getStderr).putStr outcome.stderr
  (← IO.getStdout).putStr outcome.stdout
  return outcome.code.toUInt32
