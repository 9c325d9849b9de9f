import FunctionIR.Command.Glob

/-!
# Searching directories

A search follows the parts of a pattern from the directory it starts in.  A
literal part is looked up and may also lead to the directory itself or the
one above it.  Any other part is compared with the names in the directory, so
it leads to those two only if it begins with a dot.  A `**` leads to
everything below the directory, at any depth.

What is found comes in the order of the names at every level, and a directory
comes before what is in it.  Paths are built from the parts, so they look
like the pattern they were found with; a path below the starting directory is
not prefixed with it.

The search only looks through a `View`, which can be a disk or a directory in
memory.
-/

namespace FunctionIR.Command

/-- How directories can be looked at. -/
structure View (m : Type → Type) where
  /-- Whether a path leads to a directory, if it leads anywhere. -/
  isDirectory : String → m (Option Bool)
  /-- The names in a directory, ordered, with whether each is a directory. -/
  entries : String → m (List (String × Bool))

/-- A path that exists. -/
structure Spot where
  path : String
  directory : Bool

/-- A name put behind a path. -/
def joinPath (path name : String) : String :=
  if path.endsWith "/" then path ++ name else path ++ "/" ++ name

/-- The path leads to the starting directory by saying so and no more. -/
def isHere (path : String) : Bool :=
  match path.splitOn "/" with
  | first :: rest => first == "." && rest.all fun part => part == "" || part == "."
  | [] => false

/-- The path of a name in a directory. -/
def Spot.inside (spot : Spot) (name : String) : String :=
  if isHere spot.path then name else joinPath spot.path name

/-- The part stands for this name of a directory's contents. -/
def GlobPart.accepts : GlobPart → String → Bool
  | .literal name, entry => name == entry
  | .wild tokens, entry => GlobToken.matchName tokens entry.toList
  | .directories, _ => false

/-- The names of the directory itself and the one above it that some pieces
stand for, the one above it first. -/
def specialNames (tokens : List GlobToken) : List String :=
  if tokens.head? = some (.char '.') then
    ["..", "."].filter fun name => GlobToken.matchName tokens name.toList
  else []

section

variable {m : Type → Type} [Monad m]

/-- The paths that parts lead to from a spot.  The number bounds the parts
and the nested directories together. -/
def explore (view : View m) (onlyDirectories : Bool) :
    Nat → List GlobPart → Spot → m (List String)
  | 0, _, _ => return []
  | _ + 1, [], spot =>
    return if onlyDirectories && !spot.directory then [] else [spot.path]
  | bound + 1, .literal name :: rest, spot =>
    let path := spot.inside name
    if name = "." ∨ name = ".." then
      if spot.directory then explore view onlyDirectories bound rest ⟨path, true⟩
      else return []
    else do
      match ← view.isDirectory path with
      | some directory => explore view onlyDirectories bound rest ⟨path, directory⟩
      | none => return []
  | bound + 1, .wild tokens :: rest, spot =>
    if spot.directory then do
      let special ← (specialNames tokens).mapM fun name =>
        explore view onlyDirectories bound rest ⟨joinPath spot.path name, true⟩
      let found ← (← view.entries spot.path).mapM fun (name, directory) =>
        if (GlobPart.wild tokens).accepts name then
          explore view onlyDirectories bound rest ⟨spot.inside name, directory⟩
        else return []
      return special.flatten ++ found.flatten
    else return []
  | bound + 1, .directories :: rest, spot =>
    if spot.directory then do
      let after := rest.dropWhile (· = .directories)
      let found ← (← view.entries spot.path).mapM fun (name, directory) => do
        let entry : Spot := ⟨spot.inside name, directory⟩
        let here ← match after with
          | [] => if directory then explore view onlyDirectories bound [] entry
                  else pure []
          | part :: others =>
            if part.accepts name then explore view onlyDirectories bound others entry
            else pure []
        let below ← if directory then
            explore view onlyDirectories bound (.directories :: after) entry
          else pure []
        return here ++ below
      return found.flatten
    else return []

/-- More directories than can be nested. -/
def nestingBound : Nat := 4096

/-- The paths that a pattern stands for. -/
def Glob.search (view : View m) (glob : Glob) : m (List String) :=
  explore view glob.onlyDirectories (glob.parts.length + nestingBound) glob.parts
    ⟨if glob.rooted then "/" else ".", true⟩

end

end FunctionIR.Command
