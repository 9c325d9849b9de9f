import FunctionIR.Command.Search
import FunctionIR.Json.Value

/-!
# Directories in memory

A snapshot is a directory with all that is in it.  Paths lead through it the
way they lead through a disk: an empty part of a path or a dot stays where it
is, two dots go up, and all three need a directory to start from.  Two dots
at the top and absolute paths lead to the surroundings of the snapshot, where
the directories are that every system has.

Only saving changes a snapshot; it needs the directory that the file is to be
in and refuses to replace a directory.  What is saved in the surroundings is
not remembered.
-/

namespace FunctionIR.Command

/-- Why a path cannot be read or written. -/
inductive Obstacle where
  | missing
  | notDirectory
  | isDirectory
  | nameTooLong
  | notText
deriving DecidableEq

/-- The obstacle in words. -/
def Obstacle.message : Obstacle → String
  | .missing => "No such file or directory (os error 2)"
  | .notDirectory => "Not a directory (os error 20)"
  | .isDirectory => "Is a directory (os error 21)"
  | .nameTooLong => "File name too long (os error 36)"
  | .notText => "stream did not contain valid UTF-8"

/-- What can be at a path. -/
inductive Entry where
  | file (bytes : ByteArray)
  | directory (entries : List (String × Entry))

namespace Entry

/-- The empty directory. -/
def empty : Entry := .directory []

/-- The entry is a directory. -/
def isDirectory : Entry → Bool
  | .directory _ => true
  | .file _ => false

/-- The entry that names lead to. -/
def at? : Entry → List String → Option Entry
  | entry, [] => some entry
  | .directory entries, name :: rest =>
    (Members.get? name entries).bind fun entry => entry.at? rest
  | .file _, _ :: _ => none

/-- The entry with another at the end of some names; directories on the way
that are not there are made. -/
def put (new : Entry) : List String → Entry → Entry
  | [], _ => new
  | name :: rest, .directory entries =>
    let old := (Members.get? name entries).getD empty
    .directory (Members.set name (put new rest old) entries)
  | name :: rest, .file _ => .directory [(name, put new rest empty)]

/-- What surrounds a snapshot: the directories that every system has,
without what differs between systems, and the device that is always empty. -/
def surroundings : Entry :=
  .directory (("dev", .directory [("null", .file .empty)]) ::
    ["bin", "etc", "home", "lib", "proc", "root", "run", "sbin", "sys", "tmp", "usr",
      "var"].map fun name => (name, empty))

end Entry

/-- Where a path leads. -/
inductive Reach where
  /-- Names in the snapshot. -/
  | inside (names : List String)
  /-- Names in its surroundings. -/
  | outside (names : List String)

namespace Reach

/-- What is there. -/
def entry? (root : Entry) : Reach → Option Entry
  | .inside names => root.at? names
  | .outside names => Entry.surroundings.at? names

/-- One directory up; nothing is above the surroundings. -/
def up : Reach → Reach
  | .inside [] => .outside []
  | .inside names => .inside names.dropLast
  | .outside names => .outside names.dropLast

/-- A name in the directory. -/
def into (name : String) : Reach → Reach
  | .inside names => .inside (names ++ [name])
  | .outside names => .outside (names ++ [name])

end Reach

/-- More bytes than the name of a file can have. -/
def nameBound : Nat := 256

/-- More bytes than a path can have. -/
def pathBound : Nat := 4096

namespace Entry

/-- Where the parts of a path lead from some place. -/
def walk (root : Entry) : Reach → List String → Except Obstacle Reach
  | reach, [] => .ok reach
  | reach, part :: rest =>
    match reach.entry? root with
    | none => .error .missing
    | some (.file _) => .error .notDirectory
    | some (.directory entries) =>
      if part = "" ∨ part = "." then root.walk reach rest
      else if part = ".." then root.walk reach.up rest
      else if nameBound ≤ part.utf8ByteSize then .error .nameTooLong
      else
        match Members.get? part entries with
        | none => .error .missing
        | some _ => root.walk (reach.into part) rest

/-- Where a path starts, and its parts. -/
def partsOf (path : String) : Except Obstacle (Reach × List String) :=
  if path = "" then .error .missing
  else if pathBound ≤ path.utf8ByteSize then .error .nameTooLong
  else .ok (if path.startsWith "/" then .outside [] else .inside [], path.splitOn "/")

/-- What is at a path. -/
def find (root : Entry) (path : String) : Except Obstacle Entry := do
  let (start, parts) ← partsOf path
  let reach ← root.walk start parts
  match reach.entry? root with
  | some entry => return entry
  | none => throw .missing

/-- The text of the file at a path. -/
def readText (root : Entry) (path : String) : Except Obstacle String := do
  match ← root.find path with
  | .directory _ => throw .isDirectory
  | .file bytes =>
    match String.fromUTF8? bytes with
    | some text => return text
    | none => throw .notText

/-- The snapshot after a text is saved at a path. -/
def save (path text : String) (root : Entry) : Except Obstacle Entry := do
  let (start, parts) ← partsOf path
  let parts := parts.reverse
  let name := (parts.dropWhile (· = "")).headD ""
  let reach ← root.walk start ((parts.dropWhile (· = "")).drop 1).reverse
  match reach.entry? root with
  | some (.directory entries) =>
    if parts.head? = some "" ∨ name = "." ∨ name = ".." then throw .isDirectory
    if nameBound ≤ name.utf8ByteSize then throw .nameTooLong
    if ((Members.get? name entries).map isDirectory).getD false then
      throw .isDirectory
    match reach with
    | .inside names => return put (.file text.toUTF8) (names ++ [name]) root
    | .outside _ => return root
  | _ => throw .notDirectory

/-- The snapshot as it is looked at in a search. -/
def view (root : Entry) : View Id where
  isDirectory path :=
    match root.find path with
    | .ok entry => some entry.isDirectory
    | .error _ => none
  entries path :=
    match root.find path with
    | .ok (.directory entries) =>
      (entries.map fun (name, entry) => (name, entry.isDirectory)).mergeSort
        fun a b => decide (a.1 ≤ b.1)
    | _ => []

end Entry

end FunctionIR.Command
