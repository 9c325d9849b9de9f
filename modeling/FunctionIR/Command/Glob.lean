/-!
# Glob patterns

A pattern for paths: `?` stands for any character, `*` for any run of
characters, brackets for one character of a set or, after `!`, outside it,
and `**` as a whole part of a path for any number of directories.  A leading
dot is a character like any other.

A pattern is checked as a whole before it is taken apart at its slashes, and
then part by part, because brackets may hold a slash as a whole that they
cannot hold in a part.
-/

namespace FunctionIR.Command

/-- Characters between brackets. -/
inductive GlobRange where
  | single (c : Char)
  | range (first last : Char)
deriving DecidableEq

/-- The character is one of those. -/
def GlobRange.holds : GlobRange → Char → Bool
  | .single d, c => c == d
  | .range first last, c => first ≤ c && c ≤ last

/-- A piece of a pattern. -/
inductive GlobToken where
  | char (c : Char)
  | anyChar
  | anyRun
  /-- Any number of directories. -/
  | anyDirectories
  | within (ranges : List GlobRange)
  | outside (ranges : List GlobRange)
deriving DecidableEq

/-- Why and where a pattern is wrong. -/
structure GlobError where
  position : Nat
  reason : String

/-- The error in words. -/
def GlobError.message (e : GlobError) : String :=
  "Pattern syntax error near position " ++ toString e.position ++ ": " ++ e.reason

/-- The characters between two brackets. -/
def GlobRange.readAll : List Char → List GlobRange
  | first :: '-' :: last :: rest => .range first last :: GlobRange.readAll rest
  | c :: rest => .single c :: GlobRange.readAll rest
  | [] => []

/-- The set in brackets, from after the opening one, with how many characters
it takes up with its closing bracket.  A closing bracket that comes first
belongs to the set. -/
def GlobToken.readSet (rest : List Char) : Option (GlobToken × Nat) :=
  match rest with
  | '!' :: first :: more =>
    if more.contains ']' then
      let inside := first :: more.takeWhile (· ≠ ']')
      some (.outside (GlobRange.readAll inside), inside.length + 2)
    else none
  | first :: more =>
    if first ≠ '!' && more.contains ']' then
      let inside := first :: more.takeWhile (· ≠ ']')
      some (.within (GlobRange.readAll inside), inside.length + 1)
    else none
  | [] => none

/-- The pieces of a pattern from a position on, after the character
`before`.  The first argument bounds the pieces; a pattern has no more than
characters. -/
def GlobToken.readFrom : Nat → Nat → Option Char → List Char →
    Except GlobError (List GlobToken)
  | 0, _, _, _ => .ok []
  | _ + 1, _, _, [] => .ok []
  | bound + 1, position, before, c :: rest =>
    match c with
    | '?' => do
      let tokens ← GlobToken.readFrom bound (position + 1) (some c) rest
      return .anyChar :: tokens
    | '*' =>
      let more := rest.takeWhile (· = '*')
      let rest := rest.dropWhile (· = '*')
      match more.length with
      | 0 => do
        let tokens ← GlobToken.readFrom bound (position + 1) (some c) rest
        return .anyRun :: tokens
      | 1 =>
        if before ≠ none ∧ before ≠ some '/' then
          .error ⟨position - 1, "recursive wildcards must form a single path component"⟩
        else
          match rest with
          | [] => .ok [.anyDirectories]
          | '/' :: rest => do
            let tokens ← GlobToken.readFrom bound (position + 3) (some '/') rest
            return .anyDirectories :: tokens
          | _ => .error
              ⟨position + 2, "recursive wildcards must form a single path component"⟩
      | _ => .error
          ⟨position + 2, "wildcards are either regular `*` or recursive `**`"⟩
    | '[' =>
      match GlobToken.readSet rest with
      | none => .error ⟨position, "invalid range pattern"⟩
      | some (token, length) => do
        let tokens ← GlobToken.readFrom bound (position + 1 + length) (some ']')
          (rest.drop length)
        return token :: tokens
    | c => do
      let tokens ← GlobToken.readFrom bound (position + 1) (some c) rest
      return .char c :: tokens

/-- The pieces of a pattern. -/
def GlobToken.read (pattern : List Char) : Except GlobError (List GlobToken) :=
  GlobToken.readFrom pattern.length 0 none pattern

/-- Some text after a run of any length is accepted. -/
def anySuffix (accepts : List Char → Bool) : List Char → Bool
  | [] => accepts []
  | c :: rest => accepts (c :: rest) || anySuffix accepts rest

/-- The pieces match a name as a whole. -/
def GlobToken.matchName : List GlobToken → List Char → Bool
  | [], name => name.isEmpty
  | .anyRun :: tokens, name => anySuffix (GlobToken.matchName tokens) name
  | .anyDirectories :: tokens, name => anySuffix (GlobToken.matchName tokens) name
  | .char d :: tokens, c :: name => c == d && GlobToken.matchName tokens name
  | .anyChar :: tokens, _ :: name => GlobToken.matchName tokens name
  | .within ranges :: tokens, c :: name =>
    ranges.any (·.holds c) && GlobToken.matchName tokens name
  | .outside ranges :: tokens, c :: name =>
    !ranges.any (·.holds c) && GlobToken.matchName tokens name
  | _ :: _, [] => false

/-- A part of a path pattern. -/
inductive GlobPart where
  /-- Exactly this name. -/
  | literal (name : String)
  /-- The names that these pieces match. -/
  | wild (tokens : List GlobToken)
  /-- Any number of directories. -/
  | directories
deriving DecidableEq

/-- The part that some pieces make. -/
def GlobPart.ofTokens (tokens : List GlobToken) : GlobPart :=
  if tokens.contains .anyDirectories then .directories
  else
    let chars := tokens.filterMap fun token =>
      match token with
      | .char c => some c
      | _ => none
    if chars.length = tokens.length then .literal (String.ofList chars)
    else .wild tokens

/-- A pattern for paths. -/
structure Glob where
  /-- The pattern starts at the root. -/
  rooted : Bool
  parts : List GlobPart
  /-- The pattern ends with a slash: only directories match. -/
  onlyDirectories : Bool

/-- The text has a character that only patterns have. -/
def Glob.isPattern (text : String) : Bool :=
  text.toList.any fun c => c == '*' || c == '?' || c == '['

/-- The parts of a text between slashes, without an empty one at its end. -/
def splitAtSlashes (text : String) : List String :=
  let parts := text.splitOn "/"
  if parts.getLast? = some "" then parts.dropLast else parts

/-- The pattern that a text stands for. -/
def Glob.ofText (text : String) : Except GlobError Glob := do
  let _ ← GlobToken.read text.toList
  let rooted := text.startsWith "/"
  let inside := String.ofList (text.toList.dropWhile (· = '/'))
  let parts ← (splitAtSlashes inside).mapM fun part => do
    let tokens ← GlobToken.read part.toList
    return GlobPart.ofTokens tokens
  return ⟨rooted, parts, text.endsWith "/"⟩

end FunctionIR.Command
