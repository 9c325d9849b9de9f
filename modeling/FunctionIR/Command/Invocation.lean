import FunctionIR.Translation.Translator

/-!
# The command line

An invocation is what a command line asks for: one of two tasks, and how much
is to be logged.  Options and operands may be mixed.  `-v` counts and may
stand anywhere, also before the task and together with other letters; where
it stands both before and behind the task, only those behind it count.  An
option with a value takes it after an equals sign, from the rest of its
cluster of letters, or from the next word, which may then not look like an
option itself.  After `--` every word is an operand; the task has to be named
before it.
-/

namespace FunctionIR.Command

/-- What can be asked for. -/
inductive Task where
  /-- Write the tree of a file. -/
  | parse (file : String) (output : Option String)
  /-- Translate the first function of every file. -/
  | translate (patterns : List String) (output : Option String)
      (config : Config) (summary : Bool)

/-- A command line that is understood. -/
structure Invocation where
  verbosity : Nat
  task : Task

/-- The words of a command line, sorted out. -/
structure Words where
  /-- How often `-v` stands before the task. -/
  before : Nat
  /-- How often it stands behind the task. -/
  behind : Nat
  task : Option String
  operands : List String
  /-- Options with a value, in the order given. -/
  values : List (String × String)
  /-- Options without a value, in the order given. -/
  flags : List String

namespace Words

/-- No words. -/
def empty : Words := ⟨0, 0, none, [], [], []⟩

/-- A word that is no option: the task, or else an operand. -/
def addOperand (words : Words) (word : String) : Words :=
  match words.task with
  | none => { words with task := some word }
  | some _ => { words with operands := words.operands ++ [word] }

/-- An option with its value. -/
def addValue (words : Words) (name value : String) : Words :=
  { words with values := words.values ++ [(name, value)] }

/-- One more step of verbosity. -/
def louder (words : Words) : Words :=
  match words.task with
  | none => { words with before := words.before + 1 }
  | some _ => { words with behind := words.behind + 1 }

/-- How much is to be logged. -/
def verbosity (words : Words) : Nat :=
  if words.behind = 0 then words.before else words.behind

end Words

/-- The options that take a value. -/
def valueOptions : List String := ["output", "separator", "max-depth"]

/-- The options that take none. -/
def flagOptions : List String := ["keep-decorator-lines", "summary"]

/-- The word looks like an option. -/
def looksLikeOption (word : String) : Bool :=
  word.startsWith "-" && word != "-"

/-- A cluster of letters after one dash; the result says whether its last
letter still wants a value. -/
def readCluster : List Char → Words → Option (Words × Bool)
  | [], words => some (words, false)
  | 'v' :: rest, words => readCluster rest words.louder
  | ['o'], words => some (words, true)
  | 'o' :: '=' :: value, words =>
    some (words.addValue "output" (String.ofList value), false)
  | 'o' :: value, words =>
    some (words.addValue "output" (String.ofList value), false)
  | _, _ => none

/-- The name of a long option, and its value if it has one attached. -/
def splitLong (word : String) : String × Option String :=
  let body := word.toList.drop 2
  let name := String.ofList (body.takeWhile (· ≠ '='))
  match body.dropWhile (· ≠ '=') with
  | [] => (name, none)
  | _ :: value => (name, some (String.ofList value))

/-- Sort out the words of a command line. -/
def readWords : List String → Words → Option Words
  | [], words => some words
  | word :: rest, words =>
    if word = "--" then
      if words.task = none then none else some (rest.foldl Words.addOperand words)
    else if word.startsWith "--" then
      match splitLong word with
      | ("verbose", none) => readWords rest words.louder
      | (name, none) =>
        if name ∈ flagOptions then
          readWords rest { words with flags := words.flags ++ [name] }
        else if name ∈ valueOptions then
          match rest with
          | [] => none
          | value :: rest =>
            if looksLikeOption value then none
            else readWords rest (words.addValue name value)
        else none
      | (name, some value) =>
        if name ∈ valueOptions then readWords rest (words.addValue name value)
        else none
    else if looksLikeOption word then
      match readCluster (word.toList.drop 1) words with
      | some (words, false) => readWords rest words
      | some (words, true) =>
        match rest with
        | [] => none
        | value :: rest =>
          if looksLikeOption value then none
          else readWords rest (words.addValue "output" value)
      | none => none
    else readWords rest (words.addOperand word)

/-- No option occurs twice. -/
def Words.distinct (words : Words) : Bool :=
  let names := words.values.map Prod.fst ++ words.flags
  names.eraseDups.length == names.length

/-- A count of 64 bits in decimal, a plus sign allowed. -/
def readCount (text : String) : Option Nat :=
  let digits := match text.toList with
    | '+' :: rest => rest
    | all => all
  if digits.isEmpty || !digits.all Char.isDigit then none
  else
    let value := digits.foldl (fun n c => n * 10 + (c.toNat - '0'.toNat)) 0
    if value < 1 <<< 64 then some value else none

/-- The limit of depth that the words ask for. -/
def Words.maxDepth (words : Words) : Option Nat :=
  match Members.get? "max-depth" words.values with
  | none => some Config.standard.maxDepth
  | some text => readCount text

/-- What the words ask for, if they fit together. -/
def Words.task? (words : Words) : Option Task :=
  let output := Members.get? "output" words.values
  match words.task, words.operands with
  | some "parse", [file] =>
    if words.flags.isEmpty && words.values.all (fun (name, _) => name == "output") then
      some (.parse file output)
    else none
  | some "translate", first :: others => do
    let maxDepth ← words.maxDepth
    let separator :=
      (Members.get? "separator" words.values).getD Config.standard.separator
    return .translate (first :: others) output
      { separator := separator
        maxDepth := maxDepth
        discountDecorators := !words.flags.contains "keep-decorator-lines" }
      (words.flags.contains "summary")
  | _, _ => none

/-- What a command line asks for, if it is understood. -/
def Invocation.ofArgs (args : List String) : Option Invocation := do
  let words ← readWords args .empty
  let task ← if words.distinct then words.task? else none
  return ⟨words.verbosity, task⟩

end FunctionIR.Command
