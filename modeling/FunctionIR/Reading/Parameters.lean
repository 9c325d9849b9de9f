import FunctionIR.Reading.Expression

/-!
# Parameters

The parameters of a function are read one after the other into the groups of
an `arguments` node.  A slash turns the parameters before it into
positional-only ones; a star, with or without a name, makes the parameters
after it keyword-only.  A keyword-only parameter carries its default beside
it, present or absent.  Of the others, the defaults are those of the last
parameters, so one without a default may not follow one with.
-/

namespace FunctionIR.Reading

open Grammar (Phrase Place Rule)

/-- The parameters read so far. -/
structure Parameters where
  positionalOnly : List Value
  positional : List Value
  rest : Option Value
  keywordOnly : List Value
  /-- The default of each keyword-only parameter, absent or present. -/
  keywordDefaults : List Value
  keywords : Option Value
  /-- The defaults of the last positional parameters. -/
  defaults : List Value
  /-- A star has been read. -/
  starred : Bool

namespace Parameters

/-- No parameters. -/
def empty : Parameters := ⟨[], [], none, [], [], none, [], false⟩

/-- The node of the parameters. -/
def toNode (p : Parameters) : Numbered Value := do
  let head ← Numbered.head .arguments none none
  return .node head [
    ("posonlyargs", .list p.positionalOnly),
    ("args", .list p.positional),
    ("vararg", p.rest.getD .absent),
    ("kwonlyargs", .list p.keywordOnly),
    ("kw_defaults", .list p.keywordDefaults),
    ("kwarg", p.keywords.getD .absent),
    ("defaults", .list p.defaults)]

/-- A further parameter with its default, if these may follow the ones
before. -/
def addPlain (p : Parameters) (arg : Value) (default : Option Value) :
    Option Parameters :=
  if p.starred then
    some { p with
      keywordOnly := p.keywordOnly ++ [arg]
      keywordDefaults := p.keywordDefaults ++ [default.getD .absent] }
  else
    match default with
    | some value =>
      some { p with
        positional := p.positional ++ [arg]
        defaults := p.defaults ++ [value] }
    | none =>
      if p.defaults.isEmpty then
        some { p with positional := p.positional ++ [arg] }
      else none

/-- The slash after the positional-only parameters, if it may stand here. -/
def addSlash (p : Parameters) : Option Parameters :=
  if p.starred || !p.positionalOnly.isEmpty || p.positional.isEmpty then none
  else some { p with positionalOnly := p.positional, positional := [] }

end Parameters

/-- The parts of one parameter: its name, annotation and default. -/
structure ParameterParts where
  name : String
  annotated : Option Value
  default : Option Value

/-- The parts of one parameter, in order. -/
def parameterParts (file : String) :
    List Phrase → ParameterParts → Numbered ParameterParts
  | [], sofar => return sofar
  | .mk .identifier _ _ text _ :: rest, sofar =>
    parameterParts file rest { sofar with name := String.ofList text }
  | .mk .typeHint _ _ _ [inner] :: rest, sofar => do
    let value ← expression file inner
    parameterParts file rest { sofar with annotated := some value }
  | .mk .defaultValue _ _ _ [inner] :: rest, sofar => do
    let value ← expression file inner
    parameterParts file rest { sofar with default := some value }
  | phrase :: _, _ => misplaced file phrase

/-- The node of one parameter, and its default. -/
def parameter (file : String) (start stop : Place) (parts : List Phrase) :
    Numbered (Value × Option Value) := do
  let parts ← parameterParts file parts ⟨"", none, none⟩
  let head ← headAt file .arg start stop
  return (.node head
    [("arg", .str parts.name), ("annotation", parts.annotated.getD .absent),
     ("type_comment", .absent)], parts.default)

/-- The result of adding a parameter, or the cause why it cannot be added. -/
def allowed (file : String) (start stop : Place) (cause : SyntaxCause) :
    Option Parameters → Numbered Parameters
  | some p => return p
  | none =>
    throw (.badSyntax .error cause
      (some (locate file start)) (some (spanOf file start stop)))

/-- Read further parameters. -/
def parameters (file : String) :
    List Phrase → Parameters → Numbered Parameters
  | [], p => return p
  | .mk .positionalMarker start stop _ _ :: rest, p => do
    let p ← allowed file start stop .misplacedSlash p.addSlash
    parameters file rest p
  | .mk .plainParameter start stop _ parts :: rest, p => do
    let (arg, default) ← parameter file start stop parts
    let p ← allowed file start stop .defaultMissing (p.addPlain arg default)
    parameters file rest p
  | .mk .varargsParameter start stop _ parts :: rest, p => do
    let p ← allowed file start stop .secondStar (if p.starred then none else some p)
    if parts.isEmpty then parameters file rest { p with starred := true }
    else
      let (arg, _) ← parameter file start stop parts
      parameters file rest { p with starred := true, rest := some arg }
  | .mk .kwargsParameter start stop _ parts :: rest, p => do
    let (arg, _) ← parameter file start stop parts
    parameters file rest { p with keywords := some arg }
  | phrase :: _, _ => misplaced file phrase

end FunctionIR.Reading
