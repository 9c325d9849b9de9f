import FunctionIR.Proofs.Grammar.Formation
import FunctionIR.Proofs.Reading.Storing
import FunctionIR.Source

/-!
# What reading finds in statements

Statements are read with targets, parameters and expressions in them.  What is
found is told by relations again, one rule for each equation of the reading:
for targets, for statements without a body, for the parameters of a function,
and for statements of all kinds with the lists of phrases inside them
(`StatementFinds`).  That they hold of every reading is `finds_statements`.
-/

namespace FunctionIR

/-- Nothing is asked of the places. -/
theorem Grammar.Phrase.all_trivial (phrase : Phrase) : phrase.All fun _ => True := by
  obtain ⟨_, _, _, _, _⟩ := phrase
  exact .mk trivial trivial fun part _ => part.all_trivial
termination_by sizeOf phrase

namespace Reading

open Numbered
open Grammar (Phrase Place Rule)

variable {file : String} {start stop : Place} {c d : Nat}

/-! ### Targets -/

/-- A target is an expression that is stored. -/
inductive FindsTarget (file : String) : Nat → Phrase → Value → Nat → Prop
  | mk {c c' d : Nat} {phrase : Phrase} {value target : Value} :
      Finds file c (.expression phrase value) c' → Stores c' value target d →
      FindsTarget file c phrase target d

/-- The targets of an assignment, and the phrase of its value. -/
inductive FindsTargets (file : String) : Nat → List Phrase → List Value → Phrase → Nat → Prop
  | value {c : Nat} {phrase : Phrase} : FindsTargets file c [phrase] [] phrase c
  | target {c c' d : Nat} {first next value : Phrase} {rest : List Phrase} {target : Value}
      {targets : List Value} :
      FindsTarget file c first target c' →
      FindsTargets file c' (next :: rest) targets value d →
      FindsTargets file c (first :: next :: rest) (target :: targets) value d

/-- A target is found for its phrase. -/
theorem finds_target {phrase : Phrase} {value : Value}
    (h : (target file phrase).runFrom c = (.ok value, d)) :
    FindsTarget file c phrase value d := by
  obtain ⟨found, c', hfound, hstore⟩ := runFrom_bind h
  have hnames := store_names found
    (expression_fits phrase phrase.all_trivial c found c' hfound) c'
  rw [hstore] at hnames
  cases hoffenders : found.offenders with
  | nil =>
      rw [hoffenders] at hnames
      exact .mk (finds_expression phrase hfound) hnames
  | cons first rest =>
      rw [hoffenders] at hnames
      exact hnames.elim

/-- Targets are found for the phrases before the last. -/
theorem finds_targets (phrases : List Phrase) {c d : Nat} {targets : List Value} {value : Phrase}
    (h : (assignmentTargets file phrases).runFrom c = (.ok (targets, [value]), d)) :
    FindsTargets file c phrases targets value d := by
  induction phrases generalizing c targets with
  | nil => cases h
  | cons first rest ih =>
      cases rest with
      | nil =>
          cases h
          exact .value
      | cons next rest =>
          obtain ⟨target, _, htarget, h⟩ := runFrom_bind h
          obtain ⟨⟨others, left⟩, _, hrest, h⟩ := runFrom_bind h
          cases h
          exact .target (finds_target htarget) (ih hrest)

/-! ### Statements without a body -/

/-- The kind of a statement that is a single word. -/
def wordKind : Rule → Option Kind
  | .passStatement => some .passStmt
  | .breakStatement => some .breakStmt
  | .continueStatement => some .continueStmt
  | _ => none

/-- The node of a statement without a body. -/
inductive FindsSimple (file : String) : Nat → Phrase → Value → Nat → Prop
  | word {c : Nat} {rule : Rule} {kind : Kind} {start stop : Place} {text : List Char}
      {parts : List Phrase} :
      wordKind rule = some kind →
      FindsSimple file c (.mk rule start stop text parts)
        (.node (placedHead file c kind start stop) []) (c + 1)
  | returned {c : Nat} {start stop : Place} {text : List Char} :
      FindsSimple file c (.mk .returnStatement start stop text [])
        (.node (placedHead file c .returnStmt start stop) [("value", .absent)]) (c + 1)
  | returnedValue {c d : Nat} {start stop : Place} {text : List Char} {phrase : Phrase}
      {value : Value} :
      Finds file c (.expression phrase value) d →
      FindsSimple file c (.mk .returnStatement start stop text [phrase])
        (.node (placedHead file d .returnStmt start stop) [("value", value)]) (d + 1)
  | assigned {c c' d : Nat} {start stop : Place} {text : List Char} {parts : List Phrase}
      {phrase : Phrase} {targets : List Value} {value : Value} :
      FindsTargets file c parts targets phrase c' →
      Finds file c' (.expression phrase value) d →
      FindsSimple file c (.mk .assignment start stop text parts)
        (.node (placedHead file d .assign start stop)
          [("targets", .list targets), ("value", value), ("type_comment", .absent)]) (d + 1)
  | augmented {c c' d : Nat} {start stop : Place} {text : List Char}
      {first token second : Phrase} {op : BinaryOp} {target value : Value} :
      BinaryOp.ofToken (String.ofList token.text.dropLast) = some op →
      FindsTarget file c first target c' →
      Finds file c' (.expression second value) d →
      FindsSimple file c (.mk .augAssignment start stop text [first, token, second])
        (.node (placedHead file d .augAssign start stop)
          [("target", target), ("op", bareNode (d + 1) (.binary op)), ("value", value)]) (d + 2)
  | evaluated {c d : Nat} {start stop : Place} {text : List Char} {phrase : Phrase}
      {value : Value} :
      Finds file c (.expression phrase value) d →
      FindsSimple file c (.mk .expressionStatement start stop text [phrase])
        (.node (placedHead file d .exprStmt start stop) [("value", value)]) (d + 1)

/-- The nodes of several of them. -/
inductive FindsSimples (file : String) : Nat → List Phrase → List Value → Nat → Prop
  | nil {c : Nat} : FindsSimples file c [] [] c
  | cons {c c' d : Nat} {phrase : Phrase} {rest : List Phrase} {statement : Value}
      {statements : List Value} :
      FindsSimple file c phrase statement c' → FindsSimples file c' rest statements d →
      FindsSimples file c (phrase :: rest) (statement :: statements) d

/-- A simple statement is found for its phrase. -/
theorem finds_simple (phrase : Phrase) {statement : Value}
    (h : (simpleStatement file phrase).runFrom c = (.ok statement, d)) :
    FindsSimple file c phrase statement d := by
  rw [simpleStatement.eq_def] at h
  split at h
  next =>
    cases h
    exact .word rfl
  next =>
    cases h
    exact .word rfl
  next =>
    cases h
    exact .word rfl
  next =>
    cases h
    exact .returned
  next phrase =>
    obtain ⟨value, _, hvalue, h⟩ := runFrom_bind h
    cases h
    exact .returnedValue (finds_expression phrase hvalue)
  next parts =>
    obtain ⟨⟨targets, left⟩, _, htargets, h⟩ := runFrom_bind h
    split at h
    next phrase heq =>
      cases heq
      obtain ⟨value, _, hvalue, h⟩ := runFrom_bind h
      cases h
      exact .assigned (finds_targets parts htargets) (finds_expression phrase hvalue)
    next => cases h
  next first token second =>
    obtain ⟨target, _, htarget, h⟩ := runFrom_bind h
    obtain ⟨value, _, hvalue, h⟩ := runFrom_bind h
    split at h
    next op hop =>
      cases h
      exact .augmented hop (finds_target htarget) (finds_expression second hvalue)
    next => cases h
  next phrase =>
    obtain ⟨value, _, hvalue, h⟩ := runFrom_bind h
    cases h
    exact .evaluated (finds_expression phrase hvalue)
  next => cases h

/-- Simple statements, one after the other. -/
theorem finds_simples (phrases : List Phrase) {c d : Nat} {found : List Value}
    (h : (simpleStatements file phrases).runFrom c = (.ok found, d)) :
    FindsSimples file c phrases found d := by
  induction phrases generalizing c found with
  | nil =>
      cases h
      exact .nil
  | cons phrase rest ih =>
      obtain ⟨statement, _, hstatement, h⟩ := runFrom_bind h
      obtain ⟨statements, _, hstatements, h⟩ := runFrom_bind h
      cases h
      exact .cons (finds_simple phrase hstatement) (ih hstatements)

/-! ### Parameters -/

/-- What a further parameter does to those before: behind a star it comes with
its default or without one, and before it the defaults are those of the last
ones. -/
theorem Parameters.addPlain_eq_some {p q : Parameters} {arg : Value} {default : Option Value}
    (h : p.addPlain arg default = some q) :
    (p.starred = true ∧ q = { p with
        keywordOnly := p.keywordOnly ++ [arg]
        keywordDefaults := p.keywordDefaults ++ [default.getD .absent] }) ∨
      (p.starred = false ∧ ∃ value, default = some value ∧ q = { p with
        positional := p.positional ++ [arg], defaults := p.defaults ++ [value] }) ∨
      (p.starred = false ∧ default = none ∧ p.defaults = [] ∧
        q = { p with positional := p.positional ++ [arg] }) := by
  unfold Parameters.addPlain at h
  split at h
  next hstarred =>
    cases h
    exact .inl ⟨hstarred, rfl⟩
  next hstarred =>
    have hfalse := Bool.eq_false_iff.mpr hstarred
    cases default with
    | some value =>
        cases h
        exact .inr (.inl ⟨hfalse, value, rfl, rfl⟩)
    | none =>
        obtain ⟨hdefaults, ⟨⟩⟩ := Option.ite_none_right_eq_some.mp h
        exact .inr (.inr ⟨hfalse, rfl, List.isEmpty_iff.mp hdefaults, rfl⟩)

/-- The slash comes once, behind some parameters and before a star. -/
theorem Parameters.addSlash_eq_some {p q : Parameters} (h : p.addSlash = some q) :
    p.starred = false ∧ p.positionalOnly = [] ∧
      q = { p with positionalOnly := p.positional, positional := [] } := by
  obtain ⟨hallowed, ⟨⟩⟩ := Option.ite_none_left_eq_some.mp h
  simp only [Bool.or_eq_true, Bool.not_eq_true', not_or, Bool.not_eq_false,
    List.isEmpty_iff] at hallowed
  exact ⟨Bool.eq_false_iff.mpr hallowed.1.1, hallowed.1.2, rfl⟩

/-- The node of a parameter with its head. -/
def ParameterParts.node (parts : ParameterParts) (head : Head) : Value :=
  .node head
    [("arg", .str parts.name), ("annotation", parts.annotated.getD .absent),
     ("type_comment", .absent)]

/-- The fields of the node of parameters. -/
def Parameters.fields (p : Parameters) : Fields :=
  [("posonlyargs", .list p.positionalOnly), ("args", .list p.positional),
   ("vararg", p.rest.getD .absent), ("kwonlyargs", .list p.keywordOnly),
   ("kw_defaults", .list p.keywordDefaults), ("kwarg", p.keywords.getD .absent),
   ("defaults", .list p.defaults)]

/-- The node of parameters with its number. -/
def Parameters.node (p : Parameters) (id : Nat) : Value :=
  .node ⟨id, .arguments, none, none⟩ p.fields

/-- What is found of one parameter, beginning with what was. -/
inductive FindsParts (file : String) :
    Nat → List Phrase → ParameterParts → ParameterParts → Nat → Prop
  | done {c : Nat} {sofar : ParameterParts} : FindsParts file c [] sofar sofar c
  | name {c d : Nat} {start stop : Place} {text : List Char} {inside rest : List Phrase}
      {sofar parts : ParameterParts} :
      FindsParts file c rest { sofar with name := String.ofList text } parts d →
      FindsParts file c (.mk .identifier start stop text inside :: rest) sofar parts d
  | hint {c c' d : Nat} {start stop : Place} {text : List Char} {inner : Phrase}
      {rest : List Phrase} {value : Value} {sofar parts : ParameterParts} :
      (expression file inner).runFrom c = (.ok value, c') →
      FindsParts file c' rest { sofar with annotated := some value } parts d →
      FindsParts file c (.mk .typeHint start stop text [inner] :: rest) sofar parts d
  | default {c c' d : Nat} {start stop : Place} {text : List Char} {inner : Phrase}
      {rest : List Phrase} {value : Value} {sofar parts : ParameterParts} :
      (expression file inner).runFrom c = (.ok value, c') →
      FindsParts file c' rest { sofar with default := some value } parts d →
      FindsParts file c (.mk .defaultValue start stop text [inner] :: rest) sofar parts d

/-- The node of one parameter, and its default. -/
inductive FindsParameter (file : String) :
    Nat → Place → Place → List Phrase → Value → Option Value → Nat → Prop
  | mk {c d : Nat} {start stop : Place} {phrases : List Phrase} {parts : ParameterParts} :
      FindsParts file c phrases ⟨"", none, none⟩ parts d →
      FindsParameter file c start stop phrases
        (parts.node (placedHead file d .arg start stop)) parts.default (d + 1)

/-- What is found of the parameters, beginning with those that were. -/
inductive FindsParameters (file : String) :
    Nat → List Phrase → Parameters → Parameters → Nat → Prop
  | done {c : Nat} {p : Parameters} : FindsParameters file c [] p p c
  | slash {c d : Nat} {start stop : Place} {text : List Char} {parts rest : List Phrase}
      {p q r : Parameters} :
      p.addSlash = some q → FindsParameters file c rest q r d →
      FindsParameters file c (.mk .positionalMarker start stop text parts :: rest) p r d
  | plain {c c' d : Nat} {start stop : Place} {text : List Char} {parts rest : List Phrase}
      {arg : Value} {default : Option Value} {p q r : Parameters} :
      FindsParameter file c start stop parts arg default c' →
      p.addPlain arg default = some q → FindsParameters file c' rest q r d →
      FindsParameters file c (.mk .plainParameter start stop text parts :: rest) p r d
  | star {c d : Nat} {start stop : Place} {text : List Char} {rest : List Phrase}
      {p r : Parameters} :
      p.starred = false → FindsParameters file c rest { p with starred := true } r d →
      FindsParameters file c (.mk .varargsParameter start stop text [] :: rest) p r d
  | varargs {c c' d : Nat} {start stop : Place} {text : List Char} {parts rest : List Phrase}
      {arg : Value} {default : Option Value} {p r : Parameters} :
      p.starred = false → parts ≠ [] → FindsParameter file c start stop parts arg default c' →
      FindsParameters file c' rest { p with starred := true, rest := some arg } r d →
      FindsParameters file c (.mk .varargsParameter start stop text parts :: rest) p r d
  | kwargs {c c' d : Nat} {start stop : Place} {text : List Char} {parts rest : List Phrase}
      {arg : Value} {default : Option Value} {p r : Parameters} :
      FindsParameter file c start stop parts arg default c' →
      FindsParameters file c' rest { p with keywords := some arg } r d →
      FindsParameters file c (.mk .kwargsParameter start stop text parts :: rest) p r d

/-- The parts of a parameter, one after the other. -/
theorem finds_parts (phrases : List Phrase) {c d : Nat} {sofar parts : ParameterParts}
    (h : (parameterParts file phrases sofar).runFrom c = (.ok parts, d)) :
    FindsParts file c phrases sofar parts d := by
  induction phrases generalizing c sofar with
  | nil =>
      cases h
      exact .done
  | cons phrase rest ih =>
      rw [parameterParts.eq_def] at h
      split at h
      next heq => cases heq
      next heq =>
        cases heq
        exact .name (ih h)
      next heq =>
        cases heq
        obtain ⟨value, _, hvalue, h⟩ := runFrom_bind h
        exact .hint hvalue (ih h)
      next heq =>
        cases heq
        obtain ⟨value, _, hvalue, h⟩ := runFrom_bind h
        exact .default hvalue (ih h)
      next => cases h

/-- A parameter is found for its parts. -/
theorem finds_parameter {phrases : List Phrase} {arg : Value} {default : Option Value}
    (h : (parameter file start stop phrases).runFrom c = (.ok (arg, default), d)) :
    FindsParameter file c start stop phrases arg default d := by
  obtain ⟨parts, _, hparts, h⟩ := runFrom_bind h
  cases h
  exact .mk (finds_parts phrases hparts)

/-- What is allowed is what was to be added. -/
theorem run_allowed {cause : SyntaxCause} {added : Option Parameters} {p : Parameters}
    (h : (allowed file start stop cause added).runFrom c = (.ok p, d)) :
    added = some p ∧ d = c := by
  cases added with
  | none => cases h
  | some q =>
      cases h
      exact ⟨rfl, rfl⟩

/-- A star is allowed where there was none. -/
theorem run_allowed_star {cause : SyntaxCause} {p q : Parameters}
    (h : (allowed file start stop cause (if p.starred then none else some p)).runFrom c =
      (.ok q, d)) : p.starred = false ∧ q = p ∧ d = c := by
  obtain ⟨hadded, rfl⟩ := run_allowed h
  cases hstarred : p.starred with
  | true => simp [hstarred] at hadded
  | false => exact ⟨rfl, by simpa [hstarred] using hadded.symm, rfl⟩

/-- Parameters, one after the other. -/
theorem finds_parameters (phrases : List Phrase) {c d : Nat} {p q : Parameters}
    (h : (parameters file phrases p).runFrom c = (.ok q, d)) :
    FindsParameters file c phrases p q d := by
  induction phrases generalizing c p with
  | nil =>
      cases h
      exact .done
  | cons phrase rest ih =>
      rw [parameters.eq_def] at h
      split at h
      next heq => cases heq
      next heq =>
        cases heq
        obtain ⟨p', _, hallowed, hread⟩ := runFrom_bind h
        obtain ⟨hadded, rfl⟩ := run_allowed hallowed
        exact .slash hadded (ih hread)
      next heq =>
        cases heq
        obtain ⟨⟨arg, default⟩, _, harg, h⟩ := runFrom_bind h
        obtain ⟨p', _, hallowed, hread⟩ := runFrom_bind h
        obtain ⟨hadded, rfl⟩ := run_allowed hallowed
        exact .plain (finds_parameter harg) hadded (ih hread)
      next parts _ heq =>
        cases heq
        obtain ⟨p', _, hallowed, hread⟩ := runFrom_bind h
        obtain ⟨hstarred, rfl, rfl⟩ := run_allowed_star hallowed
        cases parts with
        | nil => exact .star hstarred (ih hread)
        | cons part parts =>
            obtain ⟨⟨arg, default⟩, _, harg, hread⟩ := runFrom_bind hread
            exact .varargs hstarred (List.cons_ne_nil _ _) (finds_parameter harg) (ih hread)
      next heq =>
        cases heq
        obtain ⟨⟨arg, default⟩, _, harg, h⟩ := runFrom_bind h
        exact .kwargs (finds_parameter harg) (ih h)
      next => cases h

/-! ### Statements -/

/-- The parameters of a function, which may have none. -/
def FunctionParts.parameters (parts : FunctionParts) : Numbered Value :=
  match parts.arguments with
  | some arguments => pure arguments
  | none => Parameters.empty.toNode

/-- The node of a function with its head. -/
def FunctionParts.node (parts : FunctionParts) (decorators : List Value) (arguments : Value)
    (head : Head) : Value :=
  .node head
    [("name", .str parts.name), ("args", arguments), ("body", .list parts.body),
     ("decorator_list", .list decorators),
     ("returns", parts.returns.getD .absent), ("type_comment", .absent)]

/-- The parameters come first. -/
theorem FunctionParts.toNode_eq (parts : FunctionParts) (decorators : List Value) :
    parts.toNode file decorators start stop = do
      let arguments ← parts.parameters
      let head ← headAt file .functionDef start stop
      return parts.node decorators arguments head := by
  rw [FunctionParts.toNode, FunctionParts.parameters]
  cases parts.arguments <;> rfl

/-- What is read, and what it is read as. -/
inductive StatementFinding where
  | statements (phrase : Phrase) (values : List Value)
  | all (phrases : List Phrase) (values : List Value)
  /-- A function, and the decorators before it. -/
  | decorated (phrases : List Phrase) (decorators values : List Value)
  /-- The parts of a function, beginning with those that were. -/
  | parts (phrases : List Phrase) (sofar parts : FunctionParts)

/-- The parameters of a function, which may have none. -/
inductive FindsArguments : Nat → Option Value → Value → Nat → Prop
  | given {c : Nat} {arguments : Value} : FindsArguments c (some arguments) arguments c
  | none {c : Nat} : FindsArguments c none (Parameters.empty.node c) (c + 1)

/-- The node of a function with its parts, after decorators. -/
inductive FindsFunction (file : String) :
    Nat → Place → Place → List Value → FunctionParts → Value → Nat → Prop
  | mk {c d : Nat} {start stop : Place} {decorators : List Value} {parts : FunctionParts}
      {arguments : Value} :
      FindsArguments c parts.arguments arguments d →
      FindsFunction file c start stop decorators parts
        (parts.node decorators arguments (placedHead file d .functionDef start stop)) (d + 1)

/-- A rule whose phrase stands for the statements of its part. -/
def wrapsStatements : Rule → Bool
  | .statement | .elseClause | .elseBlock | .loopElse => true
  | _ => false

/-- The kind of a statement that has a condition. -/
def conditionKind : Rule → Option Kind
  | .ifStatement | .elifClause => some .ifStmt
  | .whileStatement => some .whileStmt
  | _ => none

/-- What has a condition and a body is a branch or a loop. -/
theorem rule_of_condition {rule : Rule} {kind : Kind} (h : conditionKind rule = some kind) :
    rule = .ifStatement ∨ rule = .elifClause ∨ rule = .whileStatement := by
  unfold conditionKind at h
  split at h <;> cases h <;> simp

/-- From the one counter to the other, reading finds. -/
inductive StatementFinds (file : String) : Nat → StatementFinding → Nat → Prop
  | passed {c d : Nat} {rule : Rule} {start stop : Place} {text : List Char} {inner : Phrase}
      {values : List Value} :
      wrapsStatements rule = true → StatementFinds file c (.statements inner values) d →
      StatementFinds file c (.statements (.mk rule start stop text [inner]) values) d
  | simple {c d : Nat} {start stop : Place} {text : List Char} {parts : List Phrase}
      {values : List Value} :
      FindsSimples file c parts values d →
      StatementFinds file c (.statements (.mk .simpleStatements start stop text parts) values) d
  | block {c d : Nat} {start stop : Place} {text : List Char} {parts : List Phrase}
      {values : List Value} :
      StatementFinds file c (.all parts values) d →
      StatementFinds file c (.statements (.mk .block start stop text parts) values) d
  | decorated {c d : Nat} {start stop : Place} {text : List Char} {parts : List Phrase}
      {values : List Value} :
      StatementFinds file c (.decorated parts [] values) d →
      StatementFinds file c (.statements (.mk .decorated start stop text parts) values) d
  | function {c c' d : Nat} {start stop : Place} {text : List Char} {phrases : List Phrase}
      {parts : FunctionParts} {function : Value} :
      StatementFinds file c (.parts phrases ⟨"", none, none, []⟩ parts) c' →
      FindsFunction file c' start stop [] parts function d →
      StatementFinds file c (.statements (.mk .functionDef start stop text phrases) [function]) d
  | conditional {c c' c'' d : Nat} {rule : Rule} {kind : Kind} {start stop : Place}
      {text : List Char} {first second : Phrase} {rest : List Phrase} {test : Value}
      {body orelse : List Value} :
      conditionKind rule = some kind →
      StatementFinds file c (.all rest orelse) c' →
      Finds file (c' + 1) (.expression first test) c'' →
      StatementFinds file c'' (.statements second body) d →
      StatementFinds file c (.statements (.mk rule start stop text (first :: second :: rest))
        [.node (placedHead file c' kind start stop)
          [("test", test), ("body", .list body), ("orelse", .list orelse)]]) d
  | loop {c c' c'' c''' d : Nat} {start stop : Place} {text : List Char}
      {first second third : Phrase} {rest : List Phrase} {target iter : Value}
      {body orelse : List Value} :
      StatementFinds file c (.all rest orelse) c' →
      FindsTarget file (c' + 1) first target c'' →
      Finds file c'' (.expression second iter) c''' →
      StatementFinds file c''' (.statements third body) d →
      StatementFinds file c
        (.statements (.mk .forStatement start stop text (first :: second :: third :: rest))
          [.node (placedHead file c' .forStmt start stop)
            [("target", target), ("iter", iter), ("body", .list body),
             ("orelse", .list orelse), ("type_comment", .absent)]]) d
  | nothing {c : Nat} : StatementFinds file c (.all [] []) c
  | next {c c' d : Nat} {phrase : Phrase} {rest : List Phrase} {first others : List Value} :
      StatementFinds file c (.statements phrase first) c' →
      StatementFinds file c' (.all rest others) d →
      StatementFinds file c (.all (phrase :: rest) (first ++ others)) d
  | decorator {c c' d : Nat} {start stop : Place} {text : List Char} {inner : Phrase}
      {rest : List Phrase} {decorator : Value} {decorators values : List Value} :
      Finds file c (.expression inner decorator) c' →
      StatementFinds file c' (.decorated rest (decorators ++ [decorator]) values) d →
      StatementFinds file c
        (.decorated (.mk .decorator start stop text [inner] :: rest) decorators values) d
  | decoratedFunction {c c' d : Nat} {start stop : Place} {text : List Char}
      {phrases rest : List Phrase} {decorators : List Value} {parts : FunctionParts}
      {function : Value} :
      StatementFinds file c (.parts phrases ⟨"", none, none, []⟩ parts) c' →
      FindsFunction file c' start stop decorators parts function d →
      StatementFinds file c
        (.decorated (.mk .functionDef start stop text phrases :: rest) decorators [function]) d
  | undecorated {c : Nat} {decorators : List Value} :
      StatementFinds file c (.decorated [] decorators []) c
  | done {c : Nat} {sofar : FunctionParts} : StatementFinds file c (.parts [] sofar sofar) c
  | name {c d : Nat} {start stop : Place} {text : List Char} {inside rest : List Phrase}
      {sofar parts : FunctionParts} :
      StatementFinds file c (.parts rest { sofar with name := String.ofList text } parts) d →
      StatementFinds file c
        (.parts (.mk .identifier start stop text inside :: rest) sofar parts) d
  | parameters {c c' d : Nat} {start stop : Place} {text : List Char}
      {phrases rest : List Phrase} {p : Parameters} {sofar parts : FunctionParts} :
      FindsParameters file c phrases .empty p c' →
      StatementFinds file (c' + 1)
        (.parts rest { sofar with arguments := some (p.node c') } parts) d →
      StatementFinds file c
        (.parts (.mk .parameters start stop text phrases :: rest) sofar parts) d
  | returns {c c' d : Nat} {start stop : Place} {text : List Char} {inner : Phrase}
      {rest : List Phrase} {value : Value} {sofar parts : FunctionParts} :
      Finds file c (.expression inner value) c' →
      StatementFinds file c' (.parts rest { sofar with returns := some value } parts) d →
      StatementFinds file c (.parts (.mk .returns start stop text [inner] :: rest) sofar parts) d
  | body {c c' d : Nat} {phrase : Phrase} {rest : List Phrase} {values : List Value}
      {sofar parts : FunctionParts} :
      StatementFinds file c (.statements phrase values) c' →
      StatementFinds file c' (.parts rest { sofar with body := values } parts) d →
      StatementFinds file c (.parts (phrase :: rest) sofar parts) d

/-- The node of a function is made of its parts and decorators. -/
theorem finds_function {decorators : List Value} {parts : FunctionParts} {function : Value}
    (h : (parts.toNode file decorators start stop).runFrom c = (.ok function, d)) :
    FindsFunction file c start stop decorators parts function d := by
  rw [FunctionParts.toNode_eq] at h
  obtain ⟨arguments, _, harguments, h⟩ := runFrom_bind h
  cases h
  refine .mk ?_
  unfold FunctionParts.parameters at harguments
  split at harguments
  next heq =>
    cases harguments
    rw [heq]
    exact .given
  next heq =>
    cases harguments
    rw [heq]
    exact .none

/-- A statement with a condition is found if its parts are. -/
theorem finds_conditional {rule : Rule} {kind : Kind} {text : List Char} {first second : Phrase}
    {rest : List Phrase} {values : List Value} (hkind : conditionKind rule = some kind)
    (hrest : ∀ {c d : Nat} {orelse : List Value},
      (allStatements file rest).runFrom c = (.ok orelse, d) →
      StatementFinds file c (.all rest orelse) d)
    (hsecond : ∀ {c d : Nat} {body : List Value},
      (statements file second).runFrom c = (.ok body, d) →
      StatementFinds file c (.statements second body) d)
    (h : Numbered.runFrom c (do
      let orelse ← allStatements file rest
      let head ← headAt file kind start stop
      let test ← expression file first
      let body ← statements file second
      return [Value.node head
        [("test", test), ("body", .list body), ("orelse", .list orelse)]]) = (.ok values, d)) :
    StatementFinds file c (.statements (.mk rule start stop text (first :: second :: rest)) values)
      d := by
  obtain ⟨orelse, _, horelse, h⟩ := runFrom_bind h
  replace h := run_headAt_bind h
  obtain ⟨test, _, htest, h⟩ := runFrom_bind h
  obtain ⟨body, _, hbody, h⟩ := runFrom_bind h
  cases h
  exact .conditional hkind (hrest horelse) (finds_expression first htest) (hsecond hbody)

mutual

/-- **Reading statements finds them.** -/
theorem finds_statements (phrase : Phrase) {c d : Nat} {values : List Value}
    (h : (statements file phrase).runFrom c = (.ok values, d)) :
    StatementFinds file c (.statements phrase values) d := by
  rw [statements.eq_def] at h
  split at h
  next inner => exact .passed rfl (finds_statements inner h)
  next parts => exact .simple (finds_simples parts h)
  next parts => exact .block (finds_all parts h)
  next inner => exact .passed rfl (finds_statements inner h)
  next inner => exact .passed rfl (finds_statements inner h)
  next inner => exact .passed rfl (finds_statements inner h)
  next parts => exact .decorated (finds_decorated parts [] h)
  next phrases =>
    obtain ⟨parts, _, hparts, h⟩ := runFrom_bind h
    obtain ⟨function, _, hfunction, h⟩ := runFrom_bind h
    cases h
    exact .function (finds_functionParts phrases hparts) (finds_function hfunction)
  next first second rest =>
    exact finds_conditional rfl (finds_all rest) (finds_statements second) h
  next first second rest =>
    exact finds_conditional rfl (finds_all rest) (finds_statements second) h
  next first second rest =>
    exact finds_conditional rfl (finds_all rest) (finds_statements second) h
  next first second third rest =>
    obtain ⟨orelse, _, horelse, h⟩ := runFrom_bind h
    replace h := run_headAt_bind h
    obtain ⟨target, _, htarget, h⟩ := runFrom_bind h
    obtain ⟨iter, _, hiter, h⟩ := runFrom_bind h
    obtain ⟨body, _, hbody, h⟩ := runFrom_bind h
    cases h
    exact .loop (finds_all rest horelse) (finds_target htarget) (finds_expression second hiter)
      (finds_statements third hbody)
  next => cases h
termination_by sizeOf phrase
decreasing_by
  all_goals
    subst_vars
    simp only [Phrase.mk.sizeOf_spec, List.cons.sizeOf_spec]
    omega

/-- Several statements, one after the other. -/
theorem finds_all (phrases : List Phrase) {c d : Nat} {values : List Value}
    (h : (allStatements file phrases).runFrom c = (.ok values, d)) :
    StatementFinds file c (.all phrases values) d := by
  rw [allStatements.eq_def] at h
  split at h
  next =>
    cases h
    exact .nothing
  next phrase rest =>
    obtain ⟨first, _, hfirst, h⟩ := runFrom_bind h
    obtain ⟨others, _, hothers, h⟩ := runFrom_bind h
    cases h
    exact .next (finds_statements phrase hfirst) (finds_all rest hothers)
termination_by sizeOf phrases
decreasing_by
  all_goals
    subst_vars
    simp only [List.cons.sizeOf_spec]
    omega

/-- The decorators of a function, and the function behind them. -/
theorem finds_decorated (phrases : List Phrase) (decorators : List Value) {c d : Nat}
    {values : List Value}
    (h : (Reading.decorated file phrases decorators).runFrom c = (.ok values, d)) :
    StatementFinds file c (.decorated phrases decorators values) d := by
  rw [Reading.decorated.eq_def] at h
  split at h
  next inner rest =>
    obtain ⟨decorator, _, hdecorator, h⟩ := runFrom_bind h
    exact .decorator (finds_expression inner hdecorator) (finds_decorated rest _ h)
  next phrases rest =>
    obtain ⟨parts, _, hparts, h⟩ := runFrom_bind h
    obtain ⟨function, _, hfunction, h⟩ := runFrom_bind h
    cases h
    exact .decoratedFunction (finds_functionParts phrases hparts) (finds_function hfunction)
  next => cases h
  next =>
    cases h
    exact .undecorated
termination_by sizeOf phrases
decreasing_by
  all_goals
    subst_vars
    simp only [Phrase.mk.sizeOf_spec, List.cons.sizeOf_spec]
    omega

/-- The parts of a function, in the order of its header. -/
theorem finds_functionParts (phrases : List Phrase) {c d : Nat} {sofar parts : FunctionParts}
    (h : (functionParts file phrases sofar).runFrom c = (.ok parts, d)) :
    StatementFinds file c (.parts phrases sofar parts) d := by
  rw [functionParts.eq_def] at h
  split at h
  next =>
    cases h
    exact .done
  next text rest => exact .name (finds_functionParts rest h)
  next phrases rest =>
    obtain ⟨p, _, hparameters, h⟩ := runFrom_bind h
    obtain ⟨arguments, _, harguments, h⟩ := runFrom_bind h
    cases harguments
    exact .parameters (finds_parameters phrases hparameters) (finds_functionParts rest h)
  next inner rest =>
    obtain ⟨value, _, hvalue, h⟩ := runFrom_bind h
    exact .returns (finds_expression inner hvalue) (finds_functionParts rest h)
  next phrase rest _ _ _ =>
    obtain ⟨values, _, hvalues, h⟩ := runFrom_bind h
    exact .body (finds_statements phrase hvalues) (finds_functionParts rest h)
termination_by sizeOf phrases
decreasing_by
  all_goals
    subst_vars
    simp only [Phrase.mk.sizeOf_spec, List.cons.sizeOf_spec]
    omega

end

end Reading

/-! ### Whole texts -/

open Grammar (Phrase Rule)

/-- A program text with a tree is matched by the grammar, and its tree is read
from the match. -/
theorem Source.match_of_tree {source : Source} (hformat : source.format = .program)
    {counter next : Nat} {tree : Node} (h : source.tree.runFrom counter = (.ok tree, next)) :
    source.isEmpty = false ∧
      ∃ s tried, Grammar.Rule.module.matchText source.text.toList = (.matched s, tried) ∧
        (Reading.moduleTree source.name (s.phrases.flatMap Grammar.Phrase.parts)).runFrom counter =
          (.ok tree, next) := by
  unfold Source.tree at h
  split at h
  next => cases h
  next hempty =>
    rw [hformat] at h
    simp only [Source.programTree] at h
    split at h
    next s tried hmatched => exact ⟨by simpa using hempty, s, tried, hmatched, h⟩
    next => cases h

/-- The phrase is what the text of the source is matched by. -/
def Source.MatchedBy (source : Source) (whole : Phrase) : Prop :=
  ∃ s tried, Rule.module.matchText source.text.toList = (.matched s, tried) ∧ s.phrases = [whole]

/-- The phrase of a whole source is a formed module. -/
theorem Source.MatchedBy.formed {source : Source} {whole : Phrase} (h : source.MatchedBy whole) :
    whole.rule = .module ∧ whole.Formed := by
  obtain ⟨s, tried, hmatched, hphrases⟩ := h
  obtain ⟨phrase, hphrase, hrule, hformed⟩ := Rule.phrase_of_matchText rfl hmatched
  rw [hphrases] at hphrase
  cases hphrase
  exact ⟨hrule, hformed⟩

/-- **The tree of a program text is found in the phrase of the text.** -/
theorem Source.tree_found {source : Source} (hformat : source.format = .program)
    {counter next : Nat} {tree : Node} (h : source.tree.runFrom counter = (.ok tree, next)) :
    ∃ whole body last, source.MatchedBy whole ∧
      Reading.StatementFinds source.name counter (.all whole.parts body) last ∧
      tree = ⟨⟨last, .module, none, none⟩, [("body", .list body), ("type_ignores", .list [])]⟩ := by
  obtain ⟨-, s, tried, hmatched, hread⟩ := Source.match_of_tree hformat h
  obtain ⟨whole, hphrases, -, -⟩ := Rule.phrase_of_matchText rfl hmatched
  rw [hphrases, List.flatMap_cons, List.flatMap_nil, List.append_nil] at hread
  obtain ⟨body, last, hbody, hread⟩ := Numbered.runFrom_bind hread
  cases hread
  exact ⟨whole, body, last, ⟨s, tried, hmatched, hphrases⟩,
    Reading.finds_all whole.parts hbody, rfl⟩

end FunctionIR
