import FunctionIR.Proofs.Grammar.Stretches
import FunctionIR.Proofs.Reading.Denotes
import FunctionIR.Reading.Statement

/-!
# What phrases of statements hold

A phrase of statements **holds** forms if the statements read from it have
them, in order (`Holds`).  There is one rule for each shape of phrase that
holds statements.  A statement that consists of others holds those of its
parts in their fields.
-/

namespace FunctionIR.Reading

open Numbered
open Grammar (Phrase Place Rule)
open Grammar.Pattern (Each)

variable {file : String} {start stop : Place} {text : List Char}

/-- The phrase is read as statements of the forms. -/
def Holds (file : String) (phrase : Phrase) (forms : List Value) : Prop :=
  (statements file phrase).Gives (Value.formItems · = forms)

/-- The phrases together are read as statements of the forms. -/
def HoldAll (file : String) (phrases : List Phrase) (forms : List Value) : Prop :=
  (allStatements file phrases).Gives (Value.formItems · = forms)

theorem formItems_append (items more : List Value) :
    Value.formItems (items ++ more) = Value.formItems items ++ Value.formItems more := by
  induction items with
  | nil => rfl
  | cons item items ih => simp [Value.formItems, ih]

theorem holdAll_nil : HoldAll file [] [] := .pure rfl

/-- The first phrase and the others. -/
theorem HoldAll.cons {phrase : Phrase} {phrases : List Phrase} {forms forms' : List Value}
    (hfirst : Holds file phrase forms) (hrest : HoldAll file phrases forms') :
    HoldAll file (phrase :: phrases) (forms ++ forms') := by
  refine Gives.bind hfirst fun first hfirst => ?_
  refine Gives.bind hrest fun others hothers => .pure ?_
  rw [formItems_append, hfirst, hothers]

/-- One phrase, of statements of the forms. -/
def IsClause (file : String) (forms : List Value) (phrases : List Phrase) : Prop :=
  ∃ phrase, phrases = [phrase] ∧ Holds file phrase forms

/-- One phrase, of a statement of the form. -/
def IsStatement (file : String) (form : Value) : List Phrase → Prop := IsClause file [form]

/-- A clause holds what its statements hold. -/
theorem IsClause.holdAll {phrases : List Phrase} {forms : List Value}
    (h : IsClause file forms phrases) : HoldAll file phrases forms := by
  obtain ⟨phrase, rfl, hphrase⟩ := h
  have h := HoldAll.cons hphrase holdAll_nil
  rwa [List.append_nil] at h

/-- One phrase, of a block with statements of the forms. -/
def IsBlock (file : String) (forms : List Value) (phrases : List Phrase) : Prop :=
  ∃ phrase, phrases = [phrase] ∧ phrase.rule = .block ∧ Holds file phrase forms

/-- Phrases of statements are read one by one. -/
theorem holdAll_each {ι : Type} {tree : ι → Value} {items : List ι} {phrases : List Phrase}
    (h : Each (fun item => IsStatement file (tree item)) items phrases) :
    HoldAll file phrases (items.map tree) := by
  induction items generalizing phrases with
  | nil =>
      cases h
      exact holdAll_nil
  | cons item items ih =>
      obtain ⟨before, after, rfl, ⟨phrase, rfl, hphrase⟩, hafter⟩ := h
      exact HoldAll.cons hphrase (ih hafter)

/-! ### Wrappers -/

/-- A statement holds what is in it. -/
theorem holds_statement {inner : Phrase} {forms : List Value} (h : Holds file inner forms) :
    Holds file (.mk .statement start stop text [inner]) forms := h

/-- A block holds what its statements hold. -/
theorem holds_block {phrases : List Phrase} {forms : List Value}
    (h : HoldAll file phrases forms) : Holds file (.mk .block start stop text phrases) forms := h

/-- An `else` holds what is in it. -/
theorem holds_elseClause {inner : Phrase} {forms : List Value} (h : Holds file inner forms) :
    Holds file (.mk .elseClause start stop text [inner]) forms := h

/-- An `else` with a block holds what the block does. -/
theorem holds_elseBlock {inner : Phrase} {forms : List Value} (h : Holds file inner forms) :
    Holds file (.mk .elseBlock start stop text [inner]) forms := h

/-- An `else` behind a loop holds what is in it. -/
theorem holds_loopElse {inner : Phrase} {forms : List Value} (h : Holds file inner forms) :
    Holds file (.mk .loopElse start stop text [inner]) forms := h

/-! ### Statements without a body -/

/-- A line with one statement. -/
theorem holds_simple {phrase : Phrase} {form : Value}
    (h : (simpleStatement file phrase).Gives (·.form = form)) :
    Holds file (.mk .simpleStatements start stop text [phrase]) [form] := by
  refine Gives.bind h fun statement hstatement => ?_
  refine Gives.bind (P := (· = [])) (.pure rfl) fun others hothers => .pure ?_
  subst hothers
  simp only [Value.formItems, hstatement]

/-- The statement that does nothing. -/
theorem gives_pass {parts : List Phrase} :
    (simpleStatement file (.mk .passStatement start stop text parts)).Gives
      (·.form = .plain .passStmt []) := by
  refine (gives_headAt .passStmt).bind fun head hkind => .pure ?_
  simp only [Value.form, Value.formFields, hkind, Value.plain]

/-! ### Targets -/

/-- The form of a field that is set. -/
theorem formFields_set (name : String) (value : Value) (fields : Fields) :
    Value.formFields (Members.set name value fields) =
      Members.set name value.form (Value.formFields fields) := by
  induction fields with
  | nil => rfl
  | cons field fields ih =>
      obtain ⟨key, old⟩ := field
      by_cases h : key = name <;> simp [Members.set, Value.formFields, h, ih]

/-- A name that is assigned to. -/
theorem gives_target {phrase : Phrase} {name : List Char}
    (h : Denotes file phrase (nameForm name .load)) :
    (target file phrase).Gives (·.form = nameForm name .store) := by
  refine Gives.bind h fun value hvalue => ?_
  cases value with
  | scalar | list | foreign => simp [Value.form, nameForm, Value.plain] at hvalue
  | node head fields =>
      simp only [Value.form, nameForm, Value.plain, Value.node.injEq, Head.mk.injEq,
        true_and] at hvalue
      obtain ⟨⟨hkind, -⟩, hfields⟩ := hvalue
      have hstore : store (.node head fields) = (do
          let ctx ← context .store
          return .node head (Members.set "ctx" ctx fields)) := by
        simp only [store, hkind]
        rfl
      rw [hstore]
      refine (gives_bare _).bind fun ctx hctx => .pure ?_
      rw [Value.form, formFields_set, hctx, hfields, hkind]
      rfl

/-- The form of an assignment to one target. -/
def assignForm (target value : Value) : Value :=
  .plain .assign [("targets", .list [target]), ("value", value), ("type_comment", .absent)]

/-- An assignment to a name. -/
theorem gives_assignment {target value : Phrase} {name : List Char} {form : Value}
    (htarget : Denotes file target (nameForm name .load)) (hvalue : Denotes file value form) :
    (simpleStatement file (.mk .assignment start stop text [target, value])).Gives
      (·.form = assignForm (nameForm name .store) form) := by
  have htargets : (assignmentTargets file [target, value]).Gives
      fun found => Value.formItems found.1 = [nameForm name .store] ∧ found.2 = [value] := by
    refine Gives.bind (gives_target htarget) fun target htarget => ?_
    refine Gives.bind (P := (· = ([], [value]))) (.pure rfl) fun found hfound => .pure ?_
    subst hfound
    exact ⟨by simp only [Value.formItems, htarget], rfl⟩
  refine Gives.bind htargets fun found hfound => ?_
  obtain ⟨targets, phrases⟩ := found
  obtain ⟨htargets, rfl⟩ := hfound
  refine Gives.bind hvalue fun value hvalue => ?_
  refine (gives_headAt .assign).bind fun head hkind => .pure ?_
  simp only [Value.form, Value.formFields, hkind, htargets, hvalue, Value.absent, assignForm,
    Value.plain]

/-! ### Statements with a body -/

section Bodies

variable {test body target' iter : Phrase} {orelse : List Phrase} {testForm iterForm : Value}
  {bodyForms orelseForms : List Value}

/-- The form of a conditional statement. -/
def branchForm (test : Value) (body orelse : List Value) : Value :=
  .plain .ifStmt [("test", test), ("body", .list body), ("orelse", .list orelse)]

/-- A branch holds its form. -/
theorem holds_branch {r : Rule} (hr : r = .ifStatement ∨ r = .elifClause)
    (htest : Denotes file test testForm) (hbody : Holds file body bodyForms)
    (horelse : HoldAll file orelse orelseForms) :
    Holds file (.mk r start stop text (test :: body :: orelse))
      [branchForm testForm bodyForms orelseForms] := by
  rcases hr with rfl | rfl
  all_goals
    refine Gives.bind horelse fun orelse horelse => ?_
    refine (gives_headAt .ifStmt).bind fun head hkind => ?_
    refine Gives.bind htest fun test htest => ?_
    refine Gives.bind hbody fun body hbody => .pure ?_
    simp only [Value.form, Value.formFields, Value.formItems, hkind, htest, hbody, horelse,
      branchForm, Value.plain]

/-- A `while` loop holds its form. -/
theorem holds_while (htest : Denotes file test testForm) (hbody : Holds file body bodyForms)
    (horelse : HoldAll file orelse orelseForms) :
    Holds file (.mk .whileStatement start stop text (test :: body :: orelse))
      [.plain .whileStmt
        [("test", testForm), ("body", .list bodyForms), ("orelse", .list orelseForms)]] := by
  refine Gives.bind horelse fun orelse horelse => ?_
  refine (gives_headAt .whileStmt).bind fun head hkind => ?_
  refine Gives.bind htest fun test htest => ?_
  refine Gives.bind hbody fun body hbody => .pure ?_
  simp only [Value.form, Value.formFields, Value.formItems, hkind, htest, hbody, horelse,
    Value.plain]

/-- A `for` loop holds its form. -/
theorem holds_for {name : List Char} (htarget : Denotes file target' (nameForm name .load))
    (hiter : Denotes file iter iterForm) (hbody : Holds file body bodyForms)
    (horelse : HoldAll file orelse orelseForms) :
    Holds file (.mk .forStatement start stop text (target' :: iter :: body :: orelse))
      [.plain .forStmt [("target", nameForm name .store), ("iter", iterForm),
        ("body", .list bodyForms), ("orelse", .list orelseForms), ("type_comment", .absent)]] := by
  refine Gives.bind horelse fun orelse horelse => ?_
  refine (gives_headAt .forStmt).bind fun head hkind => ?_
  refine Gives.bind (gives_target htarget) fun target htarget => ?_
  refine Gives.bind hiter fun iter hiter => ?_
  refine Gives.bind hbody fun body hbody => .pure ?_
  simp only [Value.form, Value.formFields, Value.formItems, hkind, htarget, hiter, hbody,
    horelse, Value.absent, Value.plain]

end Bodies

/-! ### Functions -/

/-- The form of a parameter without annotation. -/
def parameterForm (name : List Char) : Value :=
  .plain .arg [("arg", .str (String.ofList name)), ("annotation", .absent),
    ("type_comment", .absent)]

/-- The form of the parameters of a function. -/
def parametersForm (names : List (List Char)) : Value :=
  .plain .arguments [("posonlyargs", .list []), ("args", .list (names.map parameterForm)),
    ("vararg", .absent), ("kwonlyargs", .list []), ("kw_defaults", .list []),
    ("kwarg", .absent), ("defaults", .list [])]

/-- The form of a function. -/
def functionForm (name : List Char) (parameters : List (List Char)) (body decorators : List Value) :
    Value :=
  .plain .functionDef [("name", .str (String.ofList name)),
    ("args", parametersForm parameters), ("body", .list body),
    ("decorator_list", .list decorators), ("returns", .absent), ("type_comment", .absent)]

/-- The parameters are plain, with these names. -/
def PlainOnly (names : List (List Char)) (p : Parameters) : Prop :=
  ∃ positional, p = { Parameters.empty with positional := positional } ∧
    Value.formItems positional = names.map parameterForm

/-- The phrase of a parameter that is a name. -/
def IsParameter (name : List Char) (phrases : List Phrase) : Prop :=
  ∃ start stop text start' stop',
    phrases = [.mk .plainParameter start stop text [.mk .identifier start' stop' name []]]

/-- Plain parameters, one after the other. -/
theorem gives_parameters {names before : List (List Char)} {phrases : List Phrase}
    (h : Each IsParameter names phrases) {p : Parameters} (hp : PlainOnly before p) :
    (parameters file phrases p).Gives (PlainOnly (before ++ names)) := by
  induction names generalizing before p phrases with
  | nil =>
      cases h
      rw [List.append_nil]
      exact .pure hp
  | cons name names ih =>
      obtain ⟨_, others, rfl, ⟨start, stop, text, start', stop', rfl⟩, hothers⟩ := h
      obtain ⟨positional, rfl, hforms⟩ := hp
      have hparameter : (parameter file start stop [.mk .identifier start' stop' name []]).Gives
          fun found => found.1.form = parameterForm name ∧ found.2 = none := by
        refine Gives.bind (P := (· = ⟨String.ofList name, none, none⟩)) (.pure rfl)
          fun parts hparts => ?_
        subst hparts
        refine (gives_headAt .arg).bind fun head hkind => .pure ⟨?_, rfl⟩
        simp only [Value.form, Value.formFields, hkind, Option.getD_none, Value.absent,
          parameterForm, Value.str, Value.plain]
      refine Gives.bind hparameter fun found hfound => ?_
      obtain ⟨arg, default⟩ := found
      obtain ⟨harg, rfl⟩ := hfound
      have hnext : PlainOnly (before ++ [name])
          { Parameters.empty with positional := positional ++ [arg] } := by
        refine ⟨_, rfl, ?_⟩
        rw [formItems_append, hforms, List.map_append]
        simp only [Value.formItems, harg, List.map_cons, List.map_nil]
      have h := ih hothers hnext
      rw [List.append_assoc] at h
      exact Gives.bind (P := (· = { Parameters.empty with positional := positional ++ [arg] }))
        (.pure rfl) fun p hp => by subst hp; exact h

/-- The form of plain parameters. -/
theorem gives_parametersForm {names : List (List Char)} {p : Parameters}
    (hp : PlainOnly names p) : p.toNode.Gives (·.form = parametersForm names) := by
  obtain ⟨positional, rfl, hforms⟩ := hp
  refine (gives_head .arguments none none).bind fun head hhead => .pure ?_
  simp only [Value.form, Value.formFields, Value.formItems, hhead.1, hforms, Parameters.empty,
    Option.getD_none, Value.absent, parametersForm, Value.plain]

/-- The parts of a function with plain parameters. -/
def PartsOf (name : List Char) (parameters : List (List Char)) (body : List Value)
    (parts : FunctionParts) : Prop :=
  parts.name = String.ofList name ∧ parts.returns = none ∧
    Value.formItems parts.body = body ∧
    (match parts.arguments with
      | some arguments => arguments.form = parametersForm parameters
      | none => parameters = [])

/-- The phrase of parameters that are names. -/
def IsParameters (names : List (List Char)) (phrases : List Phrase) : Prop :=
  (phrases = [] ∧ names = []) ∨
    ∃ start stop text parts, phrases = [.mk .parameters start stop text parts] ∧
      Each IsParameter names parts

/-- The parts of a function are read in the order of its header. -/
theorem gives_functionParts {name : List Char} {names : List (List Char)} {body : Phrase}
    {bodyForms : List Value} {phrases : List Phrase} (hnames : IsParameters names phrases)
    (hrule : body.rule = .block) (hbody : Holds file body bodyForms) :
    (functionParts file (.mk .identifier start stop name [] :: (phrases ++ [body]))
      ⟨"", none, none, []⟩).Gives (PartsOf name names bodyForms) := by
  obtain ⟨rule, start', stop', text', parts'⟩ := body
  cases hrule
  rcases hnames with ⟨rfl, rfl⟩ | ⟨start'', stop'', text'', parts, rfl, hparts⟩
  · refine Gives.bind hbody fun values hvalues => .pure ?_
    exact ⟨rfl, rfl, hvalues, rfl⟩
  · have hplain : PlainOnly [] Parameters.empty := ⟨[], rfl, rfl⟩
    refine Gives.bind (gives_parameters hparts hplain) fun p hp => ?_
    refine Gives.bind (gives_parametersForm hp) fun arguments harguments => ?_
    refine Gives.bind hbody fun values hvalues => .pure ?_
    exact ⟨rfl, rfl, hvalues, harguments⟩

/-- The form of a function. -/
theorem gives_function {name : List Char} {names : List (List Char)} {bodyForms : List Value}
    {parts : FunctionParts} (hparts : PartsOf name names bodyForms parts)
    (decorators : List Value) :
    (parts.toNode file decorators start stop).Gives
      (·.form = functionForm name names bodyForms (Value.formItems decorators)) := by
  obtain ⟨hname, hreturns, hbody, harguments⟩ := hparts
  have hnode : ∀ arguments : Value, arguments.form = parametersForm names →
      Gives (do
        let head ← headAt file .functionDef start stop
        return Value.node head
          [("name", .str parts.name), ("args", arguments), ("body", .list parts.body),
           ("decorator_list", .list decorators),
           ("returns", parts.returns.getD .absent), ("type_comment", .absent)])
        (·.form = functionForm name names bodyForms (Value.formItems decorators)) := by
    intro arguments harguments
    refine (gives_headAt .functionDef).bind fun head hkind => .pure ?_
    simp only [Value.form, Value.formFields, hkind, hname, hreturns, hbody, harguments,
      Option.getD_none, Value.str, Value.absent, functionForm, Value.plain]
  unfold FunctionParts.toNode
  cases h : parts.arguments with
  | some arguments =>
      rw [h] at harguments
      exact hnode arguments harguments
  | none =>
      rw [h] at harguments
      subst harguments
      exact Gives.bind (gives_parametersForm ⟨[], rfl, rfl⟩) hnode

/-- The phrases of a function, after its `def`. -/
def IsFunction (file : String) (name : List Char) (names : List (List Char))
    (bodyForms : List Value) (phrase : Phrase) : Prop :=
  ∃ start stop text start' stop' phrases body,
    phrase = .mk .functionDef start stop text
      (.mk .identifier start' stop' name [] :: (phrases ++ [body])) ∧
    IsParameters names phrases ∧ body.rule = .block ∧ Holds file body bodyForms

/-- A function holds its form. -/
theorem holds_function {name : List Char} {names : List (List Char)} {bodyForms : List Value}
    {phrase : Phrase} (h : IsFunction file name names bodyForms phrase) :
    Holds file phrase [functionForm name names bodyForms []] := by
  obtain ⟨start, stop, text, start', stop', phrases, body, rfl, hnames, hrule, hbody⟩ := h
  refine Gives.bind (gives_functionParts hnames hrule hbody) fun parts hparts => ?_
  refine Gives.bind (gives_function hparts []) fun function hfunction => .pure ?_
  simp only [Value.formItems, hfunction]

/-- The phrase of a decorator. -/
def IsDecorator (file : String) (form : Value) (phrases : List Phrase) : Prop :=
  ∃ start stop text inner, phrases = [.mk .decorator start stop text [inner]] ∧
    Denotes file inner form

/-- A decorated function, with the decorators before it. -/
theorem gives_decorated {name : List Char} {names : List (List Char)} {bodyForms : List Value}
    {decorators : List Value} {phrases : List Phrase} {phrase : Phrase} {before : List Value}
    (hdecorators : Each (IsDecorator file) decorators phrases)
    (hfunction : IsFunction file name names bodyForms phrase) :
    (decorated file (phrases ++ [phrase]) before).Gives (Value.formItems · =
      [functionForm name names bodyForms (Value.formItems before ++ decorators)]) := by
  induction decorators generalizing phrases before with
  | nil =>
      cases hdecorators
      obtain ⟨start, stop, text, start', stop', phrases, body, rfl, hnames, hrule, hbody⟩ :=
        hfunction
      refine Gives.bind (gives_functionParts hnames hrule hbody) fun parts hparts => ?_
      refine Gives.bind (gives_function hparts before) fun function hfunction => .pure ?_
      simp only [Value.formItems, hfunction, List.append_nil]
  | cons decorator decorators ih =>
      obtain ⟨_, others, rfl, ⟨start, stop, text, inner, rfl, hinner⟩, hothers⟩ := hdecorators
      refine Gives.bind hinner fun value hvalue => ?_
      have hbefore : Value.formItems (before ++ [value]) = Value.formItems before ++ [decorator] := by
        rw [formItems_append, Value.formItems, hvalue, Value.formItems]
      have h : (decorated file (others ++ [phrase]) (before ++ [value])).Gives _ := ih hothers
      rw [hbefore, List.append_assoc] at h
      exact h

/-- A decorated function holds its form. -/
theorem holds_decorated {name : List Char} {names : List (List Char)} {bodyForms : List Value}
    {decorators : List Value} {phrases : List Phrase} {phrase : Phrase}
    (hdecorators : Each (IsDecorator file) decorators phrases)
    (hfunction : IsFunction file name names bodyForms phrase) :
    Holds file (.mk .decorated start stop text (phrases ++ [phrase]))
      [functionForm name names bodyForms decorators] :=
  gives_decorated hdecorators hfunction

end FunctionIR.Reading
