import FunctionIR.Reading.Expression

/-!
# What phrases denote

Identity numbers and places tell a tree from any other, and most facts about
reading are not about them.  The **form** of a value is the value without
them (`Value.form`).  A computation that creates nodes **gives** values with
a property if it succeeds with one from every counter (`Numbered.Gives`), and
a phrase **denotes** a form if the value read from it has that form
(`Denotes`).

There is one rule for each shape of phrase.  Chains of operators and of
calls, attributes and subscripts fold to the left, which is told by what they
make of the value on their left (`Operates`, `Extends`); such chains can be
put one after the other.
-/

namespace FunctionIR

mutual

/-- The value without identity numbers and places. -/
def Value.form : Value → Value
  | .scalar s => .scalar s
  | .node head fields => .node ⟨0, head.kind, none, none⟩ (Value.formFields fields)
  | .list items => .list (Value.formItems items)
  | .foreign document => .foreign document

/-- The values without identity numbers and places. -/
def Value.formItems : List Value → List Value
  | [] => []
  | item :: rest => item.form :: Value.formItems rest

/-- The fields without identity numbers and places. -/
def Value.formFields : List (String × Value) → List (String × Value)
  | [] => []
  | (name, value) :: rest => (name, value.form) :: Value.formFields rest

end

/-- A node in its form. -/
def Value.plain (kind : Kind) (fields : Fields) : Value := .node ⟨0, kind, none, none⟩ fields

namespace Numbered

variable {α β : Type} {P : α → Prop} {Q : β → Prop}

/-- From every counter the computation succeeds, with a value that has the
property. -/
def Gives (m : Numbered α) (P : α → Prop) : Prop :=
  ∀ counter, ∃ a next, m.runFrom counter = (.ok a, next) ∧ P a

theorem Gives.pure {a : α} (h : P a) : Gives (Pure.pure a) P :=
  fun counter => ⟨a, counter, rfl, h⟩

theorem Gives.bind {m : Numbered α} {f : α → Numbered β} (hm : m.Gives P)
    (hf : ∀ a, P a → (f a).Gives Q) : Gives (m >>= f) Q := by
  intro counter
  obtain ⟨a, next, hrun, ha⟩ := hm counter
  obtain ⟨b, last, hnext, hb⟩ := hf a ha next
  refine ⟨b, last, ?_, hb⟩
  simp only [runFrom, ExceptT.run_bind, StateT.run_bind] at hrun hnext ⊢
  rw [hrun]
  exact hnext

theorem Gives.mono {Q : α → Prop} {m : Numbered α} (h : m.Gives P)
    (himp : ∀ a, P a → Q a) : m.Gives Q := by
  intro counter
  obtain ⟨a, next, hrun, ha⟩ := h counter
  exact ⟨a, next, hrun, himp a ha⟩

/-- A new head has the kind and place that was asked for. -/
theorem gives_head (kind : Kind) (location : Option Location) (span : Option Span) :
    (head kind location span).Gives
      fun head => head.kind = kind ∧ head.location = location ∧ head.span = span :=
  fun counter => ⟨⟨counter, kind, location, span⟩, counter + 1, rfl, rfl, rfl, rfl⟩

/-- A new node without fields. -/
theorem gives_bare (kind : Kind) : (bare kind).Gives (·.form = .plain kind []) :=
  fun counter => ⟨_, counter + 1, rfl, rfl⟩

end Numbered

open Numbered

namespace Reading

open Grammar (Phrase Place Rule)

variable {file : String} {start stop : Place} {text : List Char}

/-- A new head at a place has its kind. -/
theorem gives_headAt (kind : Kind) :
    (headAt file kind start stop).Gives (·.kind = kind) :=
  (gives_head kind _ _).mono fun _ h => h.1

/-- The phrase is read as a value of the form. -/
def Denotes (file : String) (phrase : Phrase) (form : Value) : Prop :=
  (expression file phrase).Gives (·.form = form)

/-- The phrases are read as values of the forms. -/
def DenoteAll (file : String) (phrases : List Phrase) (forms : List Value) : Prop :=
  (expressions file phrases).Gives (Value.formItems · = forms)

/-- The form of a name that is read. -/
def nameForm (name : List Char) (c : Context) : Value :=
  .plain .name [("id", .str (String.ofList name)), ("ctx", .plain (.context c) [])]

/-- The form of a constant. -/
def constantForm (value : Scalar) : Value :=
  .plain .constant [("value", .scalar value), ("kind", .absent)]

/-- The form of a sequence that makes a tuple. -/
def tupleForm (items : List Value) : Value :=
  .plain .tuple [("elts", .list items), ("ctx", .plain (.context .load) [])]

/-! ### Values without operators -/

/-- A constant. -/
theorem gives_constant (value : Scalar) :
    (constant file value start stop).Gives (·.form = constantForm value) := by
  refine (gives_headAt .constant).bind fun head hkind => .pure ?_
  simp only [Value.form, Value.formFields, hkind, Value.absent, constantForm, Value.plain]

/-- A name that is read. -/
theorem denotes_name {parts : List Phrase} :
    Denotes file (.mk .identifier start stop text parts) (nameForm text .load) := by
  refine (gives_headAt .name).bind fun head hkind => ?_
  refine (gives_bare _).bind fun ctx hctx => .pure ?_
  simp only [Value.form, Value.formFields, hkind, hctx, Value.str, nameForm, Value.plain]

theorem denotes_none {parts : List Phrase} :
    Denotes file (.mk .noneLiteral start stop text parts) (constantForm .none) :=
  gives_constant .none

theorem denotes_true {parts : List Phrase} :
    Denotes file (.mk .trueLiteral start stop text parts) (constantForm (.bool true)) :=
  gives_constant (.bool true)

theorem denotes_false {parts : List Phrase} :
    Denotes file (.mk .falseLiteral start stop text parts) (constantForm (.bool false)) :=
  gives_constant (.bool false)

/-- An integer that fits. -/
theorem denotes_integer {parts : List Phrase} {value : Int64}
    (h : integerValue text = some value) :
    Denotes file (.mk .integer start stop text parts) (constantForm (.int value)) := by
  have hread : expression file (.mk .integer start stop text parts) =
      constant file (.int value) start stop := by
    rw [expression, h]
  rw [Denotes, hread]
  exact gives_constant (.int value)

/-- A number with a fraction or an exponent. -/
theorem denotes_float {parts : List Phrase} :
    Denotes file (.mk .float start stop text parts) (constantForm (.real (floatValue text))) :=
  gives_constant (.real (floatValue text))

/-- A string. -/
theorem denotes_string {parts : List Phrase} :
    Denotes file (.mk .string start stop text parts) (constantForm (.str (stringValue text))) :=
  gives_constant (.str (stringValue text))

/-! ### Sequences -/

theorem denoteAll_nil : DenoteAll file [] [] := .pure rfl

/-- The first phrase and the others. -/
theorem DenoteAll.cons {phrase : Phrase} {phrases : List Phrase} {form : Value}
    {forms : List Value} (hfirst : Denotes file phrase form)
    (hrest : DenoteAll file phrases forms) :
    DenoteAll file (phrase :: phrases) (form :: forms) := by
  refine Gives.bind hfirst fun value hvalue => ?_
  refine Gives.bind hrest fun values hvalues => .pure ?_
  rw [Value.formItems, hvalue, hvalues]

/-- A list. -/
theorem denotes_list {phrases : List Phrase} {forms : List Value}
    (h : DenoteAll file phrases forms) :
    Denotes file (.mk .listDisplay start stop text phrases)
      (.plain .list [("elts", .list forms), ("ctx", .plain (.context .load) [])]) := by
  refine Gives.bind h fun items hitems => ?_
  refine (gives_headAt .list).bind fun head hkind => ?_
  refine (gives_bare _).bind fun ctx hctx => .pure ?_
  simp only [Value.form, Value.formFields, hkind, hctx, hitems, Value.plain]

/-- A tuple; a single item has a comma behind it. -/
theorem gives_tupleOf {items : List Value} {comma : Bool}
    (h : items.length = 1 → comma = true) :
    (tupleOf file start stop items comma).Gives
      (·.form = tupleForm (Value.formItems items)) := by
  have htuple : tupleOf file start stop items comma = (do
      let head ← headAt file .tuple start stop
      let ctx ← context .load
      return .node head [("elts", .list items), ("ctx", ctx)]) := by
    unfold tupleOf
    split
    next => exact absurd (h rfl) (by decide)
    next => rfl
  rw [htuple]
  refine (gives_headAt .tuple).bind fun head hkind => ?_
  refine (gives_bare _).bind fun ctx hctx => .pure ?_
  simp only [Value.form, Value.formFields, hkind, hctx, tupleForm, Value.plain]

/-- The empty tuple. -/
theorem denotes_empty_tuple :
    Denotes file (.mk .parenthesized start stop text []) (tupleForm []) :=
  gives_tupleOf (by simp)

/-- Expressions between commas, perhaps with a comma after them. -/
def ElementsDenote (file : String) (phrases : List Phrase) (forms : List Value)
    (comma : Bool) : Prop :=
  (elements file phrases).Gives fun found => Value.formItems found.1 = forms ∧ found.2 = comma

theorem elementsDenote_nil : ElementsDenote file [] [] false := .pure ⟨rfl, rfl⟩

/-- A trailing comma. -/
theorem elementsDenote_comma :
    ElementsDenote file [.mk .trailingComma start stop text []] [] true := by
  refine Gives.bind elementsDenote_nil fun found h => .pure ?_
  exact ⟨h.1, rfl⟩

/-- The first element and the others. -/
theorem ElementsDenote.cons {phrase : Phrase} {phrases : List Phrase} {form : Value}
    {forms : List Value} {comma : Bool} (hrule : phrase.rule = .expression)
    (hfirst : Denotes file phrase form)
    (hrest : ElementsDenote file phrases forms comma) :
    ElementsDenote file (phrase :: phrases) (form :: forms) comma := by
  obtain ⟨rule, start, stop, text, parts⟩ := phrase
  cases hrule
  refine Gives.bind hfirst fun value hvalue => ?_
  refine Gives.bind hrest fun found hfound => .pure ?_
  exact ⟨by rw [Value.formItems, hvalue, hfound.1], hfound.2⟩

/-- An expression alone stands for itself. -/
theorem denotes_single {phrases : List Phrase} {form : Value}
    (h : ElementsDenote file phrases [form] false) :
    Denotes file (.mk .expressionList start stop text phrases) form := by
  refine Gives.bind h fun found hfound => ?_
  obtain ⟨items, comma⟩ := found
  obtain ⟨hitems, rfl⟩ := hfound
  cases items with
  | nil => cases hitems
  | cons item rest =>
      cases rest with
      | cons => simp [Value.formItems] at hitems
      | nil => exact .pure (List.cons.inj hitems).1

/-- A form has as many items as the values. -/
theorem formItems_length (items : List Value) :
    (Value.formItems items).length = items.length := by
  induction items with
  | nil => rfl
  | cons item items ih => simp [Value.formItems, ih]

/-- Expressions with a comma among or after them make a tuple. -/
theorem denotes_tuple {phrases : List Phrase} {forms : List Value} {comma : Bool}
    (h : ElementsDenote file phrases forms comma) (hone : forms.length = 1 → comma = true) :
    Denotes file (.mk .expressionList start stop text phrases) (tupleForm forms) := by
  refine Gives.bind h fun found hfound => ?_
  obtain ⟨items, comma⟩ := found
  obtain ⟨hitems, rfl⟩ := hfound
  rw [← hitems]
  exact gives_tupleOf (by rw [← formItems_length, hitems]; exact hone)

/-- Parentheses leave no trace. -/
theorem denotes_parenthesized {inner : Phrase} {form : Value} (h : Denotes file inner form) :
    Denotes file (.mk .parenthesized start stop text [inner]) form := h

/-- A target alone stands for itself. -/
theorem denotes_target {inner : Phrase} {form : Value} (hrule : inner.rule = .target)
    (h : Denotes file inner form) :
    Denotes file (.mk .targetList start stop text [inner]) form := by
  obtain ⟨rule, start', stop', text', parts⟩ := inner
  cases hrule
  have helements : ElementsDenote file [.mk .target start' stop' text' parts] [form] false := by
    refine Gives.bind h fun value hvalue => ?_
    refine Gives.bind elementsDenote_nil fun found hfound => .pure ?_
    exact ⟨by rw [Value.formItems, hvalue, hfound.1], hfound.2⟩
  have hlist : Denotes file (.mk .expressionList start stop text _) form :=
    denotes_single helements
  exact hlist

/-! ### Operators -/

section Operators

variable {first second body test orelse op operand : Phrase}
  {firstForm secondForm bodyForm testForm orelseForm operandForm : Value}

/-- A conditional. -/
theorem denotes_conditional (hbody : Denotes file body bodyForm)
    (htest : Denotes file test testForm) (horelse : Denotes file orelse orelseForm) :
    Denotes file (.mk .expression start stop text [body, test, orelse])
      (.plain .ifExp [("test", testForm), ("body", bodyForm), ("orelse", orelseForm)]) := by
  refine Gives.bind hbody fun body hbody => ?_
  refine (gives_headAt .ifExp).bind fun head hkind => ?_
  refine Gives.bind htest fun test htest => ?_
  refine Gives.bind horelse fun orelse horelse => .pure ?_
  simp only [Value.form, Value.formFields, hkind, hbody, htest, horelse, Value.plain]

/-- The rule of conditions that are joined by a word. -/
def joiner : BoolOp → Rule
  | .and => .conjunction
  | .or => .disjunction

/-- Operands joined by a word. -/
theorem denotes_joined (word : BoolOp) {phrases : List Phrase} {forms : List Value}
    (hfirst : Denotes file first firstForm) (hsecond : Denotes file second secondForm)
    (hrest : DenoteAll file phrases forms) :
    Denotes file (.mk (joiner word) start stop text (first :: second :: phrases))
      (.plain .boolOp [("op", .plain (.boolean word) []),
        ("values", .list (firstForm :: secondForm :: forms))]) := by
  cases word with
  | and | or =>
      refine Gives.bind hfirst fun first hfirst => ?_
      refine Gives.bind hsecond fun second hsecond => ?_
      refine Gives.bind hrest fun rest hrest => ?_
      refine (gives_headAt .boolOp).bind fun head hkind => ?_
      refine (gives_bare _).bind fun op hop => .pure ?_
      simp only [Value.form, Value.formFields, Value.formItems, hkind, hop, hfirst, hsecond,
        hrest, Value.plain]

/-- A negation. -/
theorem denotes_negation (hoperand : Denotes file operand operandForm) :
    Denotes file (.mk .inversion start stop text [op, operand])
      (.plain .unaryOp [("op", .plain (.unary .not) []), ("operand", operandForm)]) := by
  refine Gives.bind hoperand fun operand hoperand => ?_
  refine (gives_headAt .unaryOp).bind fun head hkind => ?_
  refine (gives_bare _).bind fun op hop => .pure ?_
  simp only [Value.form, Value.formFields, hkind, hop, hoperand, Value.plain]

/-- A sign before an operand. -/
theorem denotes_signed {sign : UnaryOp}
    (hsign : UnaryOp.ofToken (String.ofList op.text) = some sign)
    (hoperand : Denotes file operand operandForm) :
    Denotes file (.mk .factor start stop text [op, operand])
      (.plain .unaryOp [("op", .plain (.unary sign) []), ("operand", operandForm)]) := by
  have hop : (unaryOp file op).Gives (· = sign) := by
    rw [unaryOp, hsign]
    exact .pure rfl
  refine Gives.bind hop fun sign' hsign' => ?_
  subst hsign'
  refine (gives_headAt .unaryOp).bind fun head hkind => ?_
  refine (gives_bare _).bind fun op hop => ?_
  refine Gives.bind hoperand fun operand hoperand => .pure ?_
  simp only [Value.form, Value.formFields, hkind, hop, hoperand, Value.plain]

/-- The form of an operation. -/
def operationForm (op : BinaryOp) (left right : Value) : Value :=
  .plain .binOp [("left", left), ("op", .plain (.binary op) []), ("right", right)]

/-- A power. -/
theorem denotes_power (hfirst : Denotes file first firstForm)
    (hsecond : Denotes file second secondForm) :
    Denotes file (.mk .power start stop text [first, second])
      (operationForm .pow firstForm secondForm) := by
  refine Gives.bind hfirst fun first hfirst => ?_
  refine (gives_headAt .binOp).bind fun head hkind => ?_
  refine (gives_bare _).bind fun op hop => ?_
  refine Gives.bind hsecond fun second hsecond => .pure ?_
  simp only [Value.form, Value.formFields, hkind, hop, hfirst, hsecond, operationForm,
    Value.plain]

/-- The phrases, operators and right operands in turn, make of a left operand
of the one form an operation of the other. -/
inductive Operates (file : String) : List Phrase → Value → Value → Prop
  | none (left : Value) : Operates file [] left left
  | more {op right : Phrase} {rest : List Phrase} {o : BinaryOp} {left form final : Value}
      (hop : BinaryOp.ofToken (String.ofList op.text) = some o)
      (hright : Denotes file right form)
      (hrest : Operates file rest (operationForm o left form) final) :
      Operates file (op :: right :: rest) left final

theorem Operates.trans {phrases phrases' : List Phrase} {left middle final : Value}
    (h : Operates file phrases left middle) (h' : Operates file phrases' middle final) :
    Operates file (phrases ++ phrases') left final := by
  induction h with
  | none => exact h'
  | more hop hright _ ih => exact .more hop hright (ih h')

/-- The operations are read from any value of the form. -/
theorem Operates.gives {phrases : List Phrase} {left final : Value}
    (h : Operates file phrases left final) (start : Place) {value : Value}
    (hvalue : value.form = left) :
    (operations file start value phrases).Gives (·.form = final) := by
  induction h generalizing value with
  | none => exact .pure hvalue
  | @more op right rest o left form final hop hright _ ih =>
      have hbinary : (binaryOp file op).Gives (· = o) := by
        rw [binaryOp, hop]
        exact .pure rfl
      refine Gives.bind hbinary fun o' ho => ?_
      subst ho
      refine Gives.bind hright fun operand hoperand => ?_
      refine (gives_headAt .binOp).bind fun head hkind => ?_
      refine (gives_bare _).bind fun opNode hopNode => ih ?_
      simp only [Value.form, Value.formFields, hkind, hopNode, hvalue, hoperand,
        operationForm, Value.plain]

/-- A chain of sums or products, or an operand alone. -/
theorem denotes_chain {r : Rule} (hr : r = .sum ∨ r = .term) {phrases : List Phrase}
    {final : Value} (hfirst : Denotes file first firstForm)
    (hrest : Operates file phrases firstForm final) :
    Denotes file (.mk r start stop text (first :: phrases)) final := by
  cases hrest with
  | none => rcases hr with rfl | rfl <;> exact hfirst
  | @more op right rest o _ form _ hop hright hrest =>
      have hgives : ∀ value : Value, value.form = _ → _ := fun _ hvalue =>
        (Operates.more hop hright hrest).gives start hvalue
      rcases hr with rfl | rfl
      · exact Gives.bind hfirst hgives
      · exact Gives.bind hfirst hgives

/-- The phrases are operators and right operands of a comparison. -/
def CompareWith (file : String) (phrases : List Phrase) (ops comparators : List Value) : Prop :=
  (comparisons file phrases).Gives fun found =>
    Value.formItems found.1 = ops ∧ Value.formItems found.2 = comparators

theorem compareWith_nil : CompareWith file [] [] [] := .pure ⟨rfl, rfl⟩

/-- The next operator with its operand, and the others. -/
theorem CompareWith.cons {right : Phrase} {phrases : List Phrase} {o : CompareOp}
    {form : Value} {ops comparators : List Value}
    (hop : CompareOp.ofToken (String.ofList (squeeze op.text)) = some o)
    (hright : Denotes file right form) (hrest : CompareWith file phrases ops comparators) :
    CompareWith file (op :: right :: phrases) (.plain (.comparison o) [] :: ops)
      (form :: comparators) := by
  have hcompare : (compareOp file op).Gives (· = o) := by
    rw [compareOp, hop]
    exact .pure rfl
  refine Gives.bind hcompare fun o' ho => ?_
  subst ho
  refine (gives_bare _).bind fun opNode hopNode => ?_
  refine Gives.bind hright fun right hright => ?_
  refine Gives.bind hrest fun found hfound => .pure ?_
  simp only [Value.formItems, hopNode, hright, hfound.1, hfound.2, and_self]

/-- A comparison. -/
theorem denotes_comparison {right : Phrase} {phrases : List Phrase}
    {ops comparators : List Value} (hfirst : Denotes file first firstForm)
    (hrest : CompareWith file (op :: right :: phrases) ops comparators) :
    Denotes file (.mk .comparison start stop text (first :: op :: right :: phrases))
      (.plain .compare [("left", firstForm), ("ops", .list ops),
        ("comparators", .list comparators)]) := by
  refine Gives.bind hfirst fun first hfirst => ?_
  refine Gives.bind hrest fun found hfound => ?_
  refine (gives_headAt .compare).bind fun head hkind => .pure ?_
  simp only [Value.form, Value.formFields, hkind, hfirst, hfound.1, hfound.2, Value.plain]

end Operators

/-! ### Calls, attributes and subscripts -/

/-- The form of a named value in a call. -/
def keywordForm (name : List Char) (value : Value) : Value :=
  .plain .keyword [("arg", .str (String.ofList name)), ("value", value)]

/-- The phrases are the plain and the named values of a call. -/
def Passes (file : String) (phrases : List Phrase) (args keywords : List Value) : Prop :=
  (arguments file phrases).Gives fun found =>
    Value.formItems found.1 = args ∧ Value.formItems found.2 = keywords

theorem passes_nil : Passes file [] [] [] := .pure ⟨rfl, rfl⟩

/-- A plain argument and the others. -/
theorem Passes.plain {phrase : Phrase} {phrases : List Phrase} {form : Value}
    {args keywords : List Value} (hrule : phrase.rule = .expression)
    (hfirst : Denotes file phrase form) (hrest : Passes file phrases args keywords) :
    Passes file (phrase :: phrases) (form :: args) keywords := by
  obtain ⟨rule, start, stop, text, parts⟩ := phrase
  cases hrule
  refine Gives.bind hfirst fun arg harg => ?_
  refine Gives.bind hrest fun found hfound => .pure ?_
  exact ⟨by rw [Value.formItems, harg, hfound.1], hfound.2⟩

/-- A named argument and the others. -/
theorem Passes.named {name value : Phrase} {phrases : List Phrase} {form : Value}
    {args keywords : List Value} (hvalue : Denotes file value form)
    (hrest : Passes file phrases args keywords) :
    Passes file (.mk .keywordArgument start stop text [name, value] :: phrases) args
      (keywordForm name.text form :: keywords) := by
  refine (gives_headAt .keyword).bind fun head hkind => ?_
  refine Gives.bind hvalue fun value hvalue => ?_
  refine Gives.bind hrest fun found hfound => .pure ?_
  refine ⟨hfound.1, ?_⟩
  simp only [Value.form, Value.formFields, Value.formItems, hkind, hvalue, hfound.2,
    keywordForm, Value.str, Value.plain]

/-- The phrases, calls, attributes and subscripts, make of a value of the one
form a value of the other. -/
inductive Extends (file : String) : List Phrase → Value → Value → Prop
  | none (value : Value) : Extends file [] value value
  | call {start stop : Place} {text : List Char} {parts rest : List Phrase}
      {args keywords : List Value} {value final : Value}
      (harguments : Passes file parts args keywords)
      (hrest : Extends file rest (.plain .call
        [("func", value), ("args", .list args), ("keywords", .list keywords)]) final) :
      Extends file (.mk .call start stop text parts :: rest) value final
  | attr {start stop : Place} {text : List Char} {name : Phrase} {rest : List Phrase}
      {value final : Value}
      (hrest : Extends file rest (.plain .attr
        [("value", value), ("attr", .str (String.ofList name.text)),
         ("ctx", .plain (.context .load) [])]) final) :
      Extends file (.mk .attr start stop text [name] :: rest) value final
  | subscript {start stop : Place} {text : List Char} {index : Phrase} {rest : List Phrase}
      {slice value final : Value} (hindex : Denotes file index slice)
      (hrest : Extends file rest (.plain .subscript
        [("value", value), ("slice", slice), ("ctx", .plain (.context .load) [])]) final) :
      Extends file (.mk .subscript start stop text [index] :: rest) value final

theorem Extends.trans {phrases phrases' : List Phrase} {value middle final : Value}
    (h : Extends file phrases value middle) (h' : Extends file phrases' middle final) :
    Extends file (phrases ++ phrases') value final := by
  induction h with
  | none => exact h'
  | call harguments _ ih => exact .call harguments (ih h')
  | attr _ ih => exact .attr (ih h')
  | subscript hindex _ ih => exact .subscript hindex (ih h')

/-- The trailers are read from any value of the form. -/
theorem Extends.gives {phrases : List Phrase} {form final : Value}
    (h : Extends file phrases form final) (start : Place) {value : Value}
    (hvalue : value.form = form) :
    (trailers file start value phrases).Gives (·.form = final) := by
  induction h generalizing value with
  | none => exact .pure hvalue
  | call harguments _ ih =>
      refine Gives.bind harguments fun found hfound => ?_
      refine (gives_headAt .call).bind fun head hkind => ih ?_
      simp only [Value.form, Value.formFields, hkind, hvalue, hfound.1, hfound.2,
        Value.plain]
  | attr _ ih =>
      refine (gives_headAt .attr).bind fun head hkind => ?_
      refine (gives_bare _).bind fun ctx hctx => ih ?_
      simp only [Value.form, Value.formFields, hkind, hctx, hvalue, Value.str, Value.plain]
  | subscript hindex _ ih =>
      refine (gives_headAt .subscript).bind fun head hkind => ?_
      refine Gives.bind hindex fun slice hslice => ?_
      refine (gives_bare _).bind fun ctx hctx => ih ?_
      simp only [Value.form, Value.formFields, hkind, hctx, hslice, hvalue, Value.plain]

/-- A value with what extends it, or alone. -/
theorem denotes_primary {atom : Phrase} {phrases : List Phrase} {form final : Value}
    (hatom : Denotes file atom form) (hrest : Extends file phrases form final) :
    Denotes file (.mk .primary start stop text (atom :: phrases)) final := by
  cases phrases with
  | nil =>
      cases hrest
      exact hatom
  | cons trailer rest =>
      exact Gives.bind hatom fun value hvalue => hrest.gives atom.start hvalue

end Reading

end FunctionIR
