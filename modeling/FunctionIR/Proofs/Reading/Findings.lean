import FunctionIR.Proofs.Tree.Running
import FunctionIR.Reading.Expression

/-!
# What reading finds

The equations that read an expression create nodes, number them and may fail.
What a reading that succeeds has **found** can be told without any of this: it
is a relation between phrases and values (`Finds`), with one rule for each
equation, from the counter at the beginning to the counter at the end.  A
property of all trees is then an induction over these rules.

An expression is read together with the lists of phrases inside it, so the
relation speaks of seven sorts of reading at once (`Finding`).  That it holds of
every reading is `finds_expression`.
-/

namespace FunctionIR.Reading

open Numbered
open Grammar (Phrase Place Rule)

/-! ### New nodes -/

/-- A node without a place and without fields. -/
def bareNode (id : Nat) (kind : Kind) : Value := .node ⟨id, kind, none, none⟩ []

/-- The head of a node that covers the text between two places. -/
def placedHead (file : String) (id : Nat) (kind : Kind) (start stop : Place) : Head :=
  ⟨id, kind, some (locate file start), some (spanOf file start stop)⟩

/-- A tuple or a list of which the value is read. -/
def sequenceNode (head : Head) (items : List Value) : Value :=
  .node head [("elts", .list items), ("ctx", bareNode (head.id + 1) (.context .load))]

variable {file : String} {start stop : Place} {c d : Nat}

section

variable {α : Type} {a : α}

/-- A step that creates the head of a node. -/
theorem run_headAt_bind {kind : Kind} {k : Head → Numbered α}
    (h : (headAt file kind start stop >>= k).runFrom c = (.ok a, d)) :
    (k (placedHead file c kind start stop)).runFrom (c + 1) = (.ok a, d) := h

/-- A step that creates a node without a place. -/
theorem run_bare_bind {kind : Kind} {k : Value → Numbered α}
    (h : (bare kind >>= k).runFrom c = (.ok a, d)) :
    (k (bareNode c kind)).runFrom (c + 1) = (.ok a, d) := h

/-- A context takes one number. -/
theorem run_context_bind {context : Context} {k : Value → Numbered α}
    (h : (Reading.context context >>= k).runFrom c = (.ok a, d)) :
    (k (bareNode c (.context context))).runFrom (c + 1) = (.ok a, d) := h

end

/-- The operator of a phrase. -/
theorem run_unaryOp {phrase : Phrase} {op : UnaryOp}
    (h : (unaryOp file phrase).runFrom c = (.ok op, d)) :
    UnaryOp.ofToken (String.ofList phrase.text) = some op ∧ d = c := by
  unfold unaryOp at h
  split at h
  next heq =>
    cases h
    exact ⟨heq, rfl⟩
  next => cases h

/-- An operator of two operands is told by its token and takes no number. -/
theorem run_binaryOp {phrase : Phrase} {op : BinaryOp}
    (h : (binaryOp file phrase).runFrom c = (.ok op, d)) :
    BinaryOp.ofToken (String.ofList phrase.text) = some op ∧ d = c := by
  unfold binaryOp at h
  split at h
  next heq =>
    cases h
    exact ⟨heq, rfl⟩
  next => cases h

/-- A comparison sign is told by its text without blanks and takes no number. -/
theorem run_compareOp {phrase : Phrase} {op : CompareOp}
    (h : (compareOp file phrase).runFrom c = (.ok op, d)) :
    CompareOp.ofToken (String.ofList (squeeze phrase.text)) = some op ∧ d = c := by
  unfold compareOp at h
  split at h
  next heq =>
    cases h
    exact ⟨heq, rfl⟩
  next => cases h

/-! ### The relation -/

/-- The value of a literal, by its rule and text. -/
def literalValue : Rule → List Char → Option Scalar
  | .noneLiteral, _ => some .none
  | .trueLiteral, _ => some (.bool true)
  | .falseLiteral, _ => some (.bool false)
  | .integer, text => (integerValue text).map .int
  | .float, text => some (.real (floatValue text))
  | .string, text => some (.str (stringValue text))
  | _, _ => none

/-- The operator that joins the conditions of a rule. -/
def joiningOp : Rule → Option BoolOp
  | .disjunction => some .or
  | .conjunction => some .and
  | _ => none

/-- The rule has no reading of its own: a single part of it is read in its place. -/
def passes : Rule → Bool
  | .listDisplay | .expressionList | .targetList | .identifier | .noneLiteral | .trueLiteral
  | .falseLiteral | .integer | .float | .string => false
  | _ => true

/-- What is read, and what it is read as. -/
inductive Finding where
  | expression (phrase : Phrase) (value : Value)
  | expressions (phrases : List Phrase) (values : List Value)
  | elements (phrases : List Phrase) (values : List Value) (trailingComma : Bool)
  | comparisons (phrases : List Phrase) (ops comparators : List Value)
  /-- A chain of operations that starts with a value. -/
  | operations (start : Place) (left : Value) (phrases : List Phrase) (value : Value)
  /-- A value with calls, attributes and subscripts after it. -/
  | trailers (start : Place) (value : Value) (phrases : List Phrase) (result : Value)
  | arguments (phrases : List Phrase) (args keywords : List Value)

/-- From the one counter to the other, reading finds. -/
inductive Finds (file : String) : Nat → Finding → Nat → Prop
  | conditional {c c' c'' d : Nat} {start stop : Place} {text : List Char}
      {first second third : Phrase} {body test orelse : Value} :
      Finds file c (.expression first body) c' →
      Finds file (c' + 1) (.expression second test) c'' →
      Finds file c'' (.expression third orelse) d →
      Finds file c (.expression (.mk .expression start stop text [first, second, third])
        (.node (placedHead file c' .ifExp start stop)
          [("test", test), ("body", body), ("orelse", orelse)])) d
  | joined {c d : Nat} {rule : Rule} {op : BoolOp} {start stop : Place} {text : List Char}
      {first second : Phrase} {rest : List Phrase} {values : List Value} :
      joiningOp rule = some op →
      Finds file c (.expressions (first :: second :: rest) values) d →
      Finds file c (.expression (.mk rule start stop text (first :: second :: rest))
        (.node (placedHead file d .boolOp start stop)
          [("op", bareNode (d + 1) (.boolean op)), ("values", .list values)])) (d + 2)
  | negation {c d : Nat} {start stop : Place} {text : List Char} {word phrase : Phrase}
      {operand : Value} :
      Finds file c (.expression phrase operand) d →
      Finds file c (.expression (.mk .inversion start stop text [word, phrase])
        (.node (placedHead file d .unaryOp start stop)
          [("op", bareNode (d + 1) (.unary .not)), ("operand", operand)])) (d + 2)
  | comparison {c c' d : Nat} {start stop : Place} {text : List Char} {first op second : Phrase}
      {rest : List Phrase} {left : Value} {ops comparators : List Value} :
      Finds file c (.expression first left) c' →
      Finds file c' (.comparisons (op :: second :: rest) ops comparators) d →
      Finds file c (.expression (.mk .comparison start stop text (first :: op :: second :: rest))
        (.node (placedHead file d .compare start stop)
          [("left", left), ("ops", .list ops), ("comparators", .list comparators)])) (d + 1)
  | chain {c c' d : Nat} {rule : Rule} {start stop : Place} {text : List Char}
      {first op second : Phrase} {rest : List Phrase} {left value : Value} :
      rule = .sum ∨ rule = .term →
      Finds file c (.expression first left) c' →
      Finds file c' (.operations start left (op :: second :: rest) value) d →
      Finds file c (.expression (.mk rule start stop text (first :: op :: second :: rest)) value) d
  | sign {c d : Nat} {start stop : Place} {text : List Char} {token phrase : Phrase}
      {op : UnaryOp} {operand : Value} :
      UnaryOp.ofToken (String.ofList token.text) = some op →
      Finds file (c + 2) (.expression phrase operand) d →
      Finds file c (.expression (.mk .factor start stop text [token, phrase])
        (.node (placedHead file c .unaryOp start stop)
          [("op", bareNode (c + 1) (.unary op)), ("operand", operand)])) d
  | power {c c' d : Nat} {start stop : Place} {text : List Char} {first second : Phrase}
      {base exponent : Value} :
      Finds file c (.expression first base) c' →
      Finds file (c' + 2) (.expression second exponent) d →
      Finds file c (.expression (.mk .power start stop text [first, second])
        (.node (placedHead file c' .binOp start stop)
          [("left", base), ("op", bareNode (c' + 1) (.binary .pow)), ("right", exponent)])) d
  | primary {c c' d : Nat} {start stop : Place} {text : List Char} {atom trailer : Phrase}
      {rest : List Phrase} {value result : Value} :
      Finds file c (.expression atom value) c' →
      Finds file c' (.trailers atom.start value (trailer :: rest) result) d →
      Finds file c (.expression (.mk .primary start stop text (atom :: trailer :: rest)) result) d
  | unit {c : Nat} {start stop : Place} {text : List Char} :
      Finds file c (.expression (.mk .parenthesized start stop text [])
        (sequenceNode (placedHead file c .tuple start stop) [])) (c + 2)
  | display {c d : Nat} {start stop : Place} {text : List Char} {parts : List Phrase}
      {items : List Value} :
      Finds file c (.expressions parts items) d →
      Finds file c (.expression (.mk .listDisplay start stop text parts)
        (sequenceNode (placedHead file d .list start stop) items)) (d + 2)
  | alone {c d : Nat} {rule : Rule} {start stop : Place} {text : List Char} {parts : List Phrase}
      {value : Value} :
      rule = .expressionList ∨ rule = .targetList →
      Finds file c (.elements parts [value] false) d →
      Finds file c (.expression (.mk rule start stop text parts) value) d
  | tuple {c d : Nat} {rule : Rule} {start stop : Place} {text : List Char} {parts : List Phrase}
      {items : List Value} {trailingComma : Bool} :
      rule = .expressionList ∨ rule = .targetList →
      (items.length ≠ 1 ∨ trailingComma = true) →
      Finds file c (.elements parts items trailingComma) d →
      Finds file c (.expression (.mk rule start stop text parts)
        (sequenceNode (placedHead file d .tuple start stop) items)) (d + 2)
  | name {c : Nat} {start stop : Place} {text : List Char} {parts : List Phrase} :
      Finds file c (.expression (.mk .identifier start stop text parts)
        (.node (placedHead file c .name start stop)
          [("id", .str (String.ofList text)), ("ctx", bareNode (c + 1) (.context .load))])) (c + 2)
  | literal {c : Nat} {rule : Rule} {start stop : Place} {text : List Char} {parts : List Phrase}
      {value : Scalar} :
      literalValue rule text = some value →
      Finds file c (.expression (.mk rule start stop text parts)
        (.node (placedHead file c .constant start stop)
          [("value", .scalar value), ("kind", .absent)])) (c + 1)
  /-- A level without an operator, or parentheses. -/
  | passed {c d : Nat} {rule : Rule} {start stop : Place} {text : List Char} {inner : Phrase}
      {value : Value} :
      passes rule = true → Finds file c (.expression inner value) d →
      Finds file c (.expression (.mk rule start stop text [inner]) value) d
  | nothing {c : Nat} : Finds file c (.expressions [] []) c
  | next {c c' d : Nat} {phrase : Phrase} {rest : List Phrase} {value : Value}
      {values : List Value} :
      Finds file c (.expression phrase value) c' →
      Finds file c' (.expressions rest values) d →
      Finds file c (.expressions (phrase :: rest) (value :: values)) d
  | noElement {c : Nat} : Finds file c (.elements [] [] false) c
  | comma {c d : Nat} {start stop : Place} {text : List Char} {parts rest : List Phrase}
      {values : List Value} {trailingComma : Bool} :
      Finds file c (.elements rest values trailingComma) d →
      Finds file c (.elements (.mk .trailingComma start stop text parts :: rest) values true) d
  | element {c c' d : Nat} {phrase : Phrase} {rest : List Phrase} {value : Value}
      {values : List Value} {trailingComma : Bool} :
      Finds file c (.expression phrase value) c' →
      Finds file c' (.elements rest values trailingComma) d →
      Finds file c (.elements (phrase :: rest) (value :: values) trailingComma) d
  | notCompared {c : Nat} : Finds file c (.comparisons [] [] []) c
  | compared {c c' d : Nat} {token phrase : Phrase} {rest : List Phrase} {op : CompareOp}
      {right : Value} {ops comparators : List Value} :
      CompareOp.ofToken (String.ofList (squeeze token.text)) = some op →
      Finds file (c + 1) (.expression phrase right) c' →
      Finds file c' (.comparisons rest ops comparators) d →
      Finds file c (.comparisons (token :: phrase :: rest)
        (bareNode c (.comparison op) :: ops) (right :: comparators)) d
  | notOperated {c : Nat} {start : Place} {left : Value} :
      Finds file c (.operations start left [] left) c
  | operated {c c' d : Nat} {start : Place} {token phrase : Phrase} {rest : List Phrase}
      {op : BinaryOp} {left right value : Value} :
      BinaryOp.ofToken (String.ofList token.text) = some op →
      Finds file c (.expression phrase right) c' →
      Finds file (c' + 2) (.operations start
        (.node (placedHead file c' .binOp start phrase.stop)
          [("left", left), ("op", bareNode (c' + 1) (.binary op)), ("right", right)])
        rest value) d →
      Finds file c (.operations start left (token :: phrase :: rest) value) d
  | notExtended {c : Nat} {start : Place} {value : Value} :
      Finds file c (.trailers start value [] value) c
  | called {c c' d : Nat} {start start' stop : Place} {text : List Char}
      {parts rest : List Phrase} {value result : Value} {args keywords : List Value} :
      Finds file c (.arguments parts args keywords) c' →
      Finds file (c' + 1) (.trailers start
        (.node (placedHead file c' .call start stop)
          [("func", value), ("args", .list args), ("keywords", .list keywords)])
        rest result) d →
      Finds file c (.trailers start value (.mk .call start' stop text parts :: rest) result) d
  | selected {c d : Nat} {start start' stop : Place} {text : List Char} {name : Phrase}
      {rest : List Phrase} {value result : Value} :
      Finds file (c + 2) (.trailers start
        (.node (placedHead file c .attr start stop)
          [("value", value), ("attr", .str (String.ofList name.text)),
           ("ctx", bareNode (c + 1) (.context .load))])
        rest result) d →
      Finds file c (.trailers start value (.mk .attr start' stop text [name] :: rest) result) d
  | subscripted {c c' d : Nat} {start start' stop : Place} {text : List Char} {index : Phrase}
      {rest : List Phrase} {value slice result : Value} :
      Finds file (c + 1) (.expression index slice) c' →
      Finds file (c' + 1) (.trailers start
        (.node (placedHead file c .subscript start stop)
          [("value", value), ("slice", slice), ("ctx", bareNode c' (.context .load))])
        rest result) d →
      Finds file c
        (.trailers start value (.mk .subscript start' stop text [index] :: rest) result) d
  | noArgument {c : Nat} : Finds file c (.arguments [] [] []) c
  | keyword {c c' d : Nat} {start stop : Place} {text : List Char} {name phrase : Phrase}
      {rest : List Phrase} {value : Value} {args keywords : List Value} :
      Finds file (c + 1) (.expression phrase value) c' →
      Finds file c' (.arguments rest args keywords) d →
      Finds file c (.arguments (.mk .keywordArgument start stop text [name, phrase] :: rest) args
        (.node (placedHead file c .keyword start stop)
          [("arg", .str (String.ofList name.text)), ("value", value)] :: keywords)) d
  | argument {c c' d : Nat} {phrase : Phrase} {rest : List Phrase} {arg : Value}
      {args keywords : List Value} :
      Finds file c (.expression phrase arg) c' →
      Finds file c' (.arguments rest args keywords) d →
      Finds file c (.arguments (phrase :: rest) (arg :: args) keywords) d

/-! ### Reading finds -/

/-- A constant is found for its phrase. -/
theorem finds_constant {rule : Rule} {text : List Char} {parts : List Phrase} {scalar : Scalar}
    {value : Value} (hliteral : literalValue rule text = some scalar)
    (h : (constant file scalar start stop).runFrom c = (.ok value, d)) :
    Finds file c (.expression (.mk rule start stop text parts) value) d := by
  replace h := run_headAt_bind h
  cases h
  exact .literal hliteral

/-- A tuple without parentheses is found for its phrase. -/
theorem finds_tupleOf {rule : Rule} {text : List Char} {parts : List Phrase} {items : List Value}
    {trailingComma : Bool} {value : Value} {c' : Nat}
    (hrule : rule = .expressionList ∨ rule = .targetList)
    (helements : Finds file c (.elements parts items trailingComma) c')
    (h : (tupleOf file start stop items trailingComma).runFrom c' = (.ok value, d)) :
    Finds file c (.expression (.mk rule start stop text parts) value) d := by
  unfold tupleOf at h
  split at h
  next =>
    cases h
    exact .alone hrule helements
  next hsingle =>
    replace h := run_headAt_bind h
    replace h := run_context_bind h
    cases h
    refine .tuple hrule ?_ helements
    cases trailingComma with
    | true => exact .inr rfl
    | false =>
        refine .inl fun hlength => ?_
        obtain ⟨item, rfl⟩ := List.length_eq_one_iff.mp hlength
        exact hsingle item rfl rfl

mutual

/-- **Reading an expression finds it.** -/
theorem finds_expression (phrase : Phrase) {c d : Nat} {value : Value}
    (h : (expression file phrase).runFrom c = (.ok value, d)) :
    Finds file c (.expression phrase value) d := by
  -- each line of the reader is a chain of steps, which are taken off one after the other
  rw [expression.eq_def] at h
  split at h
  next first second third =>
    obtain ⟨body, _, hbody, h⟩ := runFrom_bind h
    replace h := run_headAt_bind h
    obtain ⟨test, _, htest, h⟩ := runFrom_bind h
    obtain ⟨orelse, _, horelse, h⟩ := runFrom_bind h
    cases h
    exact .conditional (finds_expression first hbody) (finds_expression second htest)
      (finds_expression third horelse)
  next first second rest =>
    obtain ⟨one, _, hone, h⟩ := runFrom_bind h
    obtain ⟨two, _, htwo, h⟩ := runFrom_bind h
    obtain ⟨others, _, hothers, h⟩ := runFrom_bind h
    replace h := run_headAt_bind h
    replace h := run_bare_bind h
    cases h
    exact .joined rfl (.next (finds_expression first hone)
      (.next (finds_expression second htwo) (finds_expressions rest hothers)))
  next first second rest =>
    obtain ⟨one, _, hone, h⟩ := runFrom_bind h
    obtain ⟨two, _, htwo, h⟩ := runFrom_bind h
    obtain ⟨others, _, hothers, h⟩ := runFrom_bind h
    replace h := run_headAt_bind h
    replace h := run_bare_bind h
    cases h
    exact .joined rfl (.next (finds_expression first hone)
      (.next (finds_expression second htwo) (finds_expressions rest hothers)))
  next word phrase =>
    obtain ⟨operand, _, hoperand, h⟩ := runFrom_bind h
    replace h := run_headAt_bind h
    replace h := run_bare_bind h
    cases h
    exact .negation (finds_expression phrase hoperand)
  next first op second rest =>
    obtain ⟨left, _, hleft, h⟩ := runFrom_bind h
    obtain ⟨⟨ops, comparators⟩, _, hrest, h⟩ := runFrom_bind h
    replace h := run_headAt_bind h
    cases h
    exact .comparison (finds_expression first hleft) (finds_comparisons _ hrest)
  next first op second rest =>
    obtain ⟨left, _, hleft, h⟩ := runFrom_bind h
    exact .chain (.inl rfl) (finds_expression first hleft) (finds_operations _ left _ h)
  next first op second rest =>
    obtain ⟨left, _, hleft, h⟩ := runFrom_bind h
    exact .chain (.inr rfl) (finds_expression first hleft) (finds_operations _ left _ h)
  next token phrase =>
    obtain ⟨op, _, htoken, hread⟩ := runFrom_bind h
    obtain ⟨hop, rfl⟩ := run_unaryOp htoken
    replace hread := run_headAt_bind hread
    replace hread := run_bare_bind hread
    obtain ⟨operand, _, hoperand, hread⟩ := runFrom_bind hread
    cases hread
    exact .sign hop (finds_expression phrase hoperand)
  next first second =>
    obtain ⟨base, _, hbase, h⟩ := runFrom_bind h
    replace h := run_headAt_bind h
    replace h := run_bare_bind h
    obtain ⟨exponent, _, hexponent, h⟩ := runFrom_bind h
    cases h
    exact .power (finds_expression first hbase) (finds_expression second hexponent)
  next atom trailer rest =>
    obtain ⟨value, _, hvalue, h⟩ := runFrom_bind h
    exact .primary (finds_expression atom hvalue) (finds_trailers _ value _ h)
  next =>
    replace h := run_headAt_bind h
    replace h := run_context_bind h
    cases h
    exact .unit
  next parts =>
    obtain ⟨items, _, hitems, h⟩ := runFrom_bind h
    replace h := run_headAt_bind h
    replace h := run_context_bind h
    cases h
    exact .display (finds_expressions parts hitems)
  next parts =>
    obtain ⟨⟨items, trailingComma⟩, _, hitems, h⟩ := runFrom_bind h
    exact finds_tupleOf (.inl rfl) (finds_elements parts hitems) h
  next parts =>
    obtain ⟨⟨items, trailingComma⟩, _, hitems, h⟩ := runFrom_bind h
    exact finds_tupleOf (.inr rfl) (finds_elements parts hitems) h
  next =>
    replace h := run_headAt_bind h
    replace h := run_context_bind h
    cases h
    exact .name
  next => exact finds_constant rfl h
  next => exact finds_constant rfl h
  next => exact finds_constant rfl h
  next text _ =>
    split at h
    next value hvalue => exact finds_constant (by simp [literalValue, hvalue]) h
    next => cases h
  next => exact finds_constant rfl h
  next => exact finds_constant rfl h
  next rule _ _ _ inner _ _ _ _ _ _ _ _ _ _ =>
    refine .passed ?_ (finds_expression inner h)
    cases rule <;> first | rfl | simp_all
  next => cases h
termination_by sizeOf phrase
decreasing_by
  all_goals
    subst_vars
    simp only [Phrase.mk.sizeOf_spec, List.cons.sizeOf_spec]
    omega

/-- Several expressions, one after the other. -/
theorem finds_expressions (phrases : List Phrase) {c d : Nat} {values : List Value}
    (h : (expressions file phrases).runFrom c = (.ok values, d)) :
    Finds file c (.expressions phrases values) d := by
  rw [expressions.eq_def] at h
  split at h
  next =>
    cases h
    exact .nothing
  next phrase rest =>
    obtain ⟨value, _, hvalue, h⟩ := runFrom_bind h
    obtain ⟨values, _, hvalues, h⟩ := runFrom_bind h
    cases h
    exact .next (finds_expression phrase hvalue) (finds_expressions rest hvalues)
termination_by sizeOf phrases
decreasing_by
  all_goals
    subst_vars
    simp only [List.cons.sizeOf_spec]
    omega

/-- Elements, one after the other. -/
theorem finds_elements (phrases : List Phrase) {c d : Nat} {values : List Value}
    {trailingComma : Bool}
    (h : (elements file phrases).runFrom c = (.ok (values, trailingComma), d)) :
    Finds file c (.elements phrases values trailingComma) d := by
  rw [elements.eq_def] at h
  split at h
  next =>
    cases h
    exact .noElement
  next rest =>
    obtain ⟨⟨values, comma⟩, _, hvalues, h⟩ := runFrom_bind h
    cases h
    exact .comma (finds_elements rest hvalues)
  next phrase rest _ =>
    obtain ⟨value, _, hvalue, h⟩ := runFrom_bind h
    obtain ⟨⟨values, comma⟩, _, hvalues, h⟩ := runFrom_bind h
    cases h
    exact .element (finds_expression phrase hvalue) (finds_elements rest hvalues)
termination_by sizeOf phrases
decreasing_by
  all_goals
    subst_vars
    simp only [Phrase.mk.sizeOf_spec, List.cons.sizeOf_spec]
    omega

/-- Comparisons, one after the other. -/
theorem finds_comparisons (phrases : List Phrase) {c d : Nat} {ops comparators : List Value}
    (h : (comparisons file phrases).runFrom c = (.ok (ops, comparators), d)) :
    Finds file c (.comparisons phrases ops comparators) d := by
  rw [comparisons.eq_def] at h
  split at h
  next token phrase rest =>
    obtain ⟨op, _, htoken, hread⟩ := runFrom_bind h
    obtain ⟨hop, rfl⟩ := run_compareOp htoken
    replace hread := run_bare_bind hread
    obtain ⟨right, _, hright, hread⟩ := runFrom_bind hread
    obtain ⟨⟨ops, comparators⟩, _, hrest, hread⟩ := runFrom_bind hread
    cases hread
    exact .compared hop (finds_expression phrase hright) (finds_comparisons rest hrest)
  next => cases h
  next =>
    cases h
    exact .notCompared
termination_by sizeOf phrases
decreasing_by
  all_goals
    subst_vars
    simp only [List.cons.sizeOf_spec]
    omega

/-- Operations from the left. -/
theorem finds_operations (start : Place) (left : Value) (phrases : List Phrase) {c d : Nat}
    {value : Value} (h : (operations file start left phrases).runFrom c = (.ok value, d)) :
    Finds file c (.operations start left phrases value) d := by
  rw [operations.eq_def] at h
  split at h
  next token phrase rest =>
    obtain ⟨op, _, htoken, hread⟩ := runFrom_bind h
    obtain ⟨hop, rfl⟩ := run_binaryOp htoken
    obtain ⟨right, _, hright, hread⟩ := runFrom_bind hread
    replace hread := run_headAt_bind hread
    replace hread := run_bare_bind hread
    exact .operated hop (finds_expression phrase hright) (finds_operations start _ rest hread)
  next => cases h
  next =>
    cases h
    exact .notOperated
termination_by sizeOf phrases
decreasing_by
  all_goals
    subst_vars
    simp only [List.cons.sizeOf_spec]
    omega

/-- Trailers, one after the other. -/
theorem finds_trailers (start : Place) (value : Value) (phrases : List Phrase) {c d : Nat}
    {result : Value} (h : (trailers file start value phrases).runFrom c = (.ok result, d)) :
    Finds file c (.trailers start value phrases result) d := by
  rw [trailers.eq_def] at h
  split at h
  next parts rest =>
    obtain ⟨⟨args, keywords⟩, _, hargs, h⟩ := runFrom_bind h
    replace h := run_headAt_bind h
    exact .called (finds_arguments parts hargs) (finds_trailers start _ rest h)
  next name rest =>
    replace h := run_headAt_bind h
    replace h := run_context_bind h
    exact .selected (finds_trailers start _ rest h)
  next index rest =>
    replace h := run_headAt_bind h
    obtain ⟨slice, _, hslice, h⟩ := runFrom_bind h
    replace h := run_context_bind h
    exact .subscripted (finds_expression index hslice) (finds_trailers start _ rest h)
  next => cases h
  next =>
    cases h
    exact .notExtended
termination_by sizeOf phrases
decreasing_by
  all_goals
    subst_vars
    simp only [Phrase.mk.sizeOf_spec, List.cons.sizeOf_spec]
    omega

/-- Arguments, one after the other. -/
theorem finds_arguments (phrases : List Phrase) {c d : Nat} {args keywords : List Value}
    (h : (arguments file phrases).runFrom c = (.ok (args, keywords), d)) :
    Finds file c (.arguments phrases args keywords) d := by
  rw [arguments.eq_def] at h
  split at h
  next =>
    cases h
    exact .noArgument
  next name phrase rest =>
    replace h := run_headAt_bind h
    obtain ⟨value, _, hvalue, h⟩ := runFrom_bind h
    obtain ⟨⟨args, keywords⟩, _, hrest, h⟩ := runFrom_bind h
    cases h
    exact .keyword (finds_expression phrase hvalue) (finds_arguments rest hrest)
  next phrase rest _ =>
    obtain ⟨arg, _, harg, h⟩ := runFrom_bind h
    obtain ⟨⟨args, keywords⟩, _, hrest, h⟩ := runFrom_bind h
    cases h
    exact .argument (finds_expression phrase harg) (finds_arguments rest hrest)
termination_by sizeOf phrases
decreasing_by
  all_goals
    subst_vars
    simp only [Phrase.mk.sizeOf_spec, List.cons.sizeOf_spec]
    omega

end

end FunctionIR.Reading
