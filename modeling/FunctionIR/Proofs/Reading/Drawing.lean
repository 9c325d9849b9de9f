import FunctionIR.Proofs.Translation.Program
import Mathlib.Algebra.Order.Group.Multiset
import Mathlib.Order.Interval.Finset.Nat
import Mathlib.Order.Interval.Multiset
import Mathlib.Tactic.Abel

/-!
# The numbers a reading draws

Reading draws numbers from a counter and puts them into nodes, in an order that
differs from phrase to phrase.  Nodes are also given up on the way: the context of
an expression that turns out to be a target is replaced by another.  What holds
throughout is told by `Numbered.Draws`: a reading is handed nodes whose numbers are
*given*, and what it returns has no numbers but the given ones and those it has
drawn, none of them more often than there.  The numbers of a value are counted with
multiplicity for this, as a multiset.

The laws of `Draws` are those of a computation with resources: one after the other
(`Draws.bind`), beside nodes that are not touched (`Draws.frame`), and with more
given than is used (`Draws.mono`).  With them **a tree has only numbers that were
drawn for it, each of them once** (`Reading.draws_moduleTree`), and a reading that
fails has drawn numbers, too, and no more than that.
-/

namespace FunctionIR

/-! ### The numbers of a value -/

namespace Value

/-- The numbers of all nodes in a value. -/
def numbers (value : Value) : Multiset Nat := value.heads.map Head.id

/-- The numbers of all nodes in several values. -/
def numbersOfItems (items : List Value) : Multiset Nat := (headsOfItems items).map Head.id

/-- The numbers of all nodes in fields. -/
def numbersOfFields (fields : Fields) : Multiset Nat := (headsOfFields fields).map Head.id

/-- A scalar has no numbers. -/
@[simp] theorem numbers_scalar (s : Scalar) : (scalar s).numbers = 0 := rfl

/-- A text has no numbers. -/
@[simp] theorem numbers_str (text : String) : (str text).numbers = 0 := rfl

/-- An absent value has no numbers. -/
@[simp] theorem numbers_absent : absent.numbers = 0 := rfl

/-- The numbers of a list are those of its items. -/
@[simp] theorem numbers_list (items : List Value) :
    (list items).numbers = numbersOfItems items := rfl

/-- The numbers of a node are its own and those of its fields. -/
@[simp] theorem numbers_node (head : Head) (fields : Fields) :
    (node head fields).numbers = {head.id} + numbersOfFields fields := rfl

@[simp] theorem numbersOfItems_nil : numbersOfItems [] = 0 := rfl

/-- The numbers of the first value and those of the others. -/
@[simp] theorem numbersOfItems_cons (item : Value) (rest : List Value) :
    numbersOfItems (item :: rest) = item.numbers + numbersOfItems rest := by
  rw [numbersOfItems, headsOfItems, List.map_append, ← Multiset.coe_add]
  rfl

/-- The numbers of two lists of values together. -/
@[simp] theorem numbersOfItems_append (items more : List Value) :
    numbersOfItems (items ++ more) = numbersOfItems items + numbersOfItems more := by
  induction items with
  | nil => simp
  | cons item items ih => simp [ih, add_assoc]

@[simp] theorem numbersOfFields_nil : numbersOfFields [] = 0 := rfl

/-- The numbers of the first field and those of the others. -/
@[simp] theorem numbersOfFields_cons (name : String) (value : Value) (rest : Fields) :
    numbersOfFields ((name, value) :: rest) = value.numbers + numbersOfFields rest := by
  rw [numbersOfFields, headsOfFields, List.map_append, ← Multiset.coe_add]
  rfl

/-- A field that is set brings its numbers, and the one that it replaces takes its
own away. -/
theorem numbersOfFields_set_le (name : String) (value : Value) (fields : Fields) :
    numbersOfFields (Members.set name value fields) ≤ numbersOfFields fields + value.numbers := by
  induction fields with
  | nil => simp [Members.set]
  | cons field fields ih =>
      obtain ⟨key, old⟩ := field
      rw [Members.set]
      split
      · simp only [numbersOfFields_cons]
        rw [add_comm value.numbers]
        gcongr
        exact Multiset.le_add_left _ _
      · simp only [numbersOfFields_cons, add_assoc]
        gcongr

end Value

/-! ### Drawing numbers -/

namespace Numbered

variable {α β : Type} {given kept : Multiset Nat} {numbers : α → Multiset Nat}
  {numbers' : β → Multiset Nat}

/-- From whatever counter, the counter does not go back, and what the computation
succeeds with has no numbers but the given ones and those between the counters, none
of them more often. -/
def Draws (m : Numbered α) (given : Multiset Nat) (numbers : α → Multiset Nat) : Prop :=
  ∀ c, c ≤ (m.runFrom c).2 ∧
    ∀ a, (m.runFrom c).1 = .ok a → numbers a ≤ given + Multiset.Ico c (m.runFrom c).2

theorem Draws.pure {a : α} (h : numbers a ≤ given) : Draws (Pure.pure a) given numbers := by
  intro c
  refine ⟨Nat.le_refl c, ?_⟩
  rintro _ ⟨⟩
  exact le_trans h (Multiset.le_add_right _ _)

/-- A computation that fails draws nothing that counts. -/
theorem Draws.throw {fault : Fault} : Draws (MonadExcept.throw fault : Numbered α) given numbers :=
  fun c => ⟨Nat.le_refl c, nofun⟩

/-- What has been drawn is given to what comes after it. -/
theorem Draws.bind {m : Numbered α} {k : α → Numbered β} (hm : m.Draws given numbers)
    (hk : ∀ a, (k a).Draws (numbers a) numbers') : Draws (m >>= k) given numbers' := by
  intro c
  obtain ⟨hclimb, hdrawn⟩ := hm c
  simp only [runFrom, ExceptT.run_bind, StateT.run_bind] at hclimb hdrawn ⊢
  cases hrun : (ExceptT.run m).run c with
  | mk outcome d =>
      rw [hrun] at hclimb hdrawn
      cases outcome with
      | error fault =>
          refine ⟨hclimb, fun b hb => ?_⟩
          cases hb
      | ok a =>
          obtain ⟨hclimb', hdrawn'⟩ := hk a d
          refine ⟨le_trans hclimb hclimb', fun b hb => ?_⟩
          calc numbers' b ≤ numbers a + Multiset.Ico d ((k a).runFrom d).2 := hdrawn' b hb
            _ ≤ given + Multiset.Ico c d + Multiset.Ico d ((k a).runFrom d).2 := by
                gcongr
                exact hdrawn a rfl
            _ = given + Multiset.Ico c ((k a).runFrom d).2 := by
                rw [add_assoc, Multiset.Ico_add_Ico_eq_Ico hclimb hclimb']

/-- More may be given than is used. -/
theorem Draws.mono {m : Numbered α} (h : m.Draws given numbers) (hle : given ≤ kept) :
    m.Draws kept numbers := by
  intro c
  refine ⟨(h c).1, fun a ha => ?_⟩
  calc numbers a ≤ given + Multiset.Ico c (m.runFrom c).2 := (h c).2 a ha
    _ ≤ kept + Multiset.Ico c (m.runFrom c).2 := by gcongr

/-- What is not touched is kept beside what is drawn. -/
theorem Draws.frame {m : Numbered α} (h : m.Draws given numbers) (kept : Multiset Nat) :
    m.Draws (kept + given) fun a => kept + numbers a := by
  intro c
  refine ⟨(h c).1, fun a ha => ?_⟩
  rw [add_assoc]
  exact add_le_add_right ((h c).2 a ha) kept

/-- A part that starts from nothing leaves what is given to what comes after it. -/
theorem Draws.step {m : Numbered α} {k : α → Numbered β} (hm : m.Draws 0 numbers)
    (hk : ∀ a, (k a).Draws (given + numbers a) numbers') : Draws (m >>= k) given numbers' :=
  ((hm.frame given).mono (le_of_eq (add_zero given))).bind hk

/-- Nothing comes after a fault. -/
theorem Draws.throw_bind {fault : Fault} {k : α → Numbered β} :
    Draws ((MonadExcept.throw fault : Numbered α) >>= k) given numbers' :=
  fun c => ⟨Nat.le_refl c, nofun⟩

/-- A new node takes the number that the counter stands at. -/
theorem draws_head (kind : Kind) (location : Option Location) (span : Option Span) :
    (head kind location span).Draws 0 fun head => {head.id} := by
  intro c
  refine ⟨Nat.le_succ c, ?_⟩
  rintro _ ⟨⟩
  rw [zero_add]
  exact Multiset.singleton_le.mpr (Multiset.mem_Ico.mpr ⟨Nat.le_refl c, Nat.lt_succ_self c⟩)

/-- A new node without fields draws its own number. -/
theorem draws_bare (kind : Kind) : (bare kind).Draws 0 Value.numbers :=
  (draws_head kind none none).step fun _ => .pure (by simp)

end Numbered

namespace Reading

open Grammar (Phrase Place)
open Numbered (Draws draws_head draws_bare)

variable {file : String} {start stop : Place}

/-! ### Expressions -/

/-- A new head at a place draws its number. -/
theorem draws_headAt (kind : Kind) :
    (headAt file kind start stop).Draws 0 fun head => {head.id} := draws_head kind _ _

/-- A context draws one number. -/
theorem draws_context (c : Context) : (context c).Draws 0 Value.numbers := draws_bare _

/-- A constant draws one number. -/
theorem draws_constant (value : Scalar) : (constant file value start stop).Draws 0 Value.numbers :=
  (draws_headAt .constant).step fun _ => .pure (by simp)

/-- A tuple draws one number and one for its context. -/
theorem draws_tupleOf (items : List Value) (trailingComma : Bool) :
    (tupleOf file start stop items trailingComma).Draws (Value.numbersOfItems items)
      Value.numbers := by
  unfold tupleOf
  split
  · exact .pure (by simp)
  · exact (draws_headAt .tuple).step fun _ => (draws_context .load).step fun _ =>
      .pure (by simp [add_comm])

/-- An operator of two operands draws no number. -/
theorem draws_binaryOp (phrase : Phrase) : (binaryOp file phrase).Draws 0 fun _ => 0 := by
  unfold binaryOp
  split
  · exact .pure (le_refl 0)
  · exact .throw

/-- An operator of one operand draws no number. -/
theorem draws_unaryOp (phrase : Phrase) : (unaryOp file phrase).Draws 0 fun _ => 0 := by
  unfold unaryOp
  split
  · exact .pure (le_refl 0)
  · exact .throw

/-- A comparison sign draws no number. -/
theorem draws_compareOp (phrase : Phrase) : (compareOp file phrase).Draws 0 fun _ => 0 := by
  unfold compareOp
  split
  · exact .pure (le_refl 0)
  · exact .throw

mutual

/-- **An expression has only numbers that are drawn for it**, each of them once. -/
theorem draws_expression (phrase : Phrase) : (expression file phrase).Draws 0 Value.numbers := by
  -- the steps of each line draw in order; only the order of the numbers in the node differs
  rw [expression.eq_def]
  split
  next body test orelse =>
    exact (draws_expression body).step fun _ => (draws_headAt .ifExp).step fun _ =>
      (draws_expression test).step fun _ => (draws_expression orelse).step fun _ =>
      .pure (by simp [add_assoc, add_comm, add_left_comm])
  next first second rest =>
    exact (draws_expression first).step fun _ => (draws_expression second).step fun _ =>
      (draws_expressions rest).step fun _ => (draws_headAt .boolOp).step fun _ =>
      (draws_bare (.boolean .or)).step fun _ =>
      .pure (by simp [add_assoc, add_comm, add_left_comm])
  next first second rest =>
    exact (draws_expression first).step fun _ => (draws_expression second).step fun _ =>
      (draws_expressions rest).step fun _ => (draws_headAt .boolOp).step fun _ =>
      (draws_bare (.boolean .and)).step fun _ =>
      .pure (by simp [add_assoc, add_comm, add_left_comm])
  next operand =>
    exact (draws_expression operand).step fun _ => (draws_headAt .unaryOp).step fun _ =>
      (draws_bare (.unary .not)).step fun _ =>
      .pure (by simp [add_comm])
  next left op right rest =>
    exact (draws_expression left).step fun _ =>
      (draws_comparisons (op :: right :: rest)).step fun _ => (draws_headAt .compare).step fun _ =>
      .pure (by simp [add_comm])
  next first op right rest =>
    exact (draws_expression first).step fun left =>
      (draws_operations _ left (op :: right :: rest)).mono (by simp)
  next first op right rest =>
    exact (draws_expression first).step fun left =>
      (draws_operations _ left (op :: right :: rest)).mono (by simp)
  next operand =>
    exact (draws_unaryOp _).step fun op => (draws_headAt .unaryOp).step fun _ =>
      (draws_bare (.unary op)).step fun _ => (draws_expression operand).step fun _ =>
      .pure (by simp)
  next base exponent =>
    exact (draws_expression base).step fun _ => (draws_headAt .binOp).step fun _ =>
      (draws_bare (.binary .pow)).step fun _ => (draws_expression exponent).step fun _ =>
      .pure (by simp [add_assoc, add_comm])
  next atom trailer rest =>
    exact (draws_expression atom).step fun value =>
      (draws_trailers _ value (trailer :: rest)).mono (by simp)
  next => exact draws_tupleOf [] false
  next items =>
    exact (draws_expressions items).step fun _ => (draws_headAt .list).step fun _ =>
      (draws_context .load).step fun _ =>
      .pure (by simp [add_comm])
  next parts =>
    exact (draws_elements parts).step fun found => (draws_tupleOf found.1 found.2).mono (by simp)
  next parts =>
    exact (draws_elements parts).step fun found => (draws_tupleOf found.1 found.2).mono (by simp)
  next =>
    exact (draws_headAt .name).step fun _ => (draws_context .load).step fun _ => .pure (by simp)
  next => exact draws_constant _
  next => exact draws_constant _
  next => exact draws_constant _
  next =>
    split
    · exact draws_constant _
    · exact .throw
  next => exact draws_constant _
  next => exact draws_constant _
  next inner _ _ _ _ _ _ _ _ _ _ => exact draws_expression inner
  next => exact .throw
termination_by sizeOf phrase
decreasing_by
  all_goals
    subst_vars
    simp only [Phrase.mk.sizeOf_spec, List.cons.sizeOf_spec]
    omega

/-- Several expressions draw the numbers of all of them. -/
theorem draws_expressions (phrases : List Phrase) :
    (expressions file phrases).Draws 0 Value.numbersOfItems := by
  rw [expressions.eq_def]
  split
  next => exact .pure (by simp)
  next phrase rest =>
    exact (draws_expression phrase).step fun _ => (draws_expressions rest).step fun _ =>
      .pure (by simp)
termination_by sizeOf phrases
decreasing_by
  all_goals
    subst_vars
    simp only [List.cons.sizeOf_spec]
    omega

/-- Elements draw the numbers of all of them. -/
theorem draws_elements (phrases : List Phrase) :
    (elements file phrases).Draws 0 fun found => Value.numbersOfItems found.1 := by
  rw [elements.eq_def]
  split
  next => exact .pure (by simp)
  next rest => exact (draws_elements rest).step fun _ => .pure (by simp)
  next phrase rest _ =>
    exact (draws_expression phrase).step fun _ => (draws_elements rest).step fun _ =>
      .pure (by simp)
termination_by sizeOf phrases
decreasing_by
  all_goals
    subst_vars
    simp only [Phrase.mk.sizeOf_spec, List.cons.sizeOf_spec]
    omega

/-- Comparisons draw the numbers of operators and operands. -/
theorem draws_comparisons (phrases : List Phrase) :
    (comparisons file phrases).Draws 0
      fun found => Value.numbersOfItems found.1 + Value.numbersOfItems found.2 := by
  rw [comparisons.eq_def]
  split
  next op right rest =>
    exact (draws_compareOp op).step fun op => (draws_bare (.comparison op)).step fun _ =>
      (draws_expression right).step fun _ => (draws_comparisons rest).step fun _ =>
      .pure (by simp [add_assoc, add_left_comm])
  next => exact .throw
  next => exact .pure (Multiset.zero_le _)
termination_by sizeOf phrases
decreasing_by
  all_goals
    subst_vars
    simp only [List.cons.sizeOf_spec]
    omega

/-- Operations are put around the value to their left. -/
theorem draws_operations (start : Place) (left : Value) (phrases : List Phrase) :
    (operations file start left phrases).Draws left.numbers Value.numbers := by
  rw [operations.eq_def]
  split
  next op right rest =>
    exact (draws_binaryOp op).step fun op => (draws_expression right).step fun _ =>
      (draws_headAt .binOp).step fun _ => (draws_bare (.binary op)).step fun _ =>
      (draws_operations start _ rest).mono (by simp [add_assoc, add_comm])
  next => exact .throw
  next => exact .pure (le_refl _)
termination_by sizeOf phrases
decreasing_by
  all_goals
    subst_vars
    simp only [List.cons.sizeOf_spec]
    omega

/-- Calls, attributes and subscripts are put around what they follow. -/
theorem draws_trailers (start : Place) (value : Value) (phrases : List Phrase) :
    (trailers file start value phrases).Draws value.numbers Value.numbers := by
  rw [trailers.eq_def]
  split
  next parts rest =>
    exact (draws_arguments parts).step fun _ => (draws_headAt .call).step fun _ =>
      (draws_trailers start _ rest).mono (by simp [add_comm])
  next name rest =>
    exact (draws_headAt .attr).step fun _ => (draws_context .load).step fun _ =>
      (draws_trailers start _ rest).mono (by simp [add_comm])
  next index rest =>
    exact (draws_headAt .subscript).step fun _ => (draws_expression index).step fun _ =>
      (draws_context .load).step fun _ =>
      (draws_trailers start _ rest).mono (by simp [add_assoc, add_comm])
  next => exact .throw
  next => exact .pure (le_refl _)
termination_by sizeOf phrases
decreasing_by
  all_goals
    subst_vars
    simp only [Phrase.mk.sizeOf_spec, List.cons.sizeOf_spec]
    omega

/-- Arguments draw the numbers of plain and of named ones. -/
theorem draws_arguments (phrases : List Phrase) :
    (arguments file phrases).Draws 0
      fun found => Value.numbersOfItems found.1 + Value.numbersOfItems found.2 := by
  rw [arguments.eq_def]
  split
  next => exact .pure (by simp)
  next name value rest =>
    exact (draws_headAt .keyword).step fun _ => (draws_expression value).step fun _ =>
      (draws_arguments rest).step fun _ =>
      .pure (by simp [add_left_comm])
  next phrase rest _ =>
    exact (draws_expression phrase).step fun _ => (draws_arguments rest).step fun _ =>
      .pure (by simp [add_assoc])
termination_by sizeOf phrases
decreasing_by
  all_goals
    subst_vars
    simp only [Phrase.mk.sizeOf_spec, List.cons.sizeOf_spec]
    omega

end

/-! ### Targets -/

mutual

/-- A target gets a new context, and the number of the old one is given up. -/
theorem draws_store (value : Value) : (store value).Draws value.numbers Value.numbers := by
  cases value with
  | node head fields =>
      rw [store]
      split
      · exact .throw_bind
      dsimp only
      have hctx (fields : Fields) : (do
          let ctx ← context .store
          return Value.node head (Members.set "ctx" ctx fields) : Numbered Value).Draws
            ({head.id} + Value.numbersOfFields fields) Value.numbers :=
        (draws_context .store).step fun ctx => .pure (by
          rw [Value.numbers_node, add_assoc]
          gcongr
          exact Value.numbersOfFields_set_le "ctx" ctx fields)
      split
      next => exact ((draws_storeElements fields).frame {head.id}).bind hctx
      next => exact (Draws.pure (le_refl _)).bind hctx
  | scalar | list | foreign =>
      rw [store.eq_def]
      exact .pure (le_refl _)
termination_by sizeOf value

/-- Storing the elements draws no number that stays. -/
theorem draws_storeElements (fields : Fields) :
    (storeElements fields).Draws (Value.numbersOfFields fields) Value.numbersOfFields := by
  rw [storeElements.eq_def]
  split
  next => exact .pure (le_refl _)
  next items rest =>
    rw [Value.numbersOfFields_cons, add_comm]
    exact ((draws_storeAll items).frame _).bind fun _ => .pure (by simp [add_comm])
  next field rest _ =>
    obtain ⟨name, value⟩ := field
    rw [Value.numbersOfFields_cons]
    exact ((draws_storeElements rest).frame _).bind fun _ => .pure (by simp)
termination_by sizeOf fields

/-- Storing several values draws no number that stays. -/
theorem draws_storeAll (items : List Value) :
    (storeAll items).Draws (Value.numbersOfItems items) Value.numbersOfItems := by
  rw [storeAll.eq_def]
  split
  next => exact .pure (le_refl _)
  next value rest =>
    rw [Value.numbersOfItems_cons, add_comm]
    exact ((draws_store value).frame _).bind fun value =>
      (((draws_storeAll rest).frame value.numbers).mono (by simp [add_comm])).bind fun _ =>
        .pure (by simp)
termination_by sizeOf items

end

/-- A target draws the numbers of its nodes. -/
theorem draws_target (phrase : Phrase) : (target file phrase).Draws 0 Value.numbers :=
  (draws_expression phrase).step fun value => (draws_store value).mono (by simp)

/-! ### Statements without a body -/

/-- Targets draw the numbers of all of them. -/
theorem draws_assignmentTargets (phrases : List Phrase) :
    (assignmentTargets file phrases).Draws 0 fun found => Value.numbersOfItems found.1 := by
  induction phrases with
  | nil => exact .pure (le_refl 0)
  | cons first rest ih =>
      cases rest with
      | nil => exact .pure (le_refl 0)
      | cons next rest =>
          exact (draws_target first).step fun _ => ih.step fun _ => .pure (by simp)

/-- A simple statement draws the numbers of its nodes. -/
theorem draws_simpleStatement (phrase : Phrase) :
    (simpleStatement file phrase).Draws 0 Value.numbers := by
  rw [simpleStatement.eq_def]
  split
  next => exact (draws_headAt .passStmt).step fun _ => .pure (by simp)
  next => exact (draws_headAt .breakStmt).step fun _ => .pure (by simp)
  next => exact (draws_headAt .continueStmt).step fun _ => .pure (by simp)
  next => exact (draws_headAt .returnStmt).step fun _ => .pure (by simp)
  next value =>
    exact (draws_expression value).step fun _ => (draws_headAt .returnStmt).step fun _ =>
      .pure (by simp [add_comm])
  next parts =>
    refine (draws_assignmentTargets parts).step fun found => ?_
    split
    next _ value =>
      exact (draws_expression value).step fun _ => (draws_headAt .assign).step fun _ =>
        .pure (by simp [add_comm])
    next => exact .throw
  next target op value =>
    refine (draws_target target).step fun _ => (draws_expression value).step fun _ => ?_
    split
    next op _ =>
      exact (draws_headAt .augAssign).step fun _ => (draws_bare (.binary op)).step fun _ =>
        .pure (by simp [add_assoc, add_comm])
    next => exact .throw
  next value =>
    exact (draws_expression value).step fun _ => (draws_headAt .exprStmt).step fun _ =>
      .pure (by simp [add_comm])
  next => exact .throw

/-- Simple statements draw the numbers of all of them. -/
theorem draws_simpleStatements (phrases : List Phrase) :
    (simpleStatements file phrases).Draws 0 Value.numbersOfItems := by
  induction phrases with
  | nil => exact .pure (le_refl 0)
  | cons phrase rest ih =>
      exact (draws_simpleStatement phrase).step fun _ => ih.step fun _ => .pure (by simp)

/-! ### Parameters -/

/-- The numbers in the annotation and the default of a parameter. -/
def ParameterParts.numbers (parts : ParameterParts) : Multiset Nat :=
  (parts.annotated.getD .absent).numbers + (parts.default.getD .absent).numbers

theorem ParameterParts.numbers_nothing : (ParameterParts.mk "" none none).numbers = 0 := by
  simp [numbers]

/-- What is read later takes the place of what was read before. -/
theorem ParameterParts.numbers_annotated_le (parts : ParameterParts) (value : Value) :
    { parts with annotated := some value }.numbers ≤ parts.numbers + value.numbers :=
  Multiset.le_iff_exists_add.mpr
    ⟨(parts.annotated.getD .absent).numbers, by simp [numbers]; abel⟩

/-- A default adds its numbers at most. -/
theorem ParameterParts.numbers_default_le (parts : ParameterParts) (value : Value) :
    { parts with default := some value }.numbers ≤ parts.numbers + value.numbers :=
  Multiset.le_iff_exists_add.mpr
    ⟨(parts.default.getD .absent).numbers, by simp [numbers]; abel⟩

/-- The parts of a parameter draw the numbers of its nodes. -/
theorem draws_parameterParts (phrases : List Phrase) (sofar : ParameterParts) :
    (parameterParts file phrases sofar).Draws sofar.numbers ParameterParts.numbers := by
  induction phrases generalizing sofar with
  | nil => exact .pure (le_refl _)
  | cons phrase rest ih =>
      rw [parameterParts.eq_def]
      split
      next heq => cases heq
      next heq =>
        cases heq
        exact ih _
      next heq =>
        cases heq
        exact (draws_expression _).step fun _ =>
          (ih _).mono (ParameterParts.numbers_annotated_le _ _)
      next heq =>
        cases heq
        exact (draws_expression _).step fun _ =>
          (ih _).mono (ParameterParts.numbers_default_le _ _)
      next => exact .throw

/-- A parameter draws the numbers of its nodes and of its default. -/
theorem draws_parameter (parts : List Phrase) :
    (parameter file start stop parts).Draws 0
      fun found => found.1.numbers + (found.2.getD .absent).numbers :=
  ((draws_parameterParts parts _).mono (le_of_eq ParameterParts.numbers_nothing)).step fun _ =>
    (draws_headAt .arg).step fun _ =>
    .pure (by simp [ParameterParts.numbers, add_comm])

namespace Parameters

/-- The numbers in the groups of the parameters and in their defaults. -/
def numbers (p : Parameters) : Multiset Nat :=
  Value.numbersOfItems p.positionalOnly + Value.numbersOfItems p.positional +
    (p.rest.getD .absent).numbers + Value.numbersOfItems p.keywordOnly +
    Value.numbersOfItems p.keywordDefaults + (p.keywords.getD .absent).numbers +
    Value.numbersOfItems p.defaults

theorem numbers_empty : empty.numbers = 0 := by simp [numbers, empty]

/-- The node of parameters draws its own number and no other. -/
theorem draws_toNode (p : Parameters) : p.toNode.Draws p.numbers Value.numbers :=
  (draws_head .arguments none none).step fun _ =>
    .pure (by simp [numbers, add_assoc, add_comm, add_left_comm])

/-- A further parameter brings its own numbers. -/
theorem numbers_addPlain {p q : Parameters} {arg : Value} {default : Option Value}
    (h : p.addPlain arg default = some q) :
    q.numbers = p.numbers + (arg.numbers + (default.getD .absent).numbers) := by
  obtain ⟨-, rfl⟩ | ⟨-, value, rfl, rfl⟩ | ⟨-, rfl, -, rfl⟩ := addPlain_eq_some h
  · simp [numbers]; abel
  · simp [numbers]; abel
  · simp [numbers]; abel

/-- A parameter for further values adds its numbers at most. -/
theorem numbers_rest_le (p : Parameters) {arg : Value} {given : Multiset Nat}
    (h : arg.numbers ≤ given) :
    { p with starred := true, rest := some arg }.numbers ≤ p.numbers + given := by
  obtain ⟨more, rfl⟩ := Multiset.le_iff_exists_add.mp h
  exact Multiset.le_iff_exists_add.mpr
    ⟨(p.rest.getD .absent).numbers + more, by simp [numbers]; abel⟩

/-- A parameter for further keywords adds its numbers at most. -/
theorem numbers_keywords_le (p : Parameters) {arg : Value} {given : Multiset Nat}
    (h : arg.numbers ≤ given) :
    { p with keywords := some arg }.numbers ≤ p.numbers + given := by
  obtain ⟨more, rfl⟩ := Multiset.le_iff_exists_add.mp h
  exact Multiset.le_iff_exists_add.mpr
    ⟨(p.keywords.getD .absent).numbers + more, by simp [numbers]; abel⟩

/-- A slash moves parameters from one group to another. -/
theorem numbers_addSlash {p q : Parameters} (h : p.addSlash = some q) : q.numbers = p.numbers := by
  obtain ⟨-, hnone, rfl⟩ := addSlash_eq_some h
  simp [numbers, hnone]

end Parameters

/-- Parameters that are allowed are those that were to be added. -/
theorem draws_allowed (cause : SyntaxCause) {added : Option Parameters} {given : Multiset Nat}
    (h : ∀ p ∈ added, p.numbers ≤ given) :
    (allowed file start stop cause added).Draws given Parameters.numbers := by
  cases added with
  | none => exact .throw
  | some p => exact .pure (h p rfl)

/-- Parameters draw the numbers of all of them. -/
theorem draws_parameters (phrases : List Phrase) (p : Parameters) :
    (parameters file phrases p).Draws p.numbers Parameters.numbers := by
  induction phrases generalizing p with
  | nil => exact .pure (le_refl _)
  | cons phrase rest ih =>
      rw [parameters.eq_def]
      split
      next heq => cases heq
      next heq =>
        cases heq
        exact (draws_allowed _ fun q hq => le_of_eq (Parameters.numbers_addSlash hq)).bind ih
      next heq =>
        cases heq
        refine (draws_parameter _).step fun found => ?_
        exact (draws_allowed _ fun q hq => le_of_eq (Parameters.numbers_addPlain hq)).bind ih
      next heq =>
        cases heq
        refine (draws_allowed _ fun q hq => ?_).bind fun q => ?_
        · split at hq <;> cases hq
          exact le_refl _
        split
        · exact ih _
        · exact (draws_parameter _).step fun found => (ih _).mono
            (Parameters.numbers_rest_le _ (Multiset.le_add_right _ _))
      next heq =>
        cases heq
        exact (draws_parameter _).step fun found => (ih _).mono
          (Parameters.numbers_keywords_le _ (Multiset.le_add_right _ _))
      next => exact .throw

/-! ### Statements -/

namespace FunctionParts

/-- The numbers in what has been read of a function. -/
def numbers (parts : FunctionParts) : Multiset Nat :=
  (parts.arguments.getD .absent).numbers + (parts.returns.getD .absent).numbers +
    Value.numbersOfItems parts.body

theorem numbers_nothing : (FunctionParts.mk "" none none []).numbers = 0 := by
  simp [numbers]

/-- Arguments add their numbers at most. -/
theorem numbers_arguments_le (parts : FunctionParts) (value : Value) :
    { parts with arguments := some value }.numbers ≤ parts.numbers + value.numbers :=
  Multiset.le_iff_exists_add.mpr
    ⟨(parts.arguments.getD .absent).numbers, by simp [numbers]; abel⟩

/-- A returned expression adds its numbers at most. -/
theorem numbers_returns_le (parts : FunctionParts) (value : Value) :
    { parts with returns := some value }.numbers ≤ parts.numbers + value.numbers :=
  Multiset.le_iff_exists_add.mpr
    ⟨(parts.returns.getD .absent).numbers, by simp [numbers]; abel⟩

/-- A body adds its numbers at most. -/
theorem numbers_body_le (parts : FunctionParts) (body : List Value) :
    { parts with body := body }.numbers ≤ parts.numbers + Value.numbersOfItems body :=
  Multiset.le_iff_exists_add.mpr
    ⟨Value.numbersOfItems parts.body, by simp [numbers]; abel⟩

/-- The arguments of a function, given or not. -/
theorem draws_parameters (parts : FunctionParts) :
    parts.parameters.Draws (parts.arguments.getD .absent).numbers Value.numbers := by
  rw [FunctionParts.parameters]
  split
  next h => exact .pure (by simp [h])
  next =>
    exact Parameters.empty.draws_toNode.mono (le_trans (le_of_eq Parameters.numbers_empty)
      (Multiset.zero_le _))

/-- The node of a function draws its own number and no other. -/
theorem draws_toNode (parts : FunctionParts) (decorators : List Value) :
    (parts.toNode file decorators start stop).Draws
      (Value.numbersOfItems decorators + parts.numbers) Value.numbers := by
  rw [FunctionParts.toNode_eq]
  refine ((parts.draws_parameters.frame (Value.numbersOfItems decorators +
    (parts.returns.getD .absent).numbers + Value.numbersOfItems parts.body)).mono ?_).bind
    fun arguments => (draws_headAt .functionDef).step fun head => .pure ?_
  · exact le_of_eq (by simp [numbers]; abel)
  · exact le_of_eq (by simp [node, -Multiset.singleton_add]; abel)

end FunctionParts

mutual

/-- **Statements have only numbers that are drawn for them**, each of them once. -/
theorem draws_statements (phrase : Phrase) :
    (statements file phrase).Draws 0 Value.numbersOfItems := by
  rw [statements.eq_def]
  split
  next inner => exact draws_statements inner
  next parts => exact draws_simpleStatements parts
  next parts => exact draws_allStatements parts
  next inner => exact draws_statements inner
  next inner => exact draws_statements inner
  next inner => exact draws_statements inner
  next parts => exact draws_decorated parts []
  next parts =>
    refine ((draws_functionParts parts _).mono (le_of_eq FunctionParts.numbers_nothing)).step
      fun parts => ?_
    exact ((parts.draws_toNode []).mono (by simp)).bind fun _ => .pure (by simp)
  next test body orelse =>
    exact (draws_allStatements orelse).step fun _ => (draws_headAt .ifStmt).step fun _ =>
      (draws_expression test).step fun _ => (draws_statements body).step fun _ =>
      .pure (by simp [add_assoc, add_comm])
  next test body orelse =>
    exact (draws_allStatements orelse).step fun _ => (draws_headAt .ifStmt).step fun _ =>
      (draws_expression test).step fun _ => (draws_statements body).step fun _ =>
      .pure (by simp [add_assoc, add_comm])
  next test body orelse =>
    exact (draws_allStatements orelse).step fun _ => (draws_headAt .whileStmt).step fun _ =>
      (draws_expression test).step fun _ => (draws_statements body).step fun _ =>
      .pure (by simp [add_assoc, add_comm])
  next target iter body orelse =>
    exact (draws_allStatements orelse).step fun _ => (draws_headAt .forStmt).step fun _ =>
      (draws_target target).step fun _ => (draws_expression iter).step fun _ =>
      (draws_statements body).step fun _ => .pure (by simp [add_assoc, add_comm, add_left_comm])
  next => exact .throw
termination_by sizeOf phrase
decreasing_by
  all_goals
    subst_vars
    simp only [Phrase.mk.sizeOf_spec, List.cons.sizeOf_spec]
    omega

/-- Several statements draw the numbers of all of them. -/
theorem draws_allStatements (phrases : List Phrase) :
    (allStatements file phrases).Draws 0 Value.numbersOfItems := by
  rw [allStatements.eq_def]
  split
  next => exact .pure (le_refl 0)
  next phrase rest =>
    exact (draws_statements phrase).step fun _ => (draws_allStatements rest).step fun _ =>
      .pure (by simp)
termination_by sizeOf phrases
decreasing_by
  all_goals
    subst_vars
    simp only [List.cons.sizeOf_spec]
    omega

/-- A decorated function draws the numbers of its decorators and its own. -/
theorem draws_decorated (phrases : List Phrase) (decorators : List Value) :
    (decorated file phrases decorators).Draws (Value.numbersOfItems decorators)
      Value.numbersOfItems := by
  rw [decorated.eq_def]
  split
  next inner rest =>
    exact (draws_expression inner).step fun _ => (draws_decorated rest _).mono (by simp)
  next parts rest =>
    refine ((draws_functionParts parts _).mono (le_of_eq FunctionParts.numbers_nothing)).step
      fun parts => ?_
    exact (parts.draws_toNode decorators).bind fun _ => .pure (by simp)
  next => exact .throw
  next => exact .pure (Multiset.zero_le _)
termination_by sizeOf phrases
decreasing_by
  all_goals
    subst_vars
    simp only [Phrase.mk.sizeOf_spec, List.cons.sizeOf_spec]
    omega

/-- The parts of a function draw the numbers of all of them. -/
theorem draws_functionParts (phrases : List Phrase) (sofar : FunctionParts) :
    (functionParts file phrases sofar).Draws sofar.numbers FunctionParts.numbers := by
  rw [functionParts.eq_def]
  split
  next => exact .pure (le_refl _)
  next text rest => exact draws_functionParts rest _
  next parts rest =>
    refine ((draws_parameters parts .empty).mono (le_of_eq Parameters.numbers_empty)).step
      fun p => ?_
    exact (p.draws_toNode.frame sofar.numbers).bind fun _ =>
      (draws_functionParts rest _).mono (sofar.numbers_arguments_le _)
  next inner rest =>
    exact (draws_expression inner).step fun _ =>
      (draws_functionParts rest _).mono (sofar.numbers_returns_le _)
  next body rest _ _ _ =>
    exact (draws_statements body).step fun _ =>
      (draws_functionParts rest _).mono (sofar.numbers_body_le _)
termination_by sizeOf phrases
decreasing_by
  all_goals
    subst_vars
    simp only [Phrase.mk.sizeOf_spec, List.cons.sizeOf_spec]
    omega

end

/-- **A tree that is read from phrases has only numbers that are drawn for it**, each
of them once. -/
theorem draws_moduleTree (phrases : List Phrase) :
    (moduleTree file phrases).Draws 0 fun tree => tree.toValue.numbers :=
  (draws_allStatements phrases).step fun _ => (draws_head .module none none).step fun _ =>
    .pure (by simp [Node.toValue, add_comm])

end Reading

/-- The tree of a program text has only numbers that are drawn for it. -/
theorem Source.draws_programTree (name text : String) :
    (programTree name text).Draws 0 fun tree => tree.toValue.numbers := by
  unfold programTree
  split
  · exact Reading.draws_moduleTree _
  · exact .throw

end FunctionIR
