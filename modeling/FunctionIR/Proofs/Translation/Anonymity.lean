import FunctionIR.Proofs.Exchange.Copy
import FunctionIR.Proofs.Translation.Heads

/-!
# Translations without numbers

The numbers of tree nodes and of fragments are handed out by counters, and
nothing else depends on them.  Two trees that are the same without the numbers
of their nodes (`Node.anonymous`) are prepared to such trees again
(`Node.prepare_anonymous`), and wherever the counters stand they are translated
with the same fault or to functions that are the same without all numbers
(`Session.translate_anonymous`).

Here nothing is asked of scalars: a double that is not a number is the same as
itself, though it does not equal itself.
-/

namespace FunctionIR

/-- The head without its number. -/
def Head.anonymous (head : Head) : Head := { head with id := 0 }

namespace Value

mutual

/-- Forgetting numbers gives the nodes other heads. -/
theorem anonymous_eq_withHeads : (value : Value) →
    value.anonymous = value.withHeads Head.anonymous
  | .scalar _ => rfl
  | .foreign _ => rfl
  | .list items => by rw [anonymous, withHeads, anonymousItems_eq_withHeads items]
  | .node head fields => by
      rw [anonymous, withHeads, anonymousFields_eq_withHeads fields]
      rfl

theorem anonymousItems_eq_withHeads : (items : List Value) →
    anonymousItems items = withHeadsItems Head.anonymous items
  | [] => rfl
  | item :: rest => by
      rw [anonymousItems, withHeadsItems, anonymous_eq_withHeads item,
        anonymousItems_eq_withHeads rest]

theorem anonymousFields_eq_withHeads : (fields : List (String × Value)) →
    anonymousFields fields = withHeadsFields Head.anonymous fields
  | [] => rfl
  | (name, value) :: rest => by
      rw [anonymousFields, withHeadsFields, anonymous_eq_withHeads value,
        anonymousFields_eq_withHeads rest]

end

mutual

/-- Moved by lines, a value has no other numbers. -/
theorem anonymous_shift (delta : Int) : (value : Value) →
    (value.shift delta).anonymous = value.anonymous.shift delta
  | .scalar _ => rfl
  | .foreign _ => rfl
  | .list items => by rw [shift, anonymous, anonymous, shift, anonymousItems_shift delta items]
  | .node head fields => by
      rw [shift, anonymous, anonymous, shift, anonymousFields_shift delta fields]
      rfl

theorem anonymousItems_shift (delta : Int) : (items : List Value) →
    anonymousItems (shiftItems delta items) = shiftItems delta (anonymousItems items)
  | [] => rfl
  | item :: rest => by
      rw [shiftItems, anonymousItems, anonymousItems, shiftItems, anonymous_shift delta item,
        anonymousItems_shift delta rest]

theorem anonymousFields_shift (delta : Int) : (fields : List (String × Value)) →
    anonymousFields (shiftFields delta fields) = shiftFields delta (anonymousFields fields)
  | [] => rfl
  | (name, value) :: rest => by
      rw [shiftFields, anonymousFields, anonymousFields, shiftFields, anonymous_shift delta value,
        anonymousFields_shift delta rest]

end

/-- A field of anonymous fields is the anonymous field. -/
theorem get?_anonymousFields (name : String) (fields : Fields) :
    Members.get? name (anonymousFields fields) = (Members.get? name fields).map anonymous := by
  rw [anonymousFields_eq_withHeads, get?_withHeadsFields]
  exact congrArg (Option.map · _) (funext fun value => (anonymous_eq_withHeads value).symm)

/-- A value is a node with its number or without. -/
theorem asNode_anonymous (value : Value) :
    value.anonymous.asNode = value.asNode.map Node.anonymous := by
  cases value <;> rfl

/-- A value is a list with its numbers or without. -/
theorem asList_anonymous (value : Value) :
    value.anonymous.asList = value.asList.map anonymousItems := by
  cases value <;> rfl

end Value

/-! ### Preparing -/

namespace Node

/-- A list in an anonymous tree is the anonymous list. -/
theorem listField?_anonymous (name : String) (tree : Node) :
    tree.anonymous.listField? name = (tree.listField? name).map Value.anonymousItems := by
  rw [listField?, listField?, field?, field?, anonymous, Value.get?_anonymousFields]
  cases Members.get? name tree.fields with
  | none => rfl
  | some value => exact Value.asList_anonymous value

/-- The lines of nodes are known without their numbers. -/
theorem lines_anonymousItems (items : List Value) :
    ((Value.anonymousItems items).filterMap Value.asNode).filterMap Node.line? =
      (items.filterMap Value.asNode).filterMap Node.line? := by
  induction items with
  | nil => rfl
  | cons item rest ih =>
      rw [Value.anonymousItems, List.filterMap_cons, List.filterMap_cons, item.asNode_anonymous]
      cases item.asNode with
      | none => exact ih
      | some node =>
          have hline : node.anonymous.line? = node.line? := rfl
          simp only [Option.map_some, List.filterMap_cons, hline, ih]

/-- The leading function of an anonymous tree is the anonymous function. -/
theorem leadingFunction_anonymous (tree : Node) :
    tree.anonymous.leadingFunction = tree.leadingFunction.map anonymous := by
  have hfunction (node : Node) :
      (if node.anonymous.head.kind = .functionDef then some node.anonymous else none) =
        (if node.head.kind = .functionDef then some node else none).map anonymous := by
    have hkind : node.anonymous.head.kind = node.head.kind := rfl
    rw [hkind]
    split <;> rfl
  have hkind : tree.anonymous.head.kind = tree.head.kind := rfl
  rw [leadingFunction, leadingFunction, hkind]
  split
  · exact hfunction tree
  · rw [listField?_anonymous]
    cases tree.listField? "body" with
    | none => rfl
    | some body =>
        cases body with
        | nil => rfl
        | cons first rest =>
            change (first.anonymous.asNode.bind _) = Option.map _ (first.asNode.bind _)
            rw [first.asNode_anonymous]
            cases first.asNode with
            | none => rfl
            | some node => exact hfunction node
  · rfl

/-- Decorators are discounted by lines, whatever the numbers. -/
theorem decoratorOffset_anonymous (tree : Node) :
    tree.anonymous.decoratorOffset = tree.decoratorOffset := by
  rw [decoratorOffset, decoratorOffset, leadingFunction_anonymous]
  cases tree.leadingFunction with
  | none => rfl
  | some function =>
      have hline : function.anonymous.line? = function.line? := rfl
      simp only [Option.map_some, Option.bind_eq_bind, Option.bind_some, hline,
        listField?_anonymous]
      cases function.listField? "decorator_list" with
      | none => rfl
      | some items => simp only [Option.map_some, Option.bind_some, lines_anonymousItems]

/-- **Preparing a tree leaves its numbers alone.** -/
theorem prepare_anonymous (discount : Bool) (tree : Node) :
    (tree.prepare discount).anonymous = tree.anonymous.prepare discount := by
  rw [prepare.eq_def, prepare.eq_def, decoratorOffset_anonymous]
  split
  · rw [anonymous, shift, anonymous, shift, Value.anonymousFields_shift]
    rfl
  · rfl

end Node

/-! ### Faults -/

/-- What is wrong with a node is told without its number. -/
theorem malformed_anonymous (cause : MalformedCause) (head : Head) :
    malformed cause head.anonymous = malformed cause head := rfl

/-- What is malformed is so without its number. -/
theorem formFault_anonymous (head : Head) (fields : Fields) :
    formFault head.anonymous (Value.withHeadsFields Head.anonymous fields) =
      formFault head fields := by
  have hkind : head.anonymous.kind = head.kind := rfl
  rw [formFault, formFault, hkind, functionForm, functionForm, text_withHeadsFields,
    get?_withHeadsFields]
  simp only [malformed_anonymous]
  split
  · cases Members.get? "body" fields with
    | none => rfl
    | some body =>
        cases body with
        | list items => cases items <;> rfl
        | scalar | node | foreign => rfl
  · cases (Members.get? "name" fields).bind Value.asText with
    | none => rfl
    | some name =>
        cases Members.get? "body" fields with
        | none => rfl
        | some body => cases body <;> rfl
  · rfl

/-- A visit has the same fault without the numbers. -/
theorem Visit.fault_anonymous (limit : Nat) (v : Visit) :
    (v.withHeads Head.anonymous).fault limit = v.fault limit := by
  obtain ⟨depth, site, value⟩ := v
  cases value with
  | scalar | list => rfl
  | foreign raw => cases site <;> rfl
  | node head fields =>
      simp only [Visit.withHeads, Value.withHeads, Visit.fault, formFault_anonymous]
      rfl

/-- The visits of a course under other heads. -/
theorem visits_withHeads (g : Head → Head) (steps : List Step) :
    visits (steps.map (Step.withHeads g)) = (visits steps).map (Visit.withHeads g) := by
  induction steps with
  | nil => rfl
  | cons step rest ih => cases step <;> simpa [visits, Step.withHeads] using ih

/-- **A course is refused alike**, whatever the numbers. -/
theorem refused_anonymous (limit depth : Nat) (value : Value) (t t' : Translator) :
    (follow limit (course depth value.anonymous) t').1 =
      (follow limit (course depth value) t).1 := by
  rw [follow_fault, follow_fault, value.anonymous_eq_withHeads,
    course_withHeads (g := Head.anonymous) (fun _ => rfl) value depth, visits_withHeads,
    List.findSome?_map]
  exact congrArg (List.findSome? · _) (funext (Visit.fault_anonymous limit))

/-! ### Fragments -/

/-- The head of a function without numbers. -/
def FunctionHead.anonymous (head : FunctionHead) : FunctionHead :=
  { head with id := 0, origin := head.origin.anonymous }

namespace Fragment

mutual

/-- The fragment without numbers. -/
def anonymous : Fragment → Fragment
  | .function head decorators arguments returns body =>
    .function head.anonymous (anonymous decorators) (anonymous arguments) (anonymous returns)
      (anonymousItems body)
  | .node _ origin fields => .node 0 origin.anonymous (anonymousFields fields)
  | .list items => .list (anonymousItems items)
  | .scalar s => .scalar s

/-- The fragments without numbers. -/
def anonymousItems : List Fragment → List Fragment
  | [] => []
  | item :: rest => anonymous item :: anonymousItems rest

/-- The named fragments without numbers. -/
def anonymousFields : List (String × Fragment) → List (String × Fragment)
  | [] => []
  | (name, value) :: rest => (name, anonymous value) :: anonymousFields rest

end

/-- A fragment is described without its numbers. -/
theorem description_anonymous (fragment : Fragment) :
    fragment.anonymous.description = fragment.description := by
  cases fragment <;> rfl

end Fragment

/-- The function without numbers. -/
def Function.anonymous (function : Function) : Function :=
  { head := function.head.anonymous
    decorators := function.decorators.anonymous
    arguments := function.arguments.anonymous
    returns := function.returns.anonymous
    body := Fragment.anonymousItems function.body }

/-- A fragment is a function with its numbers or without. -/
theorem Fragment.asFunction_anonymous (fragment : Fragment) :
    fragment.anonymous.asFunction = fragment.asFunction.map Function.anonymous := by
  cases fragment <;> rfl

/-- The value is rendered to the same fragment without its numbers, from wherever
the fragments are numbered. -/
def Value.KeepsForm (value : Value) : Prop :=
  ∀ scope id id', (rendered scope id' (value.withHeads Head.anonymous)).1.anonymous =
    (rendered scope id value).1.anonymous

theorem renderedItems_anonymous {items : List Value} (h : ∀ item ∈ items, item.KeepsForm)
    (scope : Scope) (id id' : Nat) :
    Fragment.anonymousItems
        (renderedItems scope id' (Value.withHeadsItems Head.anonymous items)).1 =
      Fragment.anonymousItems (renderedItems scope id items).1 := by
  induction items generalizing id id' with
  | nil => rfl
  | cons item rest ih =>
      obtain ⟨hitem, hrest⟩ := List.forall_mem_cons.mp h
      rw [Value.withHeadsItems, renderedItems, renderedItems, Fragment.anonymousItems,
        Fragment.anonymousItems, hitem scope id id', ih hrest]

theorem renderedFields_anonymous {fields : Fields} (h : ∀ field ∈ fields, field.2.KeepsForm)
    (scope : Scope) (id id' : Nat) :
    Fragment.anonymousFields
        (renderedFields scope id' (Value.withHeadsFields Head.anonymous fields)).1 =
      Fragment.anonymousFields (renderedFields scope id fields).1 := by
  induction fields generalizing id id' with
  | nil => rfl
  | cons field rest ih =>
      obtain ⟨hfield, hrest⟩ := List.forall_mem_cons.mp h
      obtain ⟨name, value⟩ := field
      rw [Value.withHeadsFields, renderedFields, renderedFields, Fragment.anonymousFields,
        Fragment.anonymousFields, hfield scope id id', ih hrest]

theorem renderedField_anonymous {name : String} {fields : Fields}
    (h : ∀ value, Members.get? name fields = some value → value.KeepsForm) (absent : Fragment)
    (scope : Scope) (id id' : Nat) :
    (renderedField scope id' name absent (Value.withHeadsFields Head.anonymous fields)).1.anonymous =
      (renderedField scope id name absent fields).1.anonymous := by
  rw [renderedField_eq, renderedField_eq, get?_withHeadsFields]
  cases hvalue : Members.get? name fields with
  | none => rfl
  | some value => exact h value hvalue scope id id'

/-- **A value is rendered alike**, whatever the numbers. -/
theorem rendered_anonymous (value : Value) : value.KeepsForm := by
  -- the two counters go on differently in the parts, so the induction is over all of them
  induction value using Value.induction_by_rule with
  | scalar s | foreign raw =>
      intro scope id id'
      rw [Value.withHeads, rendered, rendered]
  | list items ih =>
      intro scope id id'
      rw [Value.withHeads, rendered, rendered, Fragment.anonymous, Fragment.anonymous,
        renderedItems_anonymous ih]
  | module head fields hkind ih =>
      intro scope id id'
      have hkind' : head.anonymous.kind = .module := hkind
      rw [Value.withHeads, rendered_module hkind', rendered_module hkind, renderedFirst_eq,
        renderedFirst_eq, statementsIn_withHeadsFields, head?_withHeadsItems]
      cases hfirst : (statementsIn fields).head? with
      | none => rfl
      | some first => exact ih first (List.mem_of_mem_head? hfirst) scope id id'
  | function head fields hkind ihfield ihbody =>
      intro scope id id'
      have hkind' : head.anonymous.kind = .functionDef := hkind
      have hhead (id id' : Nat) : (functionHead scope id' head.anonymous
          (Value.withHeadsFields Head.anonymous fields)).anonymous =
            (functionHead scope id head fields).anonymous := by
        rw [functionHead, functionHead, nameIn_withHeadsFields]
        rfl
      rw [Value.withHeads, rendered_function hkind', rendered_function hkind]
      simp only [Fragment.anonymous, renderedBody_eq, statementsIn_withHeadsFields,
        nameIn_withHeadsFields]
      congr 1
      · exact hhead _ _
      · exact renderedField_anonymous (ihfield _) _ scope _ _
      · exact renderedField_anonymous (ihfield _) _ scope _ _
      · exact renderedField_anonymous (ihfield _) _ scope _ _
      · exact renderedItems_anonymous ihbody _ _ _
  | generic head fields hkind ih =>
      intro scope id id'
      have hkind' : head.anonymous.kind.Generic := hkind
      rw [Value.withHeads, rendered_generic hkind', rendered_generic hkind, Fragment.anonymous,
        Fragment.anonymous, renderedFields_anonymous ih]
      rfl

/-! ### Translations -/

/-- A tree is translated like the tree without numbers. -/
theorem run_translateTree_anonymous (config : Config) (tree : Node) {t t' : Translator}
    (hscope : t'.scope = t.scope) :
    ((translateTree config tree.anonymous).runFrom t').1.map Function.anonymous =
      ((translateTree config tree).runFrom t).1.map Function.anonymous := by
  have htree : tree.anonymous.toValue = tree.toValue.anonymous := rfl
  have hrefused := refused_anonymous config.maxDepth 0 tree.toValue t t'
  have hrendered := rendered_anonymous tree.toValue t.scope t.nextId t'.nextId
  rw [← Value.anonymous_eq_withHeads] at hrendered
  rw [run_translateTree, run_translateTree, htree, hscope]
  generalize follow config.maxDepth (course 0 tree.toValue.anonymous) t' = followed',
    follow config.maxDepth (course 0 tree.toValue) t = followed at hrefused ⊢
  obtain ⟨refused', after'⟩ := followed'
  obtain ⟨refused, after⟩ := followed
  obtain rfl : refused' = refused := hrefused
  cases refused' with
  | some fault => rfl
  | none =>
      have hfunction := congrArg Fragment.asFunction hrendered
      have hdescription := congrArg Fragment.description hrendered
      rw [Fragment.asFunction_anonymous, Fragment.asFunction_anonymous] at hfunction
      rw [Fragment.description_anonymous, Fragment.description_anonymous] at hdescription
      simp only [hdescription]
      generalize (rendered t.scope t'.nextId tree.toValue.anonymous).1.asFunction = found',
        (rendered t.scope t.nextId tree.toValue).1.asFunction = found at hfunction
      cases found' with
      | none =>
          cases found with
          | none => rfl
          | some function => cases hfunction
      | some function' =>
          cases found with
          | none => cases hfunction
          | some function => exact congrArg Except.ok (Option.some.inj hfunction)

namespace Session

/-- **Trees that differ in numbers are translated alike**, in sessions that are
configured alike and whatever happened in them. -/
theorem translate_anonymous {session other : Session} (hconfig : other.config = session.config)
    {tree tree' : Node} (htree : tree'.anonymous = tree.anonymous) :
    (other.translate tree').1.map Function.anonymous =
      (session.translate tree).1.map Function.anonymous := by
  have hrun (session : Session) (tree : Node) : (session.translate tree).1 =
      ((translateTree session.config tree).runFrom session.atTop.translator).1 :=
    (translate_atTop tree).1.trans (translateIn_run tree).1
  have hscope : other.atTop.translator.scope = session.atTop.translator.scope := by
    rw [atTop, atTop, hconfig]
  rw [hrun, hrun, hconfig, ← run_translateTree_anonymous session.config tree' hscope.symm,
    ← run_translateTree_anonymous session.config tree rfl, htree]

end Session

end FunctionIR
