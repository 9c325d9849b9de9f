import FunctionIR.Proofs.Reading.Moves
import FunctionIR.Proofs.Translation.Heads

/-!
# Translations on other lines

Nothing that a translation does depends on the lines of a tree.  If every line
of a tree is changed by one and the same function, so is every line of what comes
out: of the function where the translation succeeds, and of the fault where it
does not.  All else is as it was, and the translator does the same
(`run_translateTree_onLines`).

This is seen on the course of the tree.  On other lines its steps are the same
steps on other lines (`course_onLines`), each of which does what it did before
(`Step.take_onLines`).  A node without a place is on line 0, so a function that
changes lines has to leave that one alone.
-/

namespace FunctionIR

/-! ### What lines are in -/

/-- The fault with other lines. -/
def Fault.onLines (f : Nat → Nat) : Fault → Fault
  | .badSyntax severity cause location span =>
    .badSyntax severity cause (location.map (Location.onLines f)) (span.map (Span.onLines f))
  | .malformedTree cause location span =>
    .malformedTree cause (location.map (Location.onLines f)) (span.map (Span.onLines f))
  | .unsupportedShape owner field raw location span =>
    .unsupportedShape owner field raw (location.map (Location.onLines f))
      (span.map (Span.onLines f))
  | .tooDeep limit location => .tooDeep limit (location.map (Location.onLines f))
  | .exportFailed function cause location =>
    .exportFailed function cause (location.map (Location.onLines f))
  | .emptySource name => .emptySource name
  | .missingSource path reason => .missingSource path reason

/-- The head of a function with other lines. -/
def FunctionHead.onLines (f : Nat → Nat) (head : FunctionHead) : FunctionHead :=
  { head with line := f head.line, origin := head.origin.onLines f }

namespace Fragment

mutual

/-- The fragment with other lines. -/
def onLines (f : Nat → Nat) : Fragment → Fragment
  | .function head decorators arguments returns body =>
    .function (head.onLines f) (onLines f decorators) (onLines f arguments) (onLines f returns)
      (onLinesItems f body)
  | .node id origin fields => .node id (origin.onLines f) (onLinesFields f fields)
  | .list items => .list (onLinesItems f items)
  | .scalar s => .scalar s

/-- The fragments with other lines. -/
def onLinesItems (f : Nat → Nat) : List Fragment → List Fragment
  | [] => []
  | item :: rest => onLines f item :: onLinesItems f rest

/-- The named fragments with other lines. -/
def onLinesFields (f : Nat → Nat) : List (String × Fragment) → List (String × Fragment)
  | [] => []
  | (name, value) :: rest => (name, onLines f value) :: onLinesFields f rest

end

end Fragment

/-- The function with other lines. -/
def Function.onLines (f : Nat → Nat) (function : Function) : Function :=
  { head := function.head.onLines f
    decorators := function.decorators.onLines f
    arguments := function.arguments.onLines f
    returns := function.returns.onLines f
    body := Fragment.onLinesItems f function.body }

/-- The visit of a value on other lines. -/
def Visit.onLines (f : Nat → Nat) (v : Visit) : Visit :=
  { depth := v.depth
    site := v.site.map fun site => (site.1.onLines f, site.2)
    value := v.value.onLines f }

/-- The step on other lines. -/
def Step.onLines (f : Nat → Nat) : Step → Step
  | .visit v => .visit (v.onLines f)
  | .make head => .make (head.onLines f)
  | .enter name => .enter name
  | .leave name => .leave name

section

variable {f : Nat → Nat}

/-! ### What does not depend on lines -/

/-- The wording of a fault does not depend on lines. -/
theorem Fault.message_onLines (fault : Fault) : (fault.onLines f).message = fault.message := by
  cases fault <;> rfl

/-- Nor does its issuer. -/
theorem Fault.issuer_onLines (fault : Fault) : (fault.onLines f).issuer = fault.issuer := by
  cases fault <;> rfl

/-- Nor does its severity. -/
theorem Fault.severity_onLines (fault : Fault) : (fault.onLines f).severity = fault.severity := by
  cases fault <;> rfl

/-- A fragment is described the same on other lines. -/
theorem Fragment.description_onLines (fragment : Fragment) :
    (fragment.onLines f).description = fragment.description := by
  cases fragment <;> rw [Fragment.onLines] <;> rfl

/-- A fragment is a function on other lines as well. -/
theorem Fragment.asFunction_onLines (fragment : Fragment) :
    (fragment.onLines f).asFunction = fragment.asFunction.map (Function.onLines f) := by
  cases fragment <;> rw [Fragment.onLines] <;> rfl

/-- A function on other lines is the fragment on other lines. -/
theorem Function.toFragment_onLines (function : Function) :
    (function.onLines f).toFragment = function.toFragment.onLines f := by
  rw [Function.toFragment, Function.toFragment, Fragment.onLines]
  rfl

mutual

/-- The heads of a fragment on other lines. -/
theorem Fragment.heads_onLines : (fragment : Fragment) →
    (fragment.onLines f).heads = fragment.heads.map (Head.onLines f)
  | .function head decorators arguments returns body => by
      rw [Fragment.onLines, Fragment.heads, Fragment.heads, decorators.heads_onLines,
        arguments.heads_onLines, returns.heads_onLines, Fragment.headsOfList_onLines body]
      simp only [List.map_cons, List.map_append]
      rfl
  | .node id origin fields => by
      rw [Fragment.onLines, Fragment.heads, Fragment.heads, Fragment.headsOfFields_onLines fields,
        List.map_cons]
  | .list items => by
      rw [Fragment.onLines, Fragment.heads, Fragment.heads, Fragment.headsOfList_onLines items]
  | .scalar _ => rfl

theorem Fragment.headsOfList_onLines : (items : List Fragment) →
    Fragment.headsOfList (Fragment.onLinesItems f items) =
      (Fragment.headsOfList items).map (Head.onLines f)
  | [] => rfl
  | item :: rest => by
      rw [Fragment.onLinesItems, Fragment.headsOfList, Fragment.headsOfList, List.map_append,
        item.heads_onLines, Fragment.headsOfList_onLines rest]

theorem Fragment.headsOfFields_onLines : (fields : List (String × Fragment)) →
    Fragment.headsOfFields (Fragment.onLinesFields f fields) =
      (Fragment.headsOfFields fields).map (Head.onLines f)
  | [] => rfl
  | (name, value) :: rest => by
      rw [Fragment.onLinesFields, Fragment.headsOfFields, Fragment.headsOfFields, List.map_append,
        value.heads_onLines, Fragment.headsOfFields_onLines rest]

end

/-- Nodes are counted by their kinds. -/
theorem Function.histogram_onLines (function : Function) :
    (function.onLines f).histogram = function.histogram := by
  rw [Function.histogram, Function.histogram, Function.toFragment_onLines, Fragment.heads_onLines,
    List.foldl_map]
  rfl

/-! ### Fields on other lines -/

mutual

/-- Other lines are other heads. -/
theorem Value.onLines_eq_withHeads : (value : Value) →
    value.onLines f = value.withHeads (Head.onLines f)
  | .scalar _ | .foreign _ => rfl
  | .list items => by
      rw [Value.onLines, Value.withHeads, Value.onLinesItems_eq_withHeads items]
  | .node head fields => by
      rw [Value.onLines, Value.withHeads, Value.onLinesFields_eq_withHeads fields]

theorem Value.onLinesItems_eq_withHeads : (items : List Value) →
    Value.onLinesItems f items = Value.withHeadsItems (Head.onLines f) items
  | [] => rfl
  | item :: rest => by
      rw [Value.onLinesItems, Value.withHeadsItems, item.onLines_eq_withHeads,
        Value.onLinesItems_eq_withHeads rest]

theorem Value.onLinesFields_eq_withHeads : (fields : List (String × Value)) →
    Value.onLinesFields f fields = Value.withHeadsFields (Head.onLines f) fields
  | [] => rfl
  | (name, value) :: rest => by
      rw [Value.onLinesFields, Value.withHeadsFields, value.onLines_eq_withHeads,
        Value.onLinesFields_eq_withHeads rest]

end

/-- A field on other lines. -/
theorem get?_onLinesFields (name : String) (fields : Fields) :
    Members.get? name (Value.onLinesFields f fields) =
      (Members.get? name fields).map (Value.onLines f) := by
  rw [Value.onLinesFields_eq_withHeads, get?_withHeadsFields]
  exact congrArg (Option.map · _) (funext fun value => value.onLines_eq_withHeads.symm)

/-- The text of a field does not depend on lines. -/
theorem text_onLinesFields (name : String) (fields : Fields) :
    (Members.get? name (Value.onLinesFields f fields)).bind Value.asText =
      (Members.get? name fields).bind Value.asText := by
  rw [Value.onLinesFields_eq_withHeads, text_withHeadsFields]

/-- The name in fields does not depend on lines. -/
theorem nameIn_onLinesFields (fields : Fields) :
    nameIn (Value.onLinesFields f fields) = nameIn fields := by
  rw [Value.onLinesFields_eq_withHeads, nameIn_withHeadsFields]

/-- The statements in fields on other lines. -/
theorem statementsIn_onLinesFields (fields : Fields) :
    statementsIn (Value.onLinesFields f fields) = Value.onLinesItems f (statementsIn fields) := by
  rw [Value.onLinesFields_eq_withHeads, statementsIn_withHeadsFields,
    Value.onLinesItems_eq_withHeads]

/-- The first item on other lines. -/
theorem head?_onLinesItems (items : List Value) :
    (Value.onLinesItems f items).head? = items.head?.map (Value.onLines f) := by
  cases items <;> rfl

/-! ### The course on other lines -/

/-- The course of a value on other lines is its course on other lines. -/
def Value.TakesItsCourse (f : Nat → Nat) (value : Value) : Prop :=
  ∀ depth, course depth (value.onLines f) = (course depth value).map (Step.onLines f)

/-- A visit on other lines is one under other heads. -/
theorem Visit.onLines_eq_withHeads (v : Visit) : v.onLines f = v.withHeads (Head.onLines f) := by
  rw [Visit.onLines, Visit.withHeads, v.value.onLines_eq_withHeads]

/-- A step on other lines is one under other heads. -/
theorem Step.onLines_eq_withHeads (step : Step) :
    step.onLines f = step.withHeads (Head.onLines f) := by
  cases step with
  | visit v => exact congrArg Step.visit v.onLines_eq_withHeads
  | make | enter | leave => rfl

/-- **The course on other lines.** -/
theorem course_onLines (value : Value) : value.TakesItsCourse f := by
  intro depth
  rw [value.onLines_eq_withHeads, course_withHeads (g := Head.onLines f) (fun _ => rfl) value depth]
  exact List.map_congr_left fun step _ => step.onLines_eq_withHeads.symm

/-- A malformed node is so on its other line. -/
theorem malformed_onLines (cause : MalformedCause) (head : Head) :
    malformed cause (head.onLines f) = (malformed cause head).onLines f := rfl

/-- The fault of a form on other lines. -/
theorem formFault_onLines (head : Head) (fields : Fields) :
    formFault (head.onLines f) (Value.onLinesFields f fields) =
      (formFault head fields).map (Fault.onLines f) := by
  rcases head.kind.by_rule with hkind | hkind | hkind
  · have hkind' : (head.onLines f).kind = .module := hkind
    simp only [formFault, hkind', hkind, get?_onLinesFields, malformed_onLines]
    cases Members.get? "body" fields with
    | none => rfl
    | some body =>
        cases body with
        | list items => cases items <;> rfl
        | scalar | node | foreign => rfl
  · have hkind' : (head.onLines f).kind = .functionDef := hkind
    simp only [formFault, hkind', hkind, functionForm, text_onLinesFields, malformed_onLines]
    cases (Members.get? "name" fields).bind Value.asText with
    | none => rfl
    | some name =>
        rw [get?_onLinesFields]
        cases Members.get? "body" fields with
        | none => rfl
        | some body => cases body <;> rfl
  · have hkind' : (head.onLines f).kind.Generic := hkind
    rw [formFault_generic hkind', formFault_generic hkind]
    rfl

/-- A value is refused on other lines where it is refused. -/
theorem Visit.fault_onLines (limit : Nat) (v : Visit) :
    (v.onLines f).fault limit = (v.fault limit).map (Fault.onLines f) := by
  obtain ⟨depth, site, value⟩ := v
  cases value with
  | scalar | list => rfl
  | foreign raw => cases site <;> rfl
  | node head fields =>
      by_cases hdeep : limit < depth
      · simp only [Visit.onLines, Value.onLines, Visit.fault, hdeep, if_true]
        rfl
      · simp only [Visit.onLines, Value.onLines, Visit.fault, hdeep, if_false, formFault_onLines]

/-- What a visit does to a translator does not depend on lines. -/
theorem reach_onLines (limit : Nat) (v : Visit) (t : Translator) :
    t.reach limit (v.onLines f) = t.reach limit v := by
  obtain ⟨depth, site, value⟩ := v
  cases value <;> rfl

/-- **One step** on other lines has the same effect, and is refused on the other
line where it is. -/
theorem Step.take_onLines (limit : Nat) (step : Step) (t : Translator) :
    (step.onLines f).take limit t =
      ((step.take limit t).1.map (Fault.onLines f), (step.take limit t).2) := by
  cases step with
  | visit v => rw [Step.onLines, Step.take, Step.take, Visit.fault_onLines, reach_onLines]
  | make | enter | leave => rfl

/-- So have many. -/
theorem follow_onLines (limit : Nat) (steps : List Step) (t : Translator) :
    follow limit (steps.map (Step.onLines f)) t =
      ((follow limit steps t).1.map (Fault.onLines f), (follow limit steps t).2) := by
  induction steps generalizing t with
  | nil => rfl
  | cons step rest ih =>
      rw [List.map_cons, follow, follow, Step.take_onLines]
      generalize step.take limit t = taken
      obtain ⟨refused, after⟩ := taken
      cases refused with
      | none => exact ih after
      | some fault => rfl

/-! ### What is rendered on other lines -/

variable (hf : f 0 = 0)

/-- A value on other lines is rendered to its fragment on other lines. -/
def Value.TakesItsForm (f : Nat → Nat) (value : Value) : Prop :=
  ∀ scope id, rendered scope id (value.onLines f) =
    ((rendered scope id value).1.onLines f, (rendered scope id value).2)

theorem renderedItems_onLines {items : List Value} (h : ∀ item ∈ items, item.TakesItsForm f)
    (scope : Scope) (id : Nat) :
    renderedItems scope id (Value.onLinesItems f items) =
      (Fragment.onLinesItems f (renderedItems scope id items).1,
        (renderedItems scope id items).2) := by
  induction items generalizing id with
  | nil => rfl
  | cons item rest ih =>
      obtain ⟨hitem, hrest⟩ := List.forall_mem_cons.mp h
      rw [Value.onLinesItems, renderedItems, hitem scope id, renderedItems]
      simp only [ih hrest]
      rfl

theorem renderedFields_onLines {fields : Fields} (h : ∀ field ∈ fields, field.2.TakesItsForm f)
    (scope : Scope) (id : Nat) :
    renderedFields scope id (Value.onLinesFields f fields) =
      (Fragment.onLinesFields f (renderedFields scope id fields).1,
        (renderedFields scope id fields).2) := by
  induction fields generalizing id with
  | nil => rfl
  | cons field rest ih =>
      obtain ⟨hfield, hrest⟩ := List.forall_mem_cons.mp h
      obtain ⟨name, value⟩ := field
      rw [Value.onLinesFields, renderedFields, hfield scope id, renderedFields]
      simp only [ih hrest]
      rfl

theorem renderedField_onLines {name : String} {fields : Fields} {absent : Fragment}
    (h : ∀ value, Members.get? name fields = some value → value.TakesItsForm f)
    (habsent : absent.onLines f = absent) (scope : Scope) (id : Nat) :
    renderedField scope id name absent (Value.onLinesFields f fields) =
      ((renderedField scope id name absent fields).1.onLines f,
        (renderedField scope id name absent fields).2) := by
  rw [renderedField_eq, renderedField_eq, get?_onLinesFields]
  cases hvalue : Members.get? name fields with
  | none => exact Prod.ext habsent.symm rfl
  | some value => exact h value hvalue scope id

include hf

/-- A function without a place is on line 0, also on other lines. -/
theorem functionHead_onLines (scope : Scope) (id : Nat) (head : Head) (fields : Fields) :
    functionHead scope id (head.onLines f) (Value.onLinesFields f fields) =
      (functionHead scope id head fields).onLines f := by
  obtain ⟨number, kind, location, span⟩ := head
  rw [functionHead, functionHead, nameIn_onLinesFields]
  cases location with
  | none => simp only [Head.onLines, FunctionHead.onLines, Option.map_none, Option.getD_none, hf]
  | some location => rfl

/-- **A value on other lines** is rendered to the same fragment on other lines. -/
theorem rendered_onLines (value : Value) : value.TakesItsForm f := by
  induction value using Value.induction_by_rule with
  | scalar s | foreign raw =>
      intro scope id
      rw [Value.onLines, rendered, Fragment.onLines]
  | list items ih =>
      intro scope id
      rw [Value.onLines, rendered, renderedItems_onLines ih, rendered, Fragment.onLines]
  | module head fields hkind ih =>
      intro scope id
      have hkind' : (head.onLines f).kind = .module := hkind
      rw [Value.onLines, rendered_module hkind', rendered_module hkind, renderedFirst_eq,
        renderedFirst_eq, statementsIn_onLinesFields, head?_onLinesItems]
      cases hfirst : (statementsIn fields).head? with
      | none => rfl
      | some first => exact ih first (List.mem_of_mem_head? hfirst) scope id
  | function head fields hkind ihfield ihbody =>
      intro scope id
      have hkind' : (head.onLines f).kind = .functionDef := hkind
      have hlist : (Fragment.list []).onLines f = .list [] := rfl
      have hnone : (Fragment.scalar .none).onLines f = .scalar .none := rfl
      rw [Value.onLines, rendered_function hkind', rendered_function hkind]
      simp only [renderedBody_eq, statementsIn_onLinesFields, renderedItems_onLines ihbody,
        renderedField_onLines (ihfield _) hlist, renderedField_onLines (ihfield _) hnone,
        functionHead_onLines hf, nameIn_onLinesFields, Fragment.onLines]
  | generic head fields hkind ih =>
      intro scope id
      have hkind' : (head.onLines f).kind.Generic := hkind
      rw [Value.onLines, rendered_generic hkind', rendered_generic hkind,
        renderedFields_onLines ih, Fragment.onLines]

/-! ### Translations -/

/-- **A tree on other lines** is translated like the tree: to the same function on
other lines, or with the same fault on other lines, and with the same effect on
the translator. -/
theorem run_translateTree_onLines (config : Config) (tree : Node) (t : Translator) :
    (translateTree config (tree.onLines f)).runFrom t =
      ((((translateTree config tree).runFrom t).1.map (Function.onLines f)).mapError
        (Fault.onLines f), ((translateTree config tree).runFrom t).2) := by
  have htree : (tree.onLines f).toValue = tree.toValue.onLines f := by
    rw [Node.toValue, Node.toValue, Value.onLines]
    rfl
  rw [run_translateTree, run_translateTree, htree, course_onLines tree.toValue 0, follow_onLines,
    rendered_onLines hf tree.toValue, Fragment.description_onLines, Fragment.asFunction_onLines]
  generalize follow config.maxDepth (course 0 tree.toValue) t = followed
  obtain ⟨refused, after⟩ := followed
  cases refused with
  | some fault => rfl
  | none => cases (rendered t.scope t.nextId tree.toValue).1.asFunction <;> rfl

end

end FunctionIR
