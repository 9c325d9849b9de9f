import FunctionIR.Proofs.Translation.Parts
import FunctionIR.Proofs.Translation.Program

/-!
# Trees with other heads

A tree is given other heads when one function is applied to the head of every
node (`Value.withHeads`).  Moving a tree by lines is of this form, and so is
forgetting the numbers of its nodes.

As long as the kinds of nodes are kept, a translation takes the same steps on
the tree with other heads, each at a node with its other head
(`course_withHeads`).
-/

namespace FunctionIR

namespace Value

mutual

/-- The value with other heads. -/
def withHeads (g : Head → Head) : Value → Value
  | .scalar s => .scalar s
  | .node head fields => .node (g head) (withHeadsFields g fields)
  | .list items => .list (withHeadsItems g items)
  | .foreign document => .foreign document

/-- The values with other heads. -/
def withHeadsItems (g : Head → Head) : List Value → List Value
  | [] => []
  | item :: rest => withHeads g item :: withHeadsItems g rest

/-- The fields with other heads. -/
def withHeadsFields (g : Head → Head) : List (String × Value) → List (String × Value)
  | [] => []
  | (name, value) :: rest => (name, withHeads g value) :: withHeadsFields g rest

end

end Value

section

variable {g : Head → Head}

/-! ### Fields -/

/-- A field under other heads. -/
theorem get?_withHeadsFields (name : String) (fields : Fields) :
    Members.get? name (Value.withHeadsFields g fields) =
      (Members.get? name fields).map (Value.withHeads g) := by
  induction fields with
  | nil => rfl
  | cons field rest ih =>
      obtain ⟨key, value⟩ := field
      rw [Value.withHeadsFields, Members.get?, Members.get?]
      by_cases hkey : key = name
      · rw [if_pos hkey, if_pos hkey]
        rfl
      · rw [if_neg hkey, if_neg hkey, ih]

/-- A text has no heads. -/
theorem asText_withHeads (value : Value) : (value.withHeads g).asText = value.asText := by
  cases value <;> rw [Value.withHeads] <;> rfl

/-- A list under other heads. -/
theorem asList_withHeads (value : Value) :
    (value.withHeads g).asList = value.asList.map (Value.withHeadsItems g) := by
  cases value <;> rw [Value.withHeads] <;> rfl

/-- The text of a field does not depend on heads. -/
theorem text_withHeadsFields (name : String) (fields : Fields) :
    (Members.get? name (Value.withHeadsFields g fields)).bind Value.asText =
      (Members.get? name fields).bind Value.asText := by
  rw [get?_withHeadsFields]
  cases Members.get? name fields with
  | none => rfl
  | some value => exact asText_withHeads value

/-- The name in fields does not depend on heads. -/
theorem nameIn_withHeadsFields (fields : Fields) :
    nameIn (Value.withHeadsFields g fields) = nameIn fields := by
  rw [nameIn, nameIn, text_withHeadsFields]

/-- The statements in fields under other heads. -/
theorem statementsIn_withHeadsFields (fields : Fields) :
    statementsIn (Value.withHeadsFields g fields) =
      Value.withHeadsItems g (statementsIn fields) := by
  rw [statementsIn, statementsIn, get?_withHeadsFields]
  cases Members.get? "body" fields with
  | none => rfl
  | some body =>
      rw [Option.map_some, Option.bind_some, Option.bind_some, asList_withHeads]
      cases body.asList <;> rfl

/-- The first item under other heads. -/
theorem head?_withHeadsItems (items : List Value) :
    (Value.withHeadsItems g items).head? = items.head?.map (Value.withHeads g) := by
  cases items <;> rfl

/-! ### The course -/

/-- The visit of a value with other heads. -/
def Visit.withHeads (g : Head → Head) (v : Visit) : Visit :=
  { depth := v.depth
    site := v.site.map fun site => (g site.1, site.2)
    value := v.value.withHeads g }

/-- The step at a node with another head. -/
def Step.withHeads (g : Head → Head) : Step → Step
  | .visit v => .visit (v.withHeads g)
  | .make head => .make (g head)
  | .enter name => .enter name
  | .leave name => .leave name

/-- The course of the value with other heads takes the steps of its course. -/
def Value.KeepsCourse (g : Head → Head) (value : Value) : Prop :=
  ∀ depth, course depth (value.withHeads g) = (course depth value).map (Step.withHeads g)

/-- The course of items under other heads. -/
theorem courseOfItems_withHeads {items : List Value} (h : ∀ item ∈ items, item.KeepsCourse g)
    (depth : Nat) :
    courseOfItems depth (Value.withHeadsItems g items) =
      (courseOfItems depth items).map (Step.withHeads g) := by
  induction items with
  | nil => rfl
  | cons item rest ih =>
      obtain ⟨hitem, hrest⟩ := List.forall_mem_cons.mp h
      rw [Value.withHeadsItems, courseOfItems, courseOfItems, List.map_append, hitem depth, ih hrest]

/-- The course of fields under other heads. -/
theorem courseOfFields_withHeads {fields : Fields} (h : ∀ field ∈ fields, field.2.KeepsCourse g)
    (depth : Nat) (owner : Head) :
    courseOfFields depth (g owner) (Value.withHeadsFields g fields) =
      (courseOfFields depth owner fields).map (Step.withHeads g) := by
  induction fields with
  | nil => rfl
  | cons field rest ih =>
      obtain ⟨hfield, hrest⟩ := List.forall_mem_cons.mp h
      obtain ⟨name, value⟩ := field
      have hvalue := hfield depth
      cases value with
      | foreign raw =>
          rw [Value.withHeadsFields, Value.withHeads, courseOfFields, courseOfFields, ih hrest]
          rfl
      | scalar | list | node =>
          rw [Value.withHeadsFields, courseOfFields_cons depth (g owner) name
            (by simp [Value.withHeads]), courseOfFields_cons depth owner name (by simp),
            List.map_append, hvalue, ih hrest]

/-- The course of one field under other heads. -/
theorem courseOfField_withHeads {name : String} {fields : Fields}
    (h : ∀ value, Members.get? name fields = some value → value.KeepsCourse g) (depth : Nat) :
    courseOfField depth name (Value.withHeadsFields g fields) =
      (courseOfField depth name fields).map (Step.withHeads g) := by
  rw [courseOfField_eq, courseOfField_eq, get?_withHeadsFields]
  cases hvalue : Members.get? name fields with
  | none => rfl
  | some value => exact h value hvalue depth

/-- **The course with other heads** is the course at the nodes with those heads,
if they are of the same kinds. -/
theorem course_withHeads (hg : ∀ head, (g head).kind = head.kind) (value : Value) :
    value.KeepsCourse g := by
  induction value using Value.induction_by_rule with
  | scalar s | foreign raw =>
      intro depth
      rw [Value.withHeads, course]
      rfl
  | list items ih =>
      intro depth
      rw [Value.withHeads, course, course, courseOfItems_withHeads ih]
      rfl
  | module head fields hkind ih =>
      intro depth
      rw [Value.withHeads, course_module ((hg head).trans hkind), course_module hkind,
        courseOfFirst_eq, courseOfFirst_eq, statementsIn_withHeadsFields, head?_withHeadsItems]
      cases hfirst : (statementsIn fields).head? with
      | none => rfl
      | some first =>
          have hcourse := ih first (List.mem_of_mem_head? hfirst) (depth + 1)
          exact congrArg (List.cons _) hcourse
  | function head fields hkind ihfield ihbody =>
      intro depth
      rw [Value.withHeads, course_function ((hg head).trans hkind), course_function hkind,
        courseOfBody_eq, courseOfBody_eq, statementsIn_withHeadsFields, nameIn_withHeadsFields]
      simp only [courseOfField_withHeads (ihfield _), courseOfItems_withHeads ihbody,
        List.map_cons, List.map_append]
      rfl
  | generic head fields hkind ih =>
      intro depth
      have hkind' : (g head).kind.Generic := (hg head).symm ▸ hkind
      rw [Value.withHeads, course_generic hkind', course_generic hkind,
        courseOfFields_withHeads ih]
      rfl

end

end FunctionIR
