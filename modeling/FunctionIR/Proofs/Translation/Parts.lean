import FunctionIR.Proofs.Translation.Course

/-!
# The parts that a translation goes to

A translation looks fields up by going through them one by one.  What it finds
is told by `Members.get?`, and the statements of a body by `statementsIn`; the
equations below say so for the course of a value and for the fragment that is
rendered from it.  Together with `Value.induction_by_rule` they are all that an
induction over translated values has to know: it has one case for each rule,
and in each case what holds of the parts that the rule goes to.
-/

namespace FunctionIR

/-- The statements in the field `body`, none if it is no list. -/
def statementsIn (fields : Fields) : List Value :=
  ((Members.get? "body" fields).bind Value.asList).getD []

/-- The statements of a body that is there. -/
theorem statementsIn_of_get? {fields : Fields} {statements : List Value}
    (h : Members.get? "body" fields = some (.list statements)) :
    statementsIn fields = statements := by
  rw [statementsIn, h]
  rfl

/-- The statements are those of the first field of that name. -/
theorem statementsIn_cons (name : String) (value : Value) (rest : Fields) :
    statementsIn ((name, value) :: rest) =
      if name = "body" then value.asList.getD [] else statementsIn rest := by
  rw [statementsIn, Members.get?]
  split <;> rfl

/-! ### The course of the parts -/

/-- The course of a field is that of its value, if there is one. -/
theorem courseOfField_eq (depth : Nat) (name : String) (fields : Fields) :
    courseOfField depth name fields =
      ((Members.get? name fields).map (course depth)).getD [] := by
  induction fields with
  | nil => rfl
  | cons field rest ih =>
      obtain ⟨key, value⟩ := field
      rw [courseOfField, Members.get?]
      by_cases hkey : key = name
      · rw [if_pos hkey, if_pos hkey]
        rfl
      · rw [if_neg hkey, if_neg hkey, ih]

/-- The course of a body is that of its statements. -/
theorem courseOfBody_eq (depth : Nat) (fields : Fields) :
    courseOfBody depth fields = courseOfItems depth (statementsIn fields) := by
  induction fields with
  | nil => rfl
  | cons field rest ih =>
      obtain ⟨key, value⟩ := field
      rw [statementsIn_cons]
      by_cases hkey : key = "body"
      · cases value <;> simp [courseOfBody, hkey, Value.asList, courseOfItems]
      · cases value <;> simp [courseOfBody, hkey, ih]

/-- The course of the first statement, if there is one. -/
theorem courseOfFirst_eq (depth : Nat) (fields : Fields) :
    courseOfFirst depth fields =
      ((statementsIn fields).head?.map (course depth)).getD [] := by
  induction fields with
  | nil => rfl
  | cons field rest ih =>
      obtain ⟨key, value⟩ := field
      rw [statementsIn_cons]
      by_cases hkey : key = "body"
      · cases value with
        | list items => cases items <;> simp [courseOfFirst, hkey, Value.asList]
        | scalar | node | foreign => simp [courseOfFirst, hkey, Value.asList]
      · cases value with
        | list items => cases items <;> simp [courseOfFirst, hkey, ih]
        | scalar | node | foreign => simp [courseOfFirst, hkey, ih]

/-! ### The fragments of the parts -/

/-- A field is rendered as its value, if there is one. -/
theorem renderedField_eq (scope : Scope) (id : Nat) (name : String) (absent : Fragment)
    (fields : Fields) :
    renderedField scope id name absent fields =
      ((Members.get? name fields).map (rendered scope id)).getD (absent, id) := by
  induction fields with
  | nil => rfl
  | cons field rest ih =>
      obtain ⟨key, value⟩ := field
      rw [renderedField, Members.get?]
      by_cases hkey : key = name
      · rw [if_pos hkey, if_pos hkey]
        rfl
      · rw [if_neg hkey, if_neg hkey, ih]

/-- A body is rendered as its statements. -/
theorem renderedBody_eq (scope : Scope) (id : Nat) (fields : Fields) :
    renderedBody scope id fields = renderedItems scope id (statementsIn fields) := by
  induction fields with
  | nil => rfl
  | cons field rest ih =>
      obtain ⟨key, value⟩ := field
      rw [statementsIn_cons]
      by_cases hkey : key = "body"
      · cases value <;> simp [renderedBody, hkey, Value.asList, renderedItems]
      · cases value <;> simp [renderedBody, hkey, ih]

/-- The first statement is rendered, if there is one. -/
theorem renderedFirst_eq (scope : Scope) (id : Nat) (fields : Fields) :
    renderedFirst scope id fields =
      ((statementsIn fields).head?.map (rendered scope id)).getD (.scalar .none, id) := by
  induction fields with
  | nil => rfl
  | cons field rest ih =>
      obtain ⟨key, value⟩ := field
      rw [statementsIn_cons]
      by_cases hkey : key = "body"
      · cases value with
        | list items => cases items <;> simp [renderedFirst, hkey, Value.asList]
        | scalar | node | foreign => simp [renderedFirst, hkey, Value.asList]
      · cases value with
        | list items => cases items <;> simp [renderedFirst, hkey, ih]
        | scalar | node | foreign => simp [renderedFirst, hkey, ih]

/-! ### Induction by the rules -/

/-- A value is smaller than the fields it is in. -/
theorem sizeOf_get? {name : String} {fields : Fields} {value : Value}
    (h : Members.get? name fields = some value) : sizeOf value < sizeOf fields := by
  induction fields with
  | nil => cases h
  | cons field rest ih =>
      obtain ⟨key, found⟩ := field
      rw [Members.get?] at h
      by_cases hkey : key = name
      · rw [if_pos hkey] at h
        cases h
        simp only [List.cons.sizeOf_spec, Prod.mk.sizeOf_spec]
        omega
      · rw [if_neg hkey] at h
        have := ih h
        simp only [List.cons.sizeOf_spec]
        omega

/-- A statement is smaller than the fields it is in. -/
theorem sizeOf_statementsIn {fields : Fields} {item : Value} (h : item ∈ statementsIn fields) :
    sizeOf item < sizeOf fields := by
  rw [statementsIn] at h
  cases hbody : Members.get? "body" fields with
  | none =>
      rw [hbody] at h
      cases h
  | some body =>
      rw [hbody] at h
      cases body with
      | list items =>
          have hitem : sizeOf item < sizeOf items := List.sizeOf_lt_of_mem h
          have hbody := sizeOf_get? hbody
          simp only [Value.list.sizeOf_spec] at hbody
          omega
      | scalar | node | foreign => cases h

/-- **Induction by the rules of translation.**  A module is told by its
statements, a function by the fields that are looked up and its statements, any
other node by all of its fields. -/
@[elab_as_elim]
theorem Value.induction_by_rule {motive : Value → Prop}
    (scalar : ∀ s, motive (.scalar s))
    (foreign : ∀ raw, motive (.foreign raw))
    (list : ∀ items, (∀ item ∈ items, motive item) → motive (.list items))
    (module : ∀ head fields, head.kind = .module →
      (∀ item ∈ statementsIn fields, motive item) → motive (.node head fields))
    (function : ∀ head fields, head.kind = .functionDef →
      (∀ name value, Members.get? name fields = some value → motive value) →
      (∀ item ∈ statementsIn fields, motive item) → motive (.node head fields))
    (generic : ∀ head fields, head.kind.Generic →
      (∀ field ∈ fields, motive field.2) → motive (.node head fields))
    (value : Value) : motive value := by
  -- fields are looked up by name, so their values are parts by size only
  induction hsize : sizeOf value using Nat.strongRecOn generalizing value with
  | ind size ih =>
      subst hsize
      have smaller : ∀ part, sizeOf part < sizeOf value → motive part :=
        fun part hpart => ih _ hpart part rfl
      cases value with
      | scalar s => exact scalar s
      | foreign raw => exact foreign raw
      | list items =>
          refine list items fun item hitem => smaller item ?_
          have := List.sizeOf_lt_of_mem hitem
          simp only [Value.list.sizeOf_spec]
          omega
      | node head fields =>
          have inside : ∀ part, sizeOf part < sizeOf fields → motive part := by
            intro part hpart
            apply smaller part
            simp only [Value.node.sizeOf_spec]
            omega
          rcases head.kind.by_rule with hkind | hkind | hkind
          · exact module head fields hkind fun item hitem => inside item (sizeOf_statementsIn hitem)
          · exact function head fields hkind (fun name part hpart => inside part (sizeOf_get? hpart))
              fun item hitem => inside item (sizeOf_statementsIn hitem)
          · refine generic head fields hkind fun field hfield => inside field.2 ?_
            have hfield := List.sizeOf_lt_of_mem hfield
            obtain ⟨name, part⟩ := field
            simp only [Prod.mk.sizeOf_spec] at hfield
            dsimp only
            omega

end FunctionIR
