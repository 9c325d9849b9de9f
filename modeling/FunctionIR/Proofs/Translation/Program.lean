import FunctionIR.Proofs.Reading.StatementFitting
import FunctionIR.Proofs.Translation.Outcome

/-!
# Translations of program text

A tree that is read from program text is in order wherever a translation looks
at it: only its depth can be refused.  So it is translated, unless the module
is empty or does not start with a function.

The function that comes out has all nodes of the statement it comes from
(`Function.Covers`).  They are not visited in the order of the text, because
the body of a function is translated after its decorators and its return
annotation; but function definitions stand in lists of statements only, and so
the functions inside the function are found in the order of the text.
-/

namespace FunctionIR

/-! ### Nodes of a value -/

namespace Value

mutual

/-- The heads of all nodes in a value, parents before children, in the order
of the fields. -/
def heads : Value → List Head
  | .node head fields => head :: headsOfFields fields
  | .list items => headsOfItems items
  | .scalar _ | .foreign _ => []

/-- The heads of all nodes in several values. -/
def headsOfItems : List Value → List Head
  | [] => []
  | item :: rest => heads item ++ headsOfItems rest

/-- The heads of all nodes in fields. -/
def headsOfFields : List (String × Value) → List Head
  | [] => []
  | (_, value) :: rest => heads value ++ headsOfFields rest

end

end Value

/-- The head is that of a function definition. -/
def Head.isFunction (head : Head) : Bool := head.kind = .functionDef

/-! ### Where function definitions stand -/

section Plain

variable {H : Head → Prop}

mutual

/-- Where a slot holds no statements, there is no function definition. -/
theorem isFunction_of_plain : {slot : Slot} → {value : Value} → Fits H slot value →
    slot.holdsStatements = false → ∀ head ∈ value.heads, head.isFunction = false
  | _, _, .text _, _ | _, _, .leaf _, _ | _, _, .absent, _ | _, _, .missing, _ =>
      List.forall_mem_nil _
  | _, _, .present h, hplain => isFunction_of_plain h hplain
  | _, _, .list hitems, hplain => isFunction_of_plainItems hitems hplain
  | .node role, .node head fields, .node hrole _ hfields, hplain => by
      have hne : role ≠ .statement := by simpa [Slot.holdsStatements] using hplain
      refine List.forall_mem_cons.mpr
        ⟨?_, isFunction_of_plainFields hfields (signature_without_statements hrole hne)⟩
      refine decide_eq_false fun hkind => ?_
      -- A function definition is a statement.
      rw [hkind] at hrole
      exact hne (Option.some.inj hrole).symm

theorem isFunction_of_plainItems : {slot : Slot} → {items : List Value} →
    ItemsFit H slot items → slot.holdsStatements = false →
    ∀ head ∈ Value.headsOfItems items, head.isFunction = false
  | _, _, .nil, _ => List.forall_mem_nil _
  | _, _, .cons hitem hrest, hplain =>
      List.forall_mem_append.mpr
        ⟨isFunction_of_plain hitem hplain, isFunction_of_plainItems hrest hplain⟩

theorem isFunction_of_plainFields : {signature : List (String × Slot)} → {fields : Fields} →
    FieldsFit H signature fields → (∀ entry ∈ signature, entry.2.holdsStatements = false) →
    ∀ head ∈ Value.headsOfFields fields, head.isFunction = false
  | _, _, .nil, _ => List.forall_mem_nil _
  | _, _, .cons hvalue hrest, hplain =>
      List.forall_mem_append.mpr
        ⟨isFunction_of_plain hvalue (List.forall_mem_cons.mp hplain).1,
          isFunction_of_plainFields hrest (List.forall_mem_cons.mp hplain).2⟩

end

/-- The fields of a function definition. -/
theorem function_fields {fields : Fields} (h : FieldsFit H (Kind.signature .functionDef) fields) :
    ∃ name arguments body decorators returns,
      fields = [("name", .str name), ("args", arguments), ("body", .list body),
        ("decorator_list", .list decorators), ("returns", returns),
        ("type_comment", .absent)] ∧
      Fits H (.node .arguments) arguments ∧ ItemsFit H (.node .statement) body ∧
      ItemsFit H (.node .expression) decorators ∧ Fits H (.optional .expression) returns := by
  cases h with
  | cons hname h => cases h with
    | cons harguments h => cases h with
      | cons hbody h => cases h with
        | cons hdecorators h => cases h with
          | cons hreturns h => cases h with
            | cons hcomment h =>
                cases h
                cases hcomment
                cases hname
                cases hbody with
                | list hbody =>
                    cases hdecorators with
                    | list hdecorators =>
                        exact ⟨_, _, _, _, _, rfl, harguments, hbody, hdecorators, hreturns⟩

/-- A node with a role is no module. -/
theorem ne_module_of_role {kind : Kind} {role : Role} (h : kind.role = some role) :
    kind ≠ .module := by
  rintro rfl
  cases h

end Plain

/-! ### Only depth is refused -/

/-- A value that can only be refused for its depth. -/
def Visit.OnlyDeep (visit : Visit) : Prop :=
  ∀ limit fault, visit.fault limit = some fault → ∃ location, fault = .tooDeep limit location

theorem onlyDeep_scalar (depth : Nat) (s : Scalar) :
    Visit.OnlyDeep ⟨depth, none, .scalar s⟩ := by
  intro limit fault h
  simp only [Visit.fault] at h
  cases h

/-- A list cannot go wrong but by its depth. -/
theorem onlyDeep_list (depth : Nat) (items : List Value) :
    Visit.OnlyDeep ⟨depth, none, .list items⟩ := by
  intro limit fault h
  simp only [Visit.fault] at h
  cases h

/-- A node of the right form cannot go wrong but by its depth. -/
theorem onlyDeep_node {depth : Nat} {head : Head} {fields : Fields}
    (h : formFault head fields = none) : Visit.OnlyDeep ⟨depth, none, .node head fields⟩ := by
  intro limit fault hfault
  simp only [Visit.fault] at hfault
  split at hfault
  · cases hfault
    exact ⟨_, rfl⟩
  · rw [h] at hfault
    cases hfault

section Visits

variable {H : Head → Prop}

/-- Fields that fit are no foreign documents. -/
theorem courseOfFields_cons (depth : Nat) (owner : Head) (name : String) {value : Value}
    (hvalue : ∀ raw, value ≠ .foreign raw) (rest : Fields) :
    courseOfFields depth owner ((name, value) :: rest) =
      course depth value ++ courseOfFields depth owner rest := by
  cases value with
  | foreign raw => exact absurd rfl (hvalue raw)
  | scalar | list | node => rw [courseOfFields]; exact hvalue

theorem courseOfBody_cons (depth : Nat) (key : String) (value : Value) (rest : Fields) :
    courseOfBody depth ((key, value) :: rest) =
      if key = "body" then
        match value with
        | .list items => courseOfItems depth items
        | _ => []
      else courseOfBody depth rest := by
  cases value <;> simp only [courseOfBody]

theorem Fits.ne_foreign {slot : Slot} {value : Value} (h : Fits H slot value) (raw : Json) :
    value ≠ .foreign raw := by
  rintro rfl
  cases h with
  | present h => cases h

theorem visits_visit (v : Visit) (steps : List Step) :
    visits (.visit v :: steps) = v :: visits steps := rfl

theorem visits_append (steps more : List Step) :
    visits (steps ++ more) = visits steps ++ visits more := List.filterMap_append

/-- The form of a node that fits is right. -/
theorem formFault_of_fits {role : Role} {head : Head} {fields : Fields}
    (hrole : head.kind.role = some role) (h : FieldsFit H head.kind.signature fields) :
    formFault head fields = none := by
  rcases head.kind.by_rule with hkind | hkind | hkind
  · exact absurd hkind (ne_module_of_role hrole)
  · rw [hkind] at h
    obtain ⟨name, _, body, _, _, rfl, -⟩ := function_fields h
    exact (formFault_function hkind).mpr ⟨⟨name, rfl⟩, body, rfl⟩
  · exact formFault_generic hkind fields

mutual

/-- **Only depth is refused** in a value that fits. -/
theorem course_onlyDeep (depth : Nat) {slot : Slot} (value : Value) (h : Fits H slot value) :
    ∀ visit ∈ visits (course depth value), visit.OnlyDeep := by
  rcases h.sort with ⟨s, rfl⟩ | ⟨item, items, rfl, hitems⟩ |
    ⟨role, head, fields, rfl, hrole, -, hfields⟩
  · intro visit hvisit
    cases List.mem_singleton.mp hvisit
    exact onlyDeep_scalar depth s
  · rw [course, visits_visit]
    exact List.forall_mem_cons.mpr
      ⟨onlyDeep_list depth items, courseOfItems_onlyDeep depth items hitems⟩
  · have hform : Visit.OnlyDeep ⟨depth, none, .node head fields⟩ :=
      onlyDeep_node (formFault_of_fits hrole hfields)
    rcases head.kind.by_rule with hkind | hkind | hkind
    · exact absurd hkind (ne_module_of_role hrole)
    · have hfield := fun name => courseOfField_onlyDeep (depth + 1) name fields hfields
      rw [course_function hkind, visits_visit]
      simp only [visits_append, List.forall_mem_cons, List.forall_mem_append]
      exact ⟨hform, hfield _, hfield _, hfield _, (by intro _ h; cases h),
        courseOfBody_onlyDeep (depth + 1) fields hfields, by intro _ h; cases h⟩
    · rw [course_generic hkind, visits_visit]
      exact List.forall_mem_cons.mpr
        ⟨hform, courseOfFields_onlyDeep (depth + 1) head fields hfields⟩
termination_by sizeOf value

theorem courseOfItems_onlyDeep (depth : Nat) {slot : Slot} (items : List Value)
    (h : ItemsFit H slot items) : ∀ visit ∈ visits (courseOfItems depth items), visit.OnlyDeep := by
  cases h with
  | nil => exact List.forall_mem_nil _
  | cons hitem hrest =>
      rw [courseOfItems, visits_append]
      exact List.forall_mem_append.mpr
        ⟨course_onlyDeep depth _ hitem, courseOfItems_onlyDeep depth _ hrest⟩
termination_by sizeOf items

theorem courseOfFields_onlyDeep (depth : Nat) (owner : Head) {signature : List (String × Slot)}
    (fields : Fields) (h : FieldsFit H signature fields) :
    ∀ visit ∈ visits (courseOfFields depth owner fields), visit.OnlyDeep := by
  cases h with
  | nil => exact List.forall_mem_nil _
  | cons hvalue hrest =>
      rw [courseOfFields_cons depth owner _ hvalue.ne_foreign, visits_append]
      exact List.forall_mem_append.mpr
        ⟨course_onlyDeep depth _ hvalue, courseOfFields_onlyDeep depth owner _ hrest⟩
termination_by sizeOf fields

theorem courseOfField_onlyDeep (depth : Nat) (name : String) {signature : List (String × Slot)}
    (fields : Fields) (h : FieldsFit H signature fields) :
    ∀ visit ∈ visits (courseOfField depth name fields), visit.OnlyDeep := by
  cases h with
  | nil => exact List.forall_mem_nil _
  | cons hvalue hrest =>
      rw [courseOfField]
      split
      · exact course_onlyDeep depth _ hvalue
      · exact courseOfField_onlyDeep depth name _ hrest
termination_by sizeOf fields

theorem courseOfBody_onlyDeep (depth : Nat) {signature : List (String × Slot)}
    (fields : Fields) (h : FieldsFit H signature fields) :
    ∀ visit ∈ visits (courseOfBody depth fields), visit.OnlyDeep := by
  cases h with
  | nil => exact List.forall_mem_nil _
  | cons hvalue hrest =>
      rw [courseOfBody_cons]
      split
      · split
        · cases hvalue with
          | list hitems => exact courseOfItems_onlyDeep depth _ hitems
          | present hvalue => cases hvalue
        · exact List.forall_mem_nil _
      · exact courseOfBody_onlyDeep depth _ hrest
termination_by sizeOf fields

end

end Visits

/-! ### What the fragment has -/

section Fragments

variable {H : Head → Prop}

open Fragment (functionsOfList functionsOfFields)

/-- A function's nodes are the same in the order of the text and in the order
of the translation. -/
theorem perm_parts {α : Type} (arguments body decorators returns : List α) :
    (decorators ++ arguments ++ returns ++ body).Perm
      (arguments ++ (body ++ (decorators ++ returns))) := by
  rw [List.append_assoc, List.append_assoc]
  refine (List.perm_append_comm_assoc decorators arguments (returns ++ body)).trans ?_
  refine .append_left arguments ?_
  rw [← List.append_assoc]
  exact List.perm_append_comm

/-- The fragment of a function whose parts fit. -/
theorem rendered_parts {scope : Scope} {id : Nat} {head : Head} {name : String}
    {arguments returns : Value} {body decorators : List Value} (hkind : head.kind = .functionDef) :
    ∃ id₁ id₂ id₃ inner,
      (rendered scope id (.node head [("name", .str name), ("args", arguments),
        ("body", .list body), ("decorator_list", .list decorators), ("returns", returns),
        ("type_comment", .absent)])).1 =
      .function (functionHead scope id₃ head [("name", .str name), ("args", arguments),
        ("body", .list body), ("decorator_list", .list decorators), ("returns", returns),
        ("type_comment", .absent)])
        (.list (renderedItems scope id decorators).1) (rendered scope id₁ arguments).1
        (rendered scope id₂ returns).1 (renderedItems inner (id₃ + 1) body).1 := by
  rw [rendered_function hkind]
  exact ⟨_, _, _, _, rfl⟩

mutual

/-- **A rendered fragment has the nodes of its value.** -/
theorem heads_rendered (scope : Scope) (id : Nat) {slot : Slot} (value : Value)
    (h : Fits H slot value) : (rendered scope id value).1.heads.Perm value.heads := by
  rcases h.sort with ⟨s, rfl⟩ | ⟨item, items, rfl, hitems⟩ |
    ⟨role, head, fields, rfl, hrole, -, hfields⟩
  · rw [rendered]
    exact .nil
  · rw [rendered, Fragment.heads, Value.heads]
    exact heads_renderedItems scope id items hitems
  · rcases head.kind.by_rule with hkind | hkind | hkind
    · exact absurd hkind (ne_module_of_role hrole)
    · rw [hkind] at hfields
      obtain ⟨name, arguments, body, decorators, returns, rfl, harguments, hbody, hdecorators,
        hreturns⟩ := function_fields hfields
      obtain ⟨id₁, id₂, id₃, inner, hrendered⟩ := @rendered_parts scope id head name arguments
        returns body decorators hkind
      rw [hrendered, Fragment.heads]
      have hparts := (((heads_renderedItems scope id decorators hdecorators).append
        (heads_rendered scope id₁ arguments harguments)).append
        (heads_rendered scope id₂ returns hreturns)).append
        (heads_renderedItems inner (id₃ + 1) body hbody)
      simp only [Value.heads, Value.headsOfFields, Fragment.heads, List.nil_append,
        List.append_nil, Value.str, Value.absent]
      exact (hparts.trans (perm_parts _ _ _ _)).cons head
    · rw [rendered_generic hkind]
      exact (heads_renderedFields scope (id + 1) fields hfields).cons head
termination_by sizeOf value

theorem heads_renderedItems (scope : Scope) (id : Nat) {slot : Slot} (items : List Value)
    (h : ItemsFit H slot items) :
    (Fragment.headsOfList (renderedItems scope id items).1).Perm (Value.headsOfItems items) := by
  cases h with
  | nil => exact .nil
  | @cons _ item rest hitem hrest =>
      rw [renderedItems, Fragment.headsOfList, Value.headsOfItems]
      exact (heads_rendered scope id item hitem).append (heads_renderedItems scope _ rest hrest)
termination_by sizeOf items

theorem heads_renderedFields (scope : Scope) (id : Nat) {signature : List (String × Slot)}
    (fields : Fields) (h : FieldsFit H signature fields) :
    (Fragment.headsOfFields (renderedFields scope id fields).1).Perm
      (Value.headsOfFields fields) := by
  cases h with
  | nil => exact .nil
  | @cons name _ value _ rest hvalue hrest =>
      rw [renderedFields, Fragment.headsOfFields, Value.headsOfFields]
      exact (heads_rendered scope id value hvalue).append
        (heads_renderedFields scope _ rest hrest)
termination_by sizeOf fields

end

/-- Nothing is left where there is no function definition. -/
theorem filter_plain {heads : List Head} (h : ∀ head ∈ heads, head.isFunction = false) :
    heads.filter Head.isFunction = [] :=
  List.filter_eq_nil_iff.mpr fun head hmem => by simp [h head hmem]

mutual

/-- **The functions in a rendered fragment** are those that are defined in its
value, in the order of the fields. -/
theorem functions_rendered (scope : Scope) (id : Nat) {slot : Slot} (value : Value)
    (h : Fits H slot value) :
    (rendered scope id value).1.functions.map (·.head.origin) =
      value.heads.filter Head.isFunction := by
  rcases h.sort with ⟨s, rfl⟩ | ⟨item, items, rfl, hitems⟩ |
    ⟨role, head, fields, rfl, hrole, -, hfields⟩
  · rw [rendered]
    rfl
  · rw [rendered, Fragment.functions, Value.heads]
    exact functions_renderedItems scope id items hitems
  · rcases head.kind.by_rule with hkind | hkind | hkind
    · exact absurd hkind (ne_module_of_role hrole)
    · rw [hkind] at hfields
      obtain ⟨name, arguments, body, decorators, returns, rfl, harguments, hbody, hdecorators,
        hreturns⟩ := function_fields hfields
      obtain ⟨_, _, id', inner, hrendered⟩ := @rendered_parts scope id head name arguments
        returns body decorators hkind
      have hfunction : head.isFunction = true := decide_eq_true hkind
      rw [hrendered, Fragment.functions, List.map_cons,
        functions_renderedItems inner (id' + 1) body hbody]
      -- Only the body has function definitions.
      simp only [Value.heads, Value.headsOfFields, List.filter_cons_of_pos hfunction,
        List.filter_append, filter_plain (isFunction_of_plain harguments rfl),
        filter_plain (isFunction_of_plainItems hdecorators rfl),
        filter_plain (isFunction_of_plain hreturns rfl), List.nil_append,
        List.append_nil, Value.str, Value.absent, functionHead]
    · have hfunction : head.isFunction = false := decide_eq_false hkind.2
      rw [rendered_generic hkind, Fragment.functions, Value.heads,
        List.filter_cons_of_neg (by simp [hfunction])]
      exact functions_renderedFields scope (id + 1) fields hfields
termination_by sizeOf value

theorem functions_renderedItems (scope : Scope) (id : Nat) {slot : Slot} (items : List Value)
    (h : ItemsFit H slot items) :
    (functionsOfList (renderedItems scope id items).1).map (·.head.origin) =
      (Value.headsOfItems items).filter Head.isFunction := by
  cases h with
  | nil => rfl
  | @cons _ item rest hitem hrest =>
      rw [renderedItems, functionsOfList, Value.headsOfItems, List.map_append,
        List.filter_append, functions_rendered scope id item hitem,
        functions_renderedItems scope _ rest hrest]
termination_by sizeOf items

theorem functions_renderedFields (scope : Scope) (id : Nat) {signature : List (String × Slot)}
    (fields : Fields) (h : FieldsFit H signature fields) :
    (functionsOfFields (renderedFields scope id fields).1).map (·.head.origin) =
      (Value.headsOfFields fields).filter Head.isFunction := by
  cases h with
  | nil => rfl
  | @cons name _ value _ rest hvalue hrest =>
      rw [renderedFields, functionsOfFields, Value.headsOfFields, List.map_append,
        List.filter_append, functions_rendered scope id value hvalue,
        functions_renderedFields scope _ rest hrest]
termination_by sizeOf fields

end

end Fragments

/-! ### Counts of kinds -/

/-- The tags of a count come in order. -/
def TagsSorted (counts : List (String × Nat)) : Prop := counts.Pairwise fun a b => a.1 < b.1

/-- How often a tag is counted. -/
def countOf (tag : String) (counts : List (String × Nat)) : Nat :=
  (Members.get? tag counts).getD 0

/-- A tag before all others is not counted. -/
theorem countOf_least {tag : String} {counts : List (String × Nat)}
    (h : ∀ entry ∈ counts, tag < entry.1) : countOf tag counts = 0 := by
  induction counts with
  | nil => rfl
  | cons entry counts ih =>
      obtain ⟨hentry, hrest⟩ := List.forall_mem_cons.mp h
      have hne : entry.1 ≠ tag := fun heq => String.lt_irrefl tag (heq ▸ hentry)
      have hcount := ih hrest
      rw [countOf] at hcount ⊢
      rwa [Members.get?, if_neg hne]

/-- Whatever is before a tag and before all that are counted is before all that
are counted then. -/
theorem lt_tallyTag {tag least : String} {counts : List (String × Nat)} (htag : least < tag)
    (h : ∀ entry ∈ counts, least < entry.1) : ∀ entry ∈ tallyTag tag counts, least < entry.1 := by
  induction counts with
  | nil => simpa [tallyTag] using htag
  | cons entry counts ih =>
      obtain ⟨other, count⟩ := entry
      obtain ⟨hentry, hrest⟩ := List.forall_mem_cons.mp h
      rw [tallyTag]
      split
      · exact List.forall_mem_cons.mpr ⟨hentry, hrest⟩
      · split
        · exact List.forall_mem_cons.mpr ⟨htag, h⟩
        · exact List.forall_mem_cons.mpr ⟨hentry, ih hrest⟩

/-- Tags stay in order. -/
theorem tallyTag_sorted (tag : String) {counts : List (String × Nat)} (h : TagsSorted counts) :
    TagsSorted (tallyTag tag counts) := by
  induction counts with
  | nil => exact List.pairwise_singleton _ _
  | cons entry counts ih =>
      obtain ⟨other, count⟩ := entry
      obtain ⟨hentry, hrest⟩ := List.pairwise_cons.mp h
      rw [tallyTag]
      split
      · exact List.pairwise_cons.mpr ⟨hentry, hrest⟩
      · split
        next hlt =>
          refine List.pairwise_cons.mpr ⟨?_, h⟩
          exact List.forall_mem_cons.mpr ⟨hlt, fun entry hmem =>
            String.lt_trans hlt (hentry entry hmem)⟩
        next hne hlt =>
          have hgt : other < tag := by grind
          exact List.pairwise_cons.mpr ⟨lt_tallyTag hgt hentry, ih hrest⟩

/-- One more of a tag is counted, and nothing else. -/
theorem countOf_tallyTag (tag other : String) {counts : List (String × Nat)}
    (h : TagsSorted counts) :
    countOf tag (tallyTag other counts) = countOf tag counts + if other = tag then 1 else 0 := by
  induction counts with
  | nil =>
      simp only [tallyTag, countOf, Members.get?]
      split <;> rfl
  | cons entry counts ih =>
      obtain ⟨key, count⟩ := entry
      obtain ⟨hentry, hrest⟩ := List.pairwise_cons.mp h
      have hleast : other < key → countOf other ((key, count) :: counts) = 0 := fun hlt =>
        countOf_least (List.forall_mem_cons.mpr ⟨hlt, fun entry hmem =>
          String.lt_trans hlt (hentry entry hmem)⟩)
      have ih := ih hrest
      simp only [countOf] at ih hleast ⊢
      rw [tallyTag]
      by_cases hkey : other = key
      · subst hkey
        rw [if_pos rfl, Members.get?, Members.get?]
        split <;> rfl
      · rw [if_neg hkey]
        by_cases hlt : other < key
        · rw [if_pos hlt, Members.get?]
          split
          next heq =>
            subst heq
            rw [hleast hlt]
            rfl
          next => rfl
        · rw [if_neg hlt, Members.get?, Members.get?]
          split
          next heq =>
            subst heq
            rw [if_neg hkey]
            rfl
          next => exact ih

/-- A tag that is counted is counted at least once. -/
theorem tallyTag_pos (tag : String) {counts : List (String × Nat)}
    (h : ∀ entry ∈ counts, 0 < entry.2) : ∀ entry ∈ tallyTag tag counts, 0 < entry.2 := by
  induction counts with
  | nil => simp [tallyTag]
  | cons entry counts ih =>
      obtain ⟨other, count⟩ := entry
      obtain ⟨hentry, hrest⟩ := List.forall_mem_cons.mp h
      rw [tallyTag]
      split
      · exact List.forall_mem_cons.mpr ⟨Nat.succ_pos count, hrest⟩
      · split
        · exact List.forall_mem_cons.mpr ⟨Nat.one_pos, h⟩
        · exact List.forall_mem_cons.mpr ⟨hentry, ih hrest⟩

/-- The counts are those of the kinds of nodes: every tag once, in order, none
that does not occur, and each as often as it occurs. -/
structure Counts (counts : List (String × Nat)) (heads : List Head) : Prop where
  sorted : TagsSorted counts
  pos : ∀ entry ∈ counts, 0 < entry.2
  count : ∀ tag, countOf tag counts = heads.countP (·.kind.tag = tag)

/-- One more node is counted. -/
theorem Counts.tally {counts : List (String × Nat)} {heads : List Head} (h : Counts counts heads)
    (head : Head) : Counts (tallyTag head.kind.tag counts) (heads ++ [head]) where
  sorted := tallyTag_sorted _ h.sorted
  pos := tallyTag_pos _ h.pos
  count tag := by
    rw [countOf_tallyTag tag _ h.sorted, h.count, List.countP_append, List.countP_singleton]
    simp

/-- All nodes are counted one by one. -/
theorem Counts.foldl (heads : List Head) {counts : List (String × Nat)} {before : List Head}
    (h : Counts counts before) :
    Counts (heads.foldl (fun counts head => tallyTag head.kind.tag counts) counts)
      (before ++ heads) := by
  induction heads generalizing counts before with
  | nil => simpa using h
  | cons head heads ih =>
      have := ih (h.tally head)
      rwa [List.append_assoc] at this

/-- The order of the nodes does not matter to counts. -/
theorem Counts.perm {counts : List (String × Nat)} {heads heads' : List Head}
    (h : Counts counts heads) (hperm : heads.Perm heads') : Counts counts heads' :=
  { h with count := fun tag => (h.count tag).trans (hperm.countP_eq _) }

/-- The histogram of a function counts its nodes. -/
theorem counts_histogram (function : Function) :
    Counts function.histogram function.toFragment.heads :=
  @Counts.foldl function.toFragment.heads [] [] ⟨.nil, nofun, fun _ => rfl⟩

/-! ### Program text -/

/-- The function has every node of the statement once, and no other. -/
structure Function.Covers (function : Function) (statement : Value) : Prop where
  /-- A walk visits the nodes of the statement. -/
  heads : function.toFragment.heads.Perm statement.heads
  nodeCount : function.nodeCount = statement.heads.length
  histogram : Counts function.histogram statement.heads
  /-- The functions inside are those defined in the statement, but for the
  statement itself, in the order of the text. -/
  nested : function.nested.map (·.head.origin) = statement.heads.tail.filter Head.isFunction

/-- A function that is rendered from a statement covers it. -/
theorem covers_of_rendered {H : Head → Prop} {scope : Scope} {id : Nat} {statement : Value}
    {function : Function} (hfits : Fits H (.node .statement) statement)
    (h : (rendered scope id statement).1 = function.toFragment) : function.Covers statement where
  heads := h ▸ heads_rendered scope id statement hfits
  nodeCount := (h ▸ heads_rendered scope id statement hfits).length_eq
  histogram := (counts_histogram function).perm (h ▸ heads_rendered scope id statement hfits)
  nested := by
    obtain ⟨head, fields, rfl, hrole, -⟩ := hfits.exists_node
    have hfunctions := functions_rendered scope id _ hfits
    have hkind : head.kind = .functionDef := by
      rcases head.kind.by_rule with hkind | hkind | hkind
      · exact absurd hkind (ne_module_of_role hrole)
      · exact hkind
      · rw [rendered_generic hkind] at h
        cases h
    have hfunction : head.isFunction = true := decide_eq_true hkind
    rw [h, Value.heads, List.filter_cons_of_pos hfunction] at hfunctions
    exact (List.cons.inj hfunctions).2

/-- A tree that is read from program text, prepared or not: a module of
statements. -/
def Node.IsProgram (tree : Node) (body : List Value) : Prop :=
  tree.head.kind = .module ∧
    tree.fields = [("body", .list body), ("type_ignores", .list [])] ∧
    ItemsFit (fun _ => True) (.node .statement) body

/-- A program stays one when its lines move. -/
theorem Node.IsProgram.shift {tree : Node} {body : List Value} (h : tree.IsProgram body)
    (delta : Int) : (tree.shift delta).IsProgram (Value.shiftItems delta body) := by
  obtain ⟨hkind, hfields, hbody⟩ := h
  refine ⟨hkind, ?_, hbody.shift fun _ _ => trivial⟩
  rw [Node.shift, hfields]
  rfl

/-- A program stays one when it is prepared. -/
theorem Node.IsProgram.prepare {tree : Node} {body : List Value} (h : tree.IsProgram body)
    (discount : Bool) : ∃ body, (tree.prepare discount).IsProgram body := by
  unfold Node.prepare
  split
  · exact ⟨_, h.shift _⟩
  · exact ⟨body, h⟩

/-- What is loaded from program text is a module of statements. -/
theorem load_isProgram {source : Source} (hformat : source.format = .program) (discount : Bool) :
    (source.load discount).Yields fun tree => ∃ body, tree.IsProgram body := by
  have htree : source.tree.Yields fun tree => ∃ body, tree.IsProgram body :=
    (Source.tree_fits hformat).mono fun tree ⟨body, hkind, _, hfields, hbody⟩ =>
      ⟨body, hkind, hfields, hbody.mono fun _ _ => trivial⟩
  exact htree.bind fun tree ⟨body, hbody⟩ => .pure (hbody.prepare discount)

/-- A module without statements is refused. -/
theorem firstFault_empty {tree : Node} (h : tree.IsProgram []) (limit : Nat) :
    tree.firstFault limit = some (malformed .moduleEmpty tree.head) := by
  obtain ⟨hkind, hfields, -⟩ := h
  obtain ⟨head, fields⟩ := tree
  subst hfields
  simp only at hkind
  simp [Node.firstFault, Node.visited, Node.toValue, course_module hkind, visits_visit,
    Visit.fault, formFault, hkind, Members.get?]

/-- A module is refused where its first statement is refused, or for what that
statement is. -/
theorem firstFault_first {tree : Node} {head : Head} {fields : Fields} {rest : List Value}
    (h : tree.IsProgram (.node head fields :: rest)) (limit : Nat) :
    tree.firstFault limit =
      ((visits (course 1 (.node head fields))).findSome? (Visit.fault limit)).or
        (if head.kind = .functionDef then none
          else some (malformed (.rootNotFunction head.kind.tag) tree.head)) := by
  obtain ⟨hkind, hfields, hbody⟩ := h
  obtain ⟨root, fields'⟩ := tree
  subst hfields
  have hfirst : head.kind ≠ .module := by
    cases (itemsFit_cons.mp hbody).1 with
    | node hrole _ _ => exact ne_module_of_role hrole
  have hsound : Visit.fault limit ⟨0, none, .node root
      [("body", .list (.node head fields :: rest)), ("type_ignores", .list [])]⟩ = none := by
    simp only at hkind
    simp [Visit.fault, formFault, hkind, Members.get?]
  have hresolved : (Node.mk root [("body", .list (.node head fields :: rest)),
      ("type_ignores", .list [])]).toValue.resolved = .node head fields := by
    rw [Node.toValue, resolved_module hkind, resolvedFirst, if_pos rfl,
      resolved_of_ne_module hfirst]
  rw [Node.firstFault, Node.visited, Node.toValue, course_module hkind, visits_visit,
    List.findSome?_cons, hsound, courseOfFirst, if_pos rfl, Node.rootFault, hresolved]

/-- What becomes of a module that starts with a statement. -/
theorem translation_of_first {tree : Node} {head : Head} {fields : Fields} {rest : List Value}
    (h : tree.IsProgram (.node head fields :: rest)) (session : Session) :
    (∃ location,
      (session.translateIn tree).1 = .error (.tooDeep session.config.maxDepth location)) ∨
    (head.kind ≠ .functionDef ∧ (session.translateIn tree).1 =
      .error (malformed (.rootNotFunction head.kind.tag) tree.head)) ∨
    (head.kind = .functionDef ∧ ∃ function, (session.translateIn tree).1 = .ok function ∧
      function.Covers (.node head fields)) := by
  have hstatement := (itemsFit_cons.mp h.2.2).1
  have hfault := firstFault_first h session.config.maxDepth
  cases hfound : (visits (course 1 (.node head fields))).findSome?
      (Visit.fault session.config.maxDepth) with
  | some fault =>
      obtain ⟨visit, hmem, hvisit⟩ := List.exists_of_findSome?_eq_some hfound
      obtain ⟨location, rfl⟩ := course_onlyDeep 1 _ hstatement visit hmem _ _ hvisit
      rw [hfound] at hfault
      exact .inl ⟨location, Session.translateIn_eq_error.mpr hfault⟩
  | none =>
      rw [hfound, Option.none_or] at hfault
      by_cases hkind : head.kind = .functionDef
      · rw [if_pos hkind] at hfault
        cases houtcome : (session.translateIn tree).1 with
        | error fault =>
            rw [Session.translateIn_eq_error.mp houtcome] at hfault
            cases hfault
        | ok function =>
            refine .inr (.inr ⟨hkind, function, rfl, ?_⟩)
            obtain ⟨-, hrendered⟩ := Session.translateIn_eq_ok.mp houtcome
            rw [Node.toValue, rendered_module h.1, h.2.1, renderedFirst, if_pos rfl] at hrendered
            exact covers_of_rendered hstatement hrendered
      · rw [if_neg hkind] at hfault
        exact .inr (.inl ⟨hkind, Session.translateIn_eq_error.mpr hfault⟩)

/-- **Program text is translated completely.**  Whatever is loaded from program
text is translated, with two exceptions: nodes may be too deep, and the module
may be empty or start with a statement that is no function.  The function has
every node of that statement. -/
theorem translation_of_program {source : Source} (hformat : source.format = .program)
    {discount : Bool} {counter next : Nat} {tree : Node}
    (hload : (source.load discount).runFrom counter = (.ok tree, next)) (session : Session) :
    ∃ body, tree.listField? "body" = some body ∧
      ((session.translate tree).1 = .error (malformed .moduleEmpty tree.head) ↔ body = []) ∧
      (body = [] ∨
        ∃ head fields rest, body = .node head fields :: rest ∧
          ((∃ location,
              (session.translate tree).1 = .error (.tooDeep session.config.maxDepth location)) ∨
            (head.kind ≠ .functionDef ∧ (session.translate tree).1 =
              .error (malformed (.rootNotFunction head.kind.tag) tree.head)) ∨
            (head.kind = .functionDef ∧ ∃ function, (session.translate tree).1 = .ok function ∧
              function.Covers (.node head fields)))) := by
  obtain ⟨body, hprogram⟩ := load_isProgram hformat discount counter tree next hload
  have hbody : tree.listField? "body" = some body := by
    rw [Node.listField?, Node.field?, hprogram.2.1]
    rfl
  rw [(Session.translate_atTop tree).1]
  refine ⟨body, hbody, ?_⟩
  cases body with
  | nil =>
      exact ⟨iff_of_true (Session.translateIn_eq_error.mpr (firstFault_empty hprogram _)) rfl,
        .inl rfl⟩
  | cons first rest =>
      obtain ⟨head, fields, rfl, -⟩ := (itemsFit_cons.mp hprogram.2.2).1.exists_node
      have houtcome := translation_of_first hprogram session.atTop
      refine ⟨iff_of_false (fun h => ?_) (List.cons_ne_nil _ _),
        .inr ⟨head, fields, rest, rfl, houtcome⟩⟩
      rcases houtcome with ⟨_, h'⟩ | ⟨-, h'⟩ | ⟨-, _, h', -⟩ <;> rw [h] at h' <;> cases h'

/-- A program of a function in a function is loaded, and is translated so. -/
theorem translation_of_program_nested :
    let source := Source.ofText "m" "@d(1)\ndef f(x=2):\n    def g():\n        pass\n" .program
    let session := Session.begin .standard "_"
    ∃ tree next, (source.load true).runFrom 1 = (.ok tree, next) ∧
      (∃ function, (session.translate tree).1 = .ok function ∧
        function.nested.map (·.head.name) = ["g"]) ∧
      ∃ body, tree.listField? "body" = some body ∧
        ((session.translate tree).1 = .error (malformed .moduleEmpty tree.head) ↔ body = []) ∧
        (body = [] ∨
          ∃ head fields rest, body = .node head fields :: rest ∧
            ((∃ location,
                (session.translate tree).1 = .error (.tooDeep session.config.maxDepth location)) ∨
              (head.kind ≠ .functionDef ∧ (session.translate tree).1 =
                .error (malformed (.rootNotFunction head.kind.tag) tree.head)) ∨
              (head.kind = .functionDef ∧ ∃ function, (session.translate tree).1 = .ok function ∧
                function.Covers (.node head fields)))) := by
  intro source session
  obtain ⟨tree, hload, function, htranslate, hnested⟩ :
      ∃ tree, ((source.load true).runFrom 1).1 = .ok tree ∧
        ∃ function, (session.translate tree).1 = .ok function ∧
          function.nested.map (·.head.name) = ["g"] := by
    decide +kernel
  have hload : (source.load true).runFrom 1 = (.ok tree, ((source.load true).runFrom 1).2) :=
    Prod.ext hload rfl
  exact ⟨tree, _, hload, ⟨function, htranslate, hnested⟩,
    translation_of_program rfl hload session⟩

end FunctionIR
