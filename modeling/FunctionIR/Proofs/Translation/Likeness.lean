import FunctionIR.Proofs.Translation.Outcome

/-!
# Trees that differ in numbers

Two trees are **alike** if they differ in the numbers of their nodes only
(`Like`).  A scalar is alike itself if it equals itself, which all but
one sort of double do.

Nothing in a translation depends on the numbers of a tree.  Alike trees have
the same faults at the places that are visited, and where they are rendered
the fragments are of one shape, with the same places at corresponding nodes
(`Fragment.Alike`).  So two translations of alike trees end alike
(`translateIn_alike`), wherever their counters stand.
-/

namespace FunctionIR

/-- The heads differ at most in their numbers. -/
structure Head.Like (head other : Head) : Prop where
  kind : head.kind = other.kind
  location : head.location = other.location
  span : head.span = other.span

mutual

/-- The values differ at most in the numbers of nodes, and every scalar equals
itself. -/
inductive Like : Value → Value → Prop
  | scalar {s : Scalar} : s.agrees s = true → Like (.scalar s) (.scalar s)
  | foreign (raw : Json) : Like (.foreign raw) (.foreign raw)
  | list {items others : List Value} : ItemsLike items others → Like (.list items) (.list others)
  | node {head other : Head} {fields others : Fields} :
      head.Like other → FieldsLike fields others → Like (.node head fields) (.node other others)

/-- The values are alike one by one. -/
inductive ItemsLike : List Value → List Value → Prop
  | nil : ItemsLike [] []
  | cons {item other : Value} {rest others : List Value} :
      Like item other → ItemsLike rest others → ItemsLike (item :: rest) (other :: others)

/-- The fields have the same names and are alike one by one. -/
inductive FieldsLike : Fields → Fields → Prop
  | nil : FieldsLike [] []
  | cons {name : String} {value other : Value} {rest others : Fields} :
      Like value other → FieldsLike rest others →
      FieldsLike ((name, value) :: rest) ((name, other) :: others)

end

/-! ### What alike values have in common -/

/-- The fields of one name are alike, or there are none. -/
theorem FieldsLike.get? {fields others : Fields} (h : FieldsLike fields others) (name : String) :
    Option.Rel Like (Members.get? name fields) (Members.get? name others) := by
  induction fields generalizing others with
  | nil =>
      cases h
      exact .none
  | cons field fields ih =>
      cases h with
      | @cons key value other _ others hvalue hrest =>
          rw [Members.get?, Members.get?]
          split
          · exact .some hvalue
          · exact ih hrest

/-- Alike values are the same text, if they are one. -/
theorem Like.asText {value other : Value} (h : Like value other) :
    value.asText = other.asText := by
  cases h <;> rfl

/-- A field of alike fields holds the same text. -/
theorem FieldsLike.text {fields others : Fields} (h : FieldsLike fields others) (name : String) :
    (Members.get? name fields).bind Value.asText =
      (Members.get? name others).bind Value.asText := by
  have hget := h.get? name
  generalize Members.get? name fields = found, Members.get? name others = found' at hget ⊢
  cases hget with
  | none => rfl
  | some hvalue => exact hvalue.asText

/-- Alike fields hold the same name. -/
theorem FieldsLike.nameIn {fields others : Fields} (h : FieldsLike fields others) :
    nameIn fields = nameIn others := by
  rw [FunctionIR.nameIn, FunctionIR.nameIn, h.text]

/-! ### Faults -/

/-- Alike heads are malformed in the same words. -/
theorem Head.Like.malformed {head other : Head} (h : head.Like other) (cause : MalformedCause) :
    malformed cause head = malformed cause other := by
  rw [FunctionIR.malformed, FunctionIR.malformed, h.location, h.span]

/-- Alike nodes are malformed in the same way. -/
theorem FieldsLike.formFault {head other : Head} {fields others : Fields}
    (hfields : FieldsLike fields others) (hhead : head.Like other) :
    formFault head fields = formFault other others := by
  have hbody := hfields.get? "body"
  have hname := hfields.text "name"
  rcases other.kind.by_rule with hkind | hkind | hkind
  · simp only [FunctionIR.formFault, hhead.kind, hkind, hhead.malformed]
    generalize Members.get? "body" fields = body, Members.get? "body" others = body' at hbody ⊢
    cases hbody with
    | none => rfl
    | some hvalue =>
        cases hvalue with
        | scalar | foreign | node => rfl
        | list hitems => cases hitems <;> rfl
  · simp only [FunctionIR.formFault, hhead.kind, hkind, functionForm, hhead.malformed, hname]
    generalize Members.get? "body" fields = body, Members.get? "body" others = body' at hbody ⊢
    cases hbody with
    | none => rfl
    | some hvalue =>
        cases hvalue with
        | scalar | foreign | node => rfl
        | list => cases (Members.get? "name" others).bind Value.asText <;> rfl
  · rw [formFault_generic hkind, formFault_generic (hhead.kind ▸ hkind)]

/-- The faults of the values that the steps look at. -/
def faults (limit : Nat) (steps : List Step) : List (Option Fault) :=
  (visits steps).map (Visit.fault limit)

theorem faults_append (limit : Nat) (steps more : List Step) :
    faults limit (steps ++ more) = faults limit steps ++ faults limit more := by
  simp [faults, visits]

theorem faults_visit (limit : Nat) (v : Visit) (steps : List Step) :
    faults limit (.visit v :: steps) = v.fault limit :: faults limit steps := rfl

theorem faults_make (limit : Nat) (head : Head) (steps : List Step) :
    faults limit (.make head :: steps) = faults limit steps := rfl

theorem faults_enter (limit : Nat) (name : String) (steps : List Step) :
    faults limit (.enter name :: steps) = faults limit steps := rfl

theorem faults_leave (limit : Nat) (name : String) (steps : List Step) :
    faults limit (.leave name :: steps) = faults limit steps := rfl

mutual

/-- **Alike values have the same faults.** -/
theorem faults_course (limit depth : Nat) : (value : Value) → {other : Value} →
    Like value other → faults limit (course depth value) = faults limit (course depth other)
  | .scalar _, _, h => by
      cases h
      rfl
  | .foreign _, _, h => by
      cases h
      rfl
  | .list items, _, h => by
      cases h with
      | list hitems =>
          rw [course, course, faults_visit, faults_visit,
            faults_courseOfItems limit depth items hitems]
          rfl
  | .node head fields, _, h => by
      cases h with
      | @node _ other _ others hhead hfields =>
          have hfault : Visit.fault limit ⟨depth, none, .node head fields⟩ =
              Visit.fault limit ⟨depth, none, .node other others⟩ := by
            simp only [Visit.fault, hhead.location, hfields.formFault hhead]
          rcases other.kind.by_rule with hkind | hkind | hkind
          · rw [course_module (hhead.kind.trans hkind), course_module hkind, faults_visit,
              faults_visit, hfault, faults_courseOfFirst limit (depth + 1) fields hfields]
          · rw [course_function (hhead.kind.trans hkind), course_function hkind, faults_visit,
              faults_visit, hfault]
            simp only [faults_append, List.cons_append, List.nil_append, faults_make,
              faults_enter, faults_leave, faults_courseOfField limit (depth + 1) _ fields hfields,
              faults_courseOfBody limit (depth + 1) fields hfields]
          · rw [course_generic (hhead.kind ▸ hkind), course_generic hkind, faults_visit,
              faults_visit, hfault, faults_make, faults_make,
              faults_courseOfFields limit (depth + 1) hhead fields hfields]
termination_by structural value => value

theorem faults_courseOfItems (limit depth : Nat) : (items : List Value) → {others : List Value} →
    ItemsLike items others →
    faults limit (courseOfItems depth items) = faults limit (courseOfItems depth others)
  | [], _, h => by
      cases h
      rfl
  | item :: rest, _, h => by
      cases h with
      | cons hitem hrest =>
          rw [courseOfItems, courseOfItems, faults_append, faults_append,
            faults_course limit depth item hitem, faults_courseOfItems limit depth rest hrest]
termination_by structural items => items

theorem faults_courseOfFields (limit depth : Nat) {owner owner' : Head}
    (howner : owner.Like owner') : (fields : Fields) → {others : Fields} → FieldsLike fields others →
    faults limit (courseOfFields depth owner fields) =
      faults limit (courseOfFields depth owner' others)
  | [], _, h => by
      cases h
      rfl
  | (name, value) :: rest, _, h => by
      cases h with
      | cons hvalue hrest =>
          have ih := faults_courseOfFields limit depth howner rest hrest
          have hcourse := faults_course limit depth value hvalue
          cases hvalue with
          | foreign raw =>
              rw [courseOfFields, courseOfFields, faults_visit, faults_visit, ih]
              simp only [Visit.fault, howner.kind, howner.location, howner.span]
          | scalar | list | node =>
              rw [courseOfFields, courseOfFields, faults_append, faults_append, ih, hcourse]
              all_goals nofun
termination_by structural fields => fields

theorem faults_courseOfField (limit depth : Nat) (name : String) : (fields : Fields) →
    {others : Fields} → FieldsLike fields others →
    faults limit (courseOfField depth name fields) =
      faults limit (courseOfField depth name others)
  | [], _, h => by
      cases h
      rfl
  | (key, value) :: rest, _, h => by
      cases h with
      | cons hvalue hrest =>
          rw [courseOfField, courseOfField]
          split
          · exact faults_course limit depth value hvalue
          · exact faults_courseOfField limit depth name rest hrest
termination_by structural fields => fields

theorem faults_courseOfBody (limit depth : Nat) : (fields : Fields) → {others : Fields} →
    FieldsLike fields others →
    faults limit (courseOfBody depth fields) = faults limit (courseOfBody depth others)
  | [], _, h => by
      cases h
      rfl
  | (key, .list items) :: rest, _, h => by
      cases h with
      | cons hvalue hrest =>
          cases hvalue with
          | list hitems =>
              simp only [courseOfBody]
              split
              · exact faults_courseOfItems limit depth items hitems
              · exact faults_courseOfBody limit depth rest hrest
  | (key, .scalar _) :: rest, _, h | (key, .node _ _) :: rest, _, h
  | (key, .foreign _) :: rest, _, h => by
      cases h with
      | cons hvalue hrest =>
          cases hvalue
          simp only [courseOfBody]
          split
          · rfl
          · exact faults_courseOfBody limit depth rest hrest
termination_by structural fields => fields

theorem faults_courseOfFirst (limit depth : Nat) : (fields : Fields) → {others : Fields} →
    FieldsLike fields others →
    faults limit (courseOfFirst depth fields) = faults limit (courseOfFirst depth others)
  | [], _, h => by
      cases h
      rfl
  | (key, .list (first :: _)) :: rest, _, h => by
      cases h with
      | cons hvalue hrest =>
          cases hvalue with
          | list hitems =>
              cases hitems with
              | cons hfirst _ =>
                  simp only [courseOfFirst]
                  split
                  · exact faults_course limit depth first hfirst
                  · exact faults_courseOfFirst limit depth rest hrest
  | (key, .list []) :: rest, _, h => by
      cases h with
      | cons hvalue hrest =>
          cases hvalue with
          | list hitems =>
              cases hitems
              simp only [courseOfFirst]
              split
              · rfl
              · exact faults_courseOfFirst limit depth rest hrest
  | (key, .scalar _) :: rest, _, h | (key, .node _ _) :: rest, _, h
  | (key, .foreign _) :: rest, _, h => by
      cases h with
      | cons hvalue hrest =>
          cases hvalue
          simp only [courseOfFirst]
          split
          · rfl
          · exact faults_courseOfFirst limit depth rest hrest
termination_by structural fields => fields

end

/-! ### Fragments -/

/-- The locations of nodes. -/
def places (heads : List Head) : List (Option Location) := heads.map Head.location

theorem places_append (heads more : List Head) :
    places (heads ++ more) = places heads ++ places more := List.map_append

/-- The fragments have the same shape and description, and corresponding nodes
have the same places. -/
structure Fragment.Alike (fragment other : Fragment) : Prop where
  shape : fragment.sameShape other = true
  places : places fragment.heads = places other.heads
  description : fragment.description = other.description

/-- The fragments are of the same shapes and places, one by one. -/
structure Fragment.AllAlike (items others : List Fragment) : Prop where
  shapes : Fragment.sameShapes items others = true
  places : places (headsOfList items) = places (headsOfList others)

/-- The named fragments are of the same names, shapes and places, one by
one. -/
structure Fragment.FieldsAlike (fields others : List (String × Fragment)) : Prop where
  shapes : Fragment.sameFields fields others = true
  places : places (headsOfFields fields) = places (headsOfFields others)

namespace Fragment

theorem alike_scalar {s : Scalar} (h : s.agrees s = true) : Alike (.scalar s) (.scalar s) :=
  ⟨by rw [sameShape, h], rfl, rfl⟩

theorem alike_none : Alike (.scalar .none) (.scalar .none) := alike_scalar rfl

theorem allAlike_nil : AllAlike [] [] := ⟨rfl, rfl⟩

/-- The first fragment and the others. -/
theorem Alike.cons {item other : Fragment} {rest others : List Fragment} (h : item.Alike other)
    (hrest : AllAlike rest others) : AllAlike (item :: rest) (other :: others) :=
  ⟨by rw [sameShapes, h.shape, hrest.shapes]; rfl,
    by rw [headsOfList, headsOfList, places_append, places_append, h.places, hrest.places]⟩

theorem fieldsAlike_nil : FieldsAlike [] [] := ⟨rfl, rfl⟩

/-- The first field and the others. -/
theorem Alike.field {value other : Fragment} {rest others : List (String × Fragment)}
    (h : value.Alike other) (name : String) (hrest : FieldsAlike rest others) :
    FieldsAlike ((name, value) :: rest) ((name, other) :: others) :=
  ⟨by rw [sameFields, h.shape, hrest.shapes]; simp,
    by rw [headsOfFields, headsOfFields, places_append, places_append, h.places, hrest.places]⟩

/-- Lists of alike fragments. -/
theorem AllAlike.list {items others : List Fragment} (h : AllAlike items others) :
    Alike (.list items) (.list others) :=
  ⟨by rw [sameShape, h.shapes], by rw [heads, heads, h.places], rfl⟩

/-- Nodes with alike heads and fields, whatever their numbers. -/
theorem FieldsAlike.node {head other : Head} {fields others : List (String × Fragment)}
    (h : FieldsAlike fields others) (hhead : head.Like other) (id id' : Nat) :
    Alike (.node id head fields) (.node id' other others) :=
  ⟨by rw [sameShape, h.shapes, hhead.kind]; simp,
    by rw [heads, heads, FunctionIR.places, FunctionIR.places, List.map_cons, List.map_cons,
        hhead.location, ← FunctionIR.places, ← FunctionIR.places, h.places],
    by rw [description, description, hhead.kind]⟩

/-- Functions of one name and place, in one scope, with alike parts. -/
theorem alike_function {a b : FunctionHead}
    {decorators decorators' arguments arguments' returns returns' : Fragment}
    {body body' : List Fragment} (hname : a.name = b.name)
    (hqualified : a.qualifiedName = b.qualifiedName) (hline : a.line = b.line)
    (hcolumn : a.column = b.column) (horigin : a.origin.location = b.origin.location)
    (hdecorators : Alike decorators decorators') (harguments : Alike arguments arguments')
    (hreturns : Alike returns returns') (hbody : AllAlike body body') :
    Alike (.function a decorators arguments returns body)
      (.function b decorators' arguments' returns' body') where
  shape := by
    simp only [sameShape, hname, hqualified, hline, hcolumn, beq_self_eq_true, Bool.true_and,
      hdecorators.shape, harguments.shape, hreturns.shape, hbody.shapes]
  places := by
    have hhere : FunctionIR.places [a.origin] = FunctionIR.places [b.origin] := by
      simp only [FunctionIR.places, List.map_cons, List.map_nil, horigin]
    rw [heads, heads, ← List.singleton_append, ← @List.singleton_append _ b.origin]
    simp only [places_append, hhere, hdecorators.places, harguments.places, hreturns.places,
      hbody.places]
  description := by rw [description, description, hname]

end Fragment

open Fragment (Alike AllAlike FieldsAlike)

mutual

/-- **Alike values are rendered alike**, whatever the numbers. -/
theorem rendered_alike (scope : Scope) (id id' : Nat) : (value : Value) → {other : Value} →
    Like value other → Alike (rendered scope id value).1 (rendered scope id' other).1
  | .scalar _, _, h => by
      cases h with
      | scalar hs => exact Fragment.alike_scalar hs
  | .foreign _, _, h => by
      cases h
      exact Fragment.alike_none
  | .list items, _, h => by
      cases h with
      | list hitems => exact (renderedItems_alike scope id id' items hitems).list
  | .node head fields, _, h => by
      cases h with
      | @node _ other _ others hhead hfields =>
          rcases other.kind.by_rule with hkind | hkind | hkind
          · rw [rendered_module (hhead.kind.trans hkind), rendered_module hkind]
            exact renderedFirst_alike scope id id' fields hfields
          · rw [rendered_function (hhead.kind.trans hkind), rendered_function hkind]
            have hplace : (functionHead scope 0 head fields).line =
                  (functionHead scope 0 other others).line ∧
                (functionHead scope 0 head fields).column =
                  (functionHead scope 0 other others).column := by
              simp only [functionHead, hhead.location, and_self]
            rw [hfields.nameIn]
            exact Fragment.alike_function hfields.nameIn rfl hplace.1 hplace.2 hhead.location
              (renderedField_alike scope _ _ _ Fragment.allAlike_nil.list fields hfields)
              (renderedField_alike scope _ _ _ Fragment.alike_none fields hfields)
              (renderedField_alike scope _ _ _ Fragment.alike_none fields hfields)
              (renderedBody_alike _ _ _ fields hfields)
          · rw [rendered_generic (hhead.kind ▸ hkind), rendered_generic hkind]
            exact (renderedFields_alike scope (id + 1) (id' + 1) fields hfields).node hhead id id'
termination_by structural value => value

theorem renderedItems_alike (scope : Scope) (id id' : Nat) : (items : List Value) →
    {others : List Value} → ItemsLike items others →
    AllAlike (renderedItems scope id items).1 (renderedItems scope id' others).1
  | [], _, h => by
      cases h
      exact Fragment.allAlike_nil
  | item :: rest, _, h => by
      cases h with
      | cons hitem hrest =>
          exact (rendered_alike scope id id' item hitem).cons
            (renderedItems_alike scope _ _ rest hrest)
termination_by structural items => items

theorem renderedFields_alike (scope : Scope) (id id' : Nat) : (fields : Fields) →
    {others : Fields} → FieldsLike fields others →
    FieldsAlike (renderedFields scope id fields).1 (renderedFields scope id' others).1
  | [], _, h => by
      cases h
      exact Fragment.fieldsAlike_nil
  | (name, value) :: rest, _, h => by
      cases h with
      | cons hvalue hrest =>
          exact (rendered_alike scope id id' value hvalue).field name
            (renderedFields_alike scope _ _ rest hrest)
termination_by structural fields => fields

theorem renderedField_alike (scope : Scope) (id id' : Nat) (name : String) {absent : Fragment}
    (habsent : Alike absent absent) : (fields : Fields) → {others : Fields} →
    FieldsLike fields others →
    Alike (renderedField scope id name absent fields).1
      (renderedField scope id' name absent others).1
  | [], _, h => by
      cases h
      exact habsent
  | (key, value) :: rest, _, h => by
      cases h with
      | cons hvalue hrest =>
          rw [renderedField, renderedField]
          split
          · exact rendered_alike scope id id' value hvalue
          · exact renderedField_alike scope id id' name habsent rest hrest
termination_by structural fields => fields

theorem renderedBody_alike (scope : Scope) (id id' : Nat) : (fields : Fields) →
    {others : Fields} → FieldsLike fields others →
    AllAlike (renderedBody scope id fields).1 (renderedBody scope id' others).1
  | [], _, h => by
      cases h
      exact Fragment.allAlike_nil
  | (key, .list items) :: rest, _, h => by
      cases h with
      | cons hvalue hrest =>
          cases hvalue with
          | list hitems =>
              simp only [renderedBody]
              split
              · exact renderedItems_alike scope id id' items hitems
              · exact renderedBody_alike scope id id' rest hrest
  | (key, .scalar _) :: rest, _, h | (key, .node _ _) :: rest, _, h
  | (key, .foreign _) :: rest, _, h => by
      cases h with
      | cons hvalue hrest =>
          cases hvalue
          simp only [renderedBody]
          split
          · exact Fragment.allAlike_nil
          · exact renderedBody_alike scope id id' rest hrest
termination_by structural fields => fields

theorem renderedFirst_alike (scope : Scope) (id id' : Nat) : (fields : Fields) →
    {others : Fields} → FieldsLike fields others →
    Alike (renderedFirst scope id fields).1 (renderedFirst scope id' others).1
  | [], _, h => by
      cases h
      exact Fragment.alike_none
  | (key, .list (first :: _)) :: rest, _, h => by
      cases h with
      | cons hvalue hrest =>
          cases hvalue with
          | list hitems =>
              cases hitems with
              | cons hfirst _ =>
                  simp only [renderedFirst]
                  split
                  · exact rendered_alike scope id id' first hfirst
                  · exact renderedFirst_alike scope id id' rest hrest
  | (key, .list []) :: rest, _, h => by
      cases h with
      | cons hvalue hrest =>
          cases hvalue with
          | list hitems =>
              cases hitems
              simp only [renderedFirst]
              split
              · exact Fragment.alike_none
              · exact renderedFirst_alike scope id id' rest hrest
  | (key, .scalar _) :: rest, _, h | (key, .node _ _) :: rest, _, h
  | (key, .foreign _) :: rest, _, h => by
      cases h with
      | cons hvalue hrest =>
          cases hvalue
          simp only [renderedFirst]
          split
          · exact Fragment.alike_none
          · exact renderedFirst_alike scope id id' rest hrest
termination_by structural fields => fields

end

/-! ### Shapes in common -/

/-- Numbers that equal a third equal each other. -/
theorem Binary64.numEq_of_common {x y z : Binary64} (h : x.numEq z = true)
    (h' : y.numEq z = true) : x.numEq y = true := by
  simp only [numEq, Bool.and_eq_true, Bool.or_eq_true, beq_iff_eq] at h h' ⊢
  refine ⟨⟨h.1.1, h'.1.1⟩, ?_⟩
  rcases h.2 with rfl | ⟨hx, hz⟩ <;> rcases h'.2 with rfl | ⟨hy, hz'⟩
  · exact .inl rfl
  · exact .inr ⟨hz', hy⟩
  · exact .inr ⟨hx, hz⟩
  · exact .inr ⟨hx, hy⟩

/-- Scalars that agree with a third agree with each other. -/
theorem Scalar.agrees_of_common {a b c : Scalar} (h : a.agrees c = true)
    (h' : b.agrees c = true) : a.agrees b = true := by
  cases c <;> cases a <;> simp only [agrees, Bool.false_eq_true] at h <;>
    cases b <;> simp only [agrees, Bool.false_eq_true] at h' ⊢
  case real => exact Binary64.numEq_of_common h h'
  all_goals simp_all

namespace Fragment

mutual

/-- Fragments of the shape of a third are of one shape. -/
theorem sameShape_of_common : (a : Fragment) → {b c : Fragment} → a.sameShape c = true →
    b.sameShape c = true → a.sameShape b = true
  | .scalar _, b, c, h, h' => by
      cases c <;> simp only [sameShape, Bool.false_eq_true] at h
      cases b <;> simp only [sameShape, Bool.false_eq_true] at h' ⊢
      exact Scalar.agrees_of_common h h'
  | .list items, b, c, h, h' => by
      cases c <;> simp only [sameShape, Bool.false_eq_true] at h
      cases b <;> simp only [sameShape, Bool.false_eq_true] at h' ⊢
      exact sameShapes_of_common items h h'
  | .node _ _ fields, b, c, h, h' => by
      cases c <;> simp only [sameShape, Bool.false_eq_true, Bool.and_eq_true, beq_iff_eq] at h
      cases b <;> simp only [sameShape, Bool.false_eq_true, Bool.and_eq_true, beq_iff_eq] at h' ⊢
      exact ⟨h.1.trans h'.1.symm, sameFields_of_common fields h.2 h'.2⟩
  | .function _ decorators arguments returns body, b, c, h, h' => by
      cases c <;> simp only [sameShape, Bool.false_eq_true, Bool.and_eq_true, beq_iff_eq] at h
      cases b <;> simp only [sameShape, Bool.false_eq_true, Bool.and_eq_true, beq_iff_eq] at h' ⊢
      obtain ⟨⟨⟨⟨⟨⟨⟨hname, hqualified⟩, hline⟩, hcolumn⟩, harguments⟩, hdecorators⟩, hreturns⟩,
        hbody⟩ := h
      obtain ⟨⟨⟨⟨⟨⟨⟨hname', hqualified'⟩, hline'⟩, hcolumn'⟩, harguments'⟩, hdecorators'⟩,
        hreturns'⟩, hbody'⟩ := h'
      exact ⟨⟨⟨⟨⟨⟨⟨hname.trans hname'.symm, hqualified.trans hqualified'.symm⟩,
        hline.trans hline'.symm⟩, hcolumn.trans hcolumn'.symm⟩,
        sameShape_of_common arguments harguments harguments'⟩,
        sameShape_of_common decorators hdecorators hdecorators'⟩,
        sameShape_of_common returns hreturns hreturns'⟩, sameShapes_of_common body hbody hbody'⟩

theorem sameShapes_of_common : (as : List Fragment) → {bs cs : List Fragment} →
    sameShapes as cs = true → sameShapes bs cs = true → sameShapes as bs = true
  | [], bs, cs, h, h' => by
      cases cs <;> simp only [sameShapes, Bool.false_eq_true] at h
      cases bs <;> simp only [sameShapes, Bool.false_eq_true] at h' ⊢
  | a :: as, bs, cs, h, h' => by
      cases cs <;> simp only [sameShapes, Bool.false_eq_true, Bool.and_eq_true] at h
      cases bs <;> simp only [sameShapes, Bool.false_eq_true, Bool.and_eq_true] at h' ⊢
      exact ⟨sameShape_of_common a h.1 h'.1, sameShapes_of_common as h.2 h'.2⟩

theorem sameFields_of_common : (as : List (String × Fragment)) →
    {bs cs : List (String × Fragment)} → sameFields as cs = true → sameFields bs cs = true →
    sameFields as bs = true
  | [], bs, cs, h, h' => by
      cases cs <;> simp only [sameFields, Bool.false_eq_true] at h
      cases bs <;> simp only [sameFields, Bool.false_eq_true] at h' ⊢
  | (_, a) :: as, bs, cs, h, h' => by
      cases cs <;>
        simp only [sameFields, Bool.false_eq_true, Bool.and_eq_true, beq_iff_eq] at h
      cases bs <;>
        simp only [sameFields, Bool.false_eq_true, Bool.and_eq_true, beq_iff_eq] at h' ⊢
      exact ⟨⟨h.1.1.trans h'.1.1.symm, sameShape_of_common a h.1.2 h'.1.2⟩,
        sameFields_of_common as h.2 h'.2⟩

end

end Fragment

/-! ### Outcomes -/

/-- The nodes differ at most in numbers. -/
structure Node.Like (node other : Node) : Prop where
  head : node.head.Like other.head
  fields : FieldsLike node.fields other.fields

/-- Alike nodes are alike as values. -/
theorem Node.Like.toValue {node other : Node} (h : node.Like other) :
    FunctionIR.Like node.toValue other.toValue := .node h.head h.fields

/-- Two translations end in the same fault or in functions that are alike. -/
inductive EndAlike : Except Fault Function → Except Fault Function → Prop
  | ok {function other : Function} :
      Alike function.toFragment other.toFragment → EndAlike (.ok function) (.ok other)
  | error (fault : Fault) : EndAlike (.error fault) (.error fault)

/-- Of alike fragments both are functions or none is. -/
theorem Fragment.Alike.asFunction {fragment other : Fragment} (h : fragment.Alike other) :
    (∃ function function', fragment.asFunction = some function ∧
        other.asFunction = some function' ∧ Alike function.toFragment function'.toFragment) ∨
      (fragment.asFunction = none ∧ other.asFunction = none) := by
  have hshape := h.shape
  cases fragment <;> cases other <;> simp only [sameShape, Bool.false_eq_true] at hshape
  · exact .inl ⟨_, _, rfl, rfl, h⟩
  all_goals exact .inr ⟨rfl, rfl⟩

/-- **Translations of alike trees end alike**, in the same scope and with the
same bound on depth, whatever else differs. -/
theorem translateIn_alike {session other : Session} {tree tree' : Node} (h : tree.Like tree')
    (hlimit : session.config.maxDepth = other.config.maxDepth)
    (hscope : session.translator.scope = other.translator.scope) :
    EndAlike (session.translateIn tree).1 (other.translateIn tree').1 := by
  have hfault : (follow session.config.maxDepth (course 0 tree.toValue) session.translator).1 =
      (follow other.config.maxDepth (course 0 tree'.toValue) other.translator).1 := by
    have hfaults := faults_course other.config.maxDepth 0 tree.toValue h.toValue
    have hfind (limit : Nat) (steps : List Step) :
        (visits steps).findSome? (Visit.fault limit) = (faults limit steps).findSome? id := by
      rw [faults, List.findSome?_map, Function.id_comp]
    rw [follow_fault, follow_fault, hlimit, hfind, hfind, hfaults]
  have hrendered := rendered_alike other.translator.scope session.translator.nextId
    other.translator.nextId tree.toValue h.toValue
  rw [(Session.translateIn_run tree).1, (Session.translateIn_run tree').1, run_translateTree,
    run_translateTree, hscope]
  generalize follow session.config.maxDepth (course 0 tree.toValue) session.translator = followed,
    follow other.config.maxDepth (course 0 tree'.toValue) other.translator = followed'
    at hfault ⊢
  obtain ⟨refused, after⟩ := followed
  obtain ⟨refused', after'⟩ := followed'
  simp only at hfault
  subst hfault
  cases refused with
  | some fault => exact .error fault
  | none =>
      rcases hrendered.asFunction with ⟨function, function', hf, hf', halike⟩ | ⟨hf, hf'⟩
      · simp only [hf, hf']
        exact .ok halike
      · simp only [hf, hf', hrendered.description, h.head.malformed]
        exact .error _

/-! ### Moving lines -/

/-- Alike heads are alike after the same shift. -/
theorem Head.Like.shift {head other : Head} (h : head.Like other) (delta : Int) :
    (head.shift delta).Like (other.shift delta) :=
  ⟨h.kind, by rw [Head.shift, Head.shift, h.location], by rw [Head.shift, Head.shift, h.span]⟩

mutual

/-- Alike values are moved to alike values. -/
theorem like_shift (delta : Int) : (value : Value) → {other : Value} → Like value other →
    Like (value.shift delta) (other.shift delta)
  | .scalar _, _, h => by
      cases h with
      | scalar hs => exact .scalar hs
  | .foreign _, _, h => by
      cases h
      exact .foreign _
  | .list items, _, h => by
      cases h with
      | list hitems => exact .list (itemsLike_shift delta items hitems)
  | .node _ fields, _, h => by
      cases h with
      | node hhead hfields =>
          exact .node (hhead.shift delta) (fieldsLike_shift delta fields hfields)
termination_by structural value => value

theorem itemsLike_shift (delta : Int) : (items : List Value) → {others : List Value} →
    ItemsLike items others →
    ItemsLike (Value.shiftItems delta items) (Value.shiftItems delta others)
  | [], _, h => by
      cases h
      exact .nil
  | item :: rest, _, h => by
      cases h with
      | cons hitem hrest =>
          exact .cons (like_shift delta item hitem) (itemsLike_shift delta rest hrest)
termination_by structural items => items

theorem fieldsLike_shift (delta : Int) : (fields : Fields) → {others : Fields} →
    FieldsLike fields others →
    FieldsLike (Value.shiftFields delta fields) (Value.shiftFields delta others)
  | [], _, h => by
      cases h
      exact .nil
  | (_, value) :: rest, _, h => by
      cases h with
      | cons hvalue hrest =>
          exact .cons (like_shift delta value hvalue) (fieldsLike_shift delta rest hrest)
termination_by structural fields => fields

end

/-- Alike trees are alike after the same shift. -/
theorem Node.Like.shift {node other : Node} (h : node.Like other) (delta : Int) :
    (node.shift delta).Like (other.shift delta) :=
  ⟨h.head.shift delta, fieldsLike_shift delta _ h.fields⟩

/-- Related options go on to related options. -/
theorem rel_bind {α β γ δ : Type} {R : α → β → Prop} {S : γ → δ → Prop} {a : Option α}
    {b : Option β} {f : α → Option γ} {g : β → Option δ} (h : Option.Rel R a b)
    (hnext : ∀ x y, R x y → Option.Rel S (f x) (g y)) : Option.Rel S (a.bind f) (b.bind g) := by
  cases h with
  | none => exact .none
  | some h => exact hnext _ _ h

/-- Alike values are alike as nodes, if they are some. -/
theorem Like.asNode {value other : Value} (h : Like value other) :
    Option.Rel Node.Like value.asNode other.asNode := by
  cases h with
  | node hhead hfields => exact .some ⟨hhead, hfields⟩
  | scalar | foreign | list => exact .none

/-- Alike nodes have alike lists. -/
theorem Node.Like.listField? {node other : Node} (h : node.Like other) (name : String) :
    Option.Rel ItemsLike (node.listField? name) (other.listField? name) := by
  refine rel_bind (h.fields.get? name) fun value value' hvalue => ?_
  cases hvalue with
  | list hitems => exact .some hitems
  | scalar | foreign | node => exact .none

/-- Alike nodes are on the same line. -/
theorem Node.Like.line? {node other : Node} (h : node.Like other) : node.line? = other.line? := by
  rw [Node.line?, Node.line?, h.head.location]

/-- The nodes of alike values have the same lines. -/
theorem ItemsLike.lines {items others : List Value} (h : ItemsLike items others) :
    (items.filterMap Value.asNode).filterMap Node.line? =
      (others.filterMap Value.asNode).filterMap Node.line? := by
  induction items generalizing others with
  | nil =>
      cases h
      rfl
  | cons item rest ih =>
      cases h with
      | @cons _ other _ others hitem hrest =>
          have hnode := hitem.asNode
          rw [List.filterMap_cons, List.filterMap_cons]
          generalize item.asNode = node, other.asNode = node' at hnode ⊢
          cases hnode with
          | none => exact ih hrest
          | some hnode => simp only [List.filterMap_cons, hnode.line?, ih hrest]

/-- Alike trees have alike leading functions. -/
theorem Node.Like.leadingFunction {tree other : Node} (h : tree.Like other) :
    Option.Rel Node.Like tree.leadingFunction other.leadingFunction := by
  have hfunction (node node' : Node) (hnode : node.Like node') :
      Option.Rel Node.Like (if node.head.kind = .functionDef then some node else none)
        (if node'.head.kind = .functionDef then some node' else none) := by
    rw [hnode.head.kind]
    split
    · exact .some hnode
    · exact .none
  rw [Node.leadingFunction, Node.leadingFunction, h.head.kind]
  split
  · exact hfunction _ _ h
  · refine rel_bind (h.listField? "body") fun items others hitems => ?_
    cases hitems with
    | nil => exact .none
    | cons hfirst _ =>
        exact rel_bind (.some hfirst) fun _ _ hvalue => rel_bind hvalue.asNode hfunction
  · exact .none

/-- Alike trees have their decorators discounted by the same lines. -/
theorem Node.Like.decoratorOffset {tree other : Node} (h : tree.Like other) :
    tree.decoratorOffset = other.decoratorOffset := by
  have hleading := h.leadingFunction
  rw [Node.decoratorOffset, Node.decoratorOffset]
  generalize tree.leadingFunction = function, other.leadingFunction = function' at hleading ⊢
  cases hleading with
  | none => rfl
  | @some function function' hfunction =>
      have hlist := hfunction.listField? "decorator_list"
      simp only [Option.bind_eq_bind, Option.bind_some, hfunction.line?]
      generalize function.listField? "decorator_list" = items,
        function'.listField? "decorator_list" = items' at hlist ⊢
      cases hlist with
      | none => rfl
      | some hitems => simp only [Option.bind_some, hitems.lines]

/-- Alike trees are prepared alike. -/
theorem Node.Like.prepare {tree other : Node} (h : tree.Like other) (discount : Bool) :
    (tree.prepare discount).Like (other.prepare discount) := by
  unfold Node.prepare
  rw [h.decoratorOffset]
  split
  · exact h.shift _
  · exact h

end FunctionIR
