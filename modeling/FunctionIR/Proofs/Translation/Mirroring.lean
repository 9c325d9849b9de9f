import FunctionIR.Proofs.Translation.Outcome
import FunctionIR.Proofs.Translation.Parts
import FunctionIR.Proofs.Translation.Program
import FunctionIR.Proofs.Tree.Paths
import Mathlib.Data.List.Nodup
import Mathlib.Data.List.Perm.Subperm

/-!
# Fragments mirror values

A fragment that comes out of a translation **mirrors** the value that went in
(`MirroredBy`): leaves are the same, lists and fields are mirrored one by one and
in order, a module is mirrored by what mirrors its first statement, and a function
definition by a function with its name, its place, and the mirrors of its
decorators, its parameters, its return annotation and the statements of its body.

So no part of the value is lost that the translation goes to (`Value.Keeps`):
what mirrors it is in the fragment, and if no module and no function definition
is in the part, it can be built again from what mirrors it, up to numbers and
places (`Fragment.rebuilt`).  What the translation does not go to is what a module
has besides its first statement, and what a function definition has in fields of
other names.  That is lost (`second_statement_lost`).

Nothing is there twice either: the nodes that the fragment comes from are among
the nodes of the value, each as often at most as it is there.
-/

namespace FunctionIR

/-! ### Mirrors -/

mutual

/-- The fragment mirrors the value. -/
inductive MirroredBy : Value → Fragment → Prop
  | scalar (s : Scalar) : MirroredBy (.scalar s) (.scalar s)
  | list {items : List Value} {fragments : List Fragment} :
      ItemsMirroredBy items fragments → MirroredBy (.list items) (.list fragments)
  /-- A module is mirrored by its first statement. -/
  | module {head : Head} {fields : Fields} {first : Value} {rest : List Value}
      {fragment : Fragment} :
      head.kind = .module → Members.get? "body" fields = some (.list (first :: rest)) →
      MirroredBy first fragment → MirroredBy (.node head fields) fragment
  /-- A function definition is mirrored by a function. -/
  | function {head : Head} {fields : Fields} {statements : List Value} {g : FunctionHead}
      {decorators arguments returns : Fragment} {body : List Fragment} :
      head.kind = .functionDef →
      Members.get? "name" fields = some (.str g.name) →
      g.line = (head.location.map Location.line).getD 0 →
      g.column = (head.location.map Location.column).getD 0 →
      g.origin = head →
      MirroredBy ((Members.get? "decorator_list" fields).getD (.list [])) decorators →
      MirroredBy ((Members.get? "args" fields).getD .absent) arguments →
      MirroredBy ((Members.get? "returns" fields).getD .absent) returns →
      Members.get? "body" fields = some (.list statements) →
      ItemsMirroredBy statements body →
      MirroredBy (.node head fields) (.function g decorators arguments returns body)
  /-- Any other node is mirrored by a generic node. -/
  | generic {head : Head} {fields : Fields} {id : Nat} {fragments : List (String × Fragment)} :
      head.kind.Generic → FieldsMirroredBy fields fragments →
      MirroredBy (.node head fields) (.node id head fragments)

/-- The fragments mirror the values one by one. -/
inductive ItemsMirroredBy : List Value → List Fragment → Prop
  | nil : ItemsMirroredBy [] []
  | cons {item : Value} {rest : List Value} {fragment : Fragment} {fragments : List Fragment} :
      MirroredBy item fragment → ItemsMirroredBy rest fragments →
      ItemsMirroredBy (item :: rest) (fragment :: fragments)

/-- The names are the same, and the fragments mirror the values one by one. -/
inductive FieldsMirroredBy : Fields → List (String × Fragment) → Prop
  | nil : FieldsMirroredBy [] []
  | cons {name : String} {value : Value} {rest : Fields} {fragment : Fragment}
      {fragments : List (String × Fragment)} :
      MirroredBy value fragment → FieldsMirroredBy rest fragments →
      FieldsMirroredBy ((name, value) :: rest) ((name, fragment) :: fragments)

end

/-! ### What is rendered mirrors what it is rendered from -/

/-- No value that the steps look at is refused. -/
def Unrefused (limit : Nat) (steps : List Step) : Prop :=
  ∀ visit ∈ visits steps, visit.fault limit = none

section

variable {limit : Nat}

/-- No step is refused exactly if the course can be followed to its end. -/
theorem unrefused_iff_follow {steps : List Step} (t : Translator) :
    Unrefused limit steps ↔ (follow limit steps t).1 = none := by
  rw [follow_fault, List.findSome?_eq_none_iff, Unrefused]

theorem unrefused_append {steps more : List Step} :
    Unrefused limit (steps ++ more) ↔ Unrefused limit steps ∧ Unrefused limit more := by
  rw [Unrefused, visits_append, List.forall_mem_append]
  rfl

theorem unrefused_visit {v : Visit} {steps : List Step} :
    Unrefused limit (.visit v :: steps) ↔ v.fault limit = none ∧ Unrefused limit steps := by
  rw [Unrefused, visits_visit, List.forall_mem_cons]
  rfl

/-- A value is mirrored by what it is rendered to, wherever it is not refused. -/
def Value.IsMirrored (limit : Nat) (value : Value) : Prop :=
  ∀ depth scope id, Unrefused limit (course depth value) →
    MirroredBy value (rendered scope id value).1

theorem itemsMirroredBy_rendered {items : List Value} (h : ∀ item ∈ items, item.IsMirrored limit)
    (depth : Nat) (scope : Scope) (id : Nat) (hitems : Unrefused limit (courseOfItems depth items)) :
    ItemsMirroredBy items (renderedItems scope id items).1 := by
  induction items generalizing id with
  | nil => exact .nil
  | cons item rest ih =>
      obtain ⟨hitem, hrest⟩ := List.forall_mem_cons.mp h
      rw [courseOfItems, unrefused_append] at hitems
      rw [renderedItems]
      exact .cons (hitem depth scope id hitems.1) (ih hrest _ hitems.2)

theorem fieldsMirroredBy_rendered {fields : Fields} (h : ∀ field ∈ fields, field.2.IsMirrored limit)
    (depth : Nat) (owner : Head) (scope : Scope) (id : Nat)
    (hfields : Unrefused limit (courseOfFields depth owner fields)) :
    FieldsMirroredBy fields (renderedFields scope id fields).1 := by
  induction fields generalizing id with
  | nil => exact .nil
  | cons field rest ih =>
      obtain ⟨hfield, hrest⟩ := List.forall_mem_cons.mp h
      obtain ⟨name, value⟩ := field
      rw [renderedFields]
      cases value with
      | foreign raw =>
          rw [courseOfFields, unrefused_visit] at hfields
          cases hfields.1
      | scalar | list | node =>
          rw [courseOfFields_cons depth owner name (by simp), unrefused_append] at hfields
          exact .cons (hfield depth scope id hfields.1) (ih hrest _ hfields.2)

/-- A field that is looked up, or what stands for it if there is none. -/
theorem mirroredBy_renderedField {fields : Fields} {name : String} {missing : Value}
    {absent : Fragment} (h : ∀ value, Members.get? name fields = some value → value.IsMirrored limit)
    (habsent : MirroredBy missing absent) (depth : Nat) (scope : Scope) (id : Nat)
    (hfield : Unrefused limit (courseOfField depth name fields)) :
    MirroredBy ((Members.get? name fields).getD missing)
      (renderedField scope id name absent fields).1 := by
  rw [courseOfField_eq] at hfield
  rw [renderedField_eq]
  cases hvalue : Members.get? name fields with
  | none => exact habsent
  | some value =>
      rw [hvalue] at hfield
      exact h value hvalue depth scope id hfield

/-- **A rendered fragment mirrors its value.** -/
theorem mirroredBy_rendered (value : Value) : value.IsMirrored limit := by
  -- a visit without a fault tells that the fields the image is made of are there
  induction value using Value.induction_by_rule with
  | scalar s =>
      intro depth scope id _
      rw [rendered]
      exact .scalar s
  | foreign raw =>
      intro depth scope id h
      rw [course, unrefused_visit] at h
      cases h.1
  | list items ih =>
      intro depth scope id h
      rw [course, unrefused_visit] at h
      rw [rendered]
      exact .list (itemsMirroredBy_rendered ih depth scope id h.2)
  | module head fields hkind ih =>
      intro depth scope id h
      rw [course_module hkind, unrefused_visit] at h
      obtain ⟨hvisit, hfirst⟩ := h
      obtain ⟨first, rest, hbody⟩ := (Visit.fault_eq_none.mp hvisit).module head fields rfl hkind
      have hstatements := statementsIn_of_get? hbody
      rw [courseOfFirst_eq, hstatements] at hfirst
      rw [rendered_module hkind, renderedFirst_eq, hstatements]
      have hmem : first ∈ statementsIn fields := by
        rw [hstatements]
        exact List.mem_cons_self
      exact .module hkind hbody (ih first hmem (depth + 1) scope id hfirst)
  | function head fields hkind ihfield ihbody =>
      intro depth scope id h
      rw [course_function hkind, unrefused_visit] at h
      simp only [unrefused_append] at h
      obtain ⟨hvisit, hdecorators, harguments, hreturns, -, hbody, -⟩ := h
      obtain ⟨⟨name, hname⟩, statements, hstatements⟩ :=
        (Visit.fault_eq_none.mp hvisit).function head fields rfl hkind
      have hbody (start : Nat) : ItemsMirroredBy statements
          (renderedBody (scope.enter (nameIn fields)) start fields).1 := by
        rw [courseOfBody_eq] at hbody
        rw [renderedBody_eq]
        rw [statementsIn_of_get? hstatements] at ihbody hbody ⊢
        exact itemsMirroredBy_rendered ihbody (depth + 1) _ start hbody
      rw [rendered_function hkind]
      refine .function hkind ?_ rfl rfl rfl
        (mirroredBy_renderedField (ihfield _) (.list .nil) (depth + 1) scope id hdecorators)
        (mirroredBy_renderedField (ihfield _) (.scalar .none) (depth + 1) scope _ harguments)
        (mirroredBy_renderedField (ihfield _) (.scalar .none) (depth + 1) scope _ hreturns)
        hstatements (hbody _)
      rw [hname, functionHead, nameIn, hname]
      rfl
  | generic head fields hkind ih =>
      intro depth scope id h
      rw [course_generic hkind, unrefused_visit] at h
      rw [rendered_generic hkind]
      exact .generic hkind (fieldsMirroredBy_rendered ih (depth + 1) head scope (id + 1) h.2)

end

/-! ### Building a value again -/

/-- The head of a node of which only the kind is known. -/
def Kind.unplaced (kind : Kind) : Head := ⟨0, kind, none, none⟩

namespace Value

mutual

/-- The value without the numbers and the places of its nodes. -/
def unplaced : Value → Value
  | .scalar s => .scalar s
  | .node head fields => .node head.kind.unplaced (unplacedFields fields)
  | .list items => .list (unplacedItems items)
  | .foreign document => .foreign document

/-- The values without the numbers and the places of their nodes. -/
def unplacedItems : List Value → List Value
  | [] => []
  | item :: rest => unplaced item :: unplacedItems rest

/-- The fields without the numbers and the places of their nodes. -/
def unplacedFields : List (String × Value) → List (String × Value)
  | [] => []
  | (name, value) :: rest => (name, unplaced value) :: unplacedFields rest

end

/-- There is no module and no function definition in the value. -/
def Plain (value : Value) : Prop := ∀ head ∈ value.heads, head.kind.Generic

end Value

namespace Fragment

mutual

/-- The value that is told by the kinds of a fragment and what is in its fields.
A function does not tell its own. -/
def rebuilt : Fragment → Value
  | .function _ _ _ _ _ => .absent
  | .node _ origin fields => .node origin.kind.unplaced (rebuiltFields fields)
  | .list items => .list (rebuiltItems items)
  | .scalar s => .scalar s

/-- The values that several fragments tell. -/
def rebuiltItems : List Fragment → List Value
  | [] => []
  | item :: rest => rebuilt item :: rebuiltItems rest

/-- The fields that named fragments tell. -/
def rebuiltFields : List (String × Fragment) → List (String × Value)
  | [] => []
  | (name, value) :: rest => (name, rebuilt value) :: rebuiltFields rest

end

end Fragment

mutual

/-- **What mirrors a plain value tells the value**, up to numbers and places. -/
theorem MirroredBy.rebuilt_eq : {value : Value} → {fragment : Fragment} →
    MirroredBy value fragment → value.Plain → fragment.rebuilt = value.unplaced
  | _, _, .scalar _, _ => rfl
  | _, _, .list hitems, hplain => by
      rw [Fragment.rebuilt, Value.unplaced, hitems.rebuilt_eq hplain]
  | .node head fields, _, .module hkind _ _, hplain =>
      absurd hkind (List.forall_mem_cons.mp hplain).1.1
  | .node head fields, _, .function hkind _ _ _ _ _ _ _ _ _, hplain =>
      absurd hkind (List.forall_mem_cons.mp hplain).1.2
  | .node head fields, _, .generic _ hfields, hplain => by
      rw [Fragment.rebuilt, Value.unplaced,
        hfields.rebuilt_eq (List.forall_mem_cons.mp hplain).2]

theorem ItemsMirroredBy.rebuilt_eq : {items : List Value} → {fragments : List Fragment} →
    ItemsMirroredBy items fragments → (∀ head ∈ Value.headsOfItems items, head.kind.Generic) →
    Fragment.rebuiltItems fragments = Value.unplacedItems items
  | _, _, .nil, _ => rfl
  | _, _, .cons hitem hrest, hplain => by
      have hplain := List.forall_mem_append.mp hplain
      rw [Fragment.rebuiltItems, Value.unplacedItems, hitem.rebuilt_eq hplain.1,
        hrest.rebuilt_eq hplain.2]

theorem FieldsMirroredBy.rebuilt_eq : {fields : Fields} → {fragments : List (String × Fragment)} →
    FieldsMirroredBy fields fragments →
    (∀ head ∈ Value.headsOfFields fields, head.kind.Generic) →
    Fragment.rebuiltFields fragments = Value.unplacedFields fields
  | _, _, .nil, _ => rfl
  | _, _, .cons hvalue hrest, hplain => by
      have hplain := List.forall_mem_append.mp hplain
      rw [Fragment.rebuiltFields, Value.unplacedFields, hvalue.rebuilt_eq hplain.1,
        hrest.rebuilt_eq hplain.2]

end

/-! ### Parts -/

/-- The fields of a function definition that a translation goes to. -/
def functionFields : List String := ["name", "decorator_list", "args", "returns", "body"]

/-- The translation of the value goes to this part of it. -/
inductive Value.Keeps : Value → Value → Prop
  | self (value : Value) : Keeps value value
  | item {items : List Value} {item part : Value} :
      item ∈ items → Keeps item part → Keeps (.list items) part
  | first {head : Head} {fields : Fields} {first part : Value} {rest : List Value} :
      head.kind = .module → Members.get? "body" fields = some (.list (first :: rest)) →
      Keeps first part → Keeps (.node head fields) part
  | function {head : Head} {fields : Fields} {name : String} {value part : Value} :
      head.kind = .functionDef → name ∈ functionFields → Members.get? name fields = some value →
      Keeps value part → Keeps (.node head fields) part
  | generic {head : Head} {fields : Fields} {field : String × Value} {part : Value} :
      head.kind.Generic → field ∈ fields → Keeps field.2 part → Keeps (.node head fields) part

/-- The one fragment is in the other; a function's name and its body count as
fragments in it. -/
inductive Fragment.Holds : Fragment → Fragment → Prop
  | self (fragment : Fragment) : Holds fragment fragment
  | item {items : List Fragment} {item image : Fragment} :
      item ∈ items → Holds item image → Holds (.list items) image
  | field {id : Nat} {origin : Head} {fields : List (String × Fragment)}
      {field : String × Fragment} {image : Fragment} :
      field ∈ fields → Holds field.2 image → Holds (.node id origin fields) image
  | name {g : FunctionHead} {decorators arguments returns : Fragment} {body : List Fragment}
      {image : Fragment} :
      Holds (.scalar (.str g.name)) image → Holds (.function g decorators arguments returns body) image
  | decorators {g : FunctionHead} {decorators arguments returns : Fragment} {body : List Fragment}
      {image : Fragment} :
      Holds decorators image → Holds (.function g decorators arguments returns body) image
  | arguments {g : FunctionHead} {decorators arguments returns : Fragment} {body : List Fragment}
      {image : Fragment} :
      Holds arguments image → Holds (.function g decorators arguments returns body) image
  | returns {g : FunctionHead} {decorators arguments returns : Fragment} {body : List Fragment}
      {image : Fragment} :
      Holds returns image → Holds (.function g decorators arguments returns body) image
  | body {g : FunctionHead} {decorators arguments returns : Fragment} {body : List Fragment}
      {image : Fragment} :
      Holds (.list body) image → Holds (.function g decorators arguments returns body) image

/-- Each of the items is mirrored by a fragment. -/
theorem ItemsMirroredBy.exists_of_mem {items : List Value} {fragments : List Fragment}
    (h : ItemsMirroredBy items fragments) {item : Value} (hitem : item ∈ items) :
    ∃ fragment ∈ fragments, MirroredBy item fragment := by
  induction items generalizing fragments with
  | nil => cases hitem
  | cons first rest ih =>
      cases h with
      | cons hfirst hrest =>
          rcases List.mem_cons.mp hitem with heq | hitem
          · cases heq
            exact ⟨_, List.mem_cons_self, hfirst⟩
          · obtain ⟨fragment, hmem, hmirrored⟩ := ih hrest hitem
            exact ⟨fragment, List.mem_cons_of_mem _ hmem, hmirrored⟩

/-- Each of the fields is mirrored by a fragment. -/
theorem FieldsMirroredBy.exists_of_mem {fields : Fields} {fragments : List (String × Fragment)}
    (h : FieldsMirroredBy fields fragments) {field : String × Value} (hfield : field ∈ fields) :
    ∃ fragment ∈ fragments, MirroredBy field.2 fragment.2 := by
  induction fields generalizing fragments with
  | nil => cases hfield
  | cons first rest ih =>
      cases h with
      | cons hfirst hrest =>
          rcases List.mem_cons.mp hfield with heq | hfield
          · cases heq
            exact ⟨_, List.mem_cons_self, hfirst⟩
          · obtain ⟨fragment, hmem, hmirrored⟩ := ih hrest hfield
            exact ⟨fragment, List.mem_cons_of_mem _ hmem, hmirrored⟩

/-- **What mirrors a part is in what mirrors the whole.** -/
theorem MirroredBy.exists_holds {value part : Value} {fragment : Fragment}
    (hkeeps : value.Keeps part) (h : MirroredBy value fragment) :
    ∃ image, fragment.Holds image ∧ MirroredBy part image := by
  -- each step down to the part goes along in the image
  induction hkeeps generalizing fragment with
  | self value => exact ⟨fragment, .self fragment, h⟩
  | item hitem _ ih =>
      cases h with
      | list hitems =>
          obtain ⟨fragment, hmem, hmirrored⟩ := hitems.exists_of_mem hitem
          obtain ⟨image, hholds, himage⟩ := ih hmirrored
          exact ⟨image, .item hmem hholds, himage⟩
  | first hkind hbody _ ih =>
      cases h with
      | module _ hbody' hfirst =>
          rw [hbody] at hbody'
          cases hbody'
          exact ih hfirst
      | function hkind' => rw [hkind] at hkind'; cases hkind'
      | generic hkind' => exact absurd hkind hkind'.1
  | generic hkind hfield _ ih =>
      cases h with
      | module hkind' => exact absurd hkind' hkind.1
      | function hkind' => exact absurd hkind' hkind.2
      | generic _ hfields =>
          obtain ⟨fragment, hmem, hmirrored⟩ := hfields.exists_of_mem hfield
          obtain ⟨image, hholds, himage⟩ := ih hmirrored
          exact ⟨image, .field hmem hholds, himage⟩
  | function hkind hname hvalue _ ih =>
      cases h with
      | module hkind' => rw [hkind] at hkind'; cases hkind'
      | generic hkind' => exact absurd hkind hkind'.2
      | function _ hfound _ _ _ hdecorators harguments hreturns hstatements hbody =>
          simp only [functionFields, List.mem_cons, List.not_mem_nil, or_false] at hname
          rcases hname with rfl | rfl | rfl | rfl | rfl
          · rw [hvalue] at hfound
            cases hfound
            obtain ⟨image, hholds, himage⟩ := ih (.scalar _)
            exact ⟨image, .name hholds, himage⟩
          · rw [hvalue] at hdecorators
            obtain ⟨image, hholds, himage⟩ := ih hdecorators
            exact ⟨image, .decorators hholds, himage⟩
          · rw [hvalue] at harguments
            obtain ⟨image, hholds, himage⟩ := ih harguments
            exact ⟨image, .arguments hholds, himage⟩
          · rw [hvalue] at hreturns
            obtain ⟨image, hholds, himage⟩ := ih hreturns
            exact ⟨image, .returns hholds, himage⟩
          · rw [hvalue] at hstatements
            cases hstatements
            obtain ⟨image, hholds, himage⟩ := ih (.list hbody)
            exact ⟨image, .body hholds, himage⟩

/-! ### Nothing is there twice -/

/-- The heads of the nodes in the fields that are looked up by some names. -/
def headsUnder (names : List String) (fields : Fields) : List Head :=
  names.flatMap fun name => ((Members.get? name fields).map Value.heads).getD []

@[simp]
theorem headsUnder_nil (fields : Fields) : headsUnder [] fields = [] := rfl

/-- The heads under the first name and those under the others. -/
theorem headsUnder_cons (name : String) (names : List String) (fields : Fields) :
    headsUnder (name :: names) fields =
      ((Members.get? name fields).map Value.heads).getD [] ++ headsUnder names fields := rfl

/-- A field that is not looked up adds nothing. -/
theorem headsUnder_of_notMem {names : List String} {key : String} (h : key ∉ names) (value : Value)
    (rest : Fields) : headsUnder names ((key, value) :: rest) = headsUnder names rest := by
  refine List.flatMap_congr fun name hname => ?_
  rw [Members.get?, if_neg]
  intro hkey
  exact h (hkey ▸ hname)

/-- Fields of different names are different fields. -/
theorem headsUnder_subperm {names : List String} (hnames : names.Nodup) (fields : Fields) :
    (headsUnder names fields).Subperm (Value.headsOfFields fields) := by
  induction fields generalizing names with
  | nil =>
      have hnil : headsUnder names [] = [] := List.flatMap_eq_nil_iff.mpr fun _ _ => rfl
      rw [hnil]
      exact List.nil_subperm
  | cons field rest ih =>
      obtain ⟨key, value⟩ := field
      by_cases hkey : key ∈ names
      · -- The name takes this field; the others look further.
        have hperm := (List.perm_cons_erase hkey).flatMap_right
          fun name => ((Members.get? name ((key, value) :: rest)).map Value.heads).getD []
        have hothers : key ∉ names.erase key := fun h => (hnames.mem_erase_iff.mp h).1 rfl
        have hfound : headsUnder (key :: names.erase key) ((key, value) :: rest) =
            value.heads ++ headsUnder (names.erase key) rest := by
          rw [headsUnder_cons, headsUnder_of_notMem hothers, Members.get?, if_pos rfl]
          rfl
        refine List.Subperm.trans (hperm.trans (.of_eq hfound)).subperm ?_
        rw [Value.headsOfFields]
        exact (List.Subperm.refl _).append (ih (hnames.erase key))
      · rw [headsUnder_of_notMem hkey, Value.headsOfFields]
        exact (ih hnames).trans (List.sublist_append_right _ _).subperm

/-- The nodes of what a value is rendered to are among its own, each as often at
most as it is there. -/
def Value.ComesOnce (value : Value) : Prop :=
  ∀ scope id, (rendered scope id value).1.heads.Subperm value.heads

theorem headsOfList_subperm {items : List Value} (h : ∀ item ∈ items, item.ComesOnce)
    (scope : Scope) (id : Nat) :
    (Fragment.headsOfList (renderedItems scope id items).1).Subperm (Value.headsOfItems items) := by
  induction items generalizing id with
  | nil => exact List.nil_subperm
  | cons item rest ih =>
      obtain ⟨hitem, hrest⟩ := List.forall_mem_cons.mp h
      rw [renderedItems, Fragment.headsOfList, Value.headsOfItems]
      exact (hitem scope id).append (ih hrest _)

theorem headsOfFields_subperm {fields : Fields} (h : ∀ field ∈ fields, field.2.ComesOnce)
    (scope : Scope) (id : Nat) :
    (Fragment.headsOfFields (renderedFields scope id fields).1).Subperm
      (Value.headsOfFields fields) := by
  induction fields generalizing id with
  | nil => exact List.nil_subperm
  | cons field rest ih =>
      obtain ⟨hfield, hrest⟩ := List.forall_mem_cons.mp h
      obtain ⟨name, value⟩ := field
      rw [renderedFields, Fragment.headsOfFields, Value.headsOfFields]
      exact (hfield scope id).append (ih hrest _)

theorem headsOfField_subperm {fields : Fields} {name : String} {absent : Fragment}
    (h : ∀ value, Members.get? name fields = some value → value.ComesOnce)
    (habsent : absent.heads = []) (scope : Scope) (id : Nat) :
    (renderedField scope id name absent fields).1.heads.Subperm
      (((Members.get? name fields).map Value.heads).getD []) := by
  rw [renderedField_eq]
  cases hvalue : Members.get? name fields with
  | none =>
      simp only [Option.map_none, Option.getD_none, habsent]
      exact List.nil_subperm
  | some value => exact h value hvalue scope id

/-- The heads of the statements are among those of the body. -/
theorem headsOfStatements_subperm (fields : Fields) :
    (Value.headsOfItems (statementsIn fields)).Subperm
      (((Members.get? "body" fields).map Value.heads).getD []) := by
  rw [statementsIn]
  cases Members.get? "body" fields with
  | none => exact List.nil_subperm
  | some body =>
      cases body with
      | list items => exact List.Subperm.refl _
      | scalar | node | foreign => exact List.nil_subperm

/-- The heads of an item are among those of all items. -/
theorem heads_subperm_of_mem {items : List Value} {item : Value} (h : item ∈ items) :
    item.heads.Subperm (Value.headsOfItems items) := by
  induction items with
  | nil => cases h
  | cons first rest ih =>
      rw [Value.headsOfItems]
      rcases List.mem_cons.mp h with heq | hmem
      · rw [heq]
        exact (List.sublist_append_left _ _).subperm
      · exact (ih hmem).trans (List.sublist_append_right _ _).subperm

/-- **No node comes twice** into a rendered fragment. -/
theorem rendered_comesOnce (value : Value) : value.ComesOnce := by
  induction value using Value.induction_by_rule with
  | scalar | foreign =>
      intro scope id
      rw [rendered]
      exact List.nil_subperm
  | list items ih =>
      intro scope id
      rw [rendered, Fragment.heads, Value.heads]
      exact headsOfList_subperm ih scope id
  | module head fields hkind ih =>
      intro scope id
      rw [rendered_module hkind, renderedFirst_eq, Value.heads]
      cases hfirst : (statementsIn fields).head? with
      | none => exact List.nil_subperm
      | some first =>
          have hmem : first ∈ statementsIn fields := List.mem_of_mem_head? hfirst
          have hbody := headsUnder_subperm (List.nodup_singleton "body") fields
          rw [headsUnder_cons, headsUnder_nil, List.append_nil] at hbody
          exact (((ih first hmem scope id).trans (heads_subperm_of_mem hmem)).trans
            ((headsOfStatements_subperm fields).trans hbody)).trans
            (List.sublist_cons_self _ _).subperm
  | function head fields hkind ihfield ihbody =>
      intro scope id
      have hfields := headsUnder_subperm
        (show ["decorator_list", "args", "returns", "body"].Nodup by decide) fields
      simp only [headsUnder_cons, headsUnder_nil, List.append_nil] at hfields
      rw [rendered_function hkind, Fragment.heads, Value.heads]
      refine (List.subperm_cons _).mpr (List.Subperm.trans ?_ hfields)
      rw [List.append_assoc, List.append_assoc, renderedBody_eq]
      exact (headsOfField_subperm (ihfield _) rfl scope _).append
        ((headsOfField_subperm (ihfield _) rfl scope _).append
          ((headsOfField_subperm (ihfield _) rfl scope _).append
            ((headsOfList_subperm ihbody _ _).trans (headsOfStatements_subperm fields))))
  | generic head fields hkind ih =>
      intro scope id
      rw [rendered_generic hkind, Fragment.heads, Value.heads]
      exact (List.subperm_cons head).mpr (headsOfFields_subperm ih scope (id + 1))

/-! ### Calls of a session -/

/-- **A translation loses nothing.**  Wherever `generate` succeeds, the fragment
mirrors the value.  Every part that the translation goes to is mirrored in it, and
can be built again from the kinds and fields of what mirrors it if there is no
module and no function definition in the part.  No node of the value comes twice
into the fragment, so that its nodes come from nodes of different numbers if these
are different in the value. -/
theorem mirroredBy_of_generate {session : Session} {value : Value} {fragment : Fragment}
    (h : (session.generate value).1 = .ok fragment) :
    MirroredBy value fragment ∧
    (∀ part, value.Keeps part → ∃ image, fragment.Holds image ∧ MirroredBy part image ∧
      (part.Plain → image.rebuilt = part.unplaced)) ∧
    fragment.heads.Subperm value.heads ∧
    ((value.heads.map Head.id).Nodup → (fragment.heads.map Head.id).Nodup) := by
  obtain ⟨hfollow, hrendered⟩ := Session.generate_eq_ok.mp h
  have hmirrored := mirroredBy_rendered value 0 session.translator.scope session.translator.nextId
    ((unrefused_iff_follow session.translator).mpr hfollow)
  have honce := rendered_comesOnce value session.translator.scope session.translator.nextId
  rw [hrendered] at hmirrored honce
  refine ⟨hmirrored, ?_, honce, ?_⟩
  · intro part hpart
    obtain ⟨image, hholds, himage⟩ := hmirrored.exists_holds hpart
    exact ⟨image, hholds, himage, himage.rebuilt_eq⟩
  · intro hnodup
    obtain ⟨visited, hperm, hsublist⟩ := honce
    have hvisited : (visited.map Head.id).Nodup := hnodup.sublist (hsublist.map Head.id)
    exact (hperm.map Head.id).nodup_iff.mp hvisited

/-- A function in a function is mirrored, with all that is around it. -/
theorem mirroredBy_of_generate_nested :
    let source := Source.ofText "m" "@d(1)\ndef f(x=2):\n    def g():\n        pass\n" .program
    let session := Session.begin .standard "_"
    ∃ tree fragment, (source.tree.runFrom 1).1 = .ok tree ∧
      (session.generate tree.toValue).1 = .ok fragment ∧
      fragment.functions.map (·.head.name) = ["f", "g"] ∧
      (MirroredBy tree.toValue fragment ∧
        (∀ part, tree.toValue.Keeps part → ∃ image, fragment.Holds image ∧
          MirroredBy part image ∧ (part.Plain → image.rebuilt = part.unplaced)) ∧
        fragment.heads.Subperm tree.toValue.heads ∧
        ((tree.toValue.heads.map Head.id).Nodup → (fragment.heads.map Head.id).Nodup)) := by
  intro source session
  obtain ⟨tree, htree, fragment, hfragment, hfunctions⟩ :
      ∃ tree, (source.tree.runFrom 1).1 = .ok tree ∧
        ∃ fragment, (session.generate tree.toValue).1 = .ok fragment ∧
          fragment.functions.map (·.head.name) = ["f", "g"] := by
    decide +kernel
  exact ⟨tree, fragment, htree, hfragment, hfunctions, mirroredBy_of_generate hfragment⟩

/-- A module is mirrored by its first statement, and the second one is lost: modules that
differ in it alone have the same fragment, so nothing can build it again. -/
theorem second_statement_lost :
    ¬ ∃ rebuild : Fragment → List Turn → Value,
      ∀ (session : Session) (value : Value) (fragment : Fragment),
        (session.generate value).1 = .ok fragment → ∀ way part, value.at? way = some part →
          part.Plain → rebuild fragment way = part.unplaced := by
  rintro ⟨rebuild, h⟩
  let session := Session.begin .standard "_"
  let function : Value := .node ⟨2, .functionDef, none, none⟩
    [("name", .str "f"), ("body", .list [.node ⟨3, .passStmt, none, none⟩ []])]
  let second (name : String) : Value := .node ⟨4, .name, none, none⟩ [("id", .str name)]
  let module (name : String) : Value :=
    .node ⟨1, .module, none, none⟩ [("body", .list [function, second name])]
  obtain ⟨fragment, ha, hb⟩ : ∃ fragment, (session.generate (module "a")).1 = .ok fragment ∧
      (session.generate (module "b")).1 = .ok fragment := ⟨_, rfl, rfl⟩
  have hplain (name : String) : (second name).Plain :=
    List.forall_mem_singleton.mpr ⟨nofun, nofun⟩
  have hfirst := h session _ fragment ha [.field "body", .item 1] (second "a") rfl (hplain "a")
  have hother := h session _ fragment hb [.field "body", .item 1] (second "b") rfl (hplain "b")
  have hsame : (second "a").unplaced = (second "b").unplaced := hfirst.symm.trans hother
  simp [second, Value.unplaced, Value.unplacedFields, Value.str] at hsame

end FunctionIR
