import FunctionIR.Proofs.Translation.Calls

/-!
# Qualified names

The qualified name of a function is the name of the scope it is declared in.
While a translation runs, that scope is a stack that grows and shrinks.  In the
fragment that comes out, it can be read off the place of the function: the
names of the functions in whose **bodies** it lies, outermost first
(`Fragment.Within`).  A function in the decorators, the parameters or the
return annotation of another one does not lie in its body, and a function does
not lie in its own.

`qualifiedName_of_within` says that these two agree.  It is read off the
fragment that the translation builds, one scope for each value
(`rendered_qualified`).
-/

namespace FunctionIR

namespace Fragment

/-- A function with this head is in the fragment, and these are the names of
the functions in whose bodies it lies, outermost first. -/
inductive Within : List String → FunctionHead → Fragment → Prop
  | here {head : FunctionHead} {decorators arguments returns : Fragment}
      {body : List Fragment} :
      Within [] head (.function head decorators arguments returns body)
  | decorators {names : List String} {g head : FunctionHead}
      {decorators arguments returns : Fragment} {body : List Fragment} :
      Within names g decorators →
      Within names g (.function head decorators arguments returns body)
  | arguments {names : List String} {g head : FunctionHead}
      {decorators arguments returns : Fragment} {body : List Fragment} :
      Within names g arguments →
      Within names g (.function head decorators arguments returns body)
  | returns {names : List String} {g head : FunctionHead}
      {decorators arguments returns : Fragment} {body : List Fragment} :
      Within names g returns →
      Within names g (.function head decorators arguments returns body)
  | body {names : List String} {g head : FunctionHead}
      {decorators arguments returns : Fragment} {body : List Fragment} {item : Fragment} :
      item ∈ body → Within names g item →
      Within (head.name :: names) g (.function head decorators arguments returns body)
  | field {names : List String} {g : FunctionHead} {id : Nat} {origin : Head}
      {fields : List (String × Fragment)} {field : String × Fragment} :
      field ∈ fields → Within names g field.2 → Within names g (.node id origin fields)
  | item {names : List String} {g : FunctionHead} {items : List Fragment} {item : Fragment} :
      item ∈ items → Within names g item → Within names g (.list items)

mutual

/-- The functions in the fragment, each with the names around it. -/
def around : Fragment → List (List String × FunctionHead)
  | .function head decorators arguments returns body =>
    ([], head) :: (around decorators ++ around arguments ++ around returns ++
      (aroundItems body).map fun inner => (head.name :: inner.1, inner.2))
  | .node _ _ fields => aroundFields fields
  | .list items => aroundItems items
  | .scalar _ => []

/-- The same of several fragments. -/
def aroundItems : List Fragment → List (List String × FunctionHead)
  | [] => []
  | item :: rest => around item ++ aroundItems rest

/-- The same of named fragments. -/
def aroundFields : List (String × Fragment) → List (List String × FunctionHead)
  | [] => []
  | (_, value) :: rest => around value ++ aroundFields rest

end

mutual

/-- A function that is listed with its names lies within these. -/
theorem within_of_mem_around : (fragment : Fragment) →
    ∀ inner ∈ fragment.around, Within inner.1 inner.2 fragment
  | .function head decorators arguments returns body => by
      simp only [around, List.forall_mem_cons, List.forall_mem_append, List.forall_mem_map]
      refine ⟨.here, ⟨⟨fun inner h => ?_, fun inner h => ?_⟩, fun inner h => ?_⟩, fun inner h => ?_⟩
      · exact .decorators (within_of_mem_around decorators inner h)
      · exact .arguments (within_of_mem_around arguments inner h)
      · exact .returns (within_of_mem_around returns inner h)
      · obtain ⟨item, hitem, hinner⟩ := within_of_mem_aroundItems body inner h
        exact .body hitem hinner
  | .node _ _ fields => fun inner h => by
      obtain ⟨field, hfield, hinner⟩ := within_of_mem_aroundFields fields inner h
      exact .field hfield hinner
  | .list items => fun inner h => by
      obtain ⟨item, hitem, hinner⟩ := within_of_mem_aroundItems items inner h
      exact .item hitem hinner
  | .scalar _ => List.forall_mem_nil _

theorem within_of_mem_aroundItems : (items : List Fragment) →
    ∀ inner ∈ aroundItems items, ∃ item ∈ items, Within inner.1 inner.2 item
  | [] => List.forall_mem_nil _
  | item :: rest => by
      refine List.forall_mem_append.mpr ⟨fun inner h => ?_, fun inner h => ?_⟩
      · exact ⟨item, List.mem_cons_self, within_of_mem_around item inner h⟩
      · obtain ⟨other, hother, hinner⟩ := within_of_mem_aroundItems rest inner h
        exact ⟨other, List.mem_cons_of_mem _ hother, hinner⟩

theorem within_of_mem_aroundFields : (fields : List (String × Fragment)) →
    ∀ inner ∈ aroundFields fields, ∃ field ∈ fields, Within inner.1 inner.2 field.2
  | [] => List.forall_mem_nil _
  | (name, value) :: rest => by
      refine List.forall_mem_append.mpr ⟨fun inner h => ?_, fun inner h => ?_⟩
      · exact ⟨(name, value), List.mem_cons_self, within_of_mem_around value inner h⟩
      · obtain ⟨field, hfield, hinner⟩ := within_of_mem_aroundFields rest inner h
        exact ⟨field, List.mem_cons_of_mem _ hfield, hinner⟩

end

end Fragment

open Fragment (Within)

/-- The name of the scope inside functions of these names.  The empty ones
do not count. -/
def Scope.qualify (scope : Scope) (names : List String) : String :=
  scope.separator.intercalate (scope.names ++ names.filter (· ≠ ""))

theorem Scope.qualify_nil (scope : Scope) : scope.qualify [] = scope.current := by
  simp [qualify, current]

/-- The outermost of the functions is entered first. -/
theorem Scope.qualify_enter (scope : Scope) (name : String) (names : List String) :
    (scope.enter name).qualify names = scope.qualify (name :: names) := by
  by_cases h : name = "" <;> simp [qualify, enter, h]

/-- Every function in the fragment is qualified by the scope and the functions
in whose bodies it lies. -/
def Qualified (scope : Scope) (fragment : Fragment) : Prop :=
  ∀ names g, Within names g fragment → g.qualifiedName = scope.qualify names

theorem qualified_scalar (scope : Scope) (s : Scalar) : Qualified scope (.scalar s) :=
  fun _ _ h => nomatch h

/-- A list is qualified if its items are. -/
theorem qualified_list {scope : Scope} {items : List Fragment}
    (h : ∀ item ∈ items, Qualified scope item) : Qualified scope (.list items) := by
  intro names g hg
  cases hg with
  | item hitem hg => exact h _ hitem names g hg

/-- A node is qualified if its fields are. -/
theorem qualified_node {scope : Scope} {id : Nat} {origin : Head}
    {fields : List (String × Fragment)} (h : ∀ field ∈ fields, Qualified scope field.2) :
    Qualified scope (.node id origin fields) := by
  intro names g hg
  cases hg with
  | field hfield hg => exact h _ hfield names g hg

/-- The parts of a function before its body are in the scope that it is
declared in, the statements of its body in the scope inside. -/
theorem qualified_function {scope : Scope} {head : FunctionHead}
    {decorators arguments returns : Fragment} {body : List Fragment}
    (hhead : head.qualifiedName = scope.current) (hdecorators : Qualified scope decorators)
    (harguments : Qualified scope arguments) (hreturns : Qualified scope returns)
    (hbody : ∀ item ∈ body, Qualified (scope.enter head.name) item) :
    Qualified scope (.function head decorators arguments returns body) := by
  intro names g hg
  cases hg with
  | here => rw [hhead, scope.qualify_nil]
  | decorators hg => exact hdecorators names g hg
  | arguments hg => exact harguments names g hg
  | returns hg => exact hreturns names g hg
  | body hitem hg => rw [hbody _ hitem _ g hg, scope.qualify_enter]

mutual

/-- **A rendered fragment is qualified by the scope** that it is rendered in. -/
theorem rendered_qualified (scope : Scope) (id : Nat) : (value : Value) →
    Qualified scope (rendered scope id value).1
  | .scalar _ | .foreign _ => by
      rw [rendered]
      exact qualified_scalar scope _
  | .list items => by
      rw [rendered]
      exact qualified_list (renderedItems_qualified scope id items)
  | .node head fields => by
      rcases head.kind.by_rule with hkind | hkind | hkind
      · rw [rendered_module hkind]
        exact renderedFirst_qualified scope id fields
      · rw [rendered_function hkind]
        have hfield := fun id name absent habsent =>
          renderedField_qualified scope id name absent habsent fields
        exact qualified_function rfl
          (hfield id "decorator_list" _ (qualified_list fun _ h => nomatch h))
          (hfield _ "args" _ (qualified_scalar scope _))
          (hfield _ "returns" _ (qualified_scalar scope _))
          (renderedBody_qualified (scope.enter (nameIn fields)) _ fields)
      · rw [rendered_generic hkind]
        exact qualified_node (renderedFields_qualified scope (id + 1) fields)

theorem renderedItems_qualified (scope : Scope) (id : Nat) : (items : List Value) →
    ∀ fragment ∈ (renderedItems scope id items).1, Qualified scope fragment
  | [] => fun _ h => nomatch h
  | item :: rest => by
      rw [renderedItems]
      exact List.forall_mem_cons.2
        ⟨rendered_qualified scope id item, renderedItems_qualified scope _ rest⟩

theorem renderedFields_qualified (scope : Scope) (id : Nat) :
    (fields : List (String × Value)) →
    ∀ field ∈ (renderedFields scope id fields).1, Qualified scope field.2
  | [] => fun _ h => nomatch h
  | (name, value) :: rest => by
      rw [renderedFields]
      exact List.forall_mem_cons.2
        ⟨rendered_qualified scope id value, renderedFields_qualified scope _ rest⟩

theorem renderedField_qualified (scope : Scope) (id : Nat) (name : String)
    (absent : Fragment) (habsent : Qualified scope absent) :
    (fields : List (String × Value)) →
    Qualified scope (renderedField scope id name absent fields).1
  | [] => habsent
  | (key, value) :: rest => by
      rw [renderedField]
      split
      · exact rendered_qualified scope id value
      · exact renderedField_qualified scope id name absent habsent rest

theorem renderedBody_qualified (scope : Scope) (id : Nat) : (fields : List (String × Value)) →
    ∀ fragment ∈ (renderedBody scope id fields).1, Qualified scope fragment
  | [] => fun _ h => nomatch h
  | (key, .list items) :: rest => by
      simp only [renderedBody]
      split
      · exact renderedItems_qualified scope id items
      · exact renderedBody_qualified scope id rest
  | (key, .scalar _) :: rest | (key, .node _ _) :: rest | (key, .foreign _) :: rest => by
      simp only [renderedBody]
      split
      · exact fun _ h => nomatch h
      · exact renderedBody_qualified scope id rest

theorem renderedFirst_qualified (scope : Scope) (id : Nat) : (fields : List (String × Value)) →
    Qualified scope (renderedFirst scope id fields).1
  | [] => qualified_scalar scope _
  | (key, .list (first :: _)) :: rest => by
      simp only [renderedFirst]
      split
      · exact rendered_qualified scope id first
      · exact renderedFirst_qualified scope id rest
  | (key, .list []) :: rest | (key, .scalar _) :: rest | (key, .node _ _) :: rest
  | (key, .foreign _) :: rest => by
      simp only [renderedFirst]
      split
      · exact qualified_scalar scope _
      · exact renderedFirst_qualified scope id rest

end

/-- **Qualified names**: whatever the session's scope is, a function anywhere
in the outcome of a translation is qualified by the names in that scope and the
names of the functions in whose bodies it lies, outermost first, of which the
empty ones do not count. -/
theorem qualifiedName_of_within (session : Session) :
    (∀ tree function names g, (session.translateIn tree).1 = .ok function →
      Within names g function.toFragment →
      g.qualifiedName = session.translator.scope.separator.intercalate
        (session.translator.scope.names ++ names.filter (· ≠ ""))) ∧
    (∀ value fragment names g, (session.generate value).1 = .ok fragment →
      Within names g fragment →
      g.qualifiedName = session.translator.scope.separator.intercalate
        (session.translator.scope.names ++ names.filter (· ≠ ""))) := by
  constructor
  · intro tree function names g h hg
    rw [← (Session.translateIn_eq_ok.mp h).2] at hg
    exact rendered_qualified _ _ _ names g hg
  · intro value fragment names g h hg
    rw [← (Session.generate_eq_ok.mp h).2] at hg
    exact rendered_qualified _ _ _ names g hg

/-- A function in a function in a third one. -/
theorem qualifiedName_of_within_nested :
    let source := Source.ofText "m" "def f():\n    def g():\n        def h():\n            pass\n"
      .program
    let session := Session.begin .standard "_"
    ∃ tree function g, (source.tree.runFrom 1).1 = .ok tree ∧
      (session.translateIn tree).1 = .ok function ∧
      Within ["f", "g"] g function.toFragment ∧ g.qualifiedName = "f_g" := by
  intro source session
  obtain ⟨tree, hread, function, hok, inner, hinner, hnames⟩ :
      ∃ tree, (source.tree.runFrom 1).1 = .ok tree ∧
        ∃ function, (session.translateIn tree).1 = .ok function ∧
          ∃ inner ∈ function.toFragment.around, inner.1 = ["f", "g"] := by
    decide +kernel
  have hwithin := Fragment.within_of_mem_around _ inner hinner
  rw [hnames] at hwithin
  exact ⟨tree, function, inner.2, hread, hok, hwithin,
    ((qualifiedName_of_within session).1 tree function _ _ hok hwithin).trans (by decide)⟩

end FunctionIR
