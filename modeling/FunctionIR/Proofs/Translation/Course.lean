import FunctionIR.Translation.Translator

/-!
# The course of a translation

A translation is a recursion over a tree, but what it does happens in one
order: values are looked at, fragments are numbered, scopes are entered and
left.  The **course** of a value lists these steps.  It depends on the value
alone, and every translation follows it up to the first step that is refused:
`follow` does the steps of a list one after the other, and a translation has
the outcome, the numbers and the events of following the course of its value
(`follows_value`).

Where nothing is refused, the fragment is the one that `rendered` builds
without ever failing.  It depends on the scope and the first number only.

A step is refused only where a value is looked at (`Visit.fault`).  So the
course of a value says what a translation sees, in which order, and what of it
is left undone after a fault.
-/

namespace FunctionIR

open Translating (next record within)

/-! ### Steps -/

/-- A value that a translation looks at. -/
structure Visit where
  /-- How many nodes are above the value. -/
  depth : Nat
  /-- For a foreign value that is itself the field of a generic node: the
  node and the name of the field. -/
  site : Option (Head × String)
  value : Value

/-- The text in the field `name`, empty if there is none. -/
def nameIn (fields : Fields) : String :=
  ((Members.get? "name" fields).bind Value.asText).getD ""

/-- Kinds of nodes that are translated field by field. -/
def Kind.Generic (kind : Kind) : Prop := kind ≠ .module ∧ kind ≠ .functionDef

/-- A kind is that of a module, that of a function or generic. -/
theorem Kind.by_rule (kind : Kind) : kind = .module ∨ kind = .functionDef ∨ kind.Generic := by
  by_cases hmodule : kind = .module
  · exact .inl hmodule
  · by_cases hfunction : kind = .functionDef
    · exact .inr (.inl hfunction)
    · exact .inr (.inr ⟨hmodule, hfunction⟩)

/-- What is wrong with the form of a node. -/
def formFault (head : Head) (fields : Fields) : Option Fault :=
  match head.kind with
  | .module =>
    match Members.get? "body" fields with
    | none => some (malformed .moduleWithoutBody head)
    | some (.list (_ :: _)) => none
    | some (.list []) => some (malformed .moduleEmpty head)
    | some _ => some (malformed .moduleBodyNotList head)
  | .functionDef =>
    match functionForm head fields with
    | .error fault => some fault
    | .ok _ => none
  | _ => none

/-- Where a kind is translated field by field, any fields will do. -/
theorem formFault_generic {head : Head} (h : head.kind.Generic) (fields : Fields) :
    formFault head fields = none := by
  unfold formFault
  split
  · exact absurd ‹_› h.1
  · exact absurd ‹_› h.2
  · rfl

/-- The fault of a value that is looked at, where nodes may be `limit` deep.
A node's depth counts before its form. -/
def Visit.fault (limit : Nat) (visit : Visit) : Option Fault :=
  match visit.value with
  | .scalar _ | .list _ => none
  | .foreign raw =>
    match visit.site with
    | none => some (.unsupportedShape none none raw none none)
    | some (owner, field) =>
      some (.unsupportedShape (some owner.kind.tag) (some field) raw
        owner.location owner.span)
  | .node head fields =>
    if limit < visit.depth then some (.tooDeep limit head.location)
    else formFault head fields

/-- One thing that a translation does. -/
inductive Step where
  /-- Look at a value. -/
  | visit (v : Visit)
  /-- Number the fragment of a node. -/
  | make (head : Head)
  /-- Enter the scope of a function. -/
  | enter (name : String)
  /-- Leave it. -/
  | leave (name : String)

mutual

/-- The steps that a value at a depth takes. -/
def course (depth : Nat) : Value → List Step
  | .scalar s => [.visit ⟨depth, none, .scalar s⟩]
  | .list items => .visit ⟨depth, none, .list items⟩ :: courseOfItems depth items
  | .foreign raw => [.visit ⟨depth, none, .foreign raw⟩]
  | .node head fields =>
    .visit ⟨depth, none, .node head fields⟩ ::
      match head.kind with
      | .module => courseOfFirst (depth + 1) fields
      | .functionDef =>
        courseOfField (depth + 1) "decorator_list" fields ++
          (courseOfField (depth + 1) "args" fields ++
            (courseOfField (depth + 1) "returns" fields ++
              ([.make head, .enter (nameIn fields)] ++
                (courseOfBody (depth + 1) fields ++ [.leave (nameIn fields)]))))
      | _ => .make head :: courseOfFields (depth + 1) head fields

/-- The steps of values one after the other. -/
def courseOfItems (depth : Nat) : List Value → List Step
  | [] => []
  | item :: rest => course depth item ++ courseOfItems depth rest

/-- The steps of the fields of a generic node. -/
def courseOfFields (depth : Nat) (owner : Head) : List (String × Value) → List Step
  | [] => []
  | (name, .foreign raw) :: rest =>
    .visit ⟨depth, some (owner, name), .foreign raw⟩ :: courseOfFields depth owner rest
  | (_, value) :: rest => course depth value ++ courseOfFields depth owner rest

/-- The steps of the field of a name, if there is one. -/
def courseOfField (depth : Nat) (name : String) : List (String × Value) → List Step
  | [] => []
  | (key, value) :: rest =>
    if key = name then course depth value else courseOfField depth name rest

/-- The steps of the statements in the body of a function. -/
def courseOfBody (depth : Nat) : List (String × Value) → List Step
  | [] => []
  | (key, value) :: rest =>
    if key = "body" then
      match value with
      | .list items => courseOfItems depth items
      | _ => []
    else courseOfBody depth rest

/-- The steps of the first statement of a module. -/
def courseOfFirst (depth : Nat) : List (String × Value) → List Step
  | [] => []
  | (key, value) :: rest =>
    if key = "body" then
      match value with
      | .list (first :: _) => course depth first
      | _ => []
    else courseOfFirst depth rest

end

section Kinds

variable {depth : Nat} {head : Head} {fields : Fields}

/-- A module stands for its first statement. -/
theorem course_module (h : head.kind = .module) :
    course depth (.node head fields) =
      .visit ⟨depth, none, .node head fields⟩ :: courseOfFirst (depth + 1) fields := by
  rw [course, h]

/-- A function: decorators, arguments and returns, and its body inside the scope. -/
theorem course_function (h : head.kind = .functionDef) :
    course depth (.node head fields) =
      .visit ⟨depth, none, .node head fields⟩ ::
        (courseOfField (depth + 1) "decorator_list" fields ++
          (courseOfField (depth + 1) "args" fields ++
            (courseOfField (depth + 1) "returns" fields ++
              ([.make head, .enter (nameIn fields)] ++
                (courseOfBody (depth + 1) fields ++ [.leave (nameIn fields)]))))) := by
  rw [course, h]

/-- Any other node: itself and its fields in order. -/
theorem course_generic (h : head.kind.Generic) :
    course depth (.node head fields) =
      .visit ⟨depth, none, .node head fields⟩ ::
        .make head :: courseOfFields (depth + 1) head fields := by
  rw [course]
  split
  · exact absurd ‹_› h.1
  · exact absurd ‹_› h.2
  · rfl

end Kinds

/-! ### Following a course -/

/-- The translator after the rule of a visited node is applied, if it has
one. -/
def Translator.reach (limit : Nat) (visit : Visit) (t : Translator) : Translator :=
  match visit.value with
  | .node head _ =>
    if limit < visit.depth then t
    else match head.kind with
      | .module => { t with events := t.events ++ [.reached .module visit.depth] }
      | .functionDef =>
        { t with events := t.events ++ [.reached .functionDef visit.depth] }
      | _ => t
  | _ => t

/-- Do one step: what is refused, if anything, and the translator after it.
The scope's qualified name is recorded while it is entered. -/
def Step.take (limit : Nat) : Step → Translator → Option Fault × Translator
  | .visit v, t => (v.fault limit, t.reach limit v)
  | .make _, t => (none, { t with nextId := t.nextId + 1 })
  | .enter name, t =>
    let scope := t.scope.enter name
    (none, { t with scope := scope, events := t.events ++ [.entered scope.current] })
  | .leave name, t =>
    (none, { t with
      scope := t.scope.leave name
      events := t.events ++ [.completed t.scope.current] })

/-- Do the steps of a list up to the first that is refused. -/
def follow (limit : Nat) : List Step → Translator → Option Fault × Translator
  | [], t => (none, t)
  | step :: rest, t =>
    match step.take limit t with
    | (none, t) => follow limit rest t
    | (some fault, t) => (some fault, t)

/-- The values that the steps look at, in order. -/
def visits (steps : List Step) : List Visit :=
  steps.filterMap fun
    | .visit v => some v
    | _ => none

/-- The first value that is refused ends the following. -/
theorem follow_fault (limit : Nat) (steps : List Step) (t : Translator) :
    (follow limit steps t).1 = (visits steps).findSome? (Visit.fault limit) := by
  induction steps generalizing t with
  | nil => rfl
  | cons step steps ih =>
      cases step with
      | visit v =>
          simp only [follow, Step.take, visits, List.filterMap_cons, List.findSome?_cons]
          cases v.fault limit with
          | none => exact ih _
          | some fault => rfl
      | make | enter | leave => exact ih _

/-- A list of steps is followed part by part. -/
theorem follow_append (limit : Nat) (steps more : List Step) (t : Translator) :
    follow limit (steps ++ more) t =
      match follow limit steps t with
      | (none, t) => follow limit more t
      | (some fault, t) => (some fault, t) := by
  induction steps generalizing t with
  | nil => rfl
  | cons step steps ih =>
      simp only [List.cons_append, follow]
      split
      · exact ih _
      · rfl

/-! ### The fragment where nothing is refused -/

mutual

/-- The fragment of a value in a scope, numbered from `id`, and the number
after it.  A foreign value has none. -/
def rendered (scope : Scope) (id : Nat) : Value → Fragment × Nat
  | .scalar s => (.scalar s, id)
  | .list items =>
    let (items, id) := renderedItems scope id items
    (.list items, id)
  | .foreign _ => (.scalar .none, id)
  | .node head fields =>
    match head.kind with
    | .module => renderedFirst scope id fields
    | .functionDef =>
      let (decorators, id) := renderedField scope id "decorator_list" (.list []) fields
      let (arguments, id) := renderedField scope id "args" (.scalar .none) fields
      let (returns, id) := renderedField scope id "returns" (.scalar .none) fields
      let (body, after) := renderedBody (scope.enter (nameIn fields)) (id + 1) fields
      (.function
        { id := id
          name := nameIn fields
          qualifiedName := scope.current
          line := (head.location.map Location.line).getD 0
          column := (head.location.map Location.column).getD 0
          origin := head }
        decorators arguments returns body, after)
    | _ =>
      let (fields, after) := renderedFields scope (id + 1) fields
      (.node id head fields, after)

/-- The fragments of values, numbered one after the other. -/
def renderedItems (scope : Scope) (id : Nat) : List Value → List Fragment × Nat
  | [] => ([], id)
  | item :: rest =>
    let (fragment, id) := rendered scope id item
    let (fragments, id) := renderedItems scope id rest
    (fragment :: fragments, id)

/-- The fragments of the fields of a generic node. -/
def renderedFields (scope : Scope) (id : Nat) :
    List (String × Value) → List (String × Fragment) × Nat
  | [] => ([], id)
  | (name, value) :: rest =>
    let (fragment, id) := rendered scope id value
    let (fragments, id) := renderedFields scope id rest
    ((name, fragment) :: fragments, id)

/-- The fragment of the field of a name, if there is one. -/
def renderedField (scope : Scope) (id : Nat) (name : String) (absent : Fragment) :
    List (String × Value) → Fragment × Nat
  | [] => (absent, id)
  | (key, value) :: rest =>
    if key = name then rendered scope id value
    else renderedField scope id name absent rest

/-- The fragments of the statements in the body of a function. -/
def renderedBody (scope : Scope) (id : Nat) :
    List (String × Value) → List Fragment × Nat
  | [] => ([], id)
  | (key, value) :: rest =>
    if key = "body" then
      match value with
      | .list items => renderedItems scope id items
      | _ => ([], id)
    else renderedBody scope id rest

/-- The fragment of the first statement of a module. -/
def renderedFirst (scope : Scope) (id : Nat) :
    List (String × Value) → Fragment × Nat
  | [] => (.scalar .none, id)
  | (key, value) :: rest =>
    if key = "body" then
      match value with
      | .list (first :: _) => rendered scope id first
      | _ => (.scalar .none, id)
    else renderedFirst scope id rest

end

section Kinds

variable {scope : Scope} {id : Nat} {head : Head} {fields : Fields}

/-- A module is rendered as its first statement. -/
theorem rendered_module (h : head.kind = .module) :
    rendered scope id (.node head fields) = renderedFirst scope id fields := by
  rw [rendered, h]

/-- The head of a rendered function. -/
def functionHead (scope : Scope) (id : Nat) (head : Head) (fields : Fields) : FunctionHead :=
  { id := id
    name := nameIn fields
    qualifiedName := scope.current
    line := (head.location.map Location.line).getD 0
    column := (head.location.map Location.column).getD 0
    origin := head }

/-- A function is rendered with its body in the scope. -/
theorem rendered_function (h : head.kind = .functionDef) :
    rendered scope id (.node head fields) =
      let (decorators, id) := renderedField scope id "decorator_list" (.list []) fields
      let (arguments, id) := renderedField scope id "args" (.scalar .none) fields
      let (returns, id) := renderedField scope id "returns" (.scalar .none) fields
      let (body, after) := renderedBody (scope.enter (nameIn fields)) (id + 1) fields
      (.function (functionHead scope id head fields) decorators arguments returns body,
        after) := by
  rw [rendered, h]
  rfl

/-- Any other node is rendered with the next number. -/
theorem rendered_generic (h : head.kind.Generic) :
    rendered scope id (.node head fields) =
      let (fields, after) := renderedFields scope (id + 1) fields
      (.node id head fields, after) := by
  rw [rendered]
  split
  · exact absurd ‹_› h.1
  · exact absurd ‹_› h.2
  · rfl

end Kinds

/-! ### Runs of translations -/

/-- What comes after a computation starts where that ended, if it ended well. -/
theorem run_bind {α β : Type} (m : Translating α) (f : α → Translating β) (t : Translator) :
    (m >>= f).runFrom t =
      match m.runFrom t with
      | (.ok a, t') => (f a).runFrom t'
      | (.error fault, t') => (.error fault, t') := by
  simp only [Translating.runFrom, ExceptT.run_bind, StateT.run_bind]
  obtain ⟨outcome, t'⟩ := StateT.run (ExceptT.run m) t
  cases outcome <;> rfl

theorem run_throw {α : Type} (fault : Fault) (t : Translator) :
    (throw fault : Translating α).runFrom t = (.error fault, t) := rfl

theorem run_record {α : Type} (event : Event) (m : Translating α) (t : Translator) :
    (do record event; m).runFrom t = m.runFrom { t with events := t.events ++ [event] } := rfl

/-! ### Translations follow the course -/

/-- The computation follows the steps.  If none is refused it gives the
result, in the scope it started in; otherwise it fails with the fault of the
first that is, and restores the scope. -/
def Follows {α : Type} (limit : Nat) (m : Translating α) (steps : List Step)
    (result : Scope → Nat → α × Nat) : Prop :=
  ∀ t, match follow limit steps t with
    | (none, t') =>
      m.runFrom t = (.ok (result t.scope t.nextId).1, t') ∧
        t'.scope = t.scope ∧ t'.nextId = (result t.scope t.nextId).2
    | (some fault, t') => m.runFrom t = (.error fault, { t' with scope := t.scope })

namespace Follows

variable {α β : Type} {limit : Nat}

theorem pure (a : α) : Follows limit (Pure.pure a) [] fun _ id => (a, id) :=
  fun _ => ⟨rfl, rfl, rfl⟩

theorem bind {m : Translating α} {f : α → Translating β} {steps more : List Step}
    {result : Scope → Nat → α × Nat} {further : α → Scope → Nat → β × Nat}
    (hm : Follows limit m steps result) (hf : ∀ a, Follows limit (f a) more (further a)) :
    Follows limit (m >>= f) (steps ++ more) fun scope id =>
      further (result scope id).1 scope (result scope id).2 := by
  intro t
  have hm := hm t
  rw [follow_append]
  generalize follow limit steps t = first at hm ⊢
  obtain ⟨refused, t'⟩ := first
  cases refused with
  | some fault =>
      simp only at hm ⊢
      rw [run_bind, hm]
  | none =>
      obtain ⟨hok, hscope, hid⟩ := hm
      have hf := hf (result t.scope t.nextId).1 t'
      simp only
      rw [run_bind, hok]
      generalize follow limit more t' = second at hf ⊢
      obtain ⟨refused, t''⟩ := second
      rw [hscope] at hf
      cases refused with
      | some fault => exact hf
      | none =>
          rw [hid] at hf
          exact hf

/-- What is returned is made of the result. -/
theorem map {m : Translating α} {steps : List Step} {result : Scope → Nat → α × Nat}
    (h : Follows limit m steps result) (f : α → β) :
    Follows limit (do let a ← m; return f a) steps fun scope id =>
      (f (result scope id).1, (result scope id).2) := by
  have h := h.bind fun a => pure (f a)
  rwa [List.append_nil] at h

/-- Two results, one after the other, are put together. -/
theorem pair {γ : Type} {m : Translating α} {n : Translating β} {steps more : List Step}
    {result : Scope → Nat → α × Nat} {further : Scope → Nat → β × Nat}
    (hm : Follows limit m steps result) (hn : Follows limit n more further) (f : α → β → γ) :
    Follows limit (do let a ← m; let b ← n; return f a b) (steps ++ more) fun scope id =>
      (f (result scope id).1 (further scope (result scope id).2).1,
        (further scope (result scope id).2).2) :=
  hm.bind fun a => hn.map (f a)

/-- A computation that looks at the name of its scope. -/
theorem reading {k : String → Translating α} {steps : List Step}
    {result : String → Scope → Nat → α × Nat}
    (h : ∀ name, Follows limit (k name) steps (result name)) :
    Follows limit (do k (← get).scope.current) steps fun scope id =>
      result scope.current scope id :=
  fun t => h t.scope.current t

/-- What is done inside a scope happens between entering and leaving it. -/
theorem inside {m : Translating α} {steps : List Step} {result : Scope → Nat → α × Nat}
    (name : String) (h : Follows limit m steps result) :
    Follows limit
      (within name do
        record (.entered (← get).scope.current)
        let a ← m
        record (.completed (← get).scope.current)
        return a)
      (.enter name :: (steps ++ [.leave name]))
      fun scope id => result (scope.enter name) id := by
  intro t
  generalize ht : ({ t with
    scope := t.scope.enter name
    events := t.events ++ [.entered (t.scope.enter name).current] } : Translator) = inner
  have hscope : inner.scope = t.scope.enter name := by rw [← ht]
  have hid : inner.nextId = t.nextId := by rw [← ht]
  have hrun : (within name do
        record (.entered (← get).scope.current)
        let a ← m
        record (.completed (← get).scope.current)
        return a).runFrom t =
      (let run := (m >>= fun a => do
          record (.completed (← get).scope.current)
          return a).runFrom inner
       (run.1, { run.2 with scope := run.2.scope.leave name })) := by
    rw [← ht]
    rfl
  have h := h inner
  have hfollow : follow limit (.enter name :: (steps ++ [.leave name])) t =
      follow limit (steps ++ [.leave name]) inner := by rw [← ht]; rfl
  rw [hfollow, follow_append]
  generalize follow limit steps inner = followed at h ⊢
  obtain ⟨refused, t'⟩ := followed
  -- on both ways out the scope is the one from before
  cases refused with
  | some fault =>
      simp only at h ⊢
      rw [hrun, run_bind, h, hscope]
      simp only [Scope.leave_enter]
  | none =>
      obtain ⟨hok, hscope', hid'⟩ := h
      simp only [follow, Step.take]
      rw [hscope, hid] at hid' hok
      rw [hrun, run_bind, hok]
      refine ⟨rfl, ?_, hid'⟩
      rw [hscope', hscope, Scope.leave_enter]

/-- The next number goes to a fragment. -/
theorem next (head : Head) : Follows limit next [.make head] fun _ id => (id, id + 1) :=
  fun _ => ⟨rfl, rfl, rfl⟩

end Follows

/-- A visit does not change the scope. -/
theorem reach_scope (limit : Nat) (v : Visit) (t : Translator) :
    (t.reach limit v).scope = t.scope := by
  unfold Translator.reach
  repeat' split
  all_goals rfl

/-- A visit takes no number. -/
theorem reach_nextId (limit : Nat) (v : Visit) (t : Translator) :
    (t.reach limit v).nextId = t.nextId := by
  unfold Translator.reach
  repeat' split
  all_goals rfl

/-- What is done after a value is looked at, unless it is refused. -/
theorem Follows.visit {α : Type} {limit : Nat} {m after : Translating α} {v : Visit}
    {steps : List Step} {result : Scope → Nat → α × Nat}
    (hafter : v.fault limit = none → Follows limit after steps result)
    (hrun : ∀ t, m.runFrom t = match v.fault limit with
      | none => after.runFrom (t.reach limit v)
      | some fault => (.error fault, t.reach limit v)) :
    Follows limit m (.visit v :: steps) result := by
  intro t
  have hrun := hrun t
  simp only [follow, Step.take]
  cases hfault : v.fault limit with
  | none =>
      rw [hfault] at hrun
      have h := hafter hfault (t.reach limit v)
      rw [reach_scope, reach_nextId] at h
      simp only at hrun ⊢
      rwa [hrun]
  | some fault =>
      rw [hfault] at hrun
      simp only
      rw [hrun, ← reach_scope limit v t]

/-- A value that is refused in any case. -/
theorem Follows.refuse {α : Type} {limit : Nat} {v : Visit} {fault : Fault} {steps : List Step}
    {result : Scope → Nat → α × Nat} (hfault : v.fault limit = some fault)
    (hreach : ∀ t, Translator.reach limit v t = t) :
    Follows limit (throw fault : Translating α) (.visit v :: steps) result := by
  refine @Follows.visit α limit _ (throw fault) v steps result ?_ fun t => ?_
  · rw [hfault]
    nofun
  · rw [hfault, hreach]
    rfl

/-! ### The rules for modules and functions -/

/-- A module is translated by its first statement. -/
theorem translateFirst_eq (config : Config) (depth : Nat) (head : Head) (fields : Fields) :
    translateFirst config depth head fields =
      match Members.get? "body" fields with
      | none => throw (malformed .moduleWithoutBody head)
      | some (.list (first :: _)) => translateValue config (depth + 1) first
      | some (.list []) => throw (malformed .moduleEmpty head)
      | some _ => throw (malformed .moduleBodyNotList head) := by
  induction fields with
  | nil => rw [translateFirst, Members.get?]
  | cons field fields ih =>
      obtain ⟨key, value⟩ := field
      rw [Members.get?]
      by_cases hkey : key = "body"
      · rw [if_pos hkey]
        cases value with
        | list items => cases items <;> rw [translateFirst, if_pos hkey]
        | scalar | node | foreign => rw [translateFirst, if_pos hkey] <;> (intros; contradiction)
      · rw [if_neg hkey, ← ih]
        cases value with
        | list items => cases items <;> rw [translateFirst, if_neg hkey]
        | scalar | node | foreign => rw [translateFirst, if_neg hkey] <;> (intros; contradiction)

/-- A function whose form is right has a name. -/
theorem functionForm_ok {head : Head} {fields : Fields} {name : String} {body : List Value}
    (h : functionForm head fields = .ok (name, body)) : nameIn fields = name := by
  unfold functionForm at h
  unfold nameIn
  cases hname : (Members.get? "name" fields).bind Value.asText with
  | none => simp [hname] at h
  | some found =>
      simp only [hname] at h
      split at h
      · cases h
      · cases h
        rfl

/-- How a function is translated whose form is right. -/
def translateFunction (config : Config) (depth : Nat) (head : Head) (fields : Fields) :
    Translating Fragment := do
  let declaredIn := (← get).scope.current
  let decorators ← translateField config depth "decorator_list" (.list []) fields
  let arguments ← translateField config depth "args" (.scalar .none) fields
  let returns ← translateField config depth "returns" (.scalar .none) fields
  let id ← next
  let body ← within (nameIn fields) do
    record (.entered (← get).scope.current)
    let body ← translateBody config depth fields
    record (.completed (← get).scope.current)
    return body
  return .function
    { id := id
      name := nameIn fields
      qualifiedName := declaredIn
      line := (head.location.map Location.line).getD 0
      column := (head.location.map Location.column).getD 0
      origin := head }
    decorators arguments returns body

/-- What the rule of a node does, after the node is looked at. -/
def translateNode (config : Config) (depth : Nat) (head : Head) (fields : Fields) :
    Translating Fragment :=
  match head.kind with
  | .module => translateFirst config depth head fields
  | .functionDef => translateFunction config (depth + 1) head fields
  | _ => do
    let id ← next
    let fields ← translateFields config (depth + 1) head fields
    return .node id head fields

/-- The run of a translation of a node: too deep, or by its rule. -/
theorem run_node (config : Config) (depth : Nat) (head : Head) (fields : Fields) (t : Translator) :
    (translateValue config depth (.node head fields)).runFrom t =
      match (Visit.mk depth none (.node head fields)).fault config.maxDepth with
      | none => (translateNode config depth head fields).runFrom
          (t.reach config.maxDepth ⟨depth, none, .node head fields⟩)
      | some fault => (.error fault, t.reach config.maxDepth ⟨depth, none, .node head fields⟩) := by
  rw [translateValue]
  simp only [Visit.fault, Translator.reach, translateNode]
  by_cases hdeep : config.maxDepth < depth
  · simp only [hdeep, if_true, run_throw]
  · simp only [hdeep, if_false]
    split
    next hkind =>
        simp only [hkind, formFault, run_record]
        rw [translateFirst_eq]
        cases Members.get? "body" fields with
        | none => simp only [run_throw]
        | some body =>
            cases body with
            | list items => cases items <;> simp only [run_throw]
            | scalar | node | foreign => simp only [run_throw]
    next hkind =>
        simp only [hkind, formFault, run_record]
        cases hform : functionForm head fields with
        | error fault => simp only [run_throw]
        | ok found =>
            obtain ⟨name, body⟩ := found
            rw [← functionForm_ok hform, translateFunction]
    next hmodule hfunction =>
        simp only [formFault_generic ⟨hmodule, hfunction⟩]

/-- A module without a fault of form has a first statement. -/
theorem exists_first_of_formFault {head : Head} {fields : Fields} (hkind : head.kind = .module)
    (h : formFault head fields = none) :
    ∃ first rest, Members.get? "body" fields = some (.list (first :: rest)) := by
  simp only [formFault, hkind] at h
  split at h
  · cases h
  next first rest hbody => exact ⟨first, rest, hbody⟩
  · cases h
  · cases h

/-- What is visited without a fault has the right form. -/
theorem form_ok {limit depth : Nat} {head : Head} {fields : Fields}
    (h : (Visit.mk depth none (.node head fields)).fault limit = none) :
    formFault head fields = none := by
  simp only [Visit.fault] at h
  split at h
  · cases h
  · exact h

/-- A generic node takes a number, and then its fields are translated. -/
theorem translateNode_generic {config : Config} {depth : Nat} {head : Head} {fields : Fields}
    (h : head.kind.Generic) :
    translateNode config depth head fields = (do
      let id ← next
      let fields ← translateFields config (depth + 1) head fields
      return .node id head fields) := by
  unfold translateNode
  split
  · exact absurd ‹_› h.1
  · exact absurd ‹_› h.2
  · rfl

mutual

/-- **A translation follows the course of its value.** -/
theorem follows_value (config : Config) (depth : Nat) : (value : Value) →
    Follows config.maxDepth (translateValue config depth value) (course depth value)
      fun scope id => rendered scope id value
  | .scalar s => by
      rw [translateValue, course]
      exact .visit (fun _ => .pure _) fun _ => rfl
  | .list items => by
      rw [translateValue, course]
      exact .visit (fun _ => (follows_items config depth items).map Fragment.list) fun _ => rfl
  | .foreign raw => by
      rw [translateValue, course]
      exact .refuse rfl fun _ => rfl
  | .node head fields => by
      rcases head.kind.by_rule with hkind | hkind | hkind
      · rw [course_module hkind]
        simp only [rendered_module hkind]
        refine .visit (fun hfault => ?_) (run_node config depth head fields)
        rw [translateNode, hkind]
        exact follows_first config depth head fields
          (exists_first_of_formFault hkind (form_ok hfault))
      · rw [course_function hkind]
        simp only [rendered_function hkind]
        refine .visit (fun _ => ?_) (run_node config depth head fields)
        have h := Follows.reading fun declaredIn =>
          (follows_field config (depth + 1) "decorator_list" (.list []) fields).bind
            fun decorators =>
          (follows_field config (depth + 1) "args" (.scalar .none) fields).bind fun arguments =>
          (follows_field config (depth + 1) "returns" (.scalar .none) fields).bind fun returns =>
          (Follows.next head).bind fun id =>
          (Follows.inside (nameIn fields) (follows_body config (depth + 1) fields)).map fun body =>
            Fragment.function
              { functionHead ⟨"", []⟩ id head fields with qualifiedName := declaredIn }
              decorators arguments returns body
        rw [translateNode, hkind]
        exact h
      · rw [course_generic hkind]
        simp only [rendered_generic hkind]
        refine .visit (fun _ => ?_) (run_node config depth head fields)
        rw [translateNode_generic hkind]
        exact (Follows.next head).bind fun id =>
          (follows_fields config (depth + 1) head fields).map (Fragment.node id head)

/-- Items follow their courses, one after the other. -/
theorem follows_items (config : Config) (depth : Nat) : (items : List Value) →
    Follows config.maxDepth (translateItems config depth items) (courseOfItems depth items)
      fun scope id => renderedItems scope id items
  | [] => .pure []
  | item :: rest => by
      rw [translateItems, courseOfItems]
      exact (follows_value config depth item).pair (follows_items config depth rest) List.cons

/-- Fields follow their courses, one after the other. -/
theorem follows_fields (config : Config) (depth : Nat) (owner : Head) :
    (fields : List (String × Value)) →
    Follows config.maxDepth (translateFields config depth owner fields)
      (courseOfFields depth owner fields) fun scope id => renderedFields scope id fields
  | [] => .pure []
  | (name, .foreign raw) :: rest => by
      rw [translateFields, courseOfFields]
      exact .refuse rfl fun _ => rfl
  | (name, .scalar _) :: rest | (name, .node _ _) :: rest | (name, .list _) :: rest => by
      simp only [translateFields, courseOfFields, renderedFields]
      exact (follows_value config depth _).pair (follows_fields config depth owner rest)
        fun fragment fragments => (name, fragment) :: fragments

/-- One field follows its course, if it is there. -/
theorem follows_field (config : Config) (depth : Nat) (name : String) (absent : Fragment) :
    (fields : List (String × Value)) →
    Follows config.maxDepth (translateField config depth name absent fields)
      (courseOfField depth name fields) fun scope id => renderedField scope id name absent fields
  | [] => .pure absent
  | (key, value) :: rest => by
      rw [translateField, courseOfField]
      simp only [renderedField]
      split
      · exact follows_value config depth value
      · exact follows_field config depth name absent rest

/-- The statements of a body follow their courses. -/
theorem follows_body (config : Config) (depth : Nat) : (fields : List (String × Value)) →
    Follows config.maxDepth (translateBody config depth fields)
      (courseOfBody depth fields) fun scope id => renderedBody scope id fields
  | [] => .pure []
  | (key, .list items) :: rest => by
      simp only [translateBody, courseOfBody, renderedBody]
      split
      · exact follows_items config depth items
      · exact follows_body config depth rest
  | (key, .scalar _) :: rest | (key, .node _ _) :: rest | (key, .foreign _) :: rest => by
      simp only [translateBody, courseOfBody, renderedBody]
      split
      · exact .pure []
      · exact follows_body config depth rest

/-- The first statement follows its course. -/
theorem follows_first (config : Config) (depth : Nat) (head : Head) :
    (fields : List (String × Value)) →
    (∃ first rest, Members.get? "body" fields = some (.list (first :: rest))) →
    Follows config.maxDepth (translateFirst config depth head fields)
      (courseOfFirst (depth + 1) fields) fun scope id => renderedFirst scope id fields
  | [], h => by simp [Members.get?] at h
  | (key, .list (first :: items)) :: rest, h => by
      simp only [translateFirst, courseOfFirst, renderedFirst, Members.get?] at h ⊢
      split
      · exact follows_value config (depth + 1) first
      next hkey =>
        simp only [hkey, if_false] at h
        exact follows_first config depth head rest h
  | (key, .list []) :: rest, h | (key, .scalar _) :: rest, h | (key, .node _ _) :: rest, h
  | (key, .foreign _) :: rest, h => by
      simp only [translateFirst, courseOfFirst, renderedFirst, Members.get?] at h ⊢
      split
      next hkey => simp [hkey] at h
      next hkey =>
        simp only [hkey, if_false] at h
        exact follows_first config depth head rest h

end

/-- **A translation of a tree** follows the course of the tree; what comes of
it has to be a function. -/
theorem run_translateTree (config : Config) (tree : Node) (t : Translator) :
    (translateTree config tree).runFrom t =
      match follow config.maxDepth (course 0 tree.toValue) t with
      | (some fault, t') => (.error fault, { t' with scope := t.scope })
      | (none, t') =>
        match (rendered t.scope t.nextId tree.toValue).1.asFunction with
        | some function => (.ok function, t')
        | none => (.error (malformed (.rootNotFunction
            (rendered t.scope t.nextId tree.toValue).1.description) tree.head), t') := by
  have h := follows_value config 0 tree.toValue t
  rw [translateTree, run_bind]
  generalize follow config.maxDepth (course 0 tree.toValue) t = followed at h ⊢
  obtain ⟨refused, t'⟩ := followed
  cases refused with
  | some fault =>
      simp only at h ⊢
      rw [h]
  | none =>
      simp only at h ⊢
      rw [h.1]
      simp only
      cases (rendered t.scope t.nextId tree.toValue).1.asFunction <;> rfl

end FunctionIR
