import FunctionIR.Proofs.Translation.Calls

/-!
# When a translation succeeds, and why it fails

A translation visits the places of a tree in the order of its course and is
refused at the first one where something is wrong: a node too deep, a foreign
value, a function without a name or body, a module without a first statement.
If every place is in order, all that can still be wrong is that the tree does
not stand for a function.

`outcome_of_translation` says so: success is what the visited places and the
root say, and the fault is that of the first place in the order of visits.
-/

namespace FunctionIR

/-- Nothing is wrong with a value that is looked at. -/
structure Visit.Sound (limit : Nat) (visit : Visit) : Prop where
  /-- A node is not too deep. -/
  shallow : ∀ head fields, visit.value = .node head fields → visit.depth ≤ limit
  /-- No value is foreign. -/
  known : ∀ raw, visit.value ≠ .foreign raw
  /-- A function has a name and a body. -/
  function : ∀ head fields, visit.value = .node head fields → head.kind = .functionDef →
    (∃ name, Members.get? "name" fields = some (.str name)) ∧
      ∃ body, Members.get? "body" fields = some (.list body)
  /-- A module has a first statement. -/
  module : ∀ head fields, visit.value = .node head fields → head.kind = .module →
    ∃ first rest, Members.get? "body" fields = some (.list (first :: rest))

/-- A value is a text exactly if it is that text. -/
theorem asText_eq_some {value : Value} {text : String} :
    value.asText = some text ↔ value = .str text := by
  unfold Value.asText Value.str
  split <;> simp_all

/-- A value is a list exactly if it is that list. -/
theorem asList_eq_some {value : Value} {items : List Value} :
    value.asList = some items ↔ value = .list items := by
  unfold Value.asList
  split <;> simp_all

/-- A function's form is right if it has a name and a body. -/
theorem formFault_function {head : Head} {fields : Fields} (h : head.kind = .functionDef) :
    formFault head fields = none ↔
      (∃ name, Members.get? "name" fields = some (.str name)) ∧
        ∃ body, Members.get? "body" fields = some (.list body) := by
  simp only [formFault, h, functionForm]
  cases hname : (Members.get? "name" fields).bind Value.asText with
  | none =>
      simp only [Option.bind_eq_none_iff] at hname
      refine iff_of_false (by simp) ?_
      rintro ⟨⟨name, hfound⟩, -⟩
      simpa [Value.asText, Value.str] using hname _ hfound
  | some name =>
      obtain ⟨_, hfound, htext⟩ := Option.bind_eq_some_iff.mp hname
      rw [asText_eq_some] at htext
      subst htext
      cases hbody : (Members.get? "body" fields).bind Value.asList with
      | none =>
          simp only [Option.bind_eq_none_iff] at hbody
          refine iff_of_false (by simp) ?_
          rintro ⟨-, body, hfound⟩
          simpa [Value.asList] using hbody _ hfound
      | some body =>
          obtain ⟨_, hfound', hlist⟩ := Option.bind_eq_some_iff.mp hbody
          rw [asList_eq_some] at hlist
          subst hlist
          exact iff_of_true rfl ⟨⟨name, hfound⟩, body, hfound'⟩

/-- A module's form is right if it has a first statement. -/
theorem formFault_module {head : Head} {fields : Fields} (h : head.kind = .module) :
    formFault head fields = none ↔
      ∃ first rest, Members.get? "body" fields = some (.list (first :: rest)) := by
  refine ⟨exists_first_of_formFault h, ?_⟩
  rintro ⟨first, rest, hbody⟩
  simp only [formFault, h, hbody]

/-- A value has no fault if nothing is wrong with it. -/
theorem Visit.fault_eq_none {limit : Nat} {visit : Visit} :
    visit.fault limit = none ↔ visit.Sound limit := by
  obtain ⟨depth, site, value⟩ := visit
  cases value with
  | scalar | list => exact iff_of_true rfl ⟨by simp, by simp, by simp, by simp⟩
  | foreign raw =>
      refine iff_of_false ?_ fun h => h.known raw rfl
      cases site <;> simp [Visit.fault]
  | node head fields =>
      simp only [Visit.fault]
      by_cases hdeep : limit < depth
      · rw [if_pos hdeep]
        exact iff_of_false (by simp) fun h =>
          absurd hdeep (by simpa using h.shallow head fields rfl)
      · rw [if_neg hdeep]
        constructor
        · intro h
          refine ⟨fun _ _ _ => Nat.le_of_not_lt hdeep, by simp, ?_, ?_⟩
          · rintro _ _ ⟨⟩ hkind
            exact (formFault_function hkind).mp h
          · rintro _ _ ⟨⟩ hkind
            exact (formFault_module hkind).mp h
        · intro h
          rcases head.kind.by_rule with hkind | hkind | hkind
          · exact (formFault_module hkind).mpr (h.module head fields rfl hkind)
          · exact (formFault_function hkind).mpr (h.function head fields rfl hkind)
          · exact formFault_generic hkind fields

/-! ### What a tree stands for -/

mutual

/-- What a value stands for: a module for what its first statement stands
for, everything else for itself. -/
def Value.resolved : Value → Value
  | .node head fields =>
    match head.kind with
    | .module => resolvedFirst fields
    | _ => .node head fields
  | .scalar s => .scalar s
  | .list items => .list items
  | .foreign raw => .foreign raw

/-- What the first statement of a module stands for. -/
def resolvedFirst : List (String × Value) → Value
  | [] => .absent
  | (key, value) :: rest =>
    if key = "body" then
      match value with
      | .list (first :: _) => first.resolved
      | _ => .absent
    else resolvedFirst rest

end

/-- The value stands for a function. -/
def Value.StandsForFunction (value : Value) : Prop :=
  ∃ head fields, value.resolved = .node head fields ∧ head.kind = .functionDef

/-- What is no module stands for itself. -/
theorem resolved_of_ne_module {head : Head} (h : head.kind ≠ .module) (fields : Fields) :
    (Value.node head fields).resolved = .node head fields := by
  rw [Value.resolved]
  split
  · exact absurd ‹_› h
  · rfl

/-- A module stands for what its first statement does. -/
theorem resolved_module {head : Head} (h : head.kind = .module) (fields : Fields) :
    (Value.node head fields).resolved = resolvedFirst fields := by
  rw [Value.resolved, h]

mutual

/-- A value is rendered as what it stands for. -/
theorem rendered_resolved (scope : Scope) (id : Nat) : (value : Value) →
    rendered scope id value = rendered scope id value.resolved
  | .scalar _ | .list _ | .foreign _ => by rw [Value.resolved]
  | .node head fields => by
      by_cases hkind : head.kind = .module
      · rw [resolved_module hkind, rendered_module hkind]
        exact renderedFirst_resolved scope id fields
      · rw [resolved_of_ne_module hkind]

/-- The first statement is rendered as what it stands for. -/
theorem renderedFirst_resolved (scope : Scope) (id : Nat) : (fields : List (String × Value)) →
    renderedFirst scope id fields = rendered scope id (resolvedFirst fields)
  | [] => by rw [renderedFirst, resolvedFirst, Value.absent, rendered]
  | (key, .list (first :: _)) :: rest => by
      simp only [renderedFirst, resolvedFirst]
      split
      · exact rendered_resolved scope id first
      · exact renderedFirst_resolved scope id rest
  | (key, .list []) :: rest | (key, .scalar _) :: rest | (key, .node _ _) :: rest
  | (key, .foreign _) :: rest => by
      simp only [renderedFirst, resolvedFirst]
      split
      · rw [Value.absent, rendered]
      · exact renderedFirst_resolved scope id rest

end

mutual

/-- A tree does not stand for a module. -/
theorem resolved_ne_module : (value : Value) → {head : Head} → {fields : Fields} →
    value.resolved = .node head fields → head.kind ≠ .module
  | .scalar _, _, _, h | .list _, _, _, h | .foreign _, _, _, h => by
      rw [Value.resolved] at h
      cases h
  | .node head fields, _, _, h => by
      by_cases hkind : head.kind = .module
      · rw [resolved_module hkind] at h
        exact resolvedFirst_ne_module fields h
      · rw [resolved_of_ne_module hkind] at h
        cases h
        exact hkind

/-- What stands for something is no module. -/
theorem resolvedFirst_ne_module : (fields : List (String × Value)) → {head : Head} →
    {fields' : Fields} → resolvedFirst fields = .node head fields' → head.kind ≠ .module
  | [], _, _, h => by cases h
  | (key, .list (first :: _)) :: rest, _, _, h => by
      simp only [resolvedFirst] at h
      split at h
      · exact resolved_ne_module first h
      · exact resolvedFirst_ne_module rest h
  | (key, .list []) :: rest, _, _, h | (key, .scalar _) :: rest, _, _, h
  | (key, .node _ _) :: rest, _, _, h | (key, .foreign _) :: rest, _, _, h => by
      simp only [resolvedFirst] at h
      split at h
      · cases h
      · exact resolvedFirst_ne_module rest h

end

mutual

/-- A foreign value that a tree stands for is visited. -/
theorem foreign_visited {raw : Json} (depth : Nat) : (value : Value) →
    value.resolved = .foreign raw → ∃ v ∈ visits (course depth value), v.value = .foreign raw
  | .scalar _, h | .list _, h => by
      rw [Value.resolved] at h
      cases h
  | .foreign _, h => by
      rw [Value.resolved] at h
      cases h
      exact ⟨_, List.mem_singleton_self _, rfl⟩
  | .node head fields, h => by
      by_cases hkind : head.kind = .module
      · rw [resolved_module hkind] at h
        rw [course_module hkind]
        obtain ⟨v, hmem, hv⟩ := foreignFirst_visited (depth + 1) fields h
        exact ⟨v, List.mem_cons_of_mem _ hmem, hv⟩
      · rw [resolved_of_ne_module hkind] at h
        cases h

/-- Foreign data that a module stands for is visited. -/
theorem foreignFirst_visited {raw : Json} (depth : Nat) : (fields : List (String × Value)) →
    resolvedFirst fields = .foreign raw →
      ∃ v ∈ visits (courseOfFirst depth fields), v.value = .foreign raw
  | [], h => by cases h
  | (key, .list (first :: _)) :: rest, h => by
      simp only [resolvedFirst, courseOfFirst] at h ⊢
      split at h
      next hkey =>
        rw [if_pos hkey]
        exact foreign_visited depth first h
      next hkey =>
        rw [if_neg hkey]
        exact foreignFirst_visited depth rest h
  | (key, .list []) :: rest, h | (key, .scalar _) :: rest, h
  | (key, .node _ _) :: rest, h | (key, .foreign _) :: rest, h => by
      simp only [resolvedFirst, courseOfFirst] at h ⊢
      split at h
      · cases h
      next hkey =>
        rw [if_neg hkey]
        exact foreignFirst_visited depth rest h

end

/-! ### The outcome -/

/-- The values of a tree that a translation visits, in order. -/
def Node.visited (tree : Node) : List Visit := visits (course 0 tree.toValue)

/-- What is wrong with a tree that does not stand for a function. -/
def Node.rootFault (tree : Node) : Option Fault :=
  match tree.toValue.resolved with
  | .node head _ =>
    if head.kind = .functionDef then none
    else some (malformed (.rootNotFunction head.kind.tag) tree.head)
  | .list _ => some (malformed (.rootNotFunction "a sequence") tree.head)
  | .scalar s => some (malformed (.rootNotFunction ("scalar " ++ s.dump)) tree.head)
  | .foreign _ => none

/-- The first thing wrong with a tree: at a visited place, or else with what
the tree stands for. -/
def Node.firstFault (limit : Nat) (tree : Node) : Option Fault :=
  (tree.visited.findSome? (Visit.fault limit)).or tree.rootFault

/-- Without a fault at a visited place, the rendered fragment is a function
where the tree stands for one, and otherwise is described as what it stands
for. -/
theorem rendered_root {limit : Nat} {tree : Node}
    (h : tree.visited.findSome? (Visit.fault limit) = none) (scope : Scope) (id : Nat) :
    let fragment := (rendered scope id tree.toValue).1
    (tree.rootFault = none ∧ tree.toValue.StandsForFunction ∧
        ∃ function, fragment.asFunction = some function) ∨
      (tree.rootFault = some (malformed (.rootNotFunction fragment.description) tree.head) ∧
        ¬ tree.toValue.StandsForFunction ∧ fragment.asFunction = none) := by
  simp only [Node.rootFault, Value.StandsForFunction, rendered_resolved scope id tree.toValue]
  cases hroot : tree.toValue.resolved with
  | scalar s => exact .inr ⟨rfl, by simp, rfl⟩
  | list items => exact .inr ⟨rfl, by simp, rfl⟩
  | foreign raw =>
      obtain ⟨v, hmem, hv⟩ := foreign_visited 0 _ hroot
      have hsound := Visit.fault_eq_none.mp (List.findSome?_eq_none_iff.mp h v hmem)
      exact absurd hv (hsound.known raw)
  | node head fields =>
      by_cases hkind : head.kind = .functionDef
      · refine .inl ⟨if_pos hkind, ⟨head, fields, rfl, hkind⟩, ?_⟩
        rw [rendered_function hkind]
        exact ⟨_, rfl⟩
      · have hgeneric : head.kind.Generic := ⟨resolved_ne_module _ hroot, hkind⟩
        rw [rendered_generic hgeneric]
        refine .inr ⟨if_neg hkind, ?_, rfl⟩
        rintro ⟨_, _, ⟨⟩, hfunction⟩
        exact hkind hfunction

/-- A translation that fails does so with the first fault. -/
theorem Session.translateIn_eq_error {session : Session} {tree : Node} {fault : Fault} :
    (session.translateIn tree).1 = .error fault ↔
      tree.firstFault session.config.maxDepth = some fault := by
  have hrun := run_translateTree session.config tree session.translator
  have hfault := follow_fault session.config.maxDepth (course 0 tree.toValue) session.translator
  rw [(translateIn_run tree).1, hrun, Node.firstFault]
  change _ = tree.visited.findSome? _ at hfault
  generalize follow session.config.maxDepth (course 0 tree.toValue) session.translator =
    followed at hfault
  obtain ⟨refused, after⟩ := followed
  simp only at hfault
  rw [← hfault]
  cases refused with
  | some fault => simp
  | none =>
      rcases rendered_root hfault.symm session.translator.scope session.translator.nextId with
        ⟨hroot, -, function, hfunction⟩ | ⟨hroot, -, hfunction⟩
      · simp [hroot, hfunction]
      · simp [hroot, hfunction]

/-- There is no fault if nothing is wrong at the visited places and the tree
stands for a function. -/
theorem Node.firstFault_eq_none {limit : Nat} {tree : Node} :
    tree.firstFault limit = none ↔
      (∀ visit ∈ tree.visited, visit.Sound limit) ∧ tree.toValue.StandsForFunction := by
  have hvisits : (∀ visit ∈ tree.visited, visit.Sound limit) ↔
      tree.visited.findSome? (Visit.fault limit) = none := by
    simp only [List.findSome?_eq_none_iff, Visit.fault_eq_none]
  rw [hvisits, Node.firstFault, Option.or_eq_none_iff]
  refine and_congr_right fun h => ?_
  rcases rendered_root h (.top "") 0 with ⟨hroot, hstands, -⟩ | ⟨hroot, hstands, -⟩
  · simp [hroot, hstands]
  · simp [hroot, hstands]

/-- **When a translation succeeds, and why it fails.**  It succeeds if nothing
is wrong at the visited places and the tree stands for a function, and
otherwise fails with the first fault. -/
theorem outcome_of_translation (session : Session) (tree : Node) :
    ((∃ function, (session.translateIn tree).1 = .ok function) ↔
      (∀ visit ∈ tree.visited, visit.Sound session.config.maxDepth) ∧
        tree.toValue.StandsForFunction) ∧
    ∀ fault, (session.translateIn tree).1 = .error fault ↔
      tree.firstFault session.config.maxDepth = some fault := by
  refine ⟨?_, fun fault => Session.translateIn_eq_error⟩
  rw [← Node.firstFault_eq_none, Option.eq_none_iff_forall_ne_some]
  cases houtcome : (session.translateIn tree).1 with
  | error fault =>
      have := Session.translateIn_eq_error.mp houtcome
      simp [this]
  | ok function =>
      refine iff_of_true ⟨function, rfl⟩ fun fault h => ?_
      rw [Session.translateIn_eq_error.mpr h] at houtcome
      cases houtcome

end FunctionIR
