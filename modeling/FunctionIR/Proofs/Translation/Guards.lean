import FunctionIR.Proofs.Translation.Calls

/-!
# Guards of scopes

Every scope that is entered has a **guard**, and the scope is left when its
guard is dropped.  A guard knows the name it was made for: where that is empty,
nothing was pushed and dropping the guard pops nothing; any other guard pops
the innermost name, and there has to be one (`Scope.exit?`).

The guards of a caller live as long as the caller likes.  A translation makes
guards of its own and drops all of them before it returns: in order where it
succeeds, and on the way out where a value is refused in the middle of it.
`guarded` follows a course in this way, with the guards that are live beside
the scope and every drop checked.  A course enters and leaves scopes in pairs
(`Paired`), and so no drop finds the scope empty, and the guarded run ends like
the translation (`guarded_value`).

From this a whole run is told by the guards of the caller alone
(`scope_of_guards`).
-/

namespace FunctionIR

/-! ### Dropping guards -/

namespace Scope

/-- Drop the guard of a name.  The guard of an empty name pops nothing; for any
other there has to be something to pop. -/
def exit? (name : String) (scope : Scope) : Option Scope :=
  if name = "" then some scope
  else if scope.names = [] then none
  else some (scope.leave name)

/-- Drop guards, the innermost first. -/
def unwind? : List String → Scope → Option Scope
  | [], scope => some scope
  | name :: guards, scope => (scope.exit? name).bind (unwind? guards)

/-- Where there is something to pop, the drop leaves the scope. -/
theorem exit?_enter (name : String) (scope : Scope) : (scope.enter name).exit? name = some scope := by
  by_cases h : name = ""
  · simp [exit?, enter, h]
  · have hleave := leave_enter name scope
    simp only [enter, h, if_false] at hleave ⊢
    simp [exit?, h, hleave]

theorem unwind?_enter (name : String) (guards : List String) (scope : Scope) :
    (scope.enter name).unwind? (name :: guards) = scope.unwind? guards := by
  rw [unwind?, exit?_enter]
  rfl

end Scope

/-- Do the steps of a list with the guards that are live, innermost first.  The
first value that is refused ends it, and so does the end of the list; then the
guards that are still live are dropped.  There is no outcome if a guard is
missing or has nothing to pop. -/
def guarded (limit : Nat) :
    List Step → List String → Translator → Option (Option Fault × Translator)
  | [], guards, t =>
    (t.scope.unwind? guards).map fun scope => (none, { t with scope := scope })
  | .visit v :: rest, guards, t =>
    match v.fault limit with
    | none => guarded limit rest guards (t.reach limit v)
    | some fault =>
      (t.scope.unwind? guards).map fun scope =>
        (some fault, { t.reach limit v with scope := scope })
  | .make head :: rest, guards, t =>
    guarded limit rest guards ((Step.make head).take limit t).2
  | .enter name :: rest, guards, t =>
    guarded limit rest (name :: guards) ((Step.enter name).take limit t).2
  | .leave name :: rest, guards, t =>
    match guards with
    | [] => none
    | guard :: guards =>
      (t.scope.exit? guard).bind fun scope =>
        guarded limit rest guards { ((Step.leave name).take limit t).2 with scope := scope }

/-! ### Steps in pairs -/

/-- The steps enter and leave scopes in pairs. -/
inductive Paired : List Step → Prop
  | nil : Paired []
  | visit (v : Visit) {steps : List Step} : Paired steps → Paired (.visit v :: steps)
  | make (head : Head) {steps : List Step} : Paired steps → Paired (.make head :: steps)
  | inside (name : String) {steps more : List Step} : Paired steps → Paired more →
      Paired (.enter name :: (steps ++ .leave name :: more))

namespace Paired

variable {steps more : List Step}

theorem append (h : Paired steps) (hmore : Paired more) : Paired (steps ++ more) := by
  induction h with
  | nil => exact hmore
  | visit v _ ih => exact ih.visit v
  | make head _ ih => exact ih.make head
  | @inside name inner outer hinner _ _ ih =>
      rw [List.cons_append, List.append_assoc, List.cons_append]
      exact hinner.inside name ih

/-- Where nothing is refused, the scope is in the end what it was. -/
theorem scope_eq (h : Paired steps) (limit : Nat) (t : Translator)
    (hok : (follow limit steps t).1 = none) : (follow limit steps t).2.scope = t.scope := by
  induction h generalizing t with
  | nil => rfl
  | visit v _ ih =>
      rw [follow, Step.take] at hok ⊢
      cases hfault : v.fault limit with
      | none =>
          rw [hfault] at hok
          exact (ih _ hok).trans (reach_scope limit v t)
      | some fault =>
          rw [hfault] at hok
          cases hok
  | make head _ ih => exact ih _ hok
  | @inside name steps more _ _ ih ihmore =>
      have henter : follow limit (.enter name :: (steps ++ .leave name :: more)) t =
          follow limit (steps ++ .leave name :: more) ((Step.enter name).take limit t).2 := rfl
      rw [henter, follow_append] at hok ⊢
      have ih := ih ((Step.enter name).take limit t).2
      generalize follow limit steps ((Step.enter name).take limit t).2 = followed at ih hok ⊢
      obtain ⟨refused, after⟩ := followed
      cases refused with
      | some fault => cases hok
      | none =>
          have hleave : after.scope.leave name = t.scope := by
            rw [ih rfl]
            exact Scope.leave_enter name t.scope
          exact (ihmore _ hok).trans hleave

/-- Steps in pairs are done with guards as they are done without.  If a value is
refused, the guards that are live before the steps are dropped as well, and
nothing is left of what the steps entered. -/
theorem guarded_append (h : Paired steps) (limit : Nat) (rest : List Step) {guards : List String}
    {t : Translator} {outer : Scope} (hguards : t.scope.unwind? guards = some outer) :
    guarded limit (steps ++ rest) guards t =
      match follow limit steps t with
      | (none, t') => guarded limit rest guards t'
      | (some fault, t') => some (some fault, { t' with scope := outer }) := by
  induction h generalizing guards t rest with
  | nil => rfl
  | visit v _ ih =>
      rw [List.cons_append, guarded, follow, Step.take]
      cases v.fault limit with
      | none =>
          refine ih rest ?_
          rw [reach_scope]
          exact hguards
      | some fault =>
          simp only [hguards]
          rfl
  | make head _ ih => exact ih rest hguards
  | @inside name steps more hsteps _ ih ihmore =>
      have hinner : (((Step.enter name).take limit t).2).scope.unwind? (name :: guards) =
          some outer := (Scope.unwind?_enter name guards t.scope).trans hguards
      have hguarded : guarded limit (.enter name :: (steps ++ .leave name :: more) ++ rest) guards t =
          guarded limit (steps ++ .leave name :: (more ++ rest)) (name :: guards)
            ((Step.enter name).take limit t).2 := by
        rw [List.cons_append, List.append_assoc, List.cons_append]
        rfl
      have henter : follow limit (.enter name :: (steps ++ .leave name :: more)) t =
          follow limit (steps ++ .leave name :: more) ((Step.enter name).take limit t).2 := rfl
      rw [hguarded, ih _ hinner, henter, follow_append]
      have hscope := hsteps.scope_eq limit ((Step.enter name).take limit t).2
      generalize follow limit steps ((Step.enter name).take limit t).2 = followed at hscope ⊢
      obtain ⟨refused, after⟩ := followed
      cases refused with
      | some fault => rfl
      | none =>
          -- The innermost guard is that of the scope around the steps.
          have hafter : after.scope = t.scope.enter name := hscope rfl
          have hexit : after.scope.exit? name = some t.scope := by
            rw [hafter, Scope.exit?_enter]
          have hleave : after.scope.leave name = t.scope := by
            rw [hafter, Scope.leave_enter]
          have hmore := @ihmore rest guards ((Step.leave name).take limit after).2
            (by rw [← hguards, ← hleave]; rfl)
          have hstate : { ((Step.leave name).take limit after).2 with scope := t.scope } =
              ((Step.leave name).take limit after).2 := by rw [← hleave]; rfl
          simp only [guarded, hexit, Option.bind_some, hstate, hmore]
          rfl

end Paired

/-! ### The course of a value -/

mutual

/-- **A course enters and leaves scopes in pairs.** -/
theorem course_paired (depth : Nat) : (value : Value) → Paired (course depth value)
  | .scalar _ | .foreign _ => by
      rw [course]
      exact .visit _ .nil
  | .list items => by
      rw [course]
      exact .visit _ (courseOfItems_paired depth items)
  | .node head fields => by
      rcases head.kind.by_rule with hkind | hkind | hkind
      · rw [course_module hkind]
        exact .visit _ (courseOfFirst_paired (depth + 1) fields)
      · have hfield (name : String) := courseOfField_paired (depth + 1) name fields
        have hbody := courseOfBody_paired (depth + 1) fields
        rw [course_function hkind]
        exact .visit _ ((hfield "decorator_list").append ((hfield "args").append
          ((hfield "returns").append (.make head (hbody.inside (nameIn fields) .nil)))))
      · rw [course_generic hkind]
        exact .visit _ (.make head (courseOfFields_paired (depth + 1) head fields))

theorem courseOfItems_paired (depth : Nat) : (items : List Value) →
    Paired (courseOfItems depth items)
  | [] => .nil
  | item :: rest => by
      rw [courseOfItems]
      exact (course_paired depth item).append (courseOfItems_paired depth rest)

theorem courseOfFields_paired (depth : Nat) (owner : Head) : (fields : List (String × Value)) →
    Paired (courseOfFields depth owner fields)
  | [] => .nil
  | (name, .foreign raw) :: rest => by
      rw [courseOfFields]
      exact .visit _ (courseOfFields_paired depth owner rest)
  | (name, .scalar _) :: rest | (name, .node _ _) :: rest | (name, .list _) :: rest => by
      simp only [courseOfFields]
      exact (course_paired depth _).append (courseOfFields_paired depth owner rest)

theorem courseOfField_paired (depth : Nat) (name : String) : (fields : List (String × Value)) →
    Paired (courseOfField depth name fields)
  | [] => .nil
  | (key, value) :: rest => by
      rw [courseOfField]
      split
      · exact course_paired depth value
      · exact courseOfField_paired depth name rest

theorem courseOfBody_paired (depth : Nat) : (fields : List (String × Value)) →
    Paired (courseOfBody depth fields)
  | [] => .nil
  | (key, .list items) :: rest => by
      simp only [courseOfBody]
      split
      · exact courseOfItems_paired depth items
      · exact courseOfBody_paired depth rest
  | (key, .scalar _) :: rest | (key, .node _ _) :: rest | (key, .foreign _) :: rest => by
      simp only [courseOfBody]
      split
      · exact .nil
      · exact courseOfBody_paired depth rest

theorem courseOfFirst_paired (depth : Nat) : (fields : List (String × Value)) →
    Paired (courseOfFirst depth fields)
  | [] => .nil
  | (key, .list (first :: _)) :: rest => by
      simp only [courseOfFirst]
      split
      · exact course_paired depth first
      · exact courseOfFirst_paired depth rest
  | (key, .list []) :: rest | (key, .scalar _) :: rest | (key, .node _ _) :: rest
  | (key, .foreign _) :: rest => by
      simp only [courseOfFirst]
      split
      · exact .nil
      · exact courseOfFirst_paired depth rest

end

/-- What a translation is refused with, and the translator after it. -/
def ended {α : Type} (run : Except Fault α × Translator) : Option Fault × Translator :=
  match run with
  | (.ok _, t) => (none, t)
  | (.error fault, t) => (some fault, t)

/-- **Every guard of a translation is dropped** and finds what it pushed: the
guarded run of the course ends, and it ends like the translation. -/
theorem guarded_value (config : Config) (depth : Nat) (value : Value) (t : Translator) :
    guarded config.maxDepth (course depth value) [] t =
      some (ended ((translateValue config depth value).runFrom t)) := by
  have hguarded := (course_paired depth value).guarded_append config.maxDepth []
    (show t.scope.unwind? [] = some t.scope from rfl)
  have hrun := follows_value config depth value t
  rw [List.append_nil] at hguarded
  rw [hguarded]
  generalize follow config.maxDepth (course depth value) t = followed at hrun ⊢
  obtain ⟨refused, after⟩ := followed
  cases refused with
  | some fault =>
      simp only at hrun
      rw [hrun]
      rfl
  | none =>
      rw [hrun.1]
      rfl

/-- Whether it succeeds or fails, a translation leaves the scope as it was. -/
theorem scope_of_value (config : Config) (depth : Nat) (value : Value) (t : Translator) :
    ((translateValue config depth value).runFrom t).2.scope = t.scope := by
  have hrun := follows_value config depth value t
  generalize follow config.maxDepth (course depth value) t = followed at hrun
  obtain ⟨refused, after⟩ := followed
  cases refused with
  | some fault =>
      simp only at hrun
      rw [hrun]
  | none =>
      rw [hrun.1]
      exact hrun.2.1

/-- A tree is translated as its value; that what comes of it is a function is
found out when all guards are dropped. -/
theorem state_of_tree (config : Config) (tree : Node) (t : Translator) :
    ((translateTree config tree).runFrom t).2 =
      ((translateValue config 0 tree.toValue).runFrom t).2 := by
  rw [translateTree, run_bind]
  generalize (translateValue config 0 tree.toValue).runFrom t = ran
  obtain ⟨outcome, after⟩ := ran
  cases outcome with
  | error fault => rfl
  | ok fragment =>
      simp only
      cases fragment.asFunction <;> rfl

/-- A translation goes through its course with guards, and none finds another name than its own. -/
theorem guarded_tree (config : Config) (tree : Node) (t : Translator) :
    ∃ refused, guarded config.maxDepth (course 0 tree.toValue) [] t =
      some (refused, ((translateTree config tree).runFrom t).2) := by
  rw [guarded_value, state_of_tree]
  generalize (translateValue config 0 tree.toValue).runFrom t = ran
  obtain ⟨outcome, after⟩ := ran
  cases outcome with
  | ok fragment => exact ⟨none, rfl⟩
  | error fault => exact ⟨some fault, rfl⟩

/-! ### Runs of a caller -/

/-- What a caller does with a scope of its own. -/
inductive Action where
  /-- Enter a scope inside the innermost live guard. -/
  | enter (name : String)
  /-- Drop the innermost live guard, if there is one. -/
  | leave
  /-- Translate a tree. -/
  | translateIn (config : Config) (tree : Node)
  /-- Translate a field value. -/
  | generate (config : Config) (value : Value)

namespace Action

/-- The guards that are live after an action, innermost first. -/
def guards (live : List String) : Action → List String
  | .enter name => name :: live
  | .leave => live.tail
  | .translateIn _ _ | .generate _ _ => live

/-- The guards that are live after some actions, innermost first. -/
def liveAfter (actions : List Action) : List String := actions.foldl guards []

end Action

namespace Session

/-- Do an action. -/
def act (session : Session) : Action → Session
  | .enter name => session.enter name
  | .leave => session.leave.getD session
  | .translateIn config tree => ({ session with config := config }.translateIn tree).2
  | .generate config value => ({ session with config := config }.generate value).2

/-- Do actions one after the other. -/
def after (session : Session) (actions : List Action) : Session := actions.foldl act session

variable {session : Session}

/-- A translation of a tree leaves the scope as it was. -/
theorem scope_translateIn (tree : Node) :
    (session.translateIn tree).2.translator.scope = session.translator.scope := by
  have hscope := scope_of_value session.config 0 tree.toValue session.translator
  rw [← state_of_tree] at hscope
  simp only [translateIn]
  generalize (translateTree session.config tree).runFrom session.translator = ran at hscope ⊢
  obtain ⟨outcome, after⟩ := ran
  cases outcome <;> exact hscope

/-- A translation of a value leaves the scope as it was. -/
theorem scope_generate (value : Value) :
    (session.generate value).2.translator.scope = session.translator.scope :=
  scope_of_value session.config 0 value session.translator

/-- A translation leaves the live guards as they were. -/
theorem live_translateIn (tree : Node) : (session.translateIn tree).2.live = session.live := by
  simp only [translateIn]
  generalize (translateTree session.config tree).runFrom session.translator = ran
  obtain ⟨outcome, after⟩ := ran
  cases outcome <;> rfl

/-- The scope of the session is held by guards: it consists of the names for
which they pushed something, and these are the guards that are live. -/
structure HeldBy (session : Session) (separator : String) (guards : List String) : Prop where
  live : session.live = guards
  scope : session.translator.scope = ⟨separator, guards.reverse.filter (· ≠ "")⟩

namespace HeldBy

variable {separator : String} {guards : List String}

/-- A new guard holds the scope with its name. -/
theorem enter (h : session.HeldBy separator guards) (name : String) :
    (session.enter name).HeldBy separator (name :: guards) := by
  refine ⟨congrArg (List.cons name) h.live, ?_⟩
  rw [Session.enter, h.scope]
  by_cases hname : name = ""
  · simp [Scope.enter, hname]
  · simp [Scope.enter, hname]

/-- The innermost guard finds what it pushed. -/
theorem exit? {name : String} (h : session.HeldBy separator (name :: guards)) :
    session.translator.scope.exit? name = some ⟨separator, guards.reverse.filter (· ≠ "")⟩ := by
  rw [h.scope]
  by_cases hname : name = ""
  · simp [Scope.exit?, hname]
  · simp [Scope.exit?, Scope.leave, hname]

/-- When the innermost guard is dropped the others hold the scope. -/
theorem leave {name : String} (h : session.HeldBy separator (name :: guards)) :
    (session.act .leave).HeldBy separator guards := by
  have hleave : session.act .leave = { session with
      translator := { session.translator with scope := session.translator.scope.leave name }
      live := guards } := by
    simp only [act, Session.leave, h.live, Option.getD_some]
  rw [hleave]
  refine ⟨rfl, ?_⟩
  simp only [h.scope]
  by_cases hname : name = ""
  · simp [Scope.leave, hname]
  · simp [Scope.leave, hname]

/-- **One action** keeps the scope held by the live guards. -/
theorem act (h : session.HeldBy separator guards) (action : Action) :
    (session.act action).HeldBy separator (action.guards guards) := by
  cases action with
  | enter name => exact h.enter name
  | leave =>
      cases guards with
      | nil =>
          have hleave : session.act .leave = session := by
            simp only [Session.act, Session.leave, h.live, Option.getD_none]
          rw [hleave]
          exact h
      | cons name guards => exact h.leave
  | translateIn config tree =>
      exact ⟨(live_translateIn tree).trans h.live, (scope_translateIn tree).trans h.scope⟩
  | generate config value => exact ⟨h.live, (scope_generate value).trans h.scope⟩

/-- So do many. -/
theorem after (h : session.HeldBy separator guards) (actions : List Action) :
    (session.after actions).HeldBy separator (actions.foldl Action.guards guards) := by
  induction actions generalizing session guards with
  | nil => exact h
  | cons action actions ih => exact ih (h.act action)

end HeldBy

end Session

/-- **Balance of scopes**: whatever a caller does, the scope consists of the
non-empty names of the live guards, outermost first, so that these are joined
in the current name and counted by the depth.  Dropping the innermost guard
finds what it pushed, which is nothing for an empty name.  A translation leaves
the scope as it was, whether it succeeds or not, and none of the guards that it
makes on the way finds the scope empty. -/
theorem scope_of_guards (config : Config) (separator : String) (actions : List Action) :
    let session := (Session.begin config separator).after actions
    let guards := Action.liveAfter actions
    let names := guards.reverse.filter (· ≠ "")
    session.translator.scope = ⟨separator, names⟩ ∧
    session.translator.scope.current = separator.intercalate names ∧
    session.translator.scope.depth = names.length ∧
    (∀ name rest, guards = name :: rest →
      session.translator.scope.exit? name = some (session.act .leave).translator.scope ∧
      (name = "" → (session.act .leave).translator.scope = session.translator.scope)) ∧
    (∀ config tree,
      (session.act (.translateIn config tree)).translator.scope = session.translator.scope ∧
      ∃ refused, guarded config.maxDepth (course 0 tree.toValue) [] session.translator =
        some (refused, ((translateTree config tree).runFrom session.translator).2)) ∧
    (∀ config value,
      (session.act (.generate config value)).translator.scope = session.translator.scope ∧
      guarded config.maxDepth (course 0 value) [] session.translator =
        some (ended ((translateValue config 0 value).runFrom session.translator))) := by
  intro session guards names
  have hbegin : (Session.begin config separator).HeldBy separator [] := ⟨rfl, rfl⟩
  have hheld : session.HeldBy separator guards := hbegin.after actions
  have hscope : session.translator.scope = ⟨separator, names⟩ := hheld.scope
  refine ⟨hscope, ?_, ?_, ?_, ?_, ?_⟩
  · rw [hscope]
    rfl
  · rw [hscope]
    rfl
  · intro name rest hguards
    rw [hguards] at hheld
    have hleft := hheld.leave.scope
    refine ⟨by rw [hheld.exit?, hleft], ?_⟩
    intro hname
    rw [hleft, hheld.scope, hname]
    simp
  · intro config tree
    exact ⟨Session.scope_translateIn tree, guarded_tree config tree session.translator⟩
  · intro config value
    exact ⟨Session.scope_generate value, guarded_value config 0 value session.translator⟩

end FunctionIR
