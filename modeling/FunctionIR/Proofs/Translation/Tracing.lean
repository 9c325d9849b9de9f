import FunctionIR.Proofs.Translation.Brackets

/-!
# What a trace hears of a translation

A translation sends two events for each function: one when the function's scope
is entered and one when its body is complete.  Where a translation succeeds, all
that it sends can be read off the fragment (`Fragment.trace`): the decorators,
the parameters and the return annotation of a function are heard before its
scope is entered, and its body is heard between the two.

Where a translation fails, what it has sent up to there begins the trace that the
fragment would have had (`rendered`), and breaks off inside some functions.  Which
ones is told by the place of the value that is refused: `sites` lists the values that
a translation looks at, each with the functions in whose bodies it lies.

`trace_of_translation` says both of every call of a session.
-/

namespace FunctionIR

/-! ### Functions of a fragment -/

namespace Fragment

mutual

/-- The trace of a fragment in a scope. -/
def trace (scope : Scope) : Fragment → List Event
  | .function head decorators arguments returns body =>
    trace scope decorators ++ (trace scope arguments ++ (trace scope returns ++
      .entered (scope.enter head.name).current ::
        (traceOfItems (scope.enter head.name) body ++
          [.completed (scope.enter head.name).current])))
  | .node _ _ fields => traceOfFields scope fields
  | .list items => traceOfItems scope items
  | .scalar _ => []

/-- The trace of several fragments. -/
def traceOfItems (scope : Scope) : List Fragment → List Event
  | [] => []
  | item :: rest => trace scope item ++ traceOfItems scope rest

/-- The trace of named fragments. -/
def traceOfFields (scope : Scope) : List (String × Fragment) → List Event
  | [] => []
  | (_, value) :: rest => trace scope value ++ traceOfFields scope rest

end

mutual

/-- How many functions a fragment has, wherever they are. -/
def functionCount : Fragment → Nat
  | .function _ decorators arguments returns body =>
    functionCount decorators + functionCount arguments + functionCount returns +
      functionCountOfItems body + 1
  | .node _ _ fields => functionCountOfFields fields
  | .list items => functionCountOfItems items
  | .scalar _ => 0

/-- How many functions several fragments have. -/
def functionCountOfItems : List Fragment → Nat
  | [] => 0
  | item :: rest => functionCount item + functionCountOfItems rest

/-- How many functions named fragments have. -/
def functionCountOfFields : List (String × Fragment) → Nat
  | [] => 0
  | (_, value) :: rest => functionCount value + functionCountOfFields rest

end

/-- Of the two events of a function, the one that is counted. -/
def CountsOne (p : Event → Bool) : Prop :=
  ∀ name, (if p (.entered name) then 1 else 0) + (if p (.completed name) then 1 else 0) = 1

mutual

/-- For every function, one event of each sort is in the trace. -/
theorem countP_trace {p : Event → Bool} (hp : CountsOne p) (scope : Scope) :
    (fragment : Fragment) → (fragment.trace scope).countP p = fragment.functionCount
  | .function head decorators arguments returns body => by
      have hpair := hp (scope.enter head.name).current
      simp only [trace, functionCount, List.countP_append, List.countP_cons, List.countP_nil,
        countP_trace hp scope decorators, countP_trace hp scope arguments,
        countP_trace hp scope returns, countP_traceOfItems hp (scope.enter head.name) body]
      omega
  | .node _ _ fields => by
      rw [trace, functionCount]
      exact countP_traceOfFields hp scope fields
  | .list items => by
      rw [trace, functionCount]
      exact countP_traceOfItems hp scope items
  | .scalar _ => rfl

theorem countP_traceOfItems {p : Event → Bool} (hp : CountsOne p) (scope : Scope) :
    (items : List Fragment) → (traceOfItems scope items).countP p = functionCountOfItems items
  | [] => rfl
  | item :: rest => by
      rw [traceOfItems, functionCountOfItems, List.countP_append, countP_trace hp scope item,
        countP_traceOfItems hp scope rest]

theorem countP_traceOfFields {p : Event → Bool} (hp : CountsOne p) (scope : Scope) :
    (fields : List (String × Fragment)) →
    (traceOfFields scope fields).countP p = functionCountOfFields fields
  | [] => rfl
  | (name, value) :: rest => by
      rw [traceOfFields, functionCountOfFields, List.countP_append, countP_trace hp scope value,
        countP_traceOfFields hp scope rest]

end

end Fragment

/-! ### The trace of a rendered fragment -/

mutual

/-- **The course of a value sends the trace of its fragment.** -/
theorem signals_course (depth : Nat) (scope : Scope) (id : Nat) : (value : Value) →
    signals scope (course depth value) = (rendered scope id value).1.trace scope
  | .scalar _ | .foreign _ => by
      rw [course, rendered]
      rfl
  | .list items => by
      rw [course, rendered]
      exact signals_courseOfItems depth scope id items
  | .node head fields => by
      rcases head.kind.by_rule with hkind | hkind | hkind
      · rw [course_module hkind, rendered_module hkind]
        exact signals_courseOfFirst (depth + 1) scope id fields
      · have hfield (name : String) := courseOfField_paired (depth + 1) name fields
        have hbody := courseOfBody_paired (depth + 1) fields
        rw [course_function hkind, rendered_function hkind]
        simp only [signals, (hfield _).signals_append, hbody.signals_append, List.cons_append,
          List.nil_append, Fragment.trace]
        rw [signals_courseOfField _ scope id "decorator_list" (.list []) rfl fields,
          signals_courseOfField _ scope _ "args" (.scalar .none) rfl fields,
          signals_courseOfField _ scope _ "returns" (.scalar .none) rfl fields,
          signals_courseOfBody _ (scope.enter (nameIn fields)) _ fields]
        rfl
      · rw [course_generic hkind, rendered_generic hkind]
        exact signals_courseOfFields (depth + 1) scope (id + 1) head fields

theorem signals_courseOfItems (depth : Nat) (scope : Scope) (id : Nat) : (items : List Value) →
    signals scope (courseOfItems depth items) =
      Fragment.traceOfItems scope (renderedItems scope id items).1
  | [] => rfl
  | item :: rest => by
      rw [courseOfItems, renderedItems, (course_paired depth item).signals_append,
        signals_course depth scope id item, signals_courseOfItems depth scope _ rest]
      rfl

theorem signals_courseOfFields (depth : Nat) (scope : Scope) (id : Nat) (owner : Head) :
    (fields : List (String × Value)) →
    signals scope (courseOfFields depth owner fields) =
      Fragment.traceOfFields scope (renderedFields scope id fields).1
  | [] => rfl
  | (name, .foreign raw) :: rest => by
      rw [courseOfFields, renderedFields]
      exact signals_courseOfFields depth scope id owner rest
  | (name, .scalar _) :: rest | (name, .node _ _) :: rest | (name, .list _) :: rest => by
      simp only [courseOfFields, renderedFields]
      rw [(course_paired depth _).signals_append, signals_course depth scope id _,
        signals_courseOfFields depth scope _ owner rest]
      rfl

theorem signals_courseOfField (depth : Nat) (scope : Scope) (id : Nat) (name : String)
    (absent : Fragment) (habsent : absent.trace scope = []) : (fields : List (String × Value)) →
    signals scope (courseOfField depth name fields) =
      (renderedField scope id name absent fields).1.trace scope
  | [] => habsent.symm
  | (key, value) :: rest => by
      rw [courseOfField, renderedField]
      split
      · exact signals_course depth scope id value
      · exact signals_courseOfField depth scope id name absent habsent rest

theorem signals_courseOfBody (depth : Nat) (scope : Scope) (id : Nat) :
    (fields : List (String × Value)) →
    signals scope (courseOfBody depth fields) =
      Fragment.traceOfItems scope (renderedBody scope id fields).1
  | [] => rfl
  | (key, .list items) :: rest => by
      simp only [courseOfBody, renderedBody]
      split
      · exact signals_courseOfItems depth scope id items
      · exact signals_courseOfBody depth scope id rest
  | (key, .scalar _) :: rest | (key, .node _ _) :: rest | (key, .foreign _) :: rest => by
      simp only [courseOfBody, renderedBody]
      split
      · rfl
      · exact signals_courseOfBody depth scope id rest

theorem signals_courseOfFirst (depth : Nat) (scope : Scope) (id : Nat) :
    (fields : List (String × Value)) →
    signals scope (courseOfFirst depth fields) =
      (renderedFirst scope id fields).1.trace scope
  | [] => rfl
  | (key, .list (first :: _)) :: rest => by
      simp only [courseOfFirst, renderedFirst]
      split
      · exact signals_course depth scope id first
      · exact signals_courseOfFirst depth scope id rest
  | (key, .list []) :: rest | (key, .scalar _) :: rest | (key, .node _ _) :: rest
  | (key, .foreign _) :: rest => by
      simp only [courseOfFirst, renderedFirst]
      split
      · rfl
      · exact signals_courseOfFirst depth scope id rest

end

/-! ### The places of values -/

mutual

/-- The values that a translation looks at, each with the functions in whose
bodies it lies. -/
def sites (depth : Nat) : Value → List Site
  | .scalar s => [⟨⟨depth, none, .scalar s⟩, []⟩]
  | .list items => ⟨⟨depth, none, .list items⟩, []⟩ :: sitesOfItems depth items
  | .foreign raw => [⟨⟨depth, none, .foreign raw⟩, []⟩]
  | .node head fields =>
    ⟨⟨depth, none, .node head fields⟩, []⟩ ::
      match head.kind with
      | .module => sitesOfFirst (depth + 1) fields
      | .functionDef =>
        sitesOfField (depth + 1) "decorator_list" fields ++
          (sitesOfField (depth + 1) "args" fields ++
            (sitesOfField (depth + 1) "returns" fields ++
              (sitesOfBody (depth + 1) fields).map (Site.inside (nameIn fields))))
      | _ => sitesOfFields (depth + 1) head fields

/-- The sites of values one after the other. -/
def sitesOfItems (depth : Nat) : List Value → List Site
  | [] => []
  | item :: rest => sites depth item ++ sitesOfItems depth rest

/-- The sites of the fields of a generic node. -/
def sitesOfFields (depth : Nat) (owner : Head) : List (String × Value) → List Site
  | [] => []
  | (name, .foreign raw) :: rest =>
    ⟨⟨depth, some (owner, name), .foreign raw⟩, []⟩ :: sitesOfFields depth owner rest
  | (_, value) :: rest => sites depth value ++ sitesOfFields depth owner rest

/-- The sites of the field of a name, if there is one. -/
def sitesOfField (depth : Nat) (name : String) : List (String × Value) → List Site
  | [] => []
  | (key, value) :: rest =>
    if key = name then sites depth value else sitesOfField depth name rest

/-- The sites of the statements in the body of a function. -/
def sitesOfBody (depth : Nat) : List (String × Value) → List Site
  | [] => []
  | (key, value) :: rest =>
    if key = "body" then
      match value with
      | .list items => sitesOfItems depth items
      | _ => []
    else sitesOfBody depth rest

/-- The sites of the first statement of a module. -/
def sitesOfFirst (depth : Nat) : List (String × Value) → List Site
  | [] => []
  | (key, value) :: rest =>
    if key = "body" then
      match value with
      | .list (first :: _) => sites depth first
      | _ => []
    else sitesOfFirst depth rest

end

mutual

/-- **The sites of a value** are those that its course looks at. -/
theorem located_course (depth : Nat) : (value : Value) →
    located [] (course depth value) = sites depth value
  | .scalar _ | .foreign _ => by
      rw [course, sites]
      rfl
  | .list items => by
      rw [course, sites, located, located_courseOfItems depth items]
  | .node head fields => by
      rw [sites]
      rcases head.kind.by_rule with hkind | hkind | hkind
      · rw [course_module hkind, hkind, located, located_courseOfFirst (depth + 1) fields]
      · have hfield (name : String) := courseOfField_paired (depth + 1) name fields
        have hbody := courseOfBody_paired (depth + 1) fields
        rw [course_function hkind, hkind]
        simp only [located, (hfield _).located_append, hbody.located_append, List.cons_append,
          List.nil_append, List.append_nil, hbody.located_cons,
          located_courseOfField (depth + 1) _ fields, located_courseOfBody (depth + 1) fields]
      · rw [course_generic hkind, located, located,
          located_courseOfFields (depth + 1) head fields]
        split
        · exact absurd ‹_› hkind.1
        · exact absurd ‹_› hkind.2
        · rfl

theorem located_courseOfItems (depth : Nat) : (items : List Value) →
    located [] (courseOfItems depth items) = sitesOfItems depth items
  | [] => rfl
  | item :: rest => by
      rw [courseOfItems, sitesOfItems, (course_paired depth item).located_append,
        located_course depth item, located_courseOfItems depth rest]

theorem located_courseOfFields (depth : Nat) (owner : Head) :
    (fields : List (String × Value)) →
    located [] (courseOfFields depth owner fields) = sitesOfFields depth owner fields
  | [] => rfl
  | (name, .foreign raw) :: rest => by
      rw [courseOfFields, sitesOfFields, located, located_courseOfFields depth owner rest]
  | (name, .scalar _) :: rest | (name, .node _ _) :: rest | (name, .list _) :: rest => by
      simp only [courseOfFields, sitesOfFields]
      rw [(course_paired depth _).located_append, located_course depth _,
        located_courseOfFields depth owner rest]

theorem located_courseOfField (depth : Nat) (name : String) : (fields : List (String × Value)) →
    located [] (courseOfField depth name fields) = sitesOfField depth name fields
  | [] => rfl
  | (key, value) :: rest => by
      rw [courseOfField, sitesOfField]
      split
      · exact located_course depth value
      · exact located_courseOfField depth name rest

theorem located_courseOfBody (depth : Nat) : (fields : List (String × Value)) →
    located [] (courseOfBody depth fields) = sitesOfBody depth fields
  | [] => rfl
  | (key, .list items) :: rest => by
      simp only [courseOfBody, sitesOfBody]
      split
      · exact located_courseOfItems depth items
      · exact located_courseOfBody depth rest
  | (key, .scalar _) :: rest | (key, .node _ _) :: rest | (key, .foreign _) :: rest => by
      simp only [courseOfBody, sitesOfBody]
      split
      · rfl
      · exact located_courseOfBody depth rest

theorem located_courseOfFirst (depth : Nat) : (fields : List (String × Value)) →
    located [] (courseOfFirst depth fields) = sitesOfFirst depth fields
  | [] => rfl
  | (key, .list (first :: _)) :: rest => by
      simp only [courseOfFirst, sitesOfFirst]
      split
      · exact located_course depth first
      · exact located_courseOfFirst depth rest
  | (key, .list []) :: rest | (key, .scalar _) :: rest | (key, .node _ _) :: rest
  | (key, .foreign _) :: rest => by
      simp only [courseOfFirst, sitesOfFirst]
      split
      · rfl
      · exact located_courseOfFirst depth rest

end

/-! ### Calls of a session -/

/-- The event is that a scope is entered. -/
def Event.isEntered : Event → Bool
  | .entered _ => true
  | _ => false

/-- The event is that a scope is complete. -/
def Event.isCompleted : Event → Bool
  | .completed _ => true
  | _ => false

/-- The events tell of a whole fragment: they are its trace, they are well
bracketed, and there is one pair of them for each function. -/
structure Tells (scope : Scope) (fragment : Fragment) (events : List Event) : Prop where
  trace : events = fragment.trace scope
  wellBracketed : WellBracketed events
  entered : events.countP Event.isEntered = fragment.functionCount
  completed : events.countP Event.isCompleted = fragment.functionCount

/-- The events break off inside functions of these names, the outermost first: they
begin what is told of the whole fragment, and the scopes of these functions are left
open, and no other. -/
structure BreaksOff (scope : Scope) (fragment : Fragment) (names : List String)
    (events : List Event) : Prop where
  begins : ∃ rest, Tells scope fragment (events ++ rest)
  unclosed : unclosed [] events = some (scope.openings names).reverse

/-- The first value that is refused in a translation, if one is. -/
def refusal (limit : Nat) (value : Value) : Option Site :=
  (sites 0 value).find? (Site.isRefused limit)

/-- What the course of a value sends tells of its fragment. -/
theorem tells_signals (scope : Scope) (id : Nat) (value : Value) :
    Tells scope (rendered scope id value).1 (signals scope (course 0 value)) := by
  have htrace := signals_course 0 scope id value
  refine ⟨htrace, (course_paired 0 value).unclosed_signals scope [], ?_, ?_⟩
  · rw [htrace]
    exact Fragment.countP_trace (fun _ => rfl) scope _
  · rw [htrace]
    exact Fragment.countP_trace (fun _ => rfl) scope _

/-- What is sent while the course of a value is followed: where a value is
refused, the trace breaks off inside the functions around it. -/
theorem tells_or_breaksOff (limit : Nat) (value : Value) (t : Translator) :
    ∃ sent, (follow limit (course 0 value) t).2.events = t.events ++ sent ∧
      match (follow limit (course 0 value) t).1 with
      | none => refusal limit value = none ∧
          Tells t.scope (rendered t.scope t.nextId value).1 (heard sent)
      | some fault => ∃ site, refusal limit value = some site ∧
          site.visit.fault limit = some fault ∧
          BreaksOff t.scope (rendered t.scope t.nextId value).1 site.names (heard sent) := by
  obtain ⟨sent, hsent, hfound⟩ := (course_paired 0 value).sends
    (rfl : follow limit (course 0 value) t = _)
  have htells := tells_signals t.scope t.nextId value
  rw [located_course, ← refusal] at hfound
  refine ⟨sent, hsent, ?_⟩
  cases hrefusal : refusal limit value with
  | none =>
      rw [hrefusal] at hfound
      obtain ⟨hnone, hheard⟩ := hfound
      rw [hnone, hheard]
      exact ⟨rfl, htells⟩
  | some site =>
      rw [hrefusal] at hfound
      obtain ⟨hfault, ⟨rest, hrest⟩, hopen⟩ := hfound
      have hsite : site.isRefused limit = true := List.find?_some hrefusal
      obtain ⟨fault, hsome⟩ := Option.isSome_iff_exists.mp hsite
      rw [← hrest] at htells
      rw [hfault, hsome]
      exact ⟨site, rfl, hsome, ⟨rest, htells⟩, hopen⟩

/-- **The trace of a translation**: what a call of a session sends.  If it
succeeds, this is the trace of the fragment that it returns: every function's
scope is entered after its decorators, its parameters and its return annotation
are heard and completed after its body is, by the same name.  If a value is
refused, the trace that the fragment would have had breaks off inside the functions
in whose bodies that value lies; and if only the root is refused, for being no
function, the trace is that of a whole fragment. -/
theorem trace_of_translation (session : Session) :
    (∀ tree, ∃ sent,
      (session.translateIn tree).2.translator.events = session.translator.events ++ sent ∧
      match (session.translateIn tree).1 with
      | .ok function => Tells session.translator.scope function.toFragment (heard sent)
      | .error fault =>
        match refusal session.config.maxDepth tree.toValue with
        | some site => site.visit.fault session.config.maxDepth = some fault ∧
            BreaksOff session.translator.scope
              (rendered session.translator.scope session.translator.nextId tree.toValue).1
              site.names (heard sent)
        | none => (∃ found, fault = malformed (.rootNotFunction found) tree.head) ∧
            Tells session.translator.scope
              (rendered session.translator.scope session.translator.nextId tree.toValue).1
              (heard sent)) ∧
    (∀ value, ∃ sent,
      (session.generate value).2.translator.events = session.translator.events ++ sent ∧
      match (session.generate value).1 with
      | .ok fragment => Tells session.translator.scope fragment (heard sent)
      | .error fault => ∃ site, refusal session.config.maxDepth value = some site ∧
          site.visit.fault session.config.maxDepth = some fault ∧
          BreaksOff session.translator.scope
            (rendered session.translator.scope session.translator.nextId value).1
            site.names (heard sent)) := by
  constructor
  · intro tree
    have hrun := run_translateTree session.config tree session.translator
    obtain ⟨sent, hsent, hfound⟩ :=
      tells_or_breaksOff session.config.maxDepth tree.toValue session.translator
    generalize follow session.config.maxDepth (course 0 tree.toValue)
      session.translator = followed at hrun hsent hfound
    obtain ⟨refused, after⟩ := followed
    rw [Session.translateIn]
    cases refused with
    | some fault =>
        obtain ⟨site, hsite, hfault, hbreaks⟩ := hfound
        simp only at hrun
        simp only [hrun, hsite]
        exact ⟨sent, hsent, hfault, hbreaks⟩
    | none =>
        obtain ⟨hrefusal, htells⟩ := hfound
        simp only at hrun
        cases hfunction : (rendered session.translator.scope session.translator.nextId
            tree.toValue).1.asFunction with
        | some function =>
            rw [hfunction] at hrun
            rw [asFunction_eq_some.mp hfunction] at htells
            refine ⟨sent ++ [.registered function.head.name function.head.id], ?_, ?_⟩
            · simp only [hrun, Session.register, Session.record]
              rw [← List.append_assoc, ← hsent]
            · simp only [hrun]
              rw [heard_append]
              simpa [heard, Event.isSent, Event.trace?] using htells
        | none =>
            rw [hfunction] at hrun
            simp only [hrun, hrefusal]
            -- The whole trace was sent before the outcome was looked at.
            exact ⟨sent, hsent, ⟨_, rfl⟩, htells⟩
  · intro value
    have hrun := follows_value session.config 0 value session.translator
    obtain ⟨sent, hsent, hfound⟩ :=
      tells_or_breaksOff session.config.maxDepth value session.translator
    generalize follow session.config.maxDepth (course 0 value) session.translator = followed
      at hrun hsent hfound
    obtain ⟨refused, after⟩ := followed
    rw [Session.generate]
    cases refused with
    | some fault =>
        simp only at hrun
        simp only [hrun]
        exact ⟨sent, hsent, hfound⟩
    | none =>
        simp only [hrun.1]
        exact ⟨sent, hsent, hfound.2⟩

/-- A function in a function.  If its body is too deep, both scopes are left open. -/
theorem trace_of_translation_nested :
    let source := Source.ofText "m" "def f():\n    def g():\n        return a\n" .program
    let session := Session.begin .standard "_"
    let shallow := Session.begin { Config.standard with maxDepth := 3 } "_"
    ∃ tree function site, (source.tree.runFrom 1).1 = .ok tree ∧
      (session.translateIn tree).1 = .ok function ∧ function.toFragment.functionCount = 2 ∧
      refusal 3 tree.toValue = some site ∧ site.names = ["f", "g"] ∧
      (∃ sent, (session.translateIn tree).2.translator.events =
          session.translator.events ++ sent ∧
        Tells session.translator.scope function.toFragment (heard sent)) ∧
      ∃ sent, (shallow.translateIn tree).2.translator.events =
          shallow.translator.events ++ sent ∧
        BreaksOff shallow.translator.scope
          (rendered shallow.translator.scope shallow.translator.nextId tree.toValue).1
          ["f", "g"] (heard sent) := by
  intro source session shallow
  obtain ⟨tree, hread, ⟨function, hok, hcount⟩, hfails, hrefusal⟩ :
      ∃ tree, (source.tree.runFrom 1).1 = .ok tree ∧
        (∃ function, (session.translateIn tree).1 = .ok function ∧
          function.toFragment.functionCount = 2) ∧
        (shallow.translateIn tree).1.toOption.isNone = true ∧
        (refusal 3 tree.toValue).map Site.names = some ["f", "g"] := by
    decide +kernel
  obtain ⟨site, hsite, hnames⟩ := Option.map_eq_some_iff.mp hrefusal
  obtain ⟨sent, hsent, htells⟩ := (trace_of_translation session).1 tree
  obtain ⟨sent', hsent', hbreaks⟩ := (trace_of_translation shallow).1 tree
  rw [hok] at htells
  refine ⟨tree, function, site, hread, hok, hcount, hsite, hnames, ⟨sent, hsent, htells⟩,
    sent', hsent', ?_⟩
  cases hfault : (shallow.translateIn tree).1 with
  | ok found =>
      rw [hfault] at hfails
      cases hfails
  | error fault =>
      rw [hfault] at hbreaks
      simp only [show shallow.config.maxDepth = 3 from rfl, hsite, hnames] at hbreaks
      exact hbreaks.2

end FunctionIR
